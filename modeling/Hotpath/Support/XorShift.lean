import Mathlib

/-!
# Xor with an own shift

A word that is not zero does not become zero when a shift of itself is xored into it, which
is why a generator made of such steps never comes to zero.
-/

namespace Hotpath.Support

variable {s : UInt64} {k : ℕ}

theorem xor_shiftLeft_ne_zero (h : s ≠ 0) (hk : 0 < k) (hlt : k < 64) :
    s ^^^ (s <<< UInt64.ofNat k) ≠ 0 := by
  intro hzero
  have heq := congrArg UInt64.toNat (UInt64.xor_eq_zero_iff.mp hzero)
  have hshift : k % 2 ^ 64 % 64 = k := by omega
  rw [UInt64.toNat_shiftLeft, UInt64.toNat_ofNat', hshift, Nat.shiftLeft_eq] at heq
  -- `s` and its shift agree modulo the word, and they differ by an odd multiple of `s`
  have hle : s.toNat ≤ s.toNat * 2 ^ k := Nat.le_mul_of_pos_right _ (Nat.two_pow_pos k)
  have hmod : s.toNat ≡ s.toNat * 2 ^ k [MOD 2 ^ 64] := by
    rw [Nat.ModEq, ← heq, Nat.mod_eq_of_lt s.toNat_lt]
  have hdvd := (Nat.modEq_iff_dvd' hle).mp hmod
  have hfactor : s.toNat * 2 ^ k - s.toNat = s.toNat * (2 ^ k - 1) := by
    rw [Nat.mul_sub, Nat.mul_one]
  have hodd : Nat.Coprime (2 ^ 64) (2 ^ k - 1) := by
    apply Nat.Coprime.pow_left
    rw [Nat.coprime_two_left]
    exact Nat.Even.sub_odd Nat.one_le_two_pow (Nat.even_pow.mpr ⟨even_two, hk.ne'⟩) odd_one
  rw [hfactor] at hdvd
  have hzero := Nat.eq_zero_of_dvd_of_lt (hodd.dvd_of_dvd_mul_right hdvd) s.toNat_lt
  exact h (UInt64.toNat_inj.mp hzero)

theorem xor_shiftRight_ne_zero (h : s ≠ 0) (hk : 0 < k) (hlt : k < 64) :
    s ^^^ (s >>> UInt64.ofNat k) ≠ 0 := by
  intro hzero
  have heq := congrArg UInt64.toNat (UInt64.xor_eq_zero_iff.mp hzero)
  have hshift : k % 2 ^ 64 % 64 = k := by omega
  rw [UInt64.toNat_shiftRight, UInt64.toNat_ofNat', hshift, Nat.shiftRight_eq_div_pow] at heq
  have hpos : 0 < s.toNat := Nat.pos_of_ne_zero fun hzero => h (UInt64.toNat_inj.mp hzero)
  have hless := Nat.div_lt_self hpos (Nat.one_lt_two_pow hk.ne')
  omega

end Hotpath.Support
