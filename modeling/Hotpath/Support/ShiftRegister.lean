import Hotpath.Support.BigEndian

/-!
# Byte-wide shift registers

A register of `n + 8` bits that takes one byte at a time at its low end. After
some bytes its low bits spell them, whatever it held before; once it is full it
holds nothing else.
-/

namespace Hotpath.Support

/-- `{acc[n-1:0], b}`. -/
def shiftIn {n : ℕ} (acc : BitVec (n + 8)) (b : UInt8) : BitVec (n + 8) :=
  acc.extractLsb' 0 n ++ b.toBitVec

/-- The low bytes of the register are these. -/
def Captured {w : ℕ} (acc : BitVec w) (bytes : List UInt8) : Prop :=
  acc.toNat % 256 ^ bytes.length = bigEndian bytes

variable {n : ℕ} {acc : BitVec (n + 8)} {b : UInt8} {bytes : List UInt8}

theorem Captured.nil {w : ℕ} (acc : BitVec w) : Captured acc [] := Nat.mod_one _

theorem shiftIn_toNat (acc : BitVec (n + 8)) (b : UInt8) :
    (shiftIn acc b).toNat = 256 * (acc.toNat % 2 ^ n) + b.toNat := by
  have hlt : b.toBitVec.toNat < 2 ^ 8 := b.toBitVec.isLt
  rw [shiftIn, BitVec.toNat_append, ← Nat.shiftLeft_add_eq_or_of_lt hlt, Nat.shiftLeft_eq,
    BitVec.extractLsb'_toNat, Nat.shiftRight_zero]
  show acc.toNat % 2 ^ n * 2 ^ 8 + b.toNat = _
  omega

/-- One more byte, while there is room for it. -/
theorem Captured.push (h : Captured acc bytes) (hroom : 8 * bytes.length ≤ n) :
    Captured (shiftIn acc b) (bytes ++ [b]) := by
  have hpow : 2 ^ n = 256 ^ bytes.length * 2 ^ (n - 8 * bytes.length) := by
    have h256 : (256 : ℕ) = 2 ^ 8 := by norm_num
    rw [h256, ← pow_mul, ← pow_add]
    congr 1
    omega
  have hb : b.toNat < 256 := UInt8.toNat_lt b
  unfold Captured at h ⊢
  rw [shiftIn_toNat, bigEndian_snoc, List.length_append, List.length_singleton, pow_succ,
    Nat.mul_comm (256 ^ bytes.length) 256, Nat.mod_mul]
  have hdiv : (256 * (acc.toNat % 2 ^ n) + b.toNat) / 256 = acc.toNat % 2 ^ n := by omega
  have hmod : (256 * (acc.toNat % 2 ^ n) + b.toNat) % 256 = b.toNat := by omega
  rw [hdiv, hmod, hpow, Nat.mod_mul_right_mod, h, Nat.add_comm]

/-- A full register. -/
theorem Captured.full {w : ℕ} {acc : BitVec w} (h : Captured acc bytes)
    (hlen : 8 * bytes.length = w) : acc.toNat = bigEndian bytes := by
  have hlt : acc.toNat < 256 ^ bytes.length := by
    have h256 : (256 : ℕ) = 2 ^ 8 := by norm_num
    rw [h256, ← pow_mul, hlen]
    exact acc.isLt
  rw [← h, Nat.mod_eq_of_lt hlt]

/-- A register that shifts while the element count is inside a window holds the
bytes of that window. -/
theorem Captured.window {got : List UInt8} {off size : ℕ} {acc' : BitVec (n + 8)}
    (h : Captured acc (window got off size)) (hsize : 8 * size = n + 8)
    (hin : off ≤ got.length → got.length < off + size → acc' = shiftIn acc b)
    (hout : got.length < off ∨ off + size ≤ got.length → acc' = acc) :
    Captured acc' (Support.window (got ++ [b]) off size) := by
  by_cases hc : off ≤ got.length ∧ got.length < off + size
  · rw [window_snoc_in hc.1 hc.2, hin hc.1 hc.2]
    apply h.push
    rw [window_length]
    omega
  · have hc' : got.length < off ∨ off + size ≤ got.length := by omega
    rw [window_snoc_out hc', hout hc']
    exact h

end Hotpath.Support
