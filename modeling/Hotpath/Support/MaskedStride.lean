import Mathlib

/-!
# Masked multiples of a stride

The multiples of a stride modulo `m`, over the numbers whose bits lie within a mask:
where none of them is as large as half of `m`, the greatest is the sum over the mask's
bits.
-/

namespace Hotpath.Support

variable {m stride mask bound j k : ℕ}

theorem mod_two_pow_succ (j k : ℕ) :
    j % 2 ^ (k + 1) = j % 2 ^ k + if j.testBit k then 2 ^ k else 0 := by
  rw [Nat.mod_pow_succ, ← Nat.toNat_testBit]
  cases j.testBit k <;> simp

/-- The sum over the lowest `k` bits of the mask. -/
def reach (m stride mask : ℕ) : ℕ → ℕ
  | 0 => 0
  | k + 1 => reach m stride mask k + if mask.testBit k then 2 ^ k * stride % m else 0

/-- Every bit of `j` is a bit of the mask. -/
def Within (j mask : ℕ) : Prop := ∀ k, j.testBit k = true → mask.testBit k = true

theorem within_and (j mask : ℕ) : Within (j &&& mask) mask := by
  intro k hk
  rw [Nat.testBit_and, Bool.and_eq_true] at hk
  exact hk.2

theorem and_of_within (h : Within j mask) : j &&& mask = j := by
  apply Nat.eq_of_testBit_eq
  intro k
  rw [Nat.testBit_and]
  cases hk : j.testBit k with
  | false => rfl
  | true => exact h k hk

theorem within_mod (mask k : ℕ) : Within (mask % 2 ^ k) mask := by
  intro i hi
  rw [Nat.testBit_mod_two_pow, Bool.and_eq_true] at hi
  exact hi.2

theorem within_bit (h : mask.testBit k = true) : Within (2 ^ k) mask := by
  intro i hi
  rw [Nat.testBit_two_pow, decide_eq_true_eq] at hi
  exact hi ▸ h

/-- No multiple goes beyond the sum. -/
theorem masked_le (h : Within j mask) (k : ℕ) :
    j % 2 ^ k * stride % m ≤ reach m stride mask k := by
  induction k with
  | zero => simp [Nat.mod_one]
  | succ k ih =>
    rw [mod_two_pow_succ, reach]
    cases hbit : j.testBit k with
    | false =>
      rw [if_neg Bool.false_ne_true, Nat.add_zero]
      exact ih.trans (Nat.le_add_right _ _)
    | true =>
      rw [if_pos rfl, if_pos (h k hbit), Nat.add_mul, Nat.add_mod]
      exact (Nat.mod_le _ _).trans (Nat.add_le_add_right ih _)

/-- Where all of them are small, the sum over the bits of the mask does not wrap. -/
theorem masked_reach (h : ∀ j, Within j mask → j * stride % m ≤ bound) (hbound : 2 * bound < m)
    (k : ℕ) : mask % 2 ^ k * stride % m = reach m stride mask k := by
  induction k with
  | zero => simp [Nat.mod_one, reach]
  | succ k ih =>
    rw [mod_two_pow_succ, reach]
    cases hbit : mask.testBit k with
    | false => rw [if_neg Bool.false_ne_true, Nat.add_zero, ih]; rfl
    | true =>
      have hlow := h _ (within_mod mask k)
      have hhigh := h _ (within_bit hbit)
      rw [if_pos rfl, if_pos rfl, Nat.add_mul, Nat.add_mod, Nat.mod_eq_of_lt (by omega), ih]

end Hotpath.Support
