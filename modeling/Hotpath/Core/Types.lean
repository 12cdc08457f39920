import Mathlib

/-!
# Shared value types (core/types.hpp)

The fixed-width integers of the source are Lean's own, so their arithmetic
wraps where the source's does.
-/

namespace Hotpath

abbrev Price := UInt32
abbrev Qty := UInt32
abbrev OrderId := UInt64
/-- Nanoseconds since midnight. -/
abbrev Ts := UInt64

def kInvalidPrice : Price := 0

inductive Side where
  | buy
  | sell
  deriving DecidableEq, Repr

/-- `static_cast<std::int32_t>` of a pool index: indices from `2^31` on wrap. -/
def int32 (n : ℕ) : ℤ :=
  if n % 2 ^ 32 < 2 ^ 31 then (n % 2 ^ 32 : ℕ) else (n % 2 ^ 32 : ℕ) - 2 ^ 32

theorem int32_of_lt {n : ℕ} (h : n < 2 ^ 31) : int32 n = n := by
  have hm : n % 2 ^ 32 = n := Nat.mod_eq_of_lt (by omega)
  simp only [int32, hm, h, if_true]

/-- The casts of indices from `2^31` up to `2^32` are negative. -/
theorem int32_neg {n : ℕ} (h : 2 ^ 31 ≤ n) (h' : n < 2 ^ 32) : int32 n < 0 := by
  have hm : n % 2 ^ 32 = n := Nat.mod_eq_of_lt h'
  simp only [int32, hm, Nat.not_lt.mpr h, if_false]
  omega

end Hotpath
