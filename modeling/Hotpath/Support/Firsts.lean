import Mathlib

/-!
# The first values of a sequence

What comes next in a list that is known to be the beginning of a sequence.
-/

namespace Hotpath.Support

variable {α : Type*} {f : ℕ → α} {i j n : ℕ} {x : α}

/-- The first `n` values of `f`. -/
def firsts (f : ℕ → α) (n : ℕ) : List α := (List.range n).map f

theorem firsts_length (f : ℕ → α) (n : ℕ) : (firsts f n).length = n := by
  rw [firsts, List.length_map, List.length_range]

theorem firsts_succ (f : ℕ → α) (n : ℕ) : firsts f (n + 1) = firsts f n ++ [f n] := by
  rw [firsts, List.range_succ, List.map_append]
  rfl

theorem firsts_mono (h : i ≤ j) : firsts f i <+: firsts f j := by
  induction j, h using Nat.le_induction with
  | base => exact List.prefix_rfl
  | succ j _ ih =>
    rw [firsts_succ]
    exact ih.trans (List.prefix_append ..)

/-- What comes after the first `i` values is value `i`. -/
theorem firsts_next (h : firsts f i ++ [x] <+: firsts f n) : i < n ∧ x = f i := by
  have hlen := h.length_le
  rw [List.length_append, firsts_length, firsts_length, List.length_singleton] at hlen
  have hpre : firsts f (i + 1) <+: firsts f n := firsts_mono hlen
  have hsame : (firsts f i ++ [x]).length = (firsts f (i + 1)).length := by
    rw [firsts_succ, List.length_append, List.length_append]
    rfl
  have heq := (List.prefix_of_prefix_length_le h hpre hsame.le).eq_of_length hsame
  rw [firsts_succ] at heq
  exact ⟨hlen, List.singleton_inj.mp (List.append_cancel_left heq)⟩

end Hotpath.Support
