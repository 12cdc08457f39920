import Mathlib

/-!
# Ranks in a sorted list

The elements of a sorted list with a property that passes to smaller elements are its
first ones, so what stands at a rank is told by counting.
-/

namespace Hotpath.Support

variable {α : Type} [LinearOrder α] {l : List α} {i : ℕ} {x d : α} {p : α → Bool}

theorem rank_lt_count (hp : ∀ x y, x ≤ y → p y = true → p x = true)
    (hsorted : l.Pairwise (· ≤ ·)) (hx : l[i]? = some x) : p x = true ↔ i < l.countP p := by
  induction l generalizing i with
  | nil => cases hx
  | cons y l ih =>
    obtain ⟨hle, hsorted⟩ := List.pairwise_cons.mp hsorted
    cases hy : p y with
    | true =>
      rw [List.countP_cons_of_pos hy]
      cases i with
      | zero =>
        obtain rfl := Option.some.inj hx
        exact iff_of_true hy (Nat.succ_pos _)
      | succ i => exact (ih hsorted hx).trans Nat.succ_lt_succ_iff.symm
    | false =>
      -- nothing after `y` has the property either
      have hnone (z : α) (hz : z ∈ l) : ¬p z = true := by
        intro hpz
        rw [hp y z (hle z hz) hpz] at hy
        cases hy
      rw [List.countP_cons_of_neg (by simp [hy]), List.countP_eq_zero.mpr hnone]
      apply iff_of_false _ (Nat.not_lt_zero i)
      cases i with
      | zero =>
        obtain rfl := Option.some.inj hx
        simp [hy]
      | succ i => exact hnone x (List.mem_of_getElem? hx)

/-- What stands at a rank is `d` exactly when no more elements are below `d` than the rank
allows, and no more above. -/
theorem rank_eq_iff (hsorted : l.Pairwise (· ≤ ·)) (hx : l[i]? = some x) :
    x = d ↔ l.countP (· < d) ≤ i ∧ i + l.countP (d < ·) < l.length := by
  have hbelow := rank_lt_count (p := fun y => decide (y < d))
    (fun y z hle hz => decide_eq_true (hle.trans_lt (of_decide_eq_true hz))) hsorted hx
  have hupto := rank_lt_count (p := fun y => decide (y ≤ d))
    (fun y z hle hz => decide_eq_true (hle.trans (of_decide_eq_true hz))) hsorted hx
  have hsplit : l.countP (fun y => decide (y ≤ d)) + l.countP (d < ·) = l.length := by
    have hcount := List.length_eq_countP_add_countP (fun y => decide (y ≤ d)) (l := l)
    simp only [decide_eq_true_eq, not_le] at hcount
    exact hcount.symm
  rw [decide_eq_true_eq] at hbelow hupto
  rw [eq_iff_le_not_lt, hbelow, hupto]
  omega

end Hotpath.Support
