import Mathlib

/-!
# Rising numbers

Numbers that go up pick elements of a list in their order, and all of them where they
are as many.
-/

namespace Hotpath.Support

variable {α : Type} {numbers : List ℕ} {n : ℕ}

/-- Numbers that go up below `n` are some of those below `n`, in their order. -/
theorem sublist_range (hup : numbers.Pairwise (· < ·)) (hlt : ∀ x ∈ numbers, x < n) :
    numbers.Sublist (List.range n) := by
  have hnd : numbers.Nodup := hup.imp fun h => Nat.ne_of_lt h
  have hsub : numbers ⊆ List.range n := fun x hx => List.mem_range.mpr (hlt x hx)
  exact List.sublist_of_subperm_of_pairwise (hnd.subperm hsub) hup List.pairwise_lt_range

theorem filterMap_range (l : List α) (n : ℕ) :
    (List.range n).filterMap (fun i => l[i]?) = l.take n := by
  induction n with
  | zero => rfl
  | succ n ih =>
    rw [List.range_succ, List.filterMap_append, ih, List.take_add_one, List.filterMap_cons,
      List.filterMap_nil]
    cases l[n]? with
    | none => rfl
    | some a => rfl

/-- What rising numbers pick of a list is in the list's order, and once. -/
theorem picked_sublist {l : List α} (hup : numbers.Pairwise (· < ·))
    (hlt : ∀ x ∈ numbers, x < l.length) : (numbers.filterMap fun i => l[i]?).Sublist l ∧
      (numbers.length = l.length → (numbers.filterMap fun i => l[i]?) = l) := by
  have hsub := sublist_range hup hlt
  have hall := filterMap_range l l.length
  rw [List.take_length] at hall
  constructor
  case left =>
    conv_rhs => rw [← hall]
    exact hsub.filterMap _
  case right =>
    intro hlen
    rw [hsub.eq_of_length (by rw [hlen, List.length_range]), hall]

end Hotpath.Support
