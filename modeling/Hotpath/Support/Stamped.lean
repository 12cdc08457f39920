import Mathlib

/-!
# Stamped queues

Entries carry a stamp that grows from the front of a queue to its back. The
entries below a given stamp are a prefix; arrivals do not change it, and a
departure takes at most its own weight from it.
-/

namespace Hotpath.Support

variable {α β : Type} (stamp weight : α → ℕ) {j : ℕ} {l r : List α} {x y : α}

/-- The entries stamped below `j`. -/
def before (j : ℕ) (l : List α) : List α := l.filter fun x => stamp x < j

def mass (l : List α) : ℕ := (l.map weight).sum

def Increasing (l : List α) : Prop := l.Pairwise fun x y => stamp x < stamp y

variable {stamp weight}

theorem mass_append : mass weight (l ++ r) = mass weight l + mass weight r := by
  simp only [mass, List.map_append, List.sum_append]

theorem mass_cons : mass weight (x :: l) = weight x + mass weight l := by
  simp only [mass, List.map_cons, List.sum_cons]

theorem before_append : before stamp j (l ++ r) = before stamp j l ++ before stamp j r := by
  simp only [before, List.filter_append]

theorem before_cons :
    before stamp j (x :: l) = if stamp x < j then x :: before stamp j l else before stamp j l := by
  simp only [before, List.filter_cons, decide_eq_true_eq]

theorem mem_before : x ∈ before stamp j l ↔ x ∈ l ∧ stamp x < j := by
  simp only [before, List.mem_filter, decide_eq_true_eq]

/-- Everything resting when the stamp is taken lies below it. -/
theorem before_all (h : ∀ x ∈ l, stamp x < j) : before stamp j l = l := by
  apply List.filter_eq_self.mpr
  intro x hx
  exact decide_eq_true (h x hx)

/-- What arrives later does not. -/
theorem before_push (h : j ≤ stamp x) : before stamp j (l ++ [x]) = before stamp j l := by
  rw [before_append, before_cons, if_neg (by omega)]
  exact List.append_nil _

/-- Once the front is not below the stamp, nothing is. -/
theorem before_front (h : Increasing stamp (x :: l)) (hx : j ≤ stamp x) :
    before stamp j (x :: l) = [] := by
  apply List.filter_eq_nil_iff.mpr
  intro y hy
  have hle : stamp x ≤ stamp y := by
    cases hy with
    | head => exact le_rfl
    | tail _ hy => exact ((List.pairwise_cons.mp h).1 y hy).le
  simpa using hx.trans hle

theorem mass_before_remove :
    mass weight (before stamp j (l ++ x :: r)) =
      mass weight (before stamp j (l ++ r)) + if stamp x < j then weight x else 0 := by
  rw [before_append, before_append, before_cons, mass_append, mass_append]
  split
  · rw [mass_cons]
    omega
  · omega

theorem mass_before_change (hs : stamp y = stamp x) :
    mass weight (before stamp j (l ++ x :: r)) + (if stamp x < j then weight y else 0) =
      mass weight (before stamp j (l ++ y :: r)) + if stamp x < j then weight x else 0 := by
  rw [mass_before_remove, mass_before_remove, hs]
  omega

theorem Increasing.push (h : Increasing stamp l) (hx : ∀ y ∈ l, stamp y < stamp x) :
    Increasing stamp (l ++ [x]) := by
  rw [Increasing, List.pairwise_append]
  refine ⟨h, List.pairwise_singleton .., fun y hy z hz => ?_⟩
  rw [List.mem_singleton.mp hz]
  exact hx y hy

/-- The names of the entries below the stamp, one entry gone: its own name goes. -/
theorem names_remove {name : α → β} [DecidableEq β]
    (hd : (l ++ x :: r).Pairwise fun a b => name a ≠ name b) :
    ((before stamp j (l ++ x :: r)).map name).filter (fun b => b ≠ name x) =
      (before stamp j (l ++ r)).map name := by
  have hne : ∀ y ∈ l ++ r, name y ≠ name x := by
    intro y hy
    rw [List.pairwise_append] at hd
    obtain ⟨-, hxr, hlx⟩ := hd
    rcases List.mem_append.mp hy with h | h
    · exact hlx y h x (List.mem_cons_self ..)
    · exact ((List.pairwise_cons.mp hxr).1 y h).symm
  have hkeep : ∀ q : List α, (∀ y ∈ q, name y ≠ name x) →
      ((before stamp j q).map name).filter (fun b => b ≠ name x) = (before stamp j q).map name := by
    intro q hq
    apply List.filter_eq_self.mpr
    intro b hb
    obtain ⟨y, hy, rfl⟩ := List.mem_map.mp hb
    exact decide_eq_true (hq y (mem_before.mp hy).1)
  have hl := hkeep l fun y hy => hne y (List.mem_append_left _ hy)
  have hr := hkeep r fun y hy => hne y (List.mem_append_right _ hy)
  rw [before_append, before_append, before_cons, List.map_append, List.map_append,
    List.filter_append, hl]
  split
  · rw [List.map_cons, List.filter_cons_of_neg (by simp), hr]
  · rw [hr]

end Hotpath.Support
