import Mathlib

/-!
# Lower bounds by bisection

The position a key belongs at in a sorted vector, found by halving an interval.
The comparison reads the vector, so it may fail; `none` is such a failure or an
interval that outlives its fuel.
-/

namespace Hotpath.Support

def lowerBound (before : ℕ → Option Bool) : ℕ → ℕ → ℕ → Option ℕ
  | 0, lo, hi => if lo < hi then none else some lo
  | fuel + 1, lo, hi =>
    if lo < hi then do
      let mid := (lo + hi) / 2
      if ← before mid then lowerBound before fuel (mid + 1) hi else lowerBound before fuel lo mid
    else some lo

/-- Where the comparison says `true` of an initial segment, the bisection finds
its length, whatever the fuel above the length of the interval. -/
theorem lowerBound_eq {before : ℕ → Option Bool} {n pos : ℕ}
    (hb : ∀ j < n, before j = some (decide (j < pos))) :
    ∀ fuel lo hi, hi - lo ≤ fuel → lo ≤ pos → pos ≤ hi → hi ≤ n →
      lowerBound before fuel lo hi = some pos := by
  intro fuel
  induction fuel with
  | zero =>
    intro lo hi hf hlo hhi hn
    have heq : lo = pos := by omega
    have hno : ¬lo < hi := by omega
    rw [lowerBound, if_neg hno, heq]
  | succ fuel ih =>
    intro lo hi hf hlo hhi hn
    by_cases hlt : lo < hi
    · have hmid := hb ((lo + hi) / 2) (by omega)
      rw [lowerBound, if_pos hlt]
      dsimp only
      rw [hmid, Option.bind_eq_bind, Option.bind_some]
      by_cases hp : (lo + hi) / 2 < pos
      · rw [decide_eq_true hp, if_pos rfl]
        exact ih _ _ (by omega) (by omega) hhi hn
      · rw [decide_eq_false hp]
        exact ih _ _ (by omega) hlo (by omega) (by omega)
    · have heq : lo = pos := by omega
      rw [lowerBound, if_neg hlt, heq]

/-- Wherever the bisection ends, it is within the interval. -/
theorem lowerBound_mem {before : ℕ → Option Bool} {fuel lo hi pos : ℕ} (hle : lo ≤ hi)
    (h : lowerBound before fuel lo hi = some pos) : lo ≤ pos ∧ pos ≤ hi := by
  induction fuel generalizing lo hi with
  | zero =>
    obtain ⟨-, hpos⟩ := Option.ite_none_left_eq_some.mp h
    cases hpos
    exact ⟨le_rfl, hle⟩
  | succ fuel ih =>
    rw [lowerBound] at h
    split at h
    · rename_i hlt
      obtain ⟨b, -, h⟩ := Option.bind_eq_some_iff.mp h
      cases b with
      | true =>
        obtain ⟨hlo, hhi⟩ := ih (by omega) h
        exact ⟨by omega, hhi⟩
      | false =>
        obtain ⟨hlo, hhi⟩ := ih (by omega) h
        exact ⟨hlo, by omega⟩
    · cases h
      exact ⟨le_rfl, hle⟩

section Sorted
variable {K : Type} {R : K → K → Prop}

/-- A sorted list splits at a key. -/
theorem split_at [DecidableRel R] (htrans : ∀ x y z, R x y → R y z → R x z) (k : K) (ks : List K)
    (h : ks.Pairwise R) :
    ∃ l r, ks = l ++ r ∧ (∀ x ∈ l, R x k) ∧ ∀ x ∈ r, ¬R x k := by
  induction ks with
  | nil => exact ⟨[], [], rfl, by simp, by simp⟩
  | cons x ks ih =>
    obtain ⟨hx, hks⟩ := List.pairwise_cons.mp h
    by_cases hlt : R x k
    · obtain ⟨l, r, rfl, hl, hr⟩ := ih hks
      refine ⟨x :: l, r, rfl, ?_, hr⟩
      intro y hy
      cases List.mem_cons.mp hy with
      | inl he => exact he ▸ hlt
      | inr hy => exact hl y hy
    · refine ⟨[], x :: ks, rfl, by simp, ?_⟩
      intro y hy
      cases List.mem_cons.mp hy with
      | inl he => exact he ▸ hlt
      | inr hy => exact fun hyk => hlt (htrans x y k (hx y hy) hyk)

/-- The bisection of the keys finds the split. -/
theorem lowerBound_split [DecidableRel R] {before : ℕ → Option Bool} {l r : List K} {k : K}
    (hl : ∀ x ∈ l, R x k) (hr : ∀ x ∈ r, ¬R x k)
    (hb : ∀ j (x : K), (l ++ r)[j]? = some x → before j = some (decide (R x k))) {fuel : ℕ}
    (hfuel : (l ++ r).length ≤ fuel) :
    lowerBound before fuel 0 (l ++ r).length = some l.length := by
  apply lowerBound_eq (n := (l ++ r).length) _ fuel 0 _ (by omega) (Nat.zero_le _)
  · rw [List.length_append]
    omega
  · exact le_rfl
  · intro j hj
    have hget := List.getElem?_eq_getElem hj
    rw [hb j _ hget]
    by_cases hjl : j < l.length
    · have hx : (l ++ r)[j] ∈ l := by
        rw [List.getElem_append_left hjl]
        exact List.getElem_mem hjl
      rw [decide_eq_true (hl _ hx), decide_eq_true hjl]
    · have hx : (l ++ r)[j] ∈ r := by
        rw [List.getElem_append_right (by omega)]
        exact List.getElem_mem _
      rw [decide_eq_false (hr _ hx), decide_eq_false hjl]

/-- A key that is not at its split is nowhere. -/
theorem absent_of_split {l r : List K} {k : K} (htotal : ∀ x y, R x y ∨ x = y ∨ R y x)
    (hirrefl : ∀ x, ¬R x x) (htrans : ∀ x y z, R x y → R y z → R x z)
    (h : (l ++ r).Pairwise R) (hl : ∀ x ∈ l, R x k) (hr : ∀ x ∈ r, ¬R x k)
    (hne : r.head? ≠ some k) : k ∉ l ++ r ∧ (l ++ k :: r).Pairwise R := by
  obtain ⟨hpl, hpr, hlr⟩ := List.pairwise_append.mp h
  have hafter : ∀ x ∈ r, R k x := by
    cases r with
    | nil => simp
    | cons y r =>
      have hy : R k y := by
        rcases htotal y k with h | h | h
        · exact absurd h (hr y (List.mem_cons_self ..))
        · exact absurd (by rw [h]; rfl) hne
        · exact h
      intro x hx
      cases List.mem_cons.mp hx with
      | inl he => exact he ▸ hy
      | inr hx => exact htrans k y x hy ((List.pairwise_cons.mp hpr).1 x hx)
  constructor
  · intro hk
    cases List.mem_append.mp hk with
    | inl hk => exact hirrefl k (hl k hk)
    | inr hk => exact hirrefl k (hafter k hk)
  · apply List.pairwise_append.mpr
    refine ⟨hpl, List.pairwise_cons.mpr ⟨hafter, hpr⟩, ?_⟩
    intro x hx y hy
    cases List.mem_cons.mp hy with
    | inl he => exact he ▸ hl x hx
    | inr hy => exact hlr x hx y hy

end Sorted

end Hotpath.Support
