import Mathlib

/-!
# Cyclic positions and linear probing

Positions `0 … c-1` arranged on a circle, the distance walked forward from one
to another, and the theory of linear probing over them: a table is an
occupancy function `occ`, every key has a home position, and the table is
reachable when no key has an empty position between its home and itself.
Deletion by backward shift is described by the hole it moves.
-/

namespace Hotpath.Support

/-- Steps walked forward from `a` to `b` on a circle of `c` positions. -/
def fwd (c a b : ℕ) : ℕ := if a ≤ b then b - a else b + c - a

/-- The next position on the circle. -/
def succ (c i : ℕ) : ℕ := if i + 1 = c then 0 else i + 1

theorem succ_lt {c i : ℕ} (hi : i < c) : succ c i < c := by
  unfold succ
  split <;> omega

theorem fwd_lt {c a b : ℕ} (ha : a < c) (hb : b < c) : fwd c a b < c := by
  unfold fwd
  split <;> omega

@[simp] theorem fwd_self (c a : ℕ) : fwd c a a = 0 := by simp [fwd]

theorem fwd_eq_zero {c a b : ℕ} (ha : a < c) (h : fwd c a b = 0) : a = b := by
  unfold fwd at h
  split at h <;> omega

/-- One step forward brings every other position one step closer. -/
theorem fwd_succ {c a b : ℕ} (ha : a < c) (hb : b < c) (hne : a ≠ b) :
    fwd c (succ c a) b + 1 = fwd c a b := by
  unfold fwd succ
  split <;> split <;> split <;> omega

theorem fwd_to_succ {c i j : ℕ} (hi : i < c) (hne : succ c j ≠ i) :
    fwd c i (succ c j) = fwd c i j + 1 := by
  unfold fwd succ at *
  split <;> split <;> split <;> simp_all <;> omega

theorem fwd_inj {c a p q : ℕ} (ha : a < c) (hp : p < c) (hq : q < c)
    (h : fwd c a p = fwd c a q) : p = q := by
  unfold fwd at h
  split_ifs at h <;> omega

/-- A position on the way from `q` to `p`, where `q` is on the way from `a` to
`p`, is on the way from `a` to `p`. -/
theorem fwd_between {c a q s p : ℕ} (ha : a < c) (hq : q < c) (hs : s < c) (hp : p < c)
    (hqp : fwd c a q < fwd c a p) (hsp : fwd c q s < fwd c q p) :
    fwd c a s < fwd c a p := by
  unfold fwd at *
  split_ifs at * <;> omega

/-- The way from `a` to `i` is part of the way from `a` to `s` when `a` is not
strictly after `i` up to `s`. -/
theorem fwd_outside {c a i s q : ℕ} (ha : a < c) (hi : i < c) (hs : s < c) (hq : q < c)
    (hout : ¬(0 < fwd c i a ∧ fwd c i a ≤ fwd c i s)) (hqi : fwd c a q < fwd c a i) :
    fwd c a q < fwd c a s := by
  unfold fwd at *
  split_ifs at * <;> omega

/-- Seen from a home strictly after `i` up to `s`, `i` is not on the way to `s`. -/
theorem fwd_inside {c a i s : ℕ} (ha : a < c) (hs : s < c)
    (hin : 0 < fwd c i a ∧ fwd c i a ≤ fwd c i s) : fwd c a s ≤ fwd c a i := by
  unfold fwd at *
  split_ifs at * <;> omega

/-- Forward walk: the first position satisfying `stop`, within `n` steps. -/
def walk (c : ℕ) (stop : ℕ → Bool) : ℕ → ℕ → Option ℕ
  | 0, _ => none
  | n + 1, i => if stop i then some i else walk c stop n (succ c i)

theorem walk_spec {c : ℕ} {stop : ℕ → Bool} {n i p : ℕ} (hi : i < c)
    (h : walk c stop n i = some p) :
    p < c ∧ stop p = true ∧ ∀ q < c, fwd c i q < fwd c i p → stop q = false := by
  induction n generalizing i with
  | zero => simp [walk] at h
  | succ n ih =>
    by_cases hs : stop i = true
    · simp only [walk, hs, if_true, Option.some.injEq] at h
      subst h
      exact ⟨hi, hs, fun q _ hq => by simp at hq⟩
    · simp only [walk, hs] at h
      obtain ⟨hp, hstop, hbefore⟩ := ih (succ_lt hi) h
      refine ⟨hp, hstop, fun q hq hlt => ?_⟩
      by_cases hqi : q = i
      · simpa [hqi] using hs
      · have hpi : i ≠ p := fun he => hs (he ▸ hstop)
        have h1 := fwd_succ hi hq (Ne.symm hqi)
        have h2 := fwd_succ hi hp hpi
        exact hbefore q hq (by omega)

/-- The walk returns as soon as a stopping position lies within its steps. -/
theorem walk_returns {c : ℕ} {stop : ℕ → Bool} {n i q : ℕ} (hi : i < c) (hq : q < c)
    (hs : stop q = true) (hn : fwd c i q < n) : ∃ p, walk c stop n i = some p := by
  induction n generalizing i with
  | zero => omega
  | succ n ih =>
    by_cases hsi : stop i = true
    · exact ⟨i, by simp [walk, hsi]⟩
    · have hne : i ≠ q := fun he => hsi (he ▸ hs)
      have hd := fwd_succ hi hq hne
      obtain ⟨p, hp⟩ := ih (succ_lt hi) (by omega)
      exact ⟨p, by simpa [walk, hsi] using hp⟩

section Probing
variable {K : Type} {c : ℕ} {home : K → ℕ} {occ : ℕ → Option K}

/-- No key has an empty position between its home and itself. -/
def Reach (c : ℕ) (home : K → ℕ) (occ : ℕ → Option K) : Prop :=
  ∀ p < c, ∀ k, occ p = some k →
    ∀ q < c, fwd c (home k) q < fwd c (home k) p → occ q ≠ none

/-- No key is stored twice. -/
def Distinct (c : ℕ) (occ : ℕ → Option K) : Prop :=
  ∀ p < c, ∀ q < c, ∀ k, occ p = some k → occ q = some k → p = q

/-- Filling the first empty position met from the new key's home. -/
theorem Reach.fill [DecidableEq K] (hr : Reach c home occ) {p : ℕ} {k : K}
    (hfirst : ∀ q < c, fwd c (home k) q < fwd c (home k) p → occ q ≠ none) :
    Reach c home (Function.update occ p (some k)) := by
  intro r hrc k' hk' q hq hlt
  by_cases hqp : q = p
  · simp [hqp]
  · rw [Function.update_of_ne hqp]
    by_cases hrp : r = p
    · subst hrp
      simp only [Function.update_self, Option.some.injEq] at hk'
      subst hk'
      exact hfirst q hq hlt
    · rw [Function.update_of_ne hrp] at hk'
      exact hr r hrc k' hk' q hq hlt

theorem Distinct.fill (hd : Distinct c occ) {p : ℕ} {k : K}
    (hk : ∀ q < c, occ q ≠ some k) : Distinct c (Function.update occ p (some k)) := by
  intro a ha b hb k' hka hkb
  by_cases hap : a = p <;> by_cases hbp : b = p
  · omega
  · subst hap
    rw [Function.update_of_ne hbp] at hkb
    simp only [Function.update_self, Option.some.injEq] at hka
    exact absurd (hka ▸ hkb) (hk b hb)
  · subst hbp
    rw [Function.update_of_ne hap] at hka
    simp only [Function.update_self, Option.some.injEq] at hkb
    exact absurd (hkb ▸ hka) (hk a ha)
  · rw [Function.update_of_ne hap] at hka
    rw [Function.update_of_ne hbp] at hkb
    exact hd a ha b hb k' hka hkb

/-- Backward shift in progress: position `i` is the hole, `(i, j]` has been
scanned, and a key whose path still crosses the hole lies beyond `j`. -/
structure Hole (c : ℕ) (home : K → ℕ) (occ : ℕ → Option K) (i j : ℕ) : Prop where
  hole_lt : i < c
  scan_lt : j < c
  empty : occ i = none
  reach : ∀ p < c, ∀ k, occ p = some k →
    ∀ q < c, fwd c (home k) q < fwd c (home k) p →
      occ q ≠ none ∨ (q = i ∧ fwd c i j < fwd c i p)

theorem Hole.start (hr : Reach c home occ) {i : ℕ} (hi : i < c) :
    Hole c home (Function.update occ i none) i i where
  hole_lt := hi
  scan_lt := hi
  empty := by simp
  reach := by
    intro p hp k hk q hq hlt
    have hpi : p ≠ i := fun he => by simp [he] at hk
    rw [Function.update_of_ne hpi] at hk
    by_cases hqi : q = i
    · refine Or.inr ⟨hqi, ?_⟩
      rw [fwd_self]
      exact Nat.pos_of_ne_zero fun h0 => hpi (fwd_eq_zero hi h0).symm
    · rw [Function.update_of_ne hqi]
      exact Or.inl (hr p hp k hk q hq hlt)

/-- The key at the scanned position has its home after the hole: it stays. -/
theorem Hole.skip {i j : ℕ} (h : Hole c home occ i j) (hne : succ c j ≠ i)
    {k : K} (hk : occ (succ c j) = some k) (hhome : home k < c)
    (hin : 0 < fwd c i (home k) ∧ fwd c i (home k) ≤ fwd c i (succ c j)) :
    Hole c home occ i (succ c j) where
  hole_lt := h.hole_lt
  scan_lt := succ_lt h.scan_lt
  empty := h.empty
  reach := by
    intro p hp k' hk' q hq hlt
    rcases h.reach p hp k' hk' q hq hlt with hq' | ⟨rfl, hbeyond⟩
    · exact Or.inl hq'
    · refine Or.inr ⟨rfl, ?_⟩
      have hs := succ_lt h.scan_lt
      have hj := fwd_to_succ hq hne
      have hpj : p ≠ succ c j := by
        rintro rfl
        have hkk : k' = k := by simpa [hk] using hk'.symm
        subst hkk
        exact absurd hlt (Nat.not_lt.mpr (fwd_inside hhome hs hin))
      have hneq : fwd c q p ≠ fwd c q (succ c j) := fun he => hpj (fwd_inj hq hp hs he)
      omega

/-- The key at the scanned position does not have its home after the hole: it
moves into the hole and its old position is the new one. -/
theorem Hole.move {i j : ℕ} (h : Hole c home occ i j)
    {k : K} (hk : occ (succ c j) = some k) (hhome : home k < c)
    (hout : ¬(0 < fwd c i (home k) ∧ fwd c i (home k) ≤ fwd c i (succ c j))) :
    Hole c home (Function.update (Function.update occ i (some k)) (succ c j) none)
      (succ c j) (succ c j) where
  hole_lt := succ_lt h.scan_lt
  scan_lt := succ_lt h.scan_lt
  empty := by simp
  reach := by
    intro p hp k' hk' q hq hlt
    have hi := h.hole_lt
    have hs := succ_lt h.scan_lt
    have hps : p ≠ succ c j := fun he => by simp [he] at hk'
    rw [Function.update_of_ne hps] at hk'
    rw [fwd_self]
    by_cases hqs : q = succ c j
    · -- the new hole may be crossed by every other key
      exact Or.inr ⟨hqs, Nat.pos_of_ne_zero fun h0 => hps (fwd_eq_zero hs h0).symm⟩
    · rw [Function.update_of_ne hqs]
      by_cases hqi : q = i
      · exact Or.inl (by simp [hqi])
      · rw [Function.update_of_ne hqi]
        by_cases hpi : p = i
        · -- the moved key: its path to the old hole is part of its old path
          subst hpi
          simp only [Function.update_self, Option.some.injEq] at hk'
          subst hk'
          have hold := fwd_outside hhome hi hs hq hout hlt
          rcases h.reach _ hs k hk q hq hold with hq' | ⟨he, _⟩
          · exact Or.inl hq'
          · exact absurd he hqi
        · rw [Function.update_of_ne hpi] at hk'
          rcases h.reach p hp k' hk' q hq hlt with hq' | ⟨he, _⟩
          · exact Or.inl hq'
          · exact absurd he hqi

/-- The scan meets an empty position: the hole can be left empty. -/
theorem Hole.finish {i j : ℕ} (h : Hole c home occ i j) (hne : succ c j ≠ i)
    (hempty : occ (succ c j) = none) (hhome : ∀ k, home k < c) : Reach c home occ := by
  intro p hp k hk q hq hlt
  rcases h.reach p hp k hk q hq hlt with hq' | ⟨rfl, hbeyond⟩
  · exact hq'
  · -- the path crosses the hole, so it crosses the empty position as well
    exfalso
    have hi := h.hole_lt
    have hs := succ_lt h.scan_lt
    have hj := fwd_to_succ hi hne
    have hps : p ≠ succ c j := fun he => by simp [he, hempty] at hk
    have hpd : fwd c q p ≠ fwd c q (succ c j) := fun he => hps (fwd_inj hi hp hs he)
    have hcross := fwd_between (hhome k) hi hs hp hlt (by omega : fwd c q (succ c j) < _)
    rcases h.reach p hp k hk _ hs hcross with hq' | ⟨he, _⟩
    · exact hq' hempty
    · exact hne he

theorem Distinct.move {i j : ℕ} (hd : Distinct c occ) {k : K} (hj : j < c)
    (hk : occ j = some k) :
    Distinct c (Function.update (Function.update occ i (some k)) j none) := by
  have hpos : ∀ a < c, ∀ k', Function.update (Function.update occ i (some k)) j none a = some k' →
      (a = i ∧ k' = k) ∨ (a ≠ i ∧ a ≠ j ∧ occ a = some k') := by
    intro a ha k' h
    by_cases haj : a = j
    · simp [haj] at h
    · rw [Function.update_of_ne haj] at h
      by_cases hai : a = i
      · subst hai
        simp only [Function.update_self, Option.some.injEq] at h
        exact Or.inl ⟨rfl, h.symm⟩
      · rw [Function.update_of_ne hai] at h
        exact Or.inr ⟨hai, haj, h⟩
  intro a ha b hb k' hka hkb
  rcases hpos a ha k' hka with ⟨rfl, rfl⟩ | ⟨_, haj, hka'⟩ <;>
    rcases hpos b hb k' hkb with ⟨hbi, hbk⟩ | ⟨_, hbj, hkb'⟩
  · exact hbi.symm
  · exact absurd (hd b hb j hj _ hkb' hk) hbj
  · subst hbk
    exact absurd (hd a ha j hj _ hka' hk) haj
  · exact hd a ha b hb k' hka' hkb'

end Probing

end Hotpath.Support
