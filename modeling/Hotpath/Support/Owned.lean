import Mathlib

/-!
# Resources with one owner each

A pool of resources in use: those that were in use before, and what each owner holds,
which no other owner does. A resource that an owner gives back is in the pool, and when
no owner holds any the pool is what it was.
-/

namespace Hotpath.Support

variable {ι R : Type*}

structure Owned (base pool : Finset R) (held : ι → Option R) : Prop where
  mem : ∀ r, r ∈ pool ↔ r ∈ base ∨ ∃ i, held i = some r
  own : ∀ i j r, held i = some r → held j = some r → i = j
  apart : ∀ i r, held i = some r → r ∉ base

namespace Owned
variable {base pool : Finset R} {held : ι → Option R} {i j : ι} {r : R}

theorem nothing (base : Finset R) : Owned base base (fun _ : ι => none) where
  mem _ := ⟨Or.inl, fun h => h.elim id fun ⟨_, h⟩ => nomatch h⟩
  own _ _ _ h := nomatch h
  apart _ _ h := nomatch h

/-- Nothing is left in use. -/
theorem returned (h : Owned base pool held) (hnone : ∀ i, held i = none) : pool = base := by
  ext r
  rw [h.mem]
  constructor
  · rintro (hr | ⟨i, hi⟩)
    · exact hr
    · exact nomatch (hnone i).symm.trans hi
  · exact Or.inl

variable [DecidableEq ι]

/-- What the owners hold when one of them changes. -/
theorem update_holds {x : Option R} {k : ι} {q : R} :
    Function.update held i x k = some q ↔ (k = i ∧ x = some q) ∨ (k ≠ i ∧ held k = some q) := by
  by_cases heq : k = i
  · obtain rfl := heq
    rw [Function.update_self]
    exact ⟨fun h => .inl ⟨rfl, h⟩, fun h => h.elim And.right fun h => absurd rfl h.1⟩
  · rw [Function.update_of_ne heq]
    exact ⟨fun h => .inr ⟨heq, h⟩, fun h => h.elim (fun h => absurd h.1 heq) And.right⟩

variable [DecidableEq R]

/-- One that is not in use. -/
theorem acquire (h : Owned base pool held) (hi : held i = none) (hr : r ∉ pool) :
    Owned base (insert r pool) (Function.update held i (some r)) := by
  have hfree : ∀ k, held k ≠ some r := fun k hk => hr ((h.mem r).mpr (.inr ⟨k, hk⟩))
  have hnew : ∀ k q, Function.update held i (some r) k = some q ↔
      (k = i ∧ r = q) ∨ held k = some q := by
    intro k q
    rw [update_holds, Option.some_inj]
    apply or_congr_right
    constructor
    · exact And.right
    · intro hk
      refine ⟨?_, hk⟩
      rintro rfl
      exact Option.some_ne_none q (hk.symm.trans hi)
  constructor
  case mem =>
    intro q
    rw [Finset.mem_insert, h.mem q, exists_congr fun k => hnew k q, exists_or]
    constructor
    · rintro (rfl | hq | hk)
      · exact .inr (.inl ⟨i, rfl, rfl⟩)
      · exact .inl hq
      · exact .inr (.inr hk)
    · rintro (hq | ⟨-, -, rfl⟩ | hk)
      · exact .inr (.inl hq)
      · exact .inl rfl
      · exact .inr (.inr hk)
  case own =>
    intro k l q hk hl
    rw [hnew] at hk hl
    rcases hk with ⟨hki, hkq⟩ | hk
    · rcases hl with ⟨hli, -⟩ | hl
      · exact hki.trans hli.symm
      · exact absurd (hkq ▸ hl) (hfree l)
    · rcases hl with ⟨-, hlq⟩ | hl
      · exact absurd (hlq ▸ hk) (hfree k)
      · exact h.own k l q hk hl
  case apart =>
    intro k q hk
    rcases (hnew k q).mp hk with ⟨-, rfl⟩ | hk
    · exact fun hq => hr ((h.mem r).mpr (.inl hq))
    · exact h.apart k q hk

/-- One is given back by the owner that holds it. -/
theorem release (h : Owned base pool held) (hi : held i = some r) :
    r ∈ pool ∧ Owned base (pool.erase r) (Function.update held i none) := by
  have hrest : ∀ k q, Function.update held i none k = some q ↔ k ≠ i ∧ held k = some q := by
    intro k q
    rw [update_holds]
    exact or_iff_right fun h => nomatch h.2
  refine ⟨(h.mem r).mpr (.inr ⟨i, hi⟩), ?_⟩
  constructor
  case mem =>
    intro q
    rw [Finset.mem_erase, h.mem q, exists_congr fun k => hrest k q]
    constructor
    · rintro ⟨hne, hq | ⟨k, hk⟩⟩
      · exact .inl hq
      · refine .inr ⟨k, ?_, hk⟩
        rintro rfl
        exact hne (Option.some.inj (hk.symm.trans hi))
    · rintro (hq | ⟨k, hne, hk⟩)
      · exact ⟨fun heq => h.apart i r hi (heq ▸ hq), .inl hq⟩
      · refine ⟨?_, .inr ⟨k, hk⟩⟩
        rintro rfl
        exact hne (h.own k i q hk hi)
  case own =>
    intro k l q hk hl
    exact h.own k l q ((hrest k q).mp hk).2 ((hrest l q).mp hl).2
  case apart =>
    intro k q hk
    exact h.apart k q ((hrest k q).mp hk).2

/-- What one owner holds becomes another's. -/
theorem hand (h : Owned base pool held) (hne : i ≠ j) (hi : held i = none) :
    Owned base pool (Function.update (Function.update held j none) i (held j)) := by
  cases hj : held j with
  | none =>
    have hsame : ∀ {k}, held k = none → Function.update held k none = held :=
      fun hk => Function.update_eq_self_iff.mpr hk.symm
    rwa [hsame hj, hsame hi]
  | some r =>
    obtain ⟨hr, hrest⟩ := h.release hj
    have hnone : Function.update held j none i = none := by
      rw [Function.update_of_ne hne, hi]
    have hback := hrest.acquire hnone (Finset.notMem_erase r pool)
    rwa [Finset.insert_erase hr] at hback

end Owned

end Hotpath.Support
