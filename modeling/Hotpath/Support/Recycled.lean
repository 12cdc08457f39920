import Hotpath.Support.Fallible
import Hotpath.Support.Subscript

/-!
# Pools that agree off their free list

A pool hands out the top of its free list and takes slots back there. Two pools with
one free list may hold different remains in their free slots: a slot is written
before it is read, so only the slots in use have to agree, and only in what `f`
shows of them. Indices from `cap` on are never handed out.
-/

namespace Hotpath.Support

variable {α β : Type} {f : α → β} {cap : ℕ} {free : List ℤ} {v w : List α} {k : ℤ}

/-- The part of a free list that can be handed out; no slot has a negative index. -/
def usable (free : List ℤ) : List ℤ := free.takeWhile fun k => 0 ≤ k

structure AgreeOff (f : α → β) (cap : ℕ) (free : List ℤ) (v w : List α) : Prop where
  length : w.length = v.length
  slot : ∀ n : ℕ, n < cap → (n : ℤ) ∉ usable free → w[n]?.map f = v[n]?.map f

theorem usable_cons (hk : 0 ≤ k) : usable (k :: free) = k :: usable free := by
  rw [usable, List.takeWhile_cons_of_pos (by simpa using hk)]
  rfl

/-- A slot in use shows the same in both. -/
theorem AgreeOff.subscript (h : AgreeOff f cap free v w) {n : ℕ} (hcap : n < cap)
    (hfree : (n : ℤ) ∉ usable free) :
    Option.Rel (fun x y => f y = f x) (subscript v n) (subscript w n) := by
  have hs := h.slot n hcap hfree
  have hn : (0 : ℤ) ≤ n := Int.natCast_nonneg n
  rw [Support.subscript, Support.subscript, if_pos hn, if_pos hn, Int.toNat_natCast]
  cases hv : v[n]? with
  | none =>
    rw [hv, Option.map_none, Option.map_eq_none_iff] at hs
    rw [hs]
    exact Option.Rel.none
  | some x =>
    rw [hv, Option.map_some] at hs
    obtain ⟨y, hy, hxy⟩ := Option.map_eq_some_iff.mp hs
    rw [hy]
    exact Option.Rel.some hxy

theorem getElem?_modify_map (v : List α) (i n : ℕ) (g : α → α) :
    (v.modify i g)[n]?.map f = if i = n then v[n]?.map fun x => f (g x) else v[n]?.map f := by
  rw [List.getElem?_modify]
  split
  · cases v[n]? <;> rfl
  · cases v[n]? <;> rfl

/-- One change of a slot, wherever it is. -/
theorem AgreeOff.modifyAt (h : AgreeOff f cap free v w) (k : ℤ) {g g' : α → α}
    (hg : ∀ x y, f y = f x → f (g' y) = f (g x)) :
    Option.Rel (AgreeOff f cap free) (modifyAt v k g) (modifyAt w k g') := by
  rw [Support.modifyAt, Support.modifyAt, h.length]
  apply rel_ite
  · intro _
    apply Option.Rel.some
    constructor
    case length => rw [List.length_modify, List.length_modify, h.length]
    case slot =>
      intro n hcap hfree
      have hs := h.slot n hcap hfree
      rw [getElem?_modify_map, getElem?_modify_map]
      split
      · cases hv : v[n]? with
        | none =>
          rw [hv, Option.map_none, Option.map_eq_none_iff] at hs
          rw [hs]
          rfl
        | some x =>
          rw [hv, Option.map_some] at hs
          obtain ⟨y, hy, hxy⟩ := Option.map_eq_some_iff.mp hs
          rw [hy, Option.map_some, Option.map_some, hg x y hxy]
      · exact hs
  · intro _
    exact Option.Rel.none

theorem AgreeOff.modifyLink (h : AgreeOff f cap free v w) (k : ℤ) {g g' : α → α}
    (hg : ∀ x y, f y = f x → f (g' y) = f (g x)) :
    Option.Rel (AgreeOff f cap free) (modifyLink v k g) (modifyLink w k g') := by
  rw [Support.modifyLink, Support.modifyLink]
  apply rel_ite
  · intro _
    exact h.modifyAt k hg
  · intro _
    exact Option.Rel.some h

/-- A slot that is handed out and overwritten is in use from then on. -/
theorem AgreeOff.fill (h : AgreeOff f cap (k :: free) v w) {g g' : α → α}
    (hg : ∀ x y, f (g' y) = f (g x)) :
    Option.Rel (AgreeOff f cap free) (Support.modifyAt v k g) (Support.modifyAt w k g') := by
  rw [Support.modifyAt, Support.modifyAt, h.length]
  apply rel_ite
  · intro hk
    apply Option.Rel.some
    constructor
    case length => rw [List.length_modify, List.length_modify, h.length]
    case slot =>
      intro n hcap hfree
      rw [getElem?_modify_map, getElem?_modify_map]
      split
      · rename_i hkn
        have hv : n < v.length := hkn ▸ hk.2
        have hw : n < w.length := by
          rw [h.length]
          exact hv
        rw [List.getElem?_eq_getElem hv, List.getElem?_eq_getElem hw, Option.map_some,
          Option.map_some, hg]
      · rename_i hkn
        apply h.slot n hcap
        rw [usable_cons hk.1]
        intro hmem
        rcases List.mem_cons.mp hmem with he | hm
        · exact hkn (by omega)
        · exact hfree hm
  · intro _
    exact Option.Rel.none

/-- A slot that is taken back need not agree any more. -/
theorem AgreeOff.push (h : AgreeOff f cap free v w) (hk : 0 ≤ k) :
    AgreeOff f cap (k :: free) v w := by
  constructor
  case length => exact h.length
  case slot =>
    intro n hcap hfree
    rw [usable_cons hk] at hfree
    exact h.slot n hcap fun hm => hfree (List.mem_cons_of_mem _ hm)

end Hotpath.Support
