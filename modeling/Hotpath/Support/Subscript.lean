import Mathlib

/-!
# Checked subscripts

A vector subscripted by a signed index, as `v[static_cast<std::size_t>(i)]` is
in C++: a negative index is past the end of every vector. `none` is an access
outside the vector.
-/

namespace Hotpath.Support

variable {α : Type}

def subscript (v : List α) (i : ℤ) : Option α := if 0 ≤ i then v[i.toNat]? else none

/-- Read, change and write back one element. -/
def modifyAt (v : List α) (i : ℤ) (f : α → α) : Option (List α) :=
  if 0 ≤ i ∧ i.toNat < v.length then some (v.modify i.toNat f) else none

/-- The same through a link, which is followed only when it is not the end mark. -/
def modifyLink (v : List α) (i : ℤ) (f : α → α) : Option (List α) :=
  if 0 ≤ i then modifyAt v i f else some v

theorem subscript_cast {v : List α} {n : ℕ} (hn : n < v.length) (d : α) :
    subscript v (n : ℤ) = some (v.getD n d) := by
  simp [subscript, hn]

theorem subscript_neg {v : List α} {i : ℤ} (hi : i < 0) : subscript v i = none := by
  simp [subscript, not_le.mpr hi]

theorem modifyAt_cast {v : List α} {n : ℕ} (hn : n < v.length) (f : α → α) :
    modifyAt v (n : ℤ) f = some (v.modify n f) := by
  simp [modifyAt, hn]

theorem modifyAt_neg {v : List α} {i : ℤ} (hi : i < 0) (f : α → α) : modifyAt v i f = none := by
  simp [modifyAt, not_le.mpr hi]

theorem getD_modify {v : List α} {n : ℕ} (hn : n < v.length) (f : α → α) (m : ℕ) (d : α) :
    (v.modify n f).getD m d = if m = n then f (v.getD n d) else v.getD m d := by
  simp only [List.getD_eq_getElem?_getD, List.getElem?_modify]
  by_cases hm : m = n
  · subst hm
    simp [hn]
  · simp [hm, Ne.symm hm]

theorem modifyAt_get {v : List α} {n : ℕ} (hn : n < v.length) (f : α → α) (d : α) :
    ∃ v', modifyAt v (n : ℤ) f = some v' ∧ v'.length = v.length ∧
      ∀ m, v'.getD m d = if m = n then f (v.getD n d) else v.getD m d :=
  ⟨_, modifyAt_cast hn f, List.length_modify .., fun m => getD_modify hn f m d⟩

theorem modifyLink_get {v : List α} {i : ℤ} (hi : i = -1 ∨ ∃ n < v.length, i = (n : ℤ))
    (f : α → α) (d : α) :
    ∃ v', modifyLink v i f = some v' ∧ v'.length = v.length ∧
      ∀ m : ℕ, v'.getD m d = if (m : ℤ) = i then f (v.getD m d) else v.getD m d := by
  rcases hi with rfl | ⟨n, hn, rfl⟩
  · refine ⟨v, rfl, rfl, fun m => ?_⟩
    rw [if_neg (by omega)]
  · obtain ⟨v', hv, hlen, hget⟩ := modifyAt_get hn f d
    refine ⟨v', ?_, hlen, fun m => ?_⟩
    · rw [modifyLink, if_pos (Int.natCast_nonneg n), hv]
    · rw [hget m]
      by_cases hm : m = n
      · simp [hm]
      · simp [hm]

theorem modifyAt_some {v v' : List α} {i : ℤ} {f : α → α} (h : modifyAt v i f = some v') :
    0 ≤ i ∧ i.toNat < v.length := by
  unfold modifyAt at h
  split at h
  · rename_i hi
    exact hi
  · cases h

theorem modifyAt_length {v v' : List α} {i : ℤ} {f : α → α}
    (h : modifyAt v i f = some v') : v'.length = v.length := by
  unfold modifyAt at h
  split at h
  · obtain rfl := Option.some.inj h
    exact List.length_modify ..
  · cases h

theorem subscript_modifyAt {v v' : List α} {i : ℤ} {f : α → α} (h : modifyAt v i f = some v')
    (k : ℤ) : subscript v' k = if k = i then (subscript v i).map f else subscript v k := by
  obtain ⟨hi, hlt⟩ := modifyAt_some h
  unfold modifyAt at h
  rw [if_pos ⟨hi, hlt⟩] at h
  obtain rfl := Option.some.inj h
  by_cases hk : k = i
  · rw [if_pos hk, hk, subscript, subscript, if_pos hi, if_pos hi, List.getElem?_modify_eq]
    rfl
  · rw [if_neg hk, subscript, subscript]
    split
    · rw [List.getElem?_modify_ne]
      omega
    · rfl

/-! ### Vectors of images -/

section Map
variable {β : Type} {f : α → β}

theorem subscript_map (f : α → β) (v : List α) (i : ℤ) :
    subscript (v.map f) i = (subscript v i).map f := by
  unfold subscript
  split
  · rw [List.getElem?_map]
  · rfl

theorem modifyAt_map {g : α → α} {h : β → β} (hfg : ∀ x, f (g x) = h (f x)) (v : List α) (i : ℤ) :
    modifyAt (v.map f) i h = (modifyAt v i g).map (List.map f) := by
  unfold modifyAt
  rw [List.length_map]
  split
  · rw [Option.map_some]
    congr 1
    apply List.ext_getElem?
    intro j
    simp only [List.getElem?_modify, List.getElem?_map]
    cases v[j]? with
    | none => rfl
    | some x =>
      by_cases hj : i.toNat = j
      · simp [hj, hfg]
      · simp [hj]
  · rfl

theorem modifyLink_map {g : α → α} {h : β → β} (hfg : ∀ x, f (g x) = h (f x)) (v : List α)
    (i : ℤ) : modifyLink (v.map f) i h = (modifyLink v i g).map (List.map f) := by
  unfold modifyLink
  split
  · exact modifyAt_map hfg v i
  · rfl

end Map

end Hotpath.Support
