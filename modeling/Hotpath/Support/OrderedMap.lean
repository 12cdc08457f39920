import Mathlib

/-!
# Ordered maps

`std::map` and `std::unordered_map` are Lean's own ordered map; these are its
lookup and size laws in terms of equality of keys.
-/

namespace Hotpath.Support

variable {α β : Type} {cmp : α → α → Ordering} [Std.TransCmp cmp] [Std.LawfulEqCmp cmp]
  [DecidableEq α]

theorem getElem?_insert_if (m : Std.TreeMap α β cmp) (k a : α) (v : β) :
    (m.insert k v)[a]? = if a = k then some v else m[a]? := by
  rw [Std.TreeMap.getElem?_insert]
  simp only [Std.LawfulEqCmp.compare_eq_iff_eq, @eq_comm _ k a]

theorem getElem?_erase_if (m : Std.TreeMap α β cmp) (k a : α) :
    (m.erase k)[a]? = if a = k then none else m[a]? := by
  rw [Std.TreeMap.getElem?_erase]
  simp only [Std.LawfulEqCmp.compare_eq_iff_eq, @eq_comm _ k a]

omit [Std.LawfulEqCmp cmp] [DecidableEq α] in
theorem size_insert_if (m : Std.TreeMap α β cmp) (k : α) (v : β) :
    (m.insert k v).size = if m[k]?.isSome then m.size else m.size + 1 := by
  rw [Std.TreeMap.size_insert, Std.TreeMap.contains_eq_isSome_getElem?]

omit [Std.LawfulEqCmp cmp] [DecidableEq α] in
theorem size_erase_if (m : Std.TreeMap α β cmp) (k : α) :
    (m.erase k).size = if m[k]?.isSome then m.size - 1 else m.size := by
  rw [Std.TreeMap.size_erase, Std.TreeMap.contains_eq_isSome_getElem?]

/-! ### Sums over a map -/

/-- The sum of `w` over the entries. -/
def weigh (w : α → β → ℕ) (m : Std.TreeMap α β cmp) : ℕ := (m.toList.map fun x => w x.1 x.2).sum

section Weigh
variable {w : α → β → ℕ} {m m' : Std.TreeMap α β cmp} {k : α} {v v' : β}

omit [DecidableEq α] in
/-- The sum depends on the lookups alone. -/
theorem weigh_congr (h : ∀ a : α, m[a]? = m'[a]?) : weigh w m = weigh w m' := by
  rw [weigh, weigh, (Std.TreeMap.Equiv.of_forall_constGet?_eq h).toList_eq]

theorem weigh_insert_new (h : m[k]? = none) : weigh w (m.insert k v) = w k v + weigh w m := by
  have hall : m.toList.filter (fun x => ¬k == x.1) = m.toList := by
    rw [List.filter_eq_self]
    intro x hx
    have hget := Std.TreeMap.mem_toList_iff_getElem?_eq_some.mp hx
    have hne : k ≠ x.1 := by
      rintro rfl
      rw [h] at hget
      cases hget
    simpa using hne
  have hperm := (Std.TreeMap.toList_insert_perm (t := m) (k := k) (v := v)).map
    fun x : α × β => w x.1 x.2
  rw [hall] at hperm
  exact hperm.sum_eq

theorem weigh_erase (h : m[k]? = some v) : weigh w m = w k v + weigh w (m.erase k) := by
  have hnone : (m.erase k)[k]? = none := by rw [getElem?_erase_if, if_pos rfl]
  rw [← weigh_insert_new hnone]
  apply weigh_congr
  intro a
  rw [getElem?_insert_if, getElem?_erase_if]
  split
  · rename_i hak
    rw [hak, h]
  · rfl

theorem weigh_insert_old (h : m[k]? = some v') :
    weigh w (m.insert k v) + w k v' = w k v + weigh w m := by
  have hnone : (m.erase k)[k]? = none := by rw [getElem?_erase_if, if_pos rfl]
  have hsame : weigh w (m.insert k v) = weigh w ((m.erase k).insert k v) := by
    apply weigh_congr
    intro a
    rw [getElem?_insert_if, getElem?_insert_if, getElem?_erase_if]
    split
    · rfl
    · rfl
  rw [hsame, weigh_insert_new hnone, weigh_erase h]
  omega

end Weigh

end Hotpath.Support
