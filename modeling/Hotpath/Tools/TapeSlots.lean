import Hotpath.Core.OpenHashValues
import Hotpath.Tools.ExtractTape

/-!
# The extractor's subscripts

Every index the extractor keeps is that of a target: no subscript of `targets`
is out of range, and a step fails only where a probe of the index does.
-/

namespace Hotpath.Tools.ExtractTape
open Hotpath.Itch (StockLocate)
open Hotpath.Book OpenHashMap

structure Valid (e : ExtractTape) : Prop where
  slots : All (fun r => r.slot.toNat ≤ e.targets.length) e.route
  locates : ∀ (l : StockLocate) (i : ℕ), e.locateToTarget[l]? = some i → i < e.targets.length
  symbols : ∀ (s : UInt64) (i : ℕ), e.symbolToTarget[s]? = some i → i < e.targets.length

variable {e e' : ExtractTape}

/-- The map of the symbols holds indices of requested symbols alone. -/
theorem symbols_lt (want : List Itch.Symbol) (n : ℕ) (m : Std.TreeMap UInt64 ℕ)
    (hm : ∀ (s : UInt64) (i : ℕ), m[s]? = some i → i < n + want.length) :
    ∀ (s : UInt64) (i : ℕ), ((want.zipIdx n).foldl (fun m x => m.insert x.1.raw x.2) m)[s]? = some i →
      i < n + want.length := by
  induction want generalizing n m with
  | nil => exact hm
  | cons w want ih =>
    have hlen : n + (w :: want).length = n + 1 + want.length := by
      rw [List.length_cons]
      omega
    rw [hlen] at hm ⊢
    apply ih
    intro s i hi
    rw [Std.TreeMap.getElem?_insert] at hi
    split at hi
    · cases hi
      omega
    · exact hm s i hi

theorem Valid.start {tablePow2 : ℕ} {route : OpenHashMap Route} (want : List Itch.Symbol)
    (hm : make tablePow2 = some route) : (ExtractTape.start want route).Valid := by
  have hlen : (ExtractTape.start want route).targets.length = want.length := List.length_map _
  constructor
  case slots => exact All.make (Nat.zero_le _) hm
  case locates =>
    intro l i hi
    exact absurd hi (by simp [ExtractTape.start])
  case symbols =>
    intro s i hi
    have hlt := symbols_lt want 0 ∅ (fun s i h => absurd h (by simp)) s i hi
    rwa [hlen, ← Nat.zero_add want.length]

/-- An event for a target that is there is appended, and nothing else changes. -/
theorem emit_some {slot : UInt16} (hs : slot.toNat ≤ e.targets.length) (event : BookEvent) :
    ∃ ts n, e.emit slot event = some { e with targets := ts, routed := n } ∧
      ts.length = e.targets.length := by
  unfold emit
  split
  · exact ⟨e.targets, e.routed, rfl, rfl⟩
  · rename_i hz
    have hpos : slot.toNat ≠ 0 := fun h => hz (UInt16.toNat_inj.mp h)
    have hlt : slot.toNat - 1 < e.targets.length := by omega
    rw [List.getElem?_eq_getElem hlt]
    exact ⟨_, _, rfl, List.length_set⟩

theorem Valid.slotFor (hv : e.Valid) (locate : StockLocate) :
    (e.slotFor locate).toNat ≤ e.targets.length := by
  unfold ExtractTape.slotFor
  split
  · exact Nat.zero_le _
  · rename_i i hi
    have hlt := hv.locates _ _ hi
    have hmod : (UInt16.ofNat (i + 1)).toNat ≤ i + 1 := by
      rw [UInt16.toNat_ofNat']
      exact Nat.mod_le _ _
    exact le_trans hmod hlt

/-- The bounds speak of the number of targets only. -/
theorem Valid.of_length (hv : e.Valid) {ts : List Target} {route : OpenHashMap Route}
    {routed unroutable insertFailed : ℕ} (hlen : ts.length = e.targets.length)
    (hr : All (fun r => r.slot.toNat ≤ e.targets.length) route) :
    (ExtractTape.mk e.locateToTarget e.symbolToTarget ts route routed unroutable
      insertFailed).Valid := by
  constructor
  case slots =>
    show All (fun r => r.slot.toNat ≤ ts.length) route
    rwa [hlen]
  case locates =>
    intro l i hi
    exact hlen ▸ hv.locates l i hi
  case symbols =>
    intro s i hi
    exact hlen ▸ hv.symbols s i hi

end Hotpath.Tools.ExtractTape
