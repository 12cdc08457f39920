import Hotpath.Book.HybridOps

/-!
# Walking the hybrid book best price first

The grid of a side is a set of ticks, and `snapshot` is the walk over it and the
overflow map.
-/

namespace Hotpath.Book.HybridBook
open Hotpath.Support

variable {b : HybridBook} {Q : Queues} {s : Side}

/-- The ticks of a side with a level. -/
def used (b : HybridBook) (s : Side) (t : ℕ) : Prop := 0 ≤ (b.grid s).slot.getD t (-1)

theorem GridOk.used_priceOf (hg : GridOk b) {t : ℕ} (ht : used b s t) :
    t < b.ticks ∧ 0 ≤ b.levelIx s (b.priceOf t) := by
  have hlt := hg.tick_lt ht
  exact ⟨hlt, by rw [hg.levelIx_priceOf hlt]; exact ht⟩

theorem GridOk.used_tickOf (hg : GridOk b) {p : Price} (hin : b.inGrid p = true) :
    used b s (b.tickOf p) ↔ 0 ≤ b.levelIx s p := by
  rw [used, ← hg.levelIx_priceOf (tickOf_lt hin), hg.window.priceOf_tickOf hin]

theorem GridOk.tickSet (hg : GridOk b) (s : Side) : TickSet b.span (b.grid s).bits :=
  ⟨hg.window.span, hg.words s, fun t ht => hg.tick_lt ((hg.bits s t).mp ht)⟩

theorem scan_eq (b : HybridBook) (s : Side) (from_ : ℤ) :
    b.scan s (b.grid s) from_ = scanTicks (b.grid s).bits b.span.ticks s from_ := by
  cases s <;> rfl

theorem GridOk.scan_start (hg : GridOk b) (s : Side) :
    ∃ r, b.scan s (b.grid s) (b.scanStart s) = some r ∧ IsTop s (used b s) r := by
  have hscan := @TickSet.scan_start _ _ (hg.tickSet s) s (b.scanStart s)
  obtain ⟨r, hr, htop⟩ := hscan (by cases s <;> rfl)
  rw [scan_eq]
  exact ⟨r, hr, htop.congr fun t => hg.bits s t⟩

/-! ### The walk -/

/-- What `snapshot` says about the level at a price. -/
def viewAt (b : HybridBook) (Q : Queues) (s : Side) (p : Price) : LevelView :=
  ⟨p, UInt32.ofNat (b.total (Q s p)), UInt32.ofNat (Q s p).length⟩

theorem Core.viewOf_eq (hc : Core b Q) {p : Price} (hx : 0 ≤ b.levelIx s p) :
    b.viewOf (b.levelIx s p) = some (viewAt b Q s p) := by
  obtain ⟨n, hn, hlt, -, hl⟩ := hc.level s p hx
  have hsub : subscript b.levels (n : ℤ) = some (b.lev n) := subscript_cast hlt _
  rw [viewOf, hn, hsub, viewAt, ← hl.qty, ← hl.orders]
  show some (LevelView.mk (b.lev n).price _ _) = _
  rw [hl.price]

theorem collectLoop_walk (b : HybridBook) (s : Side) (n : ℕ) (t : ℤ) (oit : List (Price × ℤ)) :
    b.collectLoop s n t oit = walk b.span (b.grid s).bits s
      (fun t => (subscript (b.grid s).slot (t : ℤ)).bind b.viewOf) (fun x => b.viewOf x.2)
      n t oit := by
  induction n generalizing t oit with
  | zero => rfl
  | succ n ih =>
    by_cases ht : t < 0
    · cases oit with
      | nil => rw [collectLoop, walk, if_pos ht, if_pos ht]
      | cons x rest =>
        rw [collectLoop, walk, if_pos ht, if_pos ht]
        simp only [ih]
    · obtain ⟨k, rfl⟩ := Int.eq_ofNat_of_zero_le (not_lt.mp ht)
      cases oit with
      | nil =>
        rw [collectLoop, walk, if_neg ht, if_neg ht]
        simp only [ih, scan_eq, Option.bind_eq_bind, Option.bind_assoc, Int.toNat_natCast]
      | cons x rest =>
        rw [collectLoop, walk, if_neg ht, if_neg ht]
        simp only [ih, scan_eq, Option.bind_eq_bind, Option.bind_assoc, Int.toNat_natCast]
        rfl

theorem Core.atTick_eq (hc : Core b Q) {t : ℕ} (ht : bitAt (b.grid s).bits t = true) :
    (subscript (b.grid s).slot (t : ℤ)).bind b.viewOf =
      some (viewAt b Q s (b.span.priceOf t)) := by
  obtain ⟨hlt, hx⟩ := hc.grid.used_priceOf ((hc.grid.bits s t).mp ht)
  have hslot : subscript (b.grid s).slot (t : ℤ) = some (b.levelIx s (b.priceOf t)) := by
    rw [hc.grid.levelIx_priceOf hlt]
    exact subscript_cast (by rw [hc.grid.slots]; exact hlt) _
  rw [hslot, Option.bind_some, hc.viewOf_eq hx]
  rfl

theorem Core.entry_eq (hc : Core b Q) {p : Price} {li : ℤ} (h : (b.over_ s)[p]? = some li) :
    b.inGrid p = false ∧ b.viewOf li = some (viewAt b Q s p) := by
  obtain ⟨hin, h0⟩ := hc.grid.outside s p li h
  have hx : b.levelIx s p = li := by
    rw [levelIx, hin, h]
    rfl
  refine ⟨hin, ?_⟩
  rw [← hx] at h0 ⊢
  exact hc.viewOf_eq h0

end Hotpath.Book.HybridBook
