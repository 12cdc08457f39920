import Hotpath.Book.GridWalk

/-!
# The dense price window (book/hybrid_book.hpp)

Ticks and prices of the window correspond: `tickOf` and `priceOf` are inverse
on it and keep the order.
-/

namespace Hotpath.Book.HybridBook

/-- What the constructor establishes about the window; no operation changes it. -/
structure Window (b : HybridBook) : Prop where
  aligned : b.lo.toNat % 100 = 0
  pos : 0 < b.ticks
  top : b.lo.toNat + 100 * (b.ticks - 1) < 2 ^ 32

def span (b : HybridBook) : Span := ⟨b.lo, b.ticks⟩

variable {b : HybridBook}

theorem Window.span (hw : Window b) : b.span.Ok := ⟨hw.aligned, hw.pos, hw.top⟩

theorem tickOf_lt {px : Price} (h : b.inGrid px = true) : b.tickOf px < b.ticks :=
  Span.tickOf_lt (w := b.span) h

theorem Window.inGrid_priceOf (hw : Window b) {t : ℕ} (ht : t < b.ticks) :
    b.inGrid (b.priceOf t) = true := hw.span.inGrid_priceOf ht

theorem Window.tickOf_priceOf (hw : Window b) {t : ℕ} (ht : t < b.ticks) :
    b.tickOf (b.priceOf t) = t := hw.span.tickOf_priceOf ht

theorem Window.priceOf_tickOf (hw : Window b) {px : Price} (h : b.inGrid px = true) :
    b.priceOf (b.tickOf px) = px := hw.span.priceOf_tickOf h

theorem Window.tickOf_inj (hw : Window b) {p q : Price} (hp : b.inGrid p = true)
    (hq : b.inGrid q = true) (h : b.tickOf p = b.tickOf q) : p = q := hw.span.tickOf_inj hp hq h

/-- What the constructor builds around a fresh table. -/
theorem make_some {lo hi : Price} {maxOrders maxLevels : ℕ}
    (h : make lo hi maxOrders maxLevels = some b) :
    ¬hi < lo - lo % kTick ∧ ∃ ids ticks, OpenHashMap.make maxOrders = some ids ∧
      ticks = ((hi - (lo - lo % kTick)) / kTick).toNat + 1 ∧
      b = ⟨lo - lo % kTick, ticks, fun _ => freshGrid ticks, fun _ => ∅,
        List.replicate maxOrders {}, List.replicate maxLevels {}, (List.range maxOrders).map int32,
        (List.range maxLevels).map int32, ids, 0, 0, 1⟩ := by
  unfold make at h
  by_cases hle : hi < lo - lo % kTick
  · rw [if_pos hle] at h
    cases h
  · rw [if_neg hle] at h
    obtain ⟨ids, hids, heq⟩ := Option.bind_eq_some_iff.mp h
    exact ⟨hle, ids, _, hids, rfl, (Option.some.inj heq).symm⟩

theorem make_window {lo hi : Price} {maxOrders maxLevels : ℕ}
    (h : make lo hi maxOrders maxLevels = some b) : Window b := by
  obtain ⟨hle, ids, ticks, -, rfl, rfl⟩ := make_some h
  obtain ⟨ha, hp, ht⟩ := Span.Ok.make hle
  exact ⟨ha, hp, ht⟩

end Hotpath.Book.HybridBook
