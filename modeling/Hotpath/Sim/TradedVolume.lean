import Hotpath.Sim.Quoting

/-!
# Fills and the volume that traded

The fill model reads a message's own share count, where the book takes no more
than the order has. Each side's accounting is exact, so it stays within what left
the book exactly where the message asks for no more, or the quote could take no
more.
-/

namespace Hotpath.Sim.MarketMaker
open Hotpath.Book

variable {mm mm' : MarketMaker} {q : Quote} {pos : QueuePosition} {s : Side} {e : BookEvent}
  {pre : Pre}

/-! ### What the fill model counts -/

/-- An execution is spent on the queue ahead and then on the quote. -/
theorem onExecution_total (pos : QueuePosition) (seq : UInt32) (executed rem : Qty) :
    (pos.onExecution seq executed rem).1.toNat + pos.ahead.toNat =
      (pos.onExecution seq executed rem).2.ahead.toNat +
        min executed.toNat (pos.ahead.toNat + rem.toNat) ∧
    ((pos.onExecution seq executed rem).1 ≠ 0 →
      (pos.onExecution seq executed rem).2.ahead = 0) := by
  have hgen : ∀ p : QueuePosition, p.ahead = pos.ahead →
      ∀ r, r = (if executed ≤ p.ahead then ((0 : Qty), { p with ahead := p.ahead - executed })
        else (if executed - p.ahead < rem then executed - p.ahead else rem, { p with ahead := 0 })) →
      r.1.toNat + pos.ahead.toNat =
        r.2.ahead.toNat + min executed.toNat (pos.ahead.toNat + rem.toNat) ∧
        (r.1 ≠ 0 → r.2.ahead = 0) := by
    intro p hp r hr
    by_cases hle : executed ≤ p.ahead
    · rw [if_pos hle] at hr
      have hle' := UInt32.le_iff_toNat_le.mp hle
      have hsub := UInt32.toNat_sub_of_le _ _ hle
      rw [hr, ← hp]
      refine ⟨?_, fun h => absurd rfl h⟩
      show 0 + p.ahead.toNat = (p.ahead - executed).toNat + _
      omega
    · rw [if_neg hle] at hr
      have hlt : ¬executed.toNat ≤ p.ahead.toNat := fun h => hle (UInt32.le_iff_toNat_le.mpr h)
      have hsub : (executed - p.ahead).toNat = executed.toNat - p.ahead.toNat :=
        UInt32.toNat_sub_of_le _ _ (UInt32.le_iff_toNat_le.mpr (by omega))
      have hmin := (least_le (executed - p.ahead) rem).2
      rw [hr, ← hp]
      refine ⟨?_, fun _ => rfl⟩
      show (if executed - p.ahead < rem then executed - p.ahead else rem).toNat + p.ahead.toNat =
        0 + _
      omega
  apply hgen (if pos.ahead > 0 ∧ ¬pos.isAhead seq
    then { pos with behindWhileQueued := pos.behindWhileQueued + 1 } else pos)
  · split <;> rfl
  · rfl

/-- A cancelled or deleted order shortens the queue by what it can. -/
theorem shorten_total (pos : QueuePosition) (seq : UInt32) (gone : Qty) :
    pos.ahead.toNat = (pos.shorten seq gone).ahead.toNat +
      if pos.isAhead seq = true then min gone.toNat pos.ahead.toNat else 0 := by
  unfold QueuePosition.shorten
  by_cases ha : pos.isAhead seq = true
  · rw [if_neg (not_not.mpr ha), if_pos ha]
    obtain ⟨hle, hmin⟩ := least_le gone pos.ahead
    have hsub := UInt32.toNat_sub_of_le _ _ hle
    have hle' := UInt32.le_iff_toNat_le.mp hle
    show pos.ahead.toNat = (pos.ahead - if gone < pos.ahead then gone else pos.ahead).toNat + _
    omega
  · rw [if_pos ha, if_neg ha]
    rfl

/-- A fill, and the queue position it leaves when nothing was ahead any more. -/
theorem filled_ahead (ts : Ts) (side : Side) (swept : Bool) {f : Qty}
    (ha : f ≠ 0 → pos.ahead = 0) : (filled ts side q pos f swept).2.1.ahead = pos.ahead := by
  unfold filled
  by_cases h0 : f = 0
  · rw [if_pos h0]
  · rw [if_neg h0]
    unfold take
    by_cases hz : q.remaining - f = 0
    · simp only [hz, if_true]
      exact (ha h0).symm
    · simp only [hz, if_false]

/-! ### One event on one side -/

/-- What the order gives up, in the book's terms. -/
def removed (pre : Pre) (e : BookEvent) : ℕ := min e.shares.toNat pre.qty.toNat

/-- Fills and queue movement of the side stay within what left the book. -/
structure Honest (mm1 : MarketMaker) (pre : Pre) (e : BookEvent) (s : Side) : Prop where
  executed : (mm1.quote s).active = true → pre.side = s → e.type = .execute →
    pre.px = (mm1.quote s).px →
    shares s (mm1.stepSides (some pre) e).2 + (mm1.pos s).ahead.toNat ≤
      ((mm1.stepSides (some pre) e).1.pos s).ahead.toNat + removed pre e
  swept : (mm1.quote s).active = true → pre.side = s → e.type = .execute →
    strictlyBetter s (mm1.quote s).px pre.px = true →
    shares s (mm1.stepSides (some pre) e).2 ≤ removed pre e
  cancelled : (mm1.quote s).active = true → pre.side = s → e.type = .cancel →
    pre.px = (mm1.quote s).px →
    (mm1.pos s).ahead.toNat ≤
      ((mm1.stepSides (some pre) e).1.pos s).ahead.toNat + removed pre e

/-- The message asks for no more than the order has, or than the quote and the
queue ahead of it have to give. -/
structure Covered (mm1 : MarketMaker) (pre : Pre) (e : BookEvent) (s : Side) : Prop where
  executed : (mm1.quote s).active = true → pre.side = s → e.type = .execute →
    pre.px = (mm1.quote s).px →
    e.shares ≤ pre.qty ∨
      (mm1.pos s).ahead.toNat + (mm1.quote s).remaining.toNat ≤ pre.qty.toNat
  swept : (mm1.quote s).active = true → pre.side = s → e.type = .execute →
    strictlyBetter s (mm1.quote s).px pre.px = true →
    e.shares ≤ pre.qty ∨ (mm1.quote s).remaining ≤ pre.qty
  cancelled : (mm1.quote s).active = true → pre.side = s → e.type = .cancel →
    pre.px = (mm1.quote s).px →
    (mm1.pos s).isAhead pre.seq = false ∨ e.shares ≤ pre.qty ∨ (mm1.pos s).ahead ≤ pre.qty

section Event
variable (hmodel : mm.fillModel = .queueAware)
include hmodel

theorem side_fills (pre : Pre) (e : BookEvent) (s : Side) :
    shares s (mm.stepSides (some pre) e).2 =
      shares s (stepSide .queueAware (mm.quote s) (mm.pos s) s pre e).2.2 := by
  rw [shares_stepSides pre s, hmodel]
  intro s x hx
  rw [hmodel] at hx
  obtain ⟨f, ht, -⟩ := stepSide_queueAware (mm.quote s) (mm.pos s) s pre e
  exact ht.side x hx

theorem side_pos (pre : Pre) (e : BookEvent) (s : Side) :
    (mm.stepSides (some pre) e).1.pos s =
      (stepSide .queueAware (mm.quote s) (mm.pos s) s pre e).2.1 := by
  rw [(stepSides_some pre).2.2.1, hmodel]

theorem executed_total (ha : (mm.quote s).active = true) (hside : pre.side = s)
    (he : e.type = .execute) (hpx : pre.px = (mm.quote s).px) :
    shares s (mm.stepSides (some pre) e).2 + (mm.pos s).ahead.toNat =
      ((mm.stepSides (some pre) e).1.pos s).ahead.toNat +
        min e.shares.toNat ((mm.pos s).ahead.toNat + (mm.quote s).remaining.toNat) := by
  have hbetter : ¬(e.type = .execute ∧ strictlyBetter s (mm.quote s).px pre.px = true) := by
    rintro ⟨-, h⟩
    rw [hpx] at h
    cases s <;> simp [strictlyBetter] at h
  have hguard : ¬(¬(mm.quote s).active = true ∨ pre.side ≠ s) := by
    rw [not_or, not_not, not_not]
    exact ⟨ha, hside⟩
  rw [side_fills hmodel, side_pos hmodel, stepSide, if_neg hguard, if_neg hbetter,
    if_neg (not_not.mpr hpx), stepAtPrice]
  simp only [he]
  obtain ⟨htotal, hzero⟩ := onExecution_total (mm.pos s) pre.seq e.shares (mm.quote s).remaining
  have hle := (onExecution_le (mm.pos s) pre.seq e.shares (mm.quote s).remaining).1
  rw [(filled_spec e.ts s _ false ha hle).1, filled_ahead e.ts s false hzero]
  exact htotal

theorem swept_total (ha : (mm.quote s).active = true) (hside : pre.side = s)
    (he : e.type = .execute) (hb : strictlyBetter s (mm.quote s).px pre.px = true) :
    shares s (mm.stepSides (some pre) e).2 =
      min e.shares.toNat (mm.quote s).remaining.toNat := by
  have hguard : ¬(¬(mm.quote s).active = true ∨ pre.side ≠ s) := by
    rw [not_or, not_not, not_not]
    exact ⟨ha, hside⟩
  obtain ⟨hle, hmin⟩ := least_le e.shares (mm.quote s).remaining
  rw [side_fills hmodel]
  simp only [stepSide, if_neg hguard, if_pos (And.intro he hb)]
  rw [(filled_spec e.ts s _ true ha hle).1, hmin]

theorem cancelled_total (ha : (mm.quote s).active = true) (hside : pre.side = s)
    (he : e.type = .cancel) (hpx : pre.px = (mm.quote s).px) :
    (mm.pos s).ahead.toNat = ((mm.stepSides (some pre) e).1.pos s).ahead.toNat +
      if (mm.pos s).isAhead pre.seq = true then min e.shares.toNat (mm.pos s).ahead.toNat
      else 0 := by
  have hguard : ¬(¬(mm.quote s).active = true ∨ pre.side ≠ s) := by
    rw [not_or, not_not, not_not]
    exact ⟨ha, hside⟩
  have hexec : ¬(e.type = .execute ∧ strictlyBetter s (mm.quote s).px pre.px = true) := by
    rintro ⟨h, -⟩
    rw [he] at h
    cases h
  rw [side_pos hmodel, stepSide, if_neg hguard, if_neg hexec, if_neg (not_not.mpr hpx),
    stepAtPrice]
  simp only [he]
  exact shorten_total (mm.pos s) pre.seq e.shares

theorem honest_iff (pre : Pre) (e : BookEvent) (s : Side) :
    Honest mm pre e s ↔ Covered mm pre e s := by
  constructor
  · intro h
    constructor
    case executed =>
      intro ha hside he hpx
      have htotal := executed_total hmodel ha hside he hpx
      have hle := h.executed ha hside he hpx
      rw [UInt32.le_iff_toNat_le]
      unfold removed at hle
      omega
    case swept =>
      intro ha hside he hb
      have htotal := swept_total hmodel ha hside he hb
      have hle := h.swept ha hside he hb
      rw [UInt32.le_iff_toNat_le, UInt32.le_iff_toNat_le]
      unfold removed at hle
      omega
    case cancelled =>
      intro ha hside he hpx
      have htotal := cancelled_total hmodel ha hside he hpx
      have hle := h.cancelled ha hside he hpx
      rw [UInt32.le_iff_toNat_le, UInt32.le_iff_toNat_le]
      unfold removed at hle
      by_cases hahead : (mm.pos s).isAhead pre.seq = true
      · rw [if_pos hahead] at htotal
        right
        omega
      · left
        exact Bool.not_eq_true _ ▸ hahead
  · intro h
    constructor
    case executed =>
      intro ha hside he hpx
      have htotal := executed_total hmodel ha hside he hpx
      have hc := h.executed ha hside he hpx
      rw [UInt32.le_iff_toNat_le] at hc
      unfold removed
      omega
    case swept =>
      intro ha hside he hb
      have htotal := swept_total hmodel ha hside he hb
      have hc := h.swept ha hside he hb
      rw [UInt32.le_iff_toNat_le, UInt32.le_iff_toNat_le] at hc
      unfold removed
      omega
    case cancelled =>
      intro ha hside he hpx
      have htotal := cancelled_total hmodel ha hside he hpx
      have hc := h.cancelled ha hside he hpx
      rw [UInt32.le_iff_toNat_le, UInt32.le_iff_toNat_le] at hc
      unfold removed
      cases hc with
      | inl hbehind =>
        rw [hbehind, if_neg Bool.false_ne_true] at htotal
        omega
      | inr hc =>
        split at htotal
        · omega
        · omega

end Event

/-! ### Over runs -/

/-- An event of the stream that affects an order: `mm1` is what `stepSides`
starts from and `pre` the order as the book holds it. -/
def Affects (mm0 : MarketMaker) (xs : List Input) (mm1 : MarketMaker) (pre : Pre)
    (e : BookEvent) : Prop :=
  ∃ (n : ℕ) (mm : MarketMaker) (fills : List Fill), xs[n]? = some (.event e) ∧
    mm0.run (xs.take n) = some (mm, fills) ∧ mm.landEarlier e.ts = some mm1 ∧
    mm1.resolve e = some (some pre)

/-- At every point of every stream, no fill or queue movement exceeds what left
the book, exactly when no message asks for more than the order has where the
quote or its queue could take more. -/
theorem fills_within_traded (lo hi : Price) (size : Qty) (latency : Ts) (maxOrders maxLevels : ℕ)
    (mm0 : MarketMaker)
    (hmake : make lo hi size latency .queueAware maxOrders maxLevels = some mm0)
    (xs : List Input) :
    (∀ mm1 pre e, Affects mm0 xs mm1 pre e → ∀ s, Honest mm1 pre e s) ↔
      ∀ mm1 pre e, Affects mm0 xs mm1 pre e → ∀ s, Covered mm1 pre e s := by
  have hiff : ∀ mm1 pre e, Affects mm0 xs mm1 pre e → ∀ s,
      (Honest mm1 pre e s ↔ Covered mm1 pre e s) := by
    intro mm1 pre e h s
    obtain ⟨n, mm, fills, -, hrun, hland, -⟩ := h
    obtain ⟨b, -, rfl⟩ := make_some hmake
    obtain ⟨bb, ba, m1, hq, hd, -⟩ := landEarlier_some hland
    obtain ⟨b1, b2, -, -, rfl⟩ := queryTouch_some.mp hq
    exact honest_iff (hd.fillModel.trans (run_setup hrun).fillModel) pre e s
  constructor
  · intro h mm1 pre e ha s
    exact (hiff mm1 pre e ha s).mp (h mm1 pre e ha s)
  · intro h mm1 pre e ha s
    exact (hiff mm1 pre e ha s).mpr (h mm1 pre e ha s)

/-- A quote of ten at 200, behind an order of five. -/
def behindFive : List Input := [.event ⟨1, 1, 0, 200, 5, .add, .buy⟩,
  .event ⟨2, 2, 0, 300, 5, .add, .sell⟩]

theorem fills_within_traded_thirty : ∃ mm0 : MarketMaker,
    make 100 300 10 0 .queueAware 4 4 = some mm0 ∧
    ((∀ mm1 pre e, Affects mm0 (behindFive ++ [.event ⟨3, 1, 0, 0, 30, .execute, .buy⟩]) mm1 pre e →
        ∀ s, Honest mm1 pre e s) ↔
      ∀ mm1 pre e, Affects mm0 (behindFive ++ [.event ⟨3, 1, 0, 0, 30, .execute, .buy⟩]) mm1 pre e →
        ∀ s, Covered mm1 pre e s) := by
  have hmake : (make 100 300 10 0 .queueAware 4 4).isSome = true := by decide +kernel
  obtain ⟨mm0, hmm0⟩ := Option.isSome_iff_exists.mp hmake
  exact ⟨mm0, hmm0, fills_within_traded 100 300 10 0 4 4 mm0 hmm0 _⟩

/-- An execution of 30 shares of that order fills all ten. -/
theorem fills_beyond_traded : ¬∀ (lo hi : Price) (size : Qty) (latency : Ts)
    (maxOrders maxLevels : ℕ) (mm0 : MarketMaker),
    make lo hi size latency .queueAware maxOrders maxLevels = some mm0 →
    ∀ (xs : List Input) mm1 pre e, Affects mm0 xs mm1 pre e → ∀ s, Honest mm1 pre e s := by
  intro hall
  have hrun : ((make 100 300 10 0 .queueAware 4 4).bind fun mm0 =>
      (mm0.run behindFive).bind fun r => (r.1.landEarlier 3).bind fun mm1 =>
        (mm1.resolve ⟨3, 1, 0, 0, 30, .execute, .buy⟩).map fun pre =>
          (pre, (mm1.quote .buy).active, (mm1.quote .buy).px,
            shares .buy (mm1.stepSides pre ⟨3, 1, 0, 0, 30, .execute, .buy⟩).2,
            (mm1.pos .buy).ahead.toNat,
            ((mm1.stepSides pre ⟨3, 1, 0, 0, 30, .execute, .buy⟩).1.pos .buy).ahead.toNat)) =
      some (some ⟨.buy, 200, 1, 5⟩, true, 200, 10, 5, 0) := by decide +kernel
  obtain ⟨mm0, hmm0, hrun⟩ := Option.bind_eq_some_iff.mp hrun
  obtain ⟨⟨mm, fills⟩, hmm, hrun⟩ := Option.bind_eq_some_iff.mp hrun
  obtain ⟨mm1, hland, hrun⟩ := Option.bind_eq_some_iff.mp hrun
  obtain ⟨pre, hpre, hrun⟩ := Option.map_eq_some_iff.mp hrun
  simp only [Prod.mk.injEq] at hrun
  obtain ⟨rfl, hactive, hpx, hfill, hahead, hleft⟩ := hrun
  have haffects : Affects mm0 (behindFive ++ [.event ⟨3, 1, 0, 0, 30, .execute, .buy⟩]) mm1
      ⟨.buy, 200, 1, 5⟩ ⟨3, 1, 0, 0, 30, .execute, .buy⟩ :=
    ⟨2, mm, fills, rfl, hmm, hland, hpre⟩
  have hle := (hall 100 300 10 0 4 4 mm0 hmm0 _ mm1 _ _ haffects .buy).executed hactive rfl rfl
    hpx.symm
  rw [hfill, hahead, hleft] at hle
  exact absurd hle (by decide)

end Hotpath.Sim.MarketMaker
