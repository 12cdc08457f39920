import Hotpath.Book.HybridBest
import Hotpath.Sim.Quoting

/-!
# Quotes in flight

A change decided at time `t` lands no earlier than `t + latency`, and then at the
first event with a usable touch: at the touch before the event if that one is
usable, before the event's fills, otherwise at the touch after it. Until then the
old quote stands, and only fills take from it.
-/

namespace Hotpath.Book.HybridBook

variable {b : HybridBook} {s : Side}

theorem setHint_levelFor {r : ℤ} : (b.setHint s r).levelFor = b.levelFor := by
  funext s' p
  simp only [levelFor, lookupLevel, setHint_slot]
  rfl

end Hotpath.Book.HybridBook

namespace Hotpath.Sim
open Hotpath.Book

namespace MarketMaker

variable {mm mm' mm1 : MarketMaker} {s : Side} {e : BookEvent} {bb ba : Price}

/-- The best prices reported before and after an event. -/
def touches (mm : MarketMaker) (e : BookEvent) : Option ((Price × Price) × Price × Price) := do
  let (bb0, ba0, mm) ← mm.queryTouch
  let book ← Book.apply mm.book e
  let (bb, ba, _) ← { mm with book := book }.queryTouch
  return ((bb0, ba0), bb, ba)

/-- A change due at `T` can land at this input. -/
def Ripe (T : Ts) (mm : MarketMaker) : Input → Prop
  | .quoting _ _ => False
  | .event e => T ≤ e.ts ∧ ∃ bb0 ba0 bb ba, mm.touches e = some ((bb0, ba0), bb, ba) ∧
      (usable bb0 ba0 = true ∨ usable bb ba = true)

/-- `decide` puts the side's quote in flight at the event. -/
def Launches (mm : MarketMaker) (e : BookEvent) (s : Side) : Prop :=
  ∃ mm1 pre book bb ba mm2, mm.landEarlier e.ts = some mm1 ∧ mm1.resolve e = some pre ∧
    Book.apply mm1.book e = some book ∧
    (({ mm1 with book := book } : MarketMaker).stepSides pre e).1.queryTouch = some (bb, ba, mm2) ∧
    usable bb ba = true ∧ (mm2.quote s).inFlight = false ∧
    ((mm2.decided bb ba e.ts).quote s).inFlight = true

/-- The quote `q` still waits at `T` for the change decided on `q0`; `f` shares
of it were filled in the meantime. -/
structure Waiting (T : Ts) (q0 q : Quote) (f : ℕ) : Prop where
  inFlight : q.inFlight = true
  landsAt : q.landsAt = T
  want : q.wantActive = q0.wantActive
  px : q.px = q0.px
  ahead : q.aheadAtJoin = q0.aheadAtJoin
  active : q.active = true → q0.active = true
  rest : live q + f = live q0

/-- The change of `q` lands at `target`, behind what rests there in the book. -/
structure Lands (b : HybridBook) (s : Side) (target : Price) (size : Qty) (q q' : Quote) :
    Prop where
  landed : q'.inFlight = false
  joins : q.wantActive = true → q'.active = true ∧ q'.px = target ∧ q'.remaining = size ∧
    resting b s target = some q'.aheadAtJoin
  leaves : q.wantActive = false → q'.active = false

/-! ### Stages of an event -/

theorem queryTouch_resting (h : mm.queryTouch = some (bb, ba, mm1)) (s : Side) (target : Price) :
    resting mm1.book s target = resting mm.book s target := by
  obtain ⟨b1, b2, h1, h2, rfl⟩ := queryTouch_some.mp h
  obtain ⟨r, rfl⟩ := HybridBook.best_setHint h1
  obtain ⟨r', rfl⟩ := HybridBook.best_setHint h2
  simp only [resting, HybridBook.setHint_levelFor]

theorem Landed.due_lands {target : Price} {now : Ts} {q : Quote} {pos : QueuePosition}
    (h : Landed mm s target now q pos) (hd : due (mm.quote s) now) :
    Lands mm.book s target mm.quoteSize (mm.quote s) q := by
  cases h with
  | wait hn => exact absurd hd hn
  | gone _ hw =>
    refine ⟨rfl, fun h => ?_, fun _ => rfl⟩
    rw [hw] at h
    cases h
  | joined r _ hw hr =>
    refine ⟨rfl, fun _ => ⟨rfl, rfl, rfl, hr⟩, fun h => ?_⟩
    rw [hw] at h
    cases h

theorem touches_eq {bb0 ba0 : Price} {mq mq' : MarketMaker} {book : HybridBook}
    (hq : mm.queryTouch = some (bb0, ba0, mq)) (hb : mm1.book = mq.book)
    (hstep : Book.apply mm1.book e = some book) (hbook : mm'.book = book)
    (hq' : mm'.queryTouch = some (bb, ba, mq')) : mm.touches e = some ((bb0, ba0), bb, ba) := by
  obtain ⟨b1, b2, h1, h2, -⟩ := queryTouch_some.mp hq'
  have hlast : ({ mq with book := book } : MarketMaker).queryTouch =
      some (bb, ba, { mq with book := b2 }) := by
    rw [queryTouch_some]
    rw [hbook] at h1
    exact ⟨b1, b2, h1, h2, rfl⟩
  rw [hb] at hstep
  simp only [touches, hq, hstep, hlast, Option.bind_eq_bind, Option.bind_some]
  rfl

theorem landEarlier_flight {now : Ts} (h : mm.landEarlier now = some mm1) :
    ∃ bb ba mq, mm.queryTouch = some (bb, ba, mq) ∧ mm1.book = mq.book ∧ ∀ s,
      (¬(usable bb ba = true ∧ due (mm.quote s) now) → mm1.quote s = mm.quote s) ∧
      (usable bb ba = true → due (mm.quote s) now →
        Lands mm.book s (touchOf bb ba s) mm.quoteSize (mm.quote s) (mm1.quote s)) := by
  obtain ⟨bb, ba, mq, hq, hd, hcase⟩ := landEarlier_some h
  have hmq : mq.quote = mm.quote ∧ mq.quoteSize = mm.quoteSize := by
    obtain ⟨b1, b2, -, -, rfl⟩ := queryTouch_some.mp hq
    exact ⟨rfl, rfl⟩
  refine ⟨bb, ba, mq, hq, hd.book, fun s => ?_⟩
  rcases hcase with ⟨hu, rfl⟩ | ⟨hu, hl⟩
  · exact ⟨fun _ => congrFun hmq.1 s, fun hu' => absurd hu' hu⟩
  · constructor
    · intro hn
      have hnot : ¬due (mq.quote s) now := by
        rw [hmq.1]
        exact fun hd => hn ⟨hu, hd⟩
      rw [((hl s).of_wait hnot).1, hmq.1]
    · intro _ hdue
      have hlands := (hl s).due_lands (by rw [hmq.1]; exact hdue)
      obtain ⟨h1, h2, h3⟩ := hlands
      rw [hmq.1, hmq.2, queryTouch_resting hq] at h2
      rw [hmq.1] at h3
      exact ⟨h1, h2, h3⟩

/-- A quote in flight is not decided on again. -/
theorem requote_flight {now : Ts} {mq : MarketMaker} (h : mm.requote now = some mm')
    (hquery : mm.queryTouch = some (bb, ba, mq)) (hf : (mm.quote s).inFlight = true) :
    (¬(usable bb ba = true ∧ due (mm.quote s) now) → mm'.quote s = mm.quote s) ∧
      (usable bb ba = true → due (mm.quote s) now →
        Lands mm'.book s (touchOf bb ba s) mm.quoteSize (mm.quote s) (mm'.quote s)) := by
  obtain ⟨bb', ba', mq', hq, hd, hcase⟩ := requote_some h
  rw [hquery, Option.some.injEq, Prod.mk.injEq, Prod.mk.injEq] at hq
  obtain ⟨rfl, rfl, rfl⟩ := hq
  have hmq : mq.quote = mm.quote ∧ mq.quoteSize = mm.quoteSize := by
    obtain ⟨b1, b2, -, -, rfl⟩ := queryTouch_some.mp hquery
    exact ⟨rfl, rfl⟩
  have hsame : (mq.decided bb ba now).quote s = mm.quote s := by
    rw [decided_quote, hmq.1, decide, if_pos hf]
  rcases hcase with ⟨hu, rfl⟩ | ⟨hu, hl⟩
  · exact ⟨fun _ => congrFun hmq.1 s, fun hu' => absurd hu' hu⟩
  · constructor
    · intro hn
      have hnot : ¬due ((mq.decided bb ba now).quote s) now := by
        rw [hsame]
        exact fun hd => hn ⟨hu, hd⟩
      rw [((hl s).of_wait hnot).1, hsame]
    · intro _ hdue
      have hlands := (hl s).due_lands (by rw [hsame]; exact hdue)
      rw [hsame] at hlands
      rw [hd.book, ← hmq.2]
      exact hlands

/-- Fills change nothing else of a quote. -/
theorem stepSides_flight (pre : Option Pre) (s : Side) :
    ∃ active remaining, (mm.stepSides pre e).1.quote s =
      { mm.quote s with active := active, remaining := remaining } ∧
    live ((mm.stepSides pre e).1.quote s) + shares s (mm.stepSides pre e).2 =
      live (mm.quote s) ∧ (active = true → (mm.quote s).active = true) := by
  cases pre with
  | none => exact ⟨(mm.quote s).active, (mm.quote s).remaining, rfl, rfl, id⟩
  | some pre =>
    obtain ⟨active, remaining, hk⟩ :=
      stepSide_keeps mm.fillModel (mm.quote s) (mm.pos s) s pre e
    obtain ⟨f, ht⟩ := stepSide_taken mm.fillModel (mm.quote s) (mm.pos s) s pre e
    have hshares := @shares_stepSides mm e pre s fun s x hx =>
      (stepSide_marks _ _ _ s pre e hx).1
    refine ⟨active, remaining, by rw [(stepSides_some pre).2.1, hk], ?_, fun ha => ?_⟩
    · rw [(stepSides_some pre).2.1, hshares, ht.shares]
      exact ht.live
    · refine ht.active ?_
      rw [hk]
      exact ha

/-! ### One event -/

variable {T : Ts} {q0 : Quote} {f : ℕ} {out : List Fill}

theorem Waiting.fill {q q' : Quote} {g : ℕ} (h : Waiting T q0 q f) {active : Bool}
    {remaining : Qty} (hq : q' = { q with active := active, remaining := remaining })
    (hlive : live q' + g = live q) (ha : active = true → q.active = true) :
    Waiting T q0 q' (f + g) := by
  have hl := h.rest
  rw [hq] at hlive ⊢
  exact ⟨h.inFlight, h.landsAt, h.want, h.px, h.ahead, fun hact => h.active (ha hact), by omega⟩

theorem Waiting.due_iff {q : Quote} (h : Waiting T q0 q f) (now : Ts) : due q now ↔ T ≤ now := by
  rw [due, h.landsAt, UInt64.not_lt]
  exact and_iff_right h.inFlight

/-- What an event does to a change in flight: nothing unless it is ripe, when the
change lands at the touch before the event, if it can. -/
theorem Waiting.event (hw : Waiting T q0 (mm.quote s) f)
    (h : mm.onEvent e = some (mm', out)) :
    (¬Ripe T mm (.event e) → Waiting T q0 (mm'.quote s) (f + shares s out)) ∧
    (Ripe T mm (.event e) → ∃ bb0 ba0 bb ba mm1,
      mm.touches e = some ((bb0, ba0), bb, ba) ∧ mm.landEarlier e.ts = some mm1 ∧
      (usable bb0 ba0 = true →
        Lands mm.book s (touchOf bb0 ba0 s) mm.quoteSize (mm.quote s) (mm1.quote s)) ∧
      (¬usable bb0 ba0 = true → mm1.quote s = mm.quote s ∧
        Lands mm'.book s (touchOf bb ba s) mm.quoteSize (mm.quote s) (mm'.quote s))) := by
  obtain ⟨mm1, pre, book, hland, -, hstep, hreq, rfl⟩ := onEvent_some h
  obtain ⟨bb0, ba0, mq, hq, hb, hearly⟩ := landEarlier_flight hland
  obtain ⟨hkeep, hlands⟩ := hearly s
  obtain ⟨bb, ba, mq', hq', -⟩ := requote_some hreq
  have hbook : (({ mm1 with book := book } : MarketMaker).stepSides pre e).1.book = book :=
    (stepSides_desk pre).book
  have htouches := touches_eq hq hb hstep hbook hq'
  have hsize : (({ mm1 with book := book } : MarketMaker).stepSides pre e).1.quoteSize =
      mm.quoteSize := by
    have hset := @stepSides_setup { mm1 with book := book } e pre
    exact hset.quoteSize.trans (landEarlier_setup hland).quoteSize
  -- while the change has not landed before the event, its quote meets the fills
  have hfilled : ¬(usable bb0 ba0 = true ∧ due (mm.quote s) e.ts) →
      Waiting T q0 ((({ mm1 with book := book } : MarketMaker).stepSides pre e).1.quote s)
        (f + shares s (({ mm1 with book := book } : MarketMaker).stepSides pre e).2) := by
    intro hn
    obtain ⟨active, remaining, hfill, hlive, hact⟩ :=
      @stepSides_flight { mm1 with book := book } e pre s
    have hsame : ({ mm1 with book := book } : MarketMaker).quote s = mm.quote s := hkeep hn
    rw [hsame] at hfill hlive hact
    exact hw.fill hfill hlive hact
  constructor
  · intro hripe
    have hpre : ¬(usable bb0 ba0 = true ∧ due (mm.quote s) e.ts) := by
      rintro ⟨hu, hdue⟩
      exact hripe ⟨(hw.due_iff _).mp hdue, bb0, ba0, bb, ba, htouches, Or.inl hu⟩
    have hwait := hfilled hpre
    have hpost : ¬(usable bb ba = true ∧
        due ((({ mm1 with book := book } : MarketMaker).stepSides pre e).1.quote s) e.ts) := by
      rintro ⟨hu, hdue⟩
      exact hripe ⟨(hwait.due_iff _).mp hdue, bb0, ba0, bb, ba, htouches, Or.inr hu⟩
    rw [(requote_flight hreq hq' hwait.inFlight).1 hpost]
    exact hwait
  · rintro ⟨hdue, bb0', ba0', bb', ba', ht, hu⟩
    rw [htouches] at ht
    simp only [Option.some.injEq, Prod.mk.injEq] at ht
    obtain ⟨⟨rfl, rfl⟩, rfl, rfl⟩ := ht
    refine ⟨bb0, ba0, bb, ba, mm1, htouches, hland, fun hu0 => ?_, fun hu0 => ?_⟩
    · exact hlands hu0 ((hw.due_iff _).mpr hdue)
    · have hpre : ¬(usable bb0 ba0 = true ∧ due (mm.quote s) e.ts) := fun h => hu0 h.1
      refine ⟨hkeep hpre, ?_⟩
      have hwait := hfilled hpre
      have hland := (requote_flight hreq hq' hwait.inFlight).2 (hu.resolve_left hu0)
        ((hwait.due_iff _).mpr hdue)
      obtain ⟨h1, h2, h3⟩ := hland
      rw [hwait.want, ← hw.want, hsize] at h2
      rw [hwait.want, ← hw.want] at h3
      exact ⟨h1, h2, h3⟩

/-! ### Runs -/

/-- A decision takes effect on the quote alone; it cannot land in its own event. -/
theorem Launches.waiting (hl : Launches mm e s) (hlat : 1 ≤ mm.latency)
    (hwrap : e.ts.toNat + mm.latency.toNat < 2 ^ 64) (h : mm.onEvent e = some (mm', out)) :
    Waiting (e.ts + mm.latency) (mm'.quote s) (mm'.quote s) 0 := by
  obtain ⟨mm1, pre, book, hland, hpre, hstep, hreq, rfl⟩ := onEvent_some h
  obtain ⟨mm1', pre', book', bb, ba, mq, hland', hpre', hstep', hq, hu, hidle, hflight⟩ := hl
  rw [hland] at hland'
  obtain rfl := Option.some.inj hland'
  rw [hpre] at hpre'
  obtain rfl := Option.some.inj hpre'
  have hbook : book = book' := Option.some.inj (hstep.symm.trans hstep')
  subst hbook
  obtain ⟨bb', ba', mq', hq', hd, hcase⟩ := requote_some hreq
  rw [hq, Option.some.injEq, Prod.mk.injEq, Prod.mk.injEq] at hq'
  obtain ⟨rfl, rfl, rfl⟩ := hq'
  have hlatency : mq.latency = mm.latency := by
    have hset := @stepSides_setup { mm1 with book := book } e pre
    exact ((queryTouch_setup hq).latency.trans hset.latency).trans (landEarlier_setup hland).latency
  have hquote : ((mq.decided bb ba e.ts).quote s).landsAt = e.ts + mm.latency := by
    rw [decided_quote, decide_idle hidle] at hflight ⊢
    by_cases hs : settled (mq.quote s) (touchOf bb ba s) (mq.allow s)
    · rw [if_pos hs, hidle] at hflight
      cases hflight
    · rw [if_neg hs, hlatency]
  have hnot : ¬due ((mq.decided bb ba e.ts).quote s) e.ts := by
    rintro ⟨-, hdue⟩
    rw [hquote, UInt64.lt_iff_toNat_lt, UInt64.toNat_add] at hdue
    have hpos := UInt64.le_iff_toNat_le.mp hlat
    rw [Nat.mod_eq_of_lt hwrap] at hdue
    have hone : (1 : UInt64).toNat = 1 := rfl
    omega
  rcases hcase with ⟨hu', -⟩ | ⟨-, hlanded⟩
  · exact absurd hu hu'
  · have hsame := ((hlanded s).of_wait hnot).1
    rw [← hsame] at hflight hquote
    exact ⟨hflight, hquote, rfl, rfl, rfl, id, Nat.add_zero _⟩

/-- As long as no event is ripe the change waits, and only fills touch the quote. -/
theorem Waiting.run (hw : Waiting T q0 (mm.quote s) f) {xs : List Input}
    (hearly : along (fun mm x => ¬Ripe T mm x) mm xs) (h : mm.run xs = some (mm', out)) :
    Waiting T q0 (mm'.quote s) (f + shares s out) := by
  induction xs generalizing mm f out with
  | nil =>
    obtain ⟨rfl, rfl⟩ := Prod.mk.inj (Option.some.inj h)
    exact hw
  | cons x xs ih =>
    obtain ⟨mm1, f1, f2, h1, h2, rfl⟩ := run_cons h
    have hnext : Waiting T q0 (mm1.quote s) (f + shares s f1) := by
      cases x with
      | quoting bid ask =>
        obtain ⟨rfl, rfl⟩ := Prod.mk.inj (Option.some.inj h1)
        exact hw
      | event e => exact (hw.event h1).1 hearly.1
    have hrest := ih hnext (hearly.2 mm1 f1 h1) h2
    rw [shares_append, ← Nat.add_assoc]
    exact hrest

/-- The law of a quote in flight, at every event of every run. Each fill is marked
stale exactly when its quote is in flight as the fill is attributed. A change
decided at the event waits, whatever the allowances do, while no event is ripe:
price and queue joined stay, and the quote ends only by being filled. The first
ripe event lands it, at the touch before the event, and before its fills, if that
touch is usable, otherwise at the touch after it. -/
theorem quote_in_flight (lo hi : Price) (size : Qty) (latency : Ts) (model : FillModel)
    (maxOrders maxLevels : ℕ) (mm0 : MarketMaker)
    (hmake : make lo hi size latency model maxOrders maxLevels = some mm0) (xs : List Input)
    (mm : MarketMaker) (fills : List Fill) (hrun : mm0.run xs = some (mm, fills)) (e : BookEvent)
    (mm1 : MarketMaker) (out : List Fill) (hev : mm.onEvent e = some (mm1, out)) :
    (∀ f ∈ out, ∃ mma, mm.landEarlier e.ts = some mma ∧ f.price = (mma.quote f.side).px ∧
      (f.stale = true ↔ (mma.quote f.side).inFlight = true)) ∧
    (1 ≤ latency → e.ts.toNat + latency.toNat < 2 ^ 64 → ∀ s, Launches mm e s →
      ∀ ys mm2 more, mm1.run ys = some (mm2, more) →
        along (fun mm x => ¬Ripe (e.ts + latency) mm x) mm1 ys →
        Waiting (e.ts + latency) (mm1.quote s) (mm2.quote s) (shares s more) ∧
        ∀ e' mm3 out', mm2.onEvent e' = some (mm3, out') →
          Ripe (e.ts + latency) mm2 (.event e') → ∃ bb0 ba0 bb ba mma,
            mm2.touches e' = some ((bb0, ba0), bb, ba) ∧ mm2.landEarlier e'.ts = some mma ∧
            (usable bb0 ba0 = true →
              Lands mm2.book s (touchOf bb0 ba0 s) size (mm2.quote s) (mma.quote s)) ∧
            (¬usable bb0 ba0 = true → mma.quote s = mm2.quote s ∧
              Lands mm3.book s (touchOf bb ba s) size (mm2.quote s) (mm3.quote s))) := by
  obtain ⟨b, -, rfl⟩ := make_some hmake
  have hset := run_setup hrun
  constructor
  · intro f hf
    obtain ⟨mma, pre, book, hland, -, -, -, rfl⟩ := onEvent_some hev
    obtain ⟨p, -, -, hprice, hstale, -⟩ := stepSides_marks pre hf
    refine ⟨mma, hland, hprice, ?_⟩
    rw [hstale]
  · intro hlat hwrap s hl ys mm2 more hys hearly
    have hlatency : mm.latency = latency := hset.latency
    rw [← hlatency] at hlat hwrap hearly ⊢
    have hwait := (hl.waiting hlat hwrap hev).run hearly hys
    rw [Nat.zero_add] at hwait
    refine ⟨hwait, fun e' mm3 out' hev' hripe => ?_⟩
    have hsize : mm2.quoteSize = size :=
      ((run_setup hys).quoteSize.trans (@input_setup mm mm1 (.event e) out hev).quoteSize).trans
        hset.quoteSize
    rw [← hsize]
    exact (hwait.event hev').2 hripe

/-- An ask makes the touch at time 2; the bid joins at time 12, behind what came since. -/
theorem quote_in_flight_joins : ∃ mm0 mm mm1 mm2 mm3 mma : MarketMaker,
    ∃ fills out more out' : List Fill, make 100 300 3 10 .naive 8 8 = some mm0 ∧
    mm0.run [.event ⟨1, 1, 0, 200, 5, .add, .buy⟩] = some (mm, fills) ∧
    mm.onEvent ⟨2, 2, 0, 300, 5, .add, .sell⟩ = some (mm1, out) ∧
    mm1.run [.event ⟨5, 3, 0, 200, 4, .add, .buy⟩] = some (mm2, more) ∧
    mm2.onEvent ⟨12, 1, 0, 0, 5, .execute, .buy⟩ = some (mm3, out') ∧
    mm2.landEarlier 12 = some mma ∧ (mm2.quote .buy).inFlight = true ∧
    (mma.quote .buy).active = true ∧ (mma.quote .buy).px = 200 ∧
    resting mm2.book .buy 200 = some (mma.quote .buy).aheadAtJoin := by
  have hrun : ((make 100 300 3 10 .naive 8 8).bind fun mm0 =>
      (mm0.run [.event ⟨1, 1, 0, 200, 5, .add, .buy⟩]).bind fun r =>
      (r.1.onEvent ⟨2, 2, 0, 300, 5, .add, .sell⟩).bind fun r1 =>
      (r1.1.run [.event ⟨5, 3, 0, 200, 4, .add, .buy⟩]).bind fun r2 =>
      (r2.1.onEvent ⟨12, 1, 0, 0, 5, .execute, .buy⟩).map fun _ =>
        ((r2.1.quote .buy).wantActive, r2.1.touches ⟨12, 1, 0, 0, 5, .execute, .buy⟩)) =
      some (true, some ((200, 300), 200, 300)) := by decide +kernel
  have hdecide : ((make 100 300 3 10 .naive 8 8).bind fun mm0 =>
      (mm0.run [.event ⟨1, 1, 0, 200, 5, .add, .buy⟩]).bind fun r =>
      (r.1.landEarlier 2).bind fun m1 => (m1.resolve ⟨2, 2, 0, 300, 5, .add, .sell⟩).bind
        fun pre => (Book.apply m1.book ⟨2, 2, 0, 300, 5, .add, .sell⟩).bind fun book =>
        (({ m1 with book := book } : MarketMaker).stepSides pre
          ⟨2, 2, 0, 300, 5, .add, .sell⟩).1.queryTouch.map fun t =>
          (usable t.1 t.2.1, (t.2.2.quote .buy).inFlight,
            ((t.2.2.decided t.1 t.2.1 2).quote .buy).inFlight)) = some (true, false, true) := by
    decide +kernel
  obtain ⟨mm0, hmake, h⟩ := Option.bind_eq_some_iff.mp hrun
  obtain ⟨⟨mm, fills⟩, hrun, h⟩ := Option.bind_eq_some_iff.mp h
  obtain ⟨⟨mm1, out⟩, hev, h⟩ := Option.bind_eq_some_iff.mp h
  obtain ⟨⟨mm2, more⟩, hys, h⟩ := Option.bind_eq_some_iff.mp h
  obtain ⟨⟨mm3, out'⟩, hev', h⟩ := Option.map_eq_some_iff.mp h
  simp only [Prod.mk.injEq] at h
  obtain ⟨hwant, htouches⟩ := h
  have hlaunch : Launches mm ⟨2, 2, 0, 300, 5, .add, .sell⟩ .buy := by
    rw [hmake, Option.bind_some, hrun, Option.bind_some] at hdecide
    obtain ⟨m1, h1, h⟩ := Option.bind_eq_some_iff.mp hdecide
    obtain ⟨pre, h2, h⟩ := Option.bind_eq_some_iff.mp h
    obtain ⟨book, h3, h⟩ := Option.bind_eq_some_iff.mp h
    obtain ⟨⟨bb, ba, m2⟩, h4, h⟩ := Option.map_eq_some_iff.mp h
    simp only [Prod.mk.injEq] at h
    exact ⟨m1, pre, book, bb, ba, m2, h1, h2, h3, h4, h.1, h.2.1, h.2.2⟩
  have hearly : along (fun mm x => ¬Ripe (2 + 10) mm x) mm1
      [.event ⟨5, 3, 0, 200, 4, .add, .buy⟩] :=
    ⟨fun hr => absurd hr.1 (by decide), fun _ _ _ => trivial⟩
  obtain ⟨-, hlaw⟩ := quote_in_flight 100 300 3 10 .naive 8 8 mm0 hmake _ mm fills hrun _ mm1 out hev
  obtain ⟨hwait, hlands⟩ := hlaw (by decide) (by decide) .buy hlaunch _ mm2 more hys hearly
  obtain ⟨bb0, ba0, bb, ba, mma, ht, hland, hbefore, -⟩ :=
    hlands _ mm3 out' hev' ⟨by decide, 200, 300, 200, 300, htouches, Or.inl (by decide)⟩
  rw [htouches] at ht
  simp only [Option.some.injEq, Prod.mk.injEq] at ht
  obtain ⟨⟨rfl, rfl⟩, -⟩ := ht
  obtain ⟨hactive, hpx, -, hrest⟩ := (hbefore (by decide)).joins hwant
  exact ⟨mm0, mm, mm1, mm2, mm3, mma, fills, out, more, out', hmake, hrun, hev, hys, hev', hland,
    hwait.inFlight, hactive, hpx, hrest⟩

end MarketMaker

end Hotpath.Sim
