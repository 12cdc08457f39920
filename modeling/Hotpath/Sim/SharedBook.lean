import Hotpath.Book.HybridGrid
import Hotpath.Sim.Quoting

/-!
# One book under every quoting

Quoting asks the book for its best prices, and the query rewrites a cached tick.
Each event ends with both queries, after which another query finds what is
cached and rewrites nothing. So the book and the mid-price depend on the events
alone, whatever the quote size, the latency, the fill model, the allowances and
the driver's own look at the touch.
-/

namespace Hotpath.Sim
open Hotpath.Book Hotpath.Book.HybridBook

/-- The top of the book a driver reads; all zero when it is not usable. -/
structure Touch where
  bidPx : Price := 0
  askPx : Price := 0
  bidQty : Qty := 0
  askQty : Qty := 0
  deriving DecidableEq, Repr

namespace MarketMaker

variable {mm mm' : MarketMaker} {e : BookEvent}

def touch (mm : MarketMaker) : Option (Touch × MarketMaker) := do
  let (bb, ba, mm) ← mm.queryTouch
  if usable bb ba then
    let lb ← mm.book.levelFor .buy bb
    let la ← mm.book.levelFor .sell ba
    match lb, la with
    | some lb, some la => return ({ bidPx := bb, askPx := ba, bidQty := lb.qty, askQty := la.qty }, mm)
    | _, _ => return ({}, mm)
  else return ({}, mm)

/-- A driver's calls. -/
inductive Drive where
  | input (x : Input)
  | touch
  deriving DecidableEq, Repr

def drive (mm : MarketMaker) : Drive → Option MarketMaker
  | .input x => (mm.input x).map Prod.fst
  | .touch => (mm.touch).map Prod.snd

def drives : MarketMaker → List Drive → Option MarketMaker
  | mm, [] => some mm
  | mm, d :: ds => (mm.drive d).bind fun mm => drives mm ds

def Drive.event? : Drive → Option BookEvent
  | .input (.event e) => some e
  | _ => none

/-- What every configuration sees alike. -/
structure Market where
  book : HybridBook
  mid : ℚ
  haveMid : Bool

def market (mm : MarketMaker) : Market := ⟨mm.book, mm.mid, mm.haveMid⟩

/-- What an event does to it. -/
def Market.step (v : Market) (e : BookEvent) : Option Market := do
  let _ ← ({ book := v.book, quoteSize := 0 } : MarketMaker).resolve e
  let book ← Book.apply v.book e
  let (bb, book) ← book.bestBid
  let (ba, book) ← book.bestAsk
  return if usable bb ba then ⟨book, ((bb.toNat : ℚ) + ba.toNat) / 2, true⟩
    else ⟨book, v.mid, v.haveMid⟩

def Market.steps : Market → List BookEvent → Option Market
  | v, [] => some v
  | v, e :: es => (v.step e).bind fun v => Market.steps v es

/-- The next query of either side changes nothing. -/
structure Queried (b : HybridBook) : Prop where
  indexed : Indexed b
  cached : ∀ s, Cached b s

theorem Queried.queryTouch (h : Queried mm.book) : ∃ bb ba, mm.queryTouch = some (bb, ba, mm) := by
  obtain ⟨bb, hb⟩ := h.indexed.best_cached (h.cached .buy)
  obtain ⟨ba, ha⟩ := h.indexed.best_cached (h.cached .sell)
  exact ⟨bb, ba, queryTouch_some.mpr ⟨_, _, hb, ha, rfl⟩⟩

/-- Both queries settle the book. -/
theorem queries {b : HybridBook} (hi : Indexed b) : ∃ bb ba b1 b2, b.bestBid = some (bb, b1) ∧
    b1.bestAsk = some (ba, b2) ∧ Queried b2 := by
  obtain ⟨bb, r, hfb, hbuy, hcb⟩ := hi.best_caches .buy
  obtain ⟨ba, r', hfa, hsell, hca⟩ := (hi.setHint hfb).best_caches .sell
  have hcb' := hcb.other (r := r') (s := .sell) (by decide)
  refine ⟨bb, ba, _, _, hbuy, hsell, (hi.setHint hfb).setHint hfa, fun s => ?_⟩
  cases s with
  | buy => exact hcb'
  | sell => exact hca

/-! ### Landing -/

theorem landIfDue_market (hi : Indexed mm.book) (s : Side) (target : Price) (now : Ts) :
    ∃ mm', mm.landIfDue s target now = some mm' ∧ mm'.market = mm.market := by
  obtain ⟨level, hl⟩ := hi.levelFor_some (s := s) (p := target)
  have hjoin : ∀ q pos, ∃ mm', (mm.setSide s q pos).join s target = some mm' ∧
      mm'.market = mm.market := by
    intro q pos
    have hl' : (mm.setSide s q pos).book.levelFor s target = some level := hl
    simp only [join, hl', Option.bind_eq_bind, Option.bind_some]
    exact ⟨_, rfl, rfl⟩
  unfold landIfDue
  dsimp only
  split
  · exact ⟨_, rfl, rfl⟩
  · split
    · exact ⟨_, rfl, rfl⟩
    · exact hjoin _ _

theorem landBoth_market (hi : Indexed mm.book) (bb ba : Price) (now : Ts) :
    ∃ mm1 mm2, mm.landIfDue .buy bb now = some mm1 ∧ mm1.landIfDue .sell ba now = some mm2 ∧
      mm2.market = mm.market := by
  obtain ⟨mm1, h1, hv1⟩ := landIfDue_market hi .buy bb now
  have hb : mm1.book = mm.book := congrArg Market.book hv1
  obtain ⟨mm2, h2, hv2⟩ := landIfDue_market (hb ▸ hi) .sell ba now
  exact ⟨mm1, mm2, h1, h2, hv2.trans hv1⟩

theorem landEarlier_market (h : Queried mm.book) (now : Ts) :
    ∃ mm', mm.landEarlier now = some mm' ∧ mm'.market = mm.market := by
  obtain ⟨bb, ba, hq⟩ := h.queryTouch
  obtain ⟨mm1, mm2, h1, h2, hv⟩ := landBoth_market h.indexed bb ba now
  simp only [landEarlier, hq, Option.bind_eq_bind, Option.bind_some]
  split
  · rw [h1, Option.bind_some, h2]
    exact ⟨mm2, rfl, hv⟩
  · exact ⟨mm, rfl, rfl⟩

/-! ### Events -/

theorem requote_market (now : Ts) {bb ba : Price} {b1 b2 : HybridBook}
    (hbid : mm.book.bestBid = some (bb, b1)) (hask : b1.bestAsk = some (ba, b2))
    (hs : Queried b2) : ∃ mm', mm.requote now = some mm' ∧ mm'.market =
      if usable bb ba then ⟨b2, ((bb.toNat : ℚ) + ba.toNat) / 2, true⟩
      else ⟨b2, mm.mid, mm.haveMid⟩ := by
  have hq : mm.queryTouch = some (bb, ba, { mm with book := b2 }) :=
    queryTouch_some.mpr ⟨b1, b2, hbid, hask, rfl⟩
  simp only [requote, hq, Option.bind_eq_bind, Option.bind_some]
  by_cases hu : usable bb ba = true
  · obtain ⟨mm1, mm2, h1, h2, hv⟩ :=
      @landBoth_market (decided { mm with book := b2 } bb ba now) hs.indexed bb ba now
    have hb : mm2.book = b2 := congrArg Market.book hv
    rw [if_pos hu, if_pos hu]
    show ∃ mm', Option.bind (landIfDue (decided { mm with book := b2 } bb ba now) .buy bb now) _ =
      some mm' ∧ _
    rw [h1, Option.bind_some, h2]
    refine ⟨_, rfl, ?_⟩
    show Market.mk mm2.book _ _ = _
    rw [hb]
  · rw [if_neg hu, if_neg hu]
    exact ⟨_, rfl, rfl⟩

theorem stepSides_market (pre : Option Pre) : (mm.stepSides pre e).1.market = mm.market := by
  cases pre with
  | none => rfl
  | some pre => rfl

/-- What an event does to the market is the same under every configuration. -/
theorem onEvent_market (h : Queried mm.book) (e : BookEvent) :
    (mm.onEvent e).map (fun r => r.1.market) = mm.market.step e := by
  obtain ⟨mm1, hland, hm1⟩ := landEarlier_market h e.ts
  have hb1 : mm1.book = mm.book := congrArg Market.book hm1
  have hpre : ({ book := mm.market.book, quoteSize := 0 } : MarketMaker).resolve e =
      mm1.resolve e := by
    simp only [resolve, hb1]
    rfl
  simp only [onEvent, Market.step, hland, hpre, hb1, Option.bind_eq_bind, Option.bind_some]
  cases mm1.resolve e with
  | none => rfl
  | some pre =>
    rw [Option.bind_some, Option.bind_some]
    show Option.map _ (Option.bind (Book.apply mm.book e) _) =
      Option.bind (Book.apply mm.book e) _
    cases hbook : Book.apply mm.book e with
    | none => rfl
    | some book =>
      have hi : Indexed book := h.indexed.step e.op hbook
      obtain ⟨bb, ba, b1, b2, hbid, hask, hq⟩ := queries hi
      have hsides := @stepSides_market { mm1 with book := book } e pre
      have hb2 : (({ mm1 with book := book } : MarketMaker).stepSides pre e).1.book = book :=
        congrArg Market.book hsides
      obtain ⟨mm2, hreq, hm2⟩ :=
        @requote_market (({ mm1 with book := book } : MarketMaker).stepSides pre e).1 e.ts bb ba
          b1 b2 (hb2.symm ▸ hbid) hask hq
      have hmid : (({ mm1 with book := book } : MarketMaker).stepSides pre e).1.mid = mm.mid :=
        (congrArg Market.mid hsides).trans (congrArg Market.mid hm1)
      have hhave : (({ mm1 with book := book } : MarketMaker).stepSides pre e).1.haveMid =
          mm.haveMid := (congrArg Market.haveMid hsides).trans (congrArg Market.haveMid hm1)
      rw [hmid, hhave] at hm2
      show Option.map _ (Option.bind (requote _ e.ts) _) = Option.bind book.bestBid _
      rw [hreq, hbid, Option.bind_some, Option.bind_some]
      show some mm2.market = Option.bind b1.bestAsk _
      rw [hask, Option.bind_some, hm2]
      rfl

theorem Market.step_queried {v v' : Market} (h : Queried v.book) (hs : v.step e = some v') :
    Queried v'.book := by
  simp only [Market.step, Option.bind_eq_bind, Option.bind_eq_some_iff] at hs
  obtain ⟨pre, -, book, hbook, ⟨bb, b1⟩, hbid, ⟨ba, b2⟩, hask, hs⟩ := hs
  obtain ⟨bb', ba', b1', b2', hbid', hask', hq⟩ := queries (h.indexed.step e.op hbook)
  rw [hbid] at hbid'
  obtain ⟨rfl, rfl⟩ := Prod.mk.inj (Option.some.inj hbid')
  rw [hask] at hask'
  obtain ⟨rfl, rfl⟩ := Prod.mk.inj (Option.some.inj hask')
  obtain rfl := Option.some.inj hs
  dsimp only
  split
  · exact hq
  · exact hq

/-! ### Runs -/

theorem touch_market (h : Queried mm.book) : ∃ t, mm.touch = some (t, mm) := by
  obtain ⟨bb, ba, hq⟩ := h.queryTouch
  obtain ⟨lb, hlb⟩ := h.indexed.levelFor_some (s := .buy) (p := bb)
  obtain ⟨la, hla⟩ := h.indexed.levelFor_some (s := .sell) (p := ba)
  simp only [touch, hq, hlb, hla, Option.bind_eq_bind, Option.bind_some]
  split
  · cases lb with
    | none => exact ⟨_, rfl⟩
    | some lb =>
      cases la with
      | none => exact ⟨_, rfl⟩
      | some la => exact ⟨_, rfl⟩
  · exact ⟨_, rfl⟩

/-- A drive moves the market by its events, one after the other. -/
theorem drives_market (h : Queried mm.book) (ds : List Drive) :
    (mm.drives ds).map market = mm.market.steps (ds.filterMap Drive.event?) := by
  induction ds generalizing mm with
  | nil => rfl
  | cons d ds ih =>
    cases d with
    | touch =>
      obtain ⟨t, ht⟩ := touch_market h
      simp only [drives, drive, ht, Option.map_some, Option.bind_some]
      exact ih h
    | input x =>
      cases x with
      | quoting allowBid allowAsk => exact @ih (mm.setQuoting allowBid allowAsk) h
      | event e =>
        have hev := onEvent_market h e
        show (Option.bind (Option.map Prod.fst (mm.onEvent e)) _).map market =
          (mm.market.step e).bind _
        cases hm : mm.onEvent e with
        | none =>
          rw [hm] at hev
          rw [← hev]
          rfl
        | some r =>
          rw [hm] at hev
          rw [← hev]
          exact ih (Market.step_queried h hev.symm)

theorem make_queried {lo hi : Price} {size : Qty} {latency : Ts} {model : FillModel}
    {maxOrders maxLevels : ℕ} (h : make lo hi size latency model maxOrders maxLevels = some mm) :
    Queried mm.book := by
  obtain ⟨b, hb, rfl⟩ := make_some h
  have hr := (Rep.make hb).1
  have hused : ∀ s t, ¬used b s t := fun s t hu => (hr.used_iff.mp hu).2 rfl
  refine ⟨⟨hr.grid, fun s p => ?_⟩, fun s => ⟨Or.inl ?_, fun _ => hused s⟩⟩
  · have hneg : b.levelIx s p < 0 := by
      by_contra hc
      exact hr.live s p (not_lt.mp hc) rfl
    show b.levelIx s p < (b.levels.length : ℤ)
    omega
  · rcases hr.grid.hint s with hneg | ⟨t, -, -, hu⟩
    · exact hneg
    · exact absurd hu (hused s t)

/-- Two configurations over one window and one pool size that see the same
events have the same book, with its cached ticks, and the same mid-price,
whatever else their drivers do in between; where one run leaves the vectors, so
does the other. -/
theorem one_book (lo hi : Price) (maxOrders maxLevels : ℕ) (size size' : Qty)
    (latency latency' : Ts) (model model' : FillModel) (mm0 mm0' : MarketMaker)
    (h : make lo hi size latency model maxOrders maxLevels = some mm0)
    (h' : make lo hi size' latency' model' maxOrders maxLevels = some mm0')
    (ds ds' : List Drive) (hevents : ds.filterMap Drive.event? = ds'.filterMap Drive.event?) :
    (mm0.drives ds).map market = (mm0'.drives ds').map market := by
  have hmarket : mm0'.market = mm0.market := by
    obtain ⟨b, hb, rfl⟩ := make_some h
    obtain ⟨b', hb', rfl⟩ := make_some h'
    rw [hb] at hb'
    obtain rfl := Option.some.inj hb'
    rfl
  rw [drives_market (make_queried h) ds, drives_market (make_queried h') ds', hmarket, hevents]

theorem one_book_two : ∃ mm0 mm0' : MarketMaker,
    make 100 300 3 0 .naive 4 4 = some mm0 ∧ make 100 300 7 50 .queueAware 4 4 = some mm0' ∧
    (mm0.drives [.input (.event ⟨1, 1, 0, 200, 5, .add, .buy⟩), .touch,
        .input (.event ⟨2, 2, 0, 300, 5, .add, .sell⟩)]).map market =
      (mm0'.drives [.input (.quoting false true), .input (.event ⟨1, 1, 0, 200, 5, .add, .buy⟩),
        .input (.event ⟨2, 2, 0, 300, 5, .add, .sell⟩), .touch]).map market := by
  have hmake : (make 100 300 3 0 .naive 4 4).isSome = true ∧
      (make 100 300 7 50 .queueAware 4 4).isSome = true := by decide +kernel
  obtain ⟨mm0, h⟩ := Option.isSome_iff_exists.mp hmake.1
  obtain ⟨mm0', h'⟩ := Option.isSome_iff_exists.mp hmake.2
  exact ⟨mm0, mm0', h, h', one_book 100 300 4 4 3 7 0 50 .naive .queueAware mm0 mm0' h h' _ _ rfl⟩

end MarketMaker

end Hotpath.Sim
