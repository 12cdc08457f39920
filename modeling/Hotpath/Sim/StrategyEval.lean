import Hotpath.Sim.Markouts
import Hotpath.Sim.Signals

/-!
# Scoring a policy (src/strategy_eval.cpp)

A policy reads the imbalance off the touch after each event and says which sides may be
quoted from the next event on. The touch is the market's, so a policy and its mirror see the
same imbalances at the same events, whatever the fill model they are scored under.
-/

namespace Hotpath.Sim
open Hotpath.Book Hotpath.Support Hotpath.Sim.MarketMaker

namespace StrategyEval

/-- Quote both sides, the one with the longer queue, or the one with the shorter. -/
inductive Mode where
  | always
  | heavyOnly
  | thinOnly
  deriving DecidableEq, Repr

structure Policy where
  mode : Mode
  threshold : ℚ
  deriving DecidableEq

/-- The arguments of `set_quoting`. -/
def Policy.quoting (p : Policy) (t : Touch) : Bool × Bool :=
  let imb := if p.mode = .heavyOnly then t.imbalance else -t.imbalance
  (imb > -p.threshold, imb < p.threshold)

def step (p : Policy) (mm : MarketMaker) (e : BookEvent) : Option (MarketMaker × List Fill) := do
  let (mm, fills) ← mm.onEvent e
  if p.mode = .always then return (mm, fills)
  else
    let (t, mm) ← mm.touch
    if t.valid then return (mm.setQuoting (p.quoting t).1 (p.quoting t).2, fills)
    else return (mm, fills)

/-- A scored run, with its fills. -/
def run (p : Policy) : MarketMaker → List BookEvent → Option (MarketMaker × List Fill)
  | mm, [] => some (mm, [])
  | mm, e :: es => do
    let (mm, fills) ← step p mm e
    let (mm, rest) ← run p mm es
    return (mm, fills ++ rest)

/-- The baseline pass, which only builds the mids. -/
def collect : MarketMaker → Mids → List BookEvent → Option Mids
  | _, mids, [] => some mids
  | mm, mids, e :: es => do
    let (mm, _) ← mm.onEvent e
    let (t, mm) ← mm.touch
    collect mm (if t.valid then mids.push e.ts t.mid else mids) es

/-! ### One touch -/

variable {mm mm' : MarketMaker} {e : BookEvent} {es : List BookEvent} {fills : List Fill}
  {p p' : Policy}

/-- The touch is read off the book alone, and reading it changes nothing. -/
theorem touch_book (h : Queried mm.book) : ∃ bb ba t, mm.queryTouch = some (bb, ba, mm) ∧
    (t.valid = true → usable bb ba = true ∧ t.bidPx = bb ∧ t.askPx = ba) ∧
    ∀ mm' : MarketMaker, mm'.book = mm.book → mm'.touch = some (t, mm') := by
  obtain ⟨bb, hb⟩ := h.indexed.best_cached (h.cached .buy)
  obtain ⟨ba, ha⟩ := h.indexed.best_cached (h.cached .sell)
  obtain ⟨lb, hlb⟩ := h.indexed.levelFor_some (s := .buy) (p := bb)
  obtain ⟨la, hla⟩ := h.indexed.levelFor_some (s := .sell) (p := ba)
  have hq : ∀ mm' : MarketMaker, mm'.book = mm.book → mm'.queryTouch = some (bb, ba, mm') := by
    intro mm' hm
    exact queryTouch_some.mpr ⟨_, _, hm ▸ hb, hm ▸ ha, rfl⟩
  have htouch : ∃ t : Touch, (t.valid = true → usable bb ba = true ∧ t.bidPx = bb ∧ t.askPx = ba) ∧
      ∀ mm' : MarketMaker, mm'.book = mm.book → mm'.touch = some (t, mm') := by
    have hempty : ({} : Touch).valid = true → usable bb ba = true ∧ ({} : Touch).bidPx = bb ∧
        ({} : Touch).askPx = ba := fun hv => by cases hv
    by_cases hu : usable bb ba = true
    · cases lb with
      | none =>
        refine ⟨{}, hempty, fun mm' hm => ?_⟩
        simp only [touch, hq mm' hm, hm, hlb, hla, hu, Option.bind_eq_bind, Option.bind_some]
        rfl
      | some lb =>
        cases la with
        | none =>
          refine ⟨{}, hempty, fun mm' hm => ?_⟩
          simp only [touch, hq mm' hm, hm, hlb, hla, hu, Option.bind_eq_bind, Option.bind_some]
          rfl
        | some la =>
          refine ⟨⟨bb, ba, lb.qty, la.qty⟩, fun _ => ⟨hu, rfl, rfl⟩, fun mm' hm => ?_⟩
          simp only [touch, hq mm' hm, hm, hlb, hla, hu, Option.bind_eq_bind, Option.bind_some]
          rfl
    · refine ⟨{}, hempty, fun mm' hm => ?_⟩
      simp only [touch, hq mm' hm, hu, Option.bind_eq_bind, Option.bind_some]
      rfl
  obtain ⟨t, hvalid, ht⟩ := htouch
  exact ⟨bb, ba, t, hq mm rfl, hvalid, ht⟩

theorem onEvent_allow (h : mm.onEvent e = some (mm', fills)) : mm'.allow = mm.allow := by
  obtain ⟨mm1, pre, book, h1, -, -, h4, -⟩ := onEvent_some h
  obtain ⟨bb, ba, mm2, hq, hd, -⟩ := requote_some h4
  obtain ⟨b1, b2, -, -, rfl⟩ := queryTouch_some.mp hq
  obtain ⟨bb', ba', mm0, hq0, hd0, -⟩ := landEarlier_some h1
  obtain ⟨b1', b2', -, -, rfl⟩ := queryTouch_some.mp hq0
  calc
    mm'.allow = (({ mm1 with book := book } : MarketMaker).stepSides pre e).1.allow := hd.allow
    _ = mm1.allow := (stepSides_desk pre).allow
    _ = mm.allow := hd0.allow

/-! ### A policy and its mirror -/

/-- The same threshold, the other direction. -/
structure Mirrors (p p' : Policy) : Prop where
  heavy : p.mode = .heavyOnly
  thin : p'.mode = .thinOnly
  threshold : p'.threshold = p.threshold
  pos : 0 < p.threshold

def other : Side → Side
  | .buy => .sell
  | .sell => .buy

/-- What one quotes the other one pulls, and no one pulls both sides. -/
structure Mirrored (mm mm' : MarketMaker) : Prop where
  queried : Queried mm.book
  market : mm'.market = mm.market
  allow : ∀ s, mm'.allow s = mm.allow (other s)
  one : ∃ s, mm.allow s = true

theorem Mirrors.quoting (h : Mirrors p p') (t : Touch) :
    p'.quoting t = ((p.quoting t).2, (p.quoting t).1) ∧
      ((p.quoting t).1 = true ∨ (p.quoting t).2 = true) := by
  have hthin : ¬p'.mode = .heavyOnly := by
    rw [h.thin]
    decide
  have hpos := h.pos
  constructor
  case left =>
    simp only [Policy.quoting, h.heavy, if_true, if_neg hthin, h.threshold, Prod.mk.injEq,
      decide_eq_decide]
    constructor <;> constructor <;> intro hx <;> linarith
  case right =>
    simp only [Policy.quoting, h.heavy, if_true, decide_eq_true_eq]
    by_cases hi : -p.threshold < t.imbalance
    · exact Or.inl hi
    · exact Or.inr (by linarith)

theorem Mirrored.setQuoting (hp : Mirrors p p') (h : Mirrored mm mm') (t : Touch) :
    Mirrored (mm.setQuoting (p.quoting t).1 (p.quoting t).2)
      (mm'.setQuoting (p'.quoting t).1 (p'.quoting t).2) := by
  obtain ⟨hquote, hone⟩ := hp.quoting t
  rw [hquote]
  refine ⟨h.queried, h.market, fun s => ?_, ?_⟩
  · cases s with
    | buy => rfl
    | sell => rfl
  · cases hone with
    | inl hbid => exact ⟨.buy, hbid⟩
    | inr hask => exact ⟨.sell, hask⟩

/-- The event itself leaves the allowances. -/
theorem Mirrored.onEvent (h : Mirrored mm mm') (e : BookEvent) :
    Option.Rel (fun x x' => Mirrored x.1 x'.1) (mm.onEvent e) (mm'.onEvent e) := by
  have hb : mm'.book = mm.book := congrArg Market.book h.market
  have hev := onEvent_market h.queried e
  have hev' := onEvent_market (hb ▸ h.queried : Queried mm'.book) e
  rw [h.market, ← hev] at hev'
  cases hm : mm.onEvent e with
  | none =>
    rw [hm] at hev'
    rw [Option.map_eq_none_iff.mp hev']
    exact .none
  | some x =>
    rw [hm] at hev hev'
    obtain ⟨x', hm', hmarket⟩ := Option.map_eq_some_iff.mp hev'
    rw [hm']
    have ha := onEvent_allow hm
    have ha' := onEvent_allow hm'
    exact .some ⟨Market.step_queried h.queried hev.symm, hmarket,
      fun s => by rw [ha, ha', h.allow], by rw [ha]; exact h.one⟩

/-- One event, under the policy and under its mirror. -/
theorem Mirrored.step (hp : Mirrors p p') (h : Mirrored mm mm') (e : BookEvent) :
    Option.Rel (fun x x' => Mirrored x.1 x'.1) (step p mm e) (step p' mm' e) := by
  have hmode : ¬p.mode = .always := by
    rw [hp.heavy]
    decide
  have hmode' : ¬p'.mode = .always := by
    rw [hp.thin]
    decide
  have hevent := h.onEvent e
  unfold StrategyEval.step
  generalize mm.onEvent e = r at hevent
  generalize mm'.onEvent e = r' at hevent
  cases hevent with
  | none => exact .none
  | @some x x' hx =>
    obtain ⟨bb, ba, t, -, -, ht⟩ := touch_book hx.queried
    simp only [Option.bind_eq_bind, Option.bind_some, if_neg hmode, if_neg hmode', ht x.1 rfl,
      ht x'.1 (congrArg Market.book hx.market)]
    by_cases hv : t.valid = true
    · rw [if_pos hv, if_pos hv]
      exact .some (hx.setQuoting hp t)
    · rw [if_neg hv, if_neg hv]
      exact .some hx

theorem Mirrored.run (hp : Mirrors p p') (h : Mirrored mm mm') (es : List BookEvent) :
    Option.Rel (fun x x' => Mirrored x.1 x'.1) (run p mm es) (run p' mm' es) := by
  induction es generalizing mm mm' with
  | nil => exact .some h
  | cons e es ih =>
    have hstep := h.step hp e
    unfold StrategyEval.run
    generalize StrategyEval.step p mm e = r at hstep
    generalize StrategyEval.step p' mm' e = r' at hstep
    cases hstep with
    | none => exact .none
    | @some x x' hx =>
      have hrest := ih hx
      simp only [Option.bind_eq_bind, Option.bind_some]
      generalize StrategyEval.run p x.1 es = r at hrest
      generalize StrategyEval.run p' x'.1 es = r' at hrest
      cases hrest with
      | none => exact .none
      | some hy => exact .some hy

/-- A policy that quotes the heavy side and one that quotes the thin side at the same threshold
are mirrors over every tape, whatever the quote sizes, the latencies and the fill models they
run with: after every event, the side the one may not quote is the other side of the one the
other may not quote, so they pull a quote equally often, and neither pulls both. -/
theorem policies_mirror (lo hi : Price) (maxOrders maxLevels : ℕ) (size size' : Qty)
    (latency latency' : Ts) (model model' : FillModel) (mm0 mm0' : MarketMaker) (p p' : Policy)
    (h : make lo hi size latency model maxOrders maxLevels = some mm0)
    (h' : make lo hi size' latency' model' maxOrders maxLevels = some mm0')
    (hp : Mirrors p p') (es : List BookEvent) :
    Option.Rel (fun x x' => (∀ s, x'.1.allow s = x.1.allow (other s)) ∧
      (∃ s, x.1.allow s = true) ∧ ∃ s, x'.1.allow s = true) (run p mm0 es) (run p' mm0' es) := by
  have hstart : Mirrored mm0 mm0' := by
    have hq := make_queried h
    obtain ⟨b, hb, rfl⟩ := make_some h
    obtain ⟨b', hb', rfl⟩ := make_some h'
    rw [hb] at hb'
    obtain rfl := Option.some.inj hb'
    exact ⟨hq, rfl, fun _ => rfl, .buy, rfl⟩
  have hrun := hstart.run hp es
  generalize run p mm0 es = r at hrun
  generalize run p' mm0' es = r' at hrun
  cases hrun with
  | none => exact .none
  | @some x x' hx =>
    obtain ⟨s, hs⟩ := hx.one
    refine .some ⟨hx.allow, ⟨s, hs⟩, other s, ?_⟩
    rw [hx.allow]
    cases s with
    | buy => exact hs
    | sell => exact hs

/-- A heavy bid: one policy pulls the ask, its mirror the bid. -/
theorem policies_mirror_one : ∃ mm0 mm0' : MarketMaker,
    (run ⟨.heavyOnly, 1 / 4⟩ mm0 [⟨1, 1, 0, 200, 9, .add, .buy⟩, ⟨2, 2, 0, 300, 3, .add, .sell⟩]).map
      (fun x => (x.1.allow .buy, x.1.allow .sell)) = some (true, false) ∧
    Option.Rel (fun x x' => (∀ s, x'.1.allow s = x.1.allow (other s)) ∧
      (∃ s, x.1.allow s = true) ∧ ∃ s, x'.1.allow s = true)
      (run ⟨.heavyOnly, 1 / 4⟩ mm0 [⟨1, 1, 0, 200, 9, .add, .buy⟩, ⟨2, 2, 0, 300, 3, .add, .sell⟩])
      (run ⟨.thinOnly, 1 / 4⟩ mm0' [⟨1, 1, 0, 200, 9, .add, .buy⟩,
        ⟨2, 2, 0, 300, 3, .add, .sell⟩]) := by
  have hmake : ((make 100 300 3 0 .naive 4 4).bind fun mm =>
      (run ⟨.heavyOnly, 1 / 4⟩ mm [⟨1, 1, 0, 200, 9, .add, .buy⟩,
        ⟨2, 2, 0, 300, 3, .add, .sell⟩]).map fun x => (x.1.allow .buy, x.1.allow .sell)) =
      some (true, false) ∧ (make 100 300 7 50 .queueAware 4 4).isSome = true := by decide +kernel
  obtain ⟨mm0, h, hrun⟩ := Option.bind_eq_some_iff.mp hmake.1
  obtain ⟨mm0', h'⟩ := Option.isSome_iff_exists.mp hmake.2
  exact ⟨mm0, mm0', hrun, policies_mirror 100 300 4 4 3 7 0 50 .naive .queueAware mm0 mm0'
    ⟨.heavyOnly, 1 / 4⟩ ⟨.thinOnly, 1 / 4⟩ h h'
    ⟨rfl, rfl, rfl, by norm_num⟩ _⟩

/-! ### The mids of the baseline pass -/

/-- Where both prices are there, the shares of the touch do not add up to zero. -/
def sizedNow (mm : MarketMaker) : Bool :=
  match mm.queryTouch, mm.touch with
  | some (bb, ba, _), some (t, _) => !usable bb ba || t.valid
  | _, _ => true

/-- After no event of the tape they do. -/
def sized : MarketMaker → List BookEvent → Bool
  | _, [] => true
  | mm, e :: es =>
    match mm.onEvent e with
    | none => true
    | some (mm', _) => sizedNow mm' && sized mm' es

/-- What an event leaves in the mid. -/
theorem onEvent_mid (h : Queried mm.book) (hm : mm.onEvent e = some (mm', fills)) :
    ∃ bb ba, mm'.queryTouch = some (bb, ba, mm') ∧
      ((usable bb ba = true ∧ mm'.haveMid = true ∧ mm'.mid = ((bb.toNat : ℚ) + ba.toNat) / 2) ∨
        (¬usable bb ba = true ∧ mm'.haveMid = mm.haveMid ∧ mm'.mid = mm.mid)) := by
  have hev := onEvent_market h e
  rw [hm] at hev
  have hs : mm.market.step e = some mm'.market := hev.symm
  simp only [Market.step, Option.bind_eq_bind, Option.bind_eq_some_iff] at hs
  obtain ⟨pre, -, book, hbook, ⟨bb, b1⟩, hbid, ⟨ba, b2⟩, hask, hs⟩ := hs
  have hi := h.indexed.step e.op hbook
  obtain ⟨hbid', hask'⟩ := hi.toGridOk.best_again hbid hask
  have hend := Option.some.inj hs
  refine ⟨bb, ba, ?_, ?_⟩
  · have hb : mm'.book = b2 := by
      have hc := congrArg Market.book hend
      rw [show mm'.book = mm'.market.book from rfl, ← hc]
      split <;> rfl
    exact queryTouch_some.mpr ⟨b2, b2, hb ▸ hbid', hb ▸ hask', hb ▸ rfl⟩
  · by_cases hu : usable bb ba = true
    · rw [if_pos hu] at hend
      exact Or.inl ⟨hu, (congrArg Market.haveMid hend).symm, (congrArg Market.mid hend).symm⟩
    · rw [if_neg hu] at hend
      exact Or.inr ⟨hu, (congrArg Market.haveMid hend).symm, (congrArg Market.mid hend).symm⟩

/-- The mids gathered so far end with the market's. -/
structure Gathered (mm : MarketMaker) (m : Mids) : Prop where
  queried : Queried mm.book
  last : mm.haveMid = true → m.last = mm.mid

theorem Mids.push_last (m : Mids) (ts : Ts) (mid : ℚ) : (m.push ts mid).last = mid := by
  unfold Mids.push
  by_cases h : mid ≠ m.last
  · rw [if_pos h]
  · rw [if_neg h]
    exact (not_not.mp h).symm

/-- After an event both ways of reading the mid note the same. -/
theorem Gathered.follow {m : Mids} (h : Gathered mm m) (hm : mm.onEvent e = some (mm', fills))
    (hsized : sizedNow mm' = true) :
    ∃ t, mm'.touch = some (t, mm') ∧
      (if t.valid then m.push e.ts t.mid else m) = m.follow mm' e.ts ∧
      Gathered mm' (m.follow mm' e.ts) := by
  have hev := onEvent_market h.queried e
  rw [hm] at hev
  have hq : Queried mm'.book := Market.step_queried h.queried hev.symm
  obtain ⟨bb, ba, t, hquery, hvalid, htouch⟩ := touch_book hq
  have ht := htouch mm' rfl
  obtain ⟨bb', ba', hquery', hmid⟩ := onEvent_mid h.queried hm
  rw [hquery] at hquery'
  obtain ⟨rfl, hrest⟩ := Prod.mk.inj (Option.some.inj hquery')
  obtain ⟨rfl, -⟩ := Prod.mk.inj hrest
  refine ⟨t, ht, ?_⟩
  rcases hmid with ⟨hu, hhave, hmid⟩ | ⟨hu, hhave, hmid⟩
  · have hv : t.valid = true := by
      simpa only [sizedNow, hquery, ht, hu, Bool.not_true, Bool.false_or] using hsized
    obtain ⟨-, hbid, hask⟩ := hvalid hv
    have htm : t.mid = mm'.mid := by rw [Touch.mid, hbid, hask, hmid]
    unfold Mids.follow
    rw [if_pos hv, if_pos hhave, htm]
    exact ⟨rfl, hq, fun _ => Mids.push_last _ _ _⟩
  · have hv : ¬t.valid = true := fun hv => hu (hvalid hv).1
    rw [if_neg hv]
    unfold Mids.follow
    by_cases hh : mm'.haveMid = true
    · have hlast := h.last (hhave ▸ hh)
      have hsame : m.push e.ts mm'.mid = m := by
        rw [hmid, Mids.push, if_neg (not_not.mpr hlast.symm)]
      rw [if_pos hh, hsame]
      exact ⟨rfl, hq, fun _ => hlast.trans hmid.symm⟩
    · rw [if_neg hh]
      exact ⟨rfl, hq, fun h' => absurd h' hh⟩

theorem Gathered.collect {m : Mids} (h : Gathered mm m) (hsized : sized mm es = true) :
    collect mm m es = (mm.pass m es).map Prod.snd := by
  induction es generalizing mm m with
  | nil => rfl
  | cons e es ih =>
    rw [StrategyEval.collect, MarketMaker.pass]
    cases hm : mm.onEvent e with
    | none => rfl
    | some x =>
      obtain ⟨mm', fills⟩ := x
      simp only [sized, hm, Bool.and_eq_true] at hsized
      obtain ⟨hnow, hlater⟩ := hsized
      obtain ⟨t, ht, hsame, hnext⟩ := h.follow hm hnow
      simp only [Option.bind_eq_bind, Option.bind_some, ht, hsame, ih hnext hlater]
      cases mm'.pass (m.follow mm' e.ts) es with
      | none => rfl
      | some r => rfl

/-- The baseline pass reads the mid off the touch, the simulation off the market maker. They
collect the same series from every tape, whatever each runs with, as long as no touch shows a
number of shares that adds up to zero. -/
theorem mids_of_touch (lo hi : Price) (maxOrders maxLevels : ℕ) (size : Qty) (latency : Ts)
    (model : FillModel) (mm0 : MarketMaker)
    (h : make lo hi size latency model maxOrders maxLevels = some mm0) (es : List BookEvent)
    (hsized : sized mm0 es = true) : collect mm0 {} es = (mm0.pass {} es).map Prod.snd := by
  have hq := make_queried h
  obtain ⟨b, -, rfl⟩ := make_some h
  exact Gathered.collect ⟨hq, fun hh => by cases hh⟩ hsized

/-- Two mids. -/
theorem mids_of_touch_two : ∃ mm0 : MarketMaker, ∃ mids,
    collect mm0 {} [⟨1, 1, 0, 200, 9, .add, .buy⟩, ⟨2, 2, 0, 300, 3, .add, .sell⟩,
      ⟨3, 3, 0, 210, 4, .add, .buy⟩] = some mids ∧ mids.samples = [⟨2, 250⟩, ⟨3, 255⟩] := by
  have hrun : ((make 100 300 3 0 .naive 4 4).bind fun mm =>
      if sized mm [⟨1, 1, 0, 200, 9, .add, .buy⟩, ⟨2, 2, 0, 300, 3, .add, .sell⟩,
        ⟨3, 3, 0, 210, 4, .add, .buy⟩] then
        (mm.pass {} [⟨1, 1, 0, 200, 9, .add, .buy⟩, ⟨2, 2, 0, 300, 3, .add, .sell⟩,
          ⟨3, 3, 0, 210, 4, .add, .buy⟩]).map fun x => x.2.samples
      else none) = some [⟨2, 250⟩, ⟨3, 255⟩] := by decide +kernel
  obtain ⟨mm0, h, hrun⟩ := Option.bind_eq_some_iff.mp hrun
  by_cases hsized : sized mm0 [⟨1, 1, 0, 200, 9, .add, .buy⟩, ⟨2, 2, 0, 300, 3, .add, .sell⟩,
    ⟨3, 3, 0, 210, 4, .add, .buy⟩] = true
  · rw [if_pos hsized] at hrun
    obtain ⟨x, hpass, hsamples⟩ := Option.map_eq_some_iff.mp hrun
    refine ⟨mm0, x.2, ?_, hsamples⟩
    rw [mids_of_touch 100 300 4 4 3 0 .naive mm0 h _ hsized, hpass]
    rfl
  · rw [if_neg hsized] at hrun
    cases hrun

end StrategyEval

end Hotpath.Sim
