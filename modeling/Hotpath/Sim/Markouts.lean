import Hotpath.Sim.Accounts
import Hotpath.Sim.BootstrapMean
import Hotpath.Sim.Mids
import Hotpath.Sim.NaivePass

/-!
# Markouts (src/sim_mm.cpp)

A fill is scored by what the mid does after it, and the scores go to the block
bootstrap. A `double` is a rational. The scores are those of the market itself,
whatever the configuration that collected the mids, and they reach the bootstrap
in time order and with positive weights, which is what it asks of a series.
-/

namespace Hotpath.Sim
open Hotpath.Book Hotpath.Support Hotpath.Sim.MarketMaker

def kSec : Ts := 1000000000

def kBlock : Ts := 300 * kSec

def sign : Side → ℚ
  | .buy => 1
  | .sell => -1

/-- `1e18` is a sentinel: no sample that late. -/
def markoutBps (f : Fill) (mids : List MidSample) (horizon : Ts) : Option ℚ := do
  let m ← midAt mids (f.ts + horizon)
  return if m < 0 then 10 ^ 18 else 10 ^ 4 * sign f.side * (m - f.price.toNat) / m

/-- `side_filter`, which is negative for both sides. -/
def filtered (sideFilter : Option Side) (f : Fill) : Bool :=
  match sideFilter with
  | none => true
  | some side => f.side = side

def toObs (mids : List MidSample) (horizon : Ts) (sideFilter : Option Side) :
    List Fill → Option (List WeightedObs)
  | [] => some []
  | f :: fs =>
    if ¬filtered sideFilter f then toObs mids horizon sideFilter fs
    else do
      let b ← markoutBps f mids horizon
      let rest ← toObs mids horizon sideFilter fs
      return if b > 10 ^ 17 then rest else ⟨f.ts, b, f.qty.toNat⟩ :: rest

/-- One line of the report: all fills, the buys and the sells. -/
structure MarkoutRow where
  all : Interval
  buy : Interval
  sell : Interval

def reportMarkouts (fills : List Fill) (mids : List MidSample) : Option (List MarkoutRow) :=
  [1 * kSec, 10 * kSec, 60 * kSec].mapM fun h => do
    let all ← blockBootstrap (← toObs mids h none fills) kBlock 2000
    let buy ← blockBootstrap (← toObs mids h (some .buy) fills) kBlock 2000
    let sell ← blockBootstrap (← toObs mids h (some .sell) fills) kBlock 2000
    return ⟨all, buy, sell⟩

/-! ### The market's score -/

/-- Some mid is noted at a time or after it. -/
def Reaches (mids : List MidSample) (t : Ts) : Prop := ∃ m ∈ mids, t.toNat ≤ m.ts.toNat

instance (mids : List MidSample) (t : Ts) : Decidable (Reaches mids t) :=
  inferInstanceAs (Decidable (∃ m ∈ mids, t.toNat ≤ m.ts.toNat))

/-- What a fill is worth at the market's mid a horizon later, if the series goes so far. -/
def scored (v : Market) (es : List BookEvent) (mids : List MidSample) (horizon : Ts)
    (sideFilter : Option Side) (f : Fill) : Option WeightedObs :=
  if filtered sideFilter f ∧ Reaches mids (f.ts + horizon) then do
    let stood ← v.upTo es (f.ts + horizon)
    let mid ← stood.reading
    return ⟨f.ts, 10 ^ 4 * sign f.side * (mid - f.price.toNat) / mid, f.qty.toNat⟩
  else none

variable {mm : MarketMaker} {es : List BookEvent} {fills : List Fill} {mids : Mids}

/-- Looking up a collected series gives the market's mid, and the sentinel where the
market had none yet or the series ends before. -/
theorem midAt_pass (hc : Collected mm.market [] {}) (hnone : mm.market.reading = none)
    (hq : Queried mm.book) (hrun : mm.pass {} es = some (fills, mids))
    (htime : es.Pairwise fun e e' => e.ts.toNat ≤ e'.ts.toNat) (t : Ts) :
    ∃ v, mm.market.upTo es t = some v ∧ (v.reading = none ∨ ∃ mid, v.reading = some mid ∧ 1 ≤ mid) ∧
      midAt mids.samples t = some (if Reaches mids.samples t then v.reading.getD (-1) else -1) := by
  obtain ⟨rs, v1, hrs, hcol⟩ := hc.pass hq hrun
  rw [List.nil_append] at hcol
  have hrtime : rs.Pairwise fun x y => x.1 ≤ y.1 := by
    have hmap : (rs.map Prod.fst).Pairwise (· ≤ ·) := by
      rw [Market.readings_times hrs]
      exact List.pairwise_map.mpr htime
    exact List.pairwise_map.mp hmap
  obtain ⟨v, hv, hread⟩ := Market.readings_upTo hrs htime t
  have hstands := hcol.kept.stands hrtime t.toNat
  refine ⟨v, hv, ?_, ?_⟩
  · have hpriced := Market.upTo_priced hc.priced hv
    unfold Market.reading
    by_cases hm : v.haveMid = true
    · exact Or.inr ⟨v.mid, if_pos hm, hpriced hm⟩
    · exact Or.inl (if_neg hm)
  · rw [midAt_eq (hcol.kept.sorted hrtime) t, hstands, ← hread, hnone]
    cases (rs.filter fun x => decide (x.1 ≤ t.toNat)).getLast? with
    | none => rfl
    | some x => rfl

/-- A score is far below the sentinel. -/
theorem score_le {mid : ℚ} (hmid : 1 ≤ mid) (side : Side) (px : Price) :
    10 ^ 4 * sign side * (mid - px.toNat) / mid ≤ 10 ^ 17 := by
  have hpx : ((px.toNat : ℕ) : ℚ) ≤ 2 ^ 32 := by exact_mod_cast px.toNat_lt.le
  have hnn : (0 : ℚ) ≤ px.toNat := Nat.cast_nonneg _
  rw [div_le_iff₀ (by linarith)]
  cases side with
  | buy =>
    simp only [sign]
    linarith
  | sell =>
    simp only [sign]
    linarith

/-- The observations of any fills are the market's scores, whatever the configuration
that collected the mids. -/
theorem toObs_pass (hc : Collected mm.market [] {}) (hnone : mm.market.reading = none)
    (hq : Queried mm.book) (hrun : mm.pass {} es = some (fills, mids))
    (htime : es.Pairwise fun e e' => e.ts.toNat ≤ e'.ts.toNat) (horizon : Ts)
    (sideFilter : Option Side) (fs : List Fill) : toObs mids.samples horizon sideFilter fs =
      some (fs.filterMap (scored mm.market es mids.samples horizon sideFilter)) := by
  induction fs with
  | nil => rfl
  | cons f fs ih =>
    rw [List.filterMap_cons, toObs]
    by_cases hf : filtered sideFilter f = true
    · obtain ⟨v, hv, hpos, hat⟩ := midAt_pass hc hnone hq hrun htime (f.ts + horizon)
      have hsent : ((10 : ℚ) ^ 18 > 10 ^ 17) := by norm_num
      rw [if_neg (not_not.mpr hf), ih]
      simp only [markoutBps, hat, scored, hf, true_and, hv, Option.bind_eq_bind, Option.bind_some]
      by_cases hreach : Reaches mids.samples (f.ts + horizon)
      · rw [if_pos hreach, if_pos hreach]
        rcases hpos with hno | ⟨mid, hmid, hone⟩
        · rw [hno, Option.getD_none, if_pos (by norm_num)]
          exact congrArg some (if_pos hsent)
        · have hle := score_le hone f.side f.price
          rw [hmid, Option.getD_some, if_neg (by linarith)]
          exact congrArg some (if_neg (not_lt.mpr hle))
      · rw [if_neg hreach, if_neg hreach, if_pos (by norm_num)]
        exact congrArg some (if_pos hsent)
    · have hno : scored mm.market es mids.samples horizon sideFilter f = none := by
        unfold scored
        exact if_neg fun h => hf h.1
      rw [if_pos hf, ih, hno]

/-- The mids collected are those of the market alone. -/
theorem pass_mids {mm' : MarketMaker} {m mids' : Mids} {fills' : List Fill}
    (hq : Queried mm.book) (hm : mm'.market = mm.market) (hrun : mm.pass m es = some (fills, mids))
    (hrun' : mm'.pass m es = some (fills', mids')) : mids' = mids := by
  induction es generalizing mm mm' m fills fills' with
  | nil =>
    obtain ⟨-, rfl⟩ := Prod.mk.inj (Option.some.inj hrun)
    obtain ⟨-, rfl⟩ := Prod.mk.inj (Option.some.inj hrun')
    rfl
  | cons e es ih =>
    simp only [MarketMaker.pass, Option.bind_eq_bind, Option.bind_eq_some_iff] at hrun hrun'
    obtain ⟨⟨mm1, first⟩, h1, ⟨rest, last⟩, hrest, hrun⟩ := hrun
    obtain ⟨⟨mm1', first'⟩, h1', ⟨rest', last'⟩, hrest', hrun'⟩ := hrun'
    obtain ⟨-, rfl⟩ := Prod.mk.inj (Option.some.inj hrun)
    obtain ⟨-, rfl⟩ := Prod.mk.inj (Option.some.inj hrun')
    have hb : mm'.book = mm.book := congrArg Market.book hm
    have hev := onEvent_market hq e
    have hev' := onEvent_market (hb ▸ hq) e
    rw [h1, Option.map_some] at hev
    rw [h1', Option.map_some, hm, ← hev] at hev'
    have hm1 : mm1'.market = mm1.market := Option.some.inj hev'
    have hfollow : m.follow mm1' e.ts = m.follow mm1 e.ts := by
      unfold Mids.follow
      rw [show mm1'.haveMid = mm1.haveMid from congrArg Market.haveMid hm1,
        show mm1'.mid = mm1.mid from congrArg Market.mid hm1]
    rw [hfollow] at hrest'
    exact ih (Market.step_queried hq hev.symm) hm1 hrest hrest'

/-- On a tape in time order every configuration over the window collects one series of mids,
and scores any fill at the mid that stood a horizon after it, when all the events up to then
were in. No score is taken for the sentinel: only the fills the series does not reach, and
those before there is a mid, are left out. -/
theorem fills_scored_at_market (lo hi : Price) (maxOrders maxLevels : ℕ) (size size' : Qty)
    (latency latency' : Ts) (model model' : FillModel) (mm0 mm0' : MarketMaker)
    (h : make lo hi size latency model maxOrders maxLevels = some mm0)
    (h' : make lo hi size' latency' model' maxOrders maxLevels = some mm0') (es : List BookEvent)
    (htime : es.Pairwise fun e e' => e.ts.toNat ≤ e'.ts.toNat) (fills fills' : List Fill)
    (mids mids' : Mids) (hrun : mm0.pass {} es = some (fills, mids))
    (hrun' : mm0'.pass {} es = some (fills', mids')) :
    mids' = mids ∧ ∀ (horizon : Ts) (sideFilter : Option Side) (fs : List Fill),
      toObs mids.samples horizon sideFilter fs =
        some (fs.filterMap (scored mm0.market es mids.samples horizon sideFilter)) := by
  have hmarket : mm0'.market = mm0.market := by
    obtain ⟨b, hb, rfl⟩ := make_some h
    obtain ⟨b', hb', rfl⟩ := make_some h'
    rw [hb] at hb'
    obtain rfl := Option.some.inj hb'
    rfl
  obtain ⟨hc, hnone⟩ := Collected.make h
  refine ⟨pass_mids (make_queried h) hmarket hrun hrun', ?_⟩
  exact fun horizon sideFilter fs => toObs_pass hc hnone (make_queried h) hrun htime horizon
    sideFilter fs

/-- A bid and an ask, a trade at the bid, and a better bid. -/
theorem fills_scored_at_market_two : ∃ (mm0 mm0' : MarketMaker) (es : List BookEvent)
    (fills fills' : List Fill) (mids mids' : Mids),
    mm0.pass {} es = some (fills, mids) ∧ mm0'.pass {} es = some (fills', mids') ∧
      fills.length = 1 ∧ mids.samples.length = 2 ∧ mids' = mids ∧
      ∀ (horizon : Ts) (sideFilter : Option Side) (fs : List Fill),
        toObs mids.samples horizon sideFilter fs =
          some (fs.filterMap (scored mm0.market es mids.samples horizon sideFilter)) := by
  have hrun : ((make 100 300 3 0 .naive 4 4).bind fun mm =>
      (mm.pass {} [⟨1, 1, 0, 200, 5, .add, .buy⟩, ⟨1, 2, 0, 300, 5, .add, .sell⟩,
        ⟨2, 1, 0, 0, 2, .execute, .buy⟩, ⟨3, 3, 0, 210, 5, .add, .buy⟩]).map
          fun r => (r.1.length, r.2.samples.length)) = some (1, 2) := by decide +kernel
  have hrun' : ((make 100 300 7 50 .queueAware 4 4).bind fun mm =>
      (mm.pass {} [⟨1, 1, 0, 200, 5, .add, .buy⟩, ⟨1, 2, 0, 300, 5, .add, .sell⟩,
        ⟨2, 1, 0, 0, 2, .execute, .buy⟩, ⟨3, 3, 0, 210, 5, .add, .buy⟩])).isSome = true := by
    decide +kernel
  obtain ⟨mm0, h, hrun⟩ := Option.bind_eq_some_iff.mp hrun
  obtain ⟨⟨fills, mids⟩, hpass, hlen⟩ := Option.map_eq_some_iff.mp hrun
  obtain ⟨⟨fills', mids'⟩, hrun'⟩ := Option.isSome_iff_exists.mp hrun'
  obtain ⟨mm0', h', hpass'⟩ := Option.bind_eq_some_iff.mp hrun'
  obtain ⟨hf, hs⟩ := Prod.mk.inj hlen
  exact ⟨mm0, mm0', _, fills, fills', mids, mids', hpass, hpass', hf, hs,
    fills_scored_at_market 100 300 4 4 3 7 0 50 .naive .queueAware mm0 mm0' h h' _ (by decide)
      fills fills' mids mids' hpass hpass'⟩

end Hotpath.Sim
