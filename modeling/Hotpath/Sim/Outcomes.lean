import Hotpath.Sim.NoSweep
import Hotpath.Sim.Reports

/-!
# Rows and outcomes (src/latency_sweep.cpp, src/strategy_eval.cpp)

The callbacks that score fills while a run goes on. Each keeps a share-weighted mean and the
means of two parts of the fills: stale and fresh ones for a latency, buys and sells for a
policy. The fills are the market maker's, the mids those of a pass made before.
-/

namespace Hotpath.Sim
open Hotpath.Book Hotpath.Support Hotpath.Sim.MarketMaker Hotpath.Sim.Bootstrap

/-- A numerator and a denominator. -/
structure Acc where
  num : ℚ := 0
  den : ℕ := 0
  deriving DecidableEq

namespace Acc

def add (a : Acc) (bps : ℚ) (qty : Qty) : Acc := ⟨a.num + bps * qty.toNat, a.den + qty.toNat⟩

def mean (a : Acc) : ℚ := if a.den > 0 then a.num / a.den else 0

/-- `all` has been added to whenever one of its parts has. -/
structure Parts (all one two : Acc) : Prop where
  num : all.num = one.num + two.num
  den : all.den = one.den + two.den
  one : one.den = 0 → one.num = 0
  two : two.den = 0 → two.num = 0

variable {all one two : Acc} {bps : ℚ} {qty : Qty}

theorem add_empty {a : Acc} (h : a.den = 0 → a.num = 0) :
    (a.add bps qty).den = 0 → (a.add bps qty).num = 0 := by
  intro h0
  have hboth : a.den = 0 ∧ qty.toNat = 0 := Nat.add_eq_zero_iff.mp h0
  show a.num + bps * qty.toNat = 0
  rw [h hboth.1, hboth.2]
  simp

theorem Parts.left (h : Parts all one two) : Parts (all.add bps qty) (one.add bps qty) two := by
  refine ⟨?_, ?_, add_empty h.one, h.two⟩
  · show all.num + bps * qty.toNat = one.num + bps * qty.toNat + two.num
    rw [h.num]
    ring
  · show all.den + qty.toNat = one.den + qty.toNat + two.den
    rw [h.den]
    ring

theorem Parts.symm (h : Parts all one two) : Parts all two one :=
  ⟨h.num.trans (add_comm _ _), h.den.trans (add_comm _ _), h.two, h.one⟩

theorem mean_mul {a : Acc} (h : a.den = 0 → a.num = 0) : a.mean * a.den = a.num := by
  unfold mean
  by_cases h0 : a.den > 0
  · have hne : (a.den : ℚ) ≠ 0 := by exact_mod_cast (Nat.ne_of_gt h0)
    rw [if_pos h0, div_mul_cancel₀ _ hne]
  · have hz : a.den = 0 := Nat.eq_zero_of_not_pos h0
    rw [if_neg h0, h hz, zero_mul]

/-- The mean is the mean of the parts' means, by their shares. -/
theorem Parts.mean (h : Parts all one two) :
    all.mean * all.den = one.mean * one.den + two.mean * two.den := by
  have hall : all.den = 0 → all.num = 0 := by
    intro h0
    rw [h.den] at h0
    rw [h.num, h.one (by omega), h.two (by omega), add_zero]
  rw [mean_mul hall, mean_mul h.one, mean_mul h.two, h.num]

end Acc

/-! ### The latency sweep -/

structure Row where
  fills : ℕ := 0
  shares : ℕ := 0
  staleFills : ℕ := 0
  staleShares : ℕ := 0
  sweptFills : ℕ := 0
  sum : Acc := {}
  stale : Acc := {}
  fresh : Acc := {}
  dollars : ℚ := 0
  deriving DecidableEq

namespace Row

/-- `diff`: the markout of one share, in ten-thousandths of a dollar. -/
def diff (f : Fill) (m : ℚ) : ℚ := sign f.side * (m - f.price.toNat)

def count (r : Row) (f : Fill) : Row :=
  let r := { r with fills := r.fills + 1, shares := r.shares + f.qty.toNat }
  let r := if f.stale then
    { r with staleFills := r.staleFills + 1, staleShares := r.staleShares + f.qty.toNat } else r
  if f.swept then { r with sweptFills := r.sweptFills + 1 } else r

def mark (r : Row) (f : Fill) (m : ℚ) : Row :=
  let bps := 10 ^ 4 * diff f m / m
  let r := { r with sum := r.sum.add bps f.qty }
  let r := if f.stale then { r with stale := r.stale.add bps f.qty }
    else { r with fresh := r.fresh.add bps f.qty }
  { r with dollars := r.dollars + diff f m * f.qty.toNat / 10 ^ 4 }

/-- The callback of `on_event`. -/
def onFill (mids : List MidSample) (r : Row) (f : Fill) : Option Row := do
  let r := r.count f
  let m ← midAt mids (f.ts + 10 * kSec)
  return if m < 0 then r else r.mark f m

/-- A row of the sweep, of the fills of a run at its latency. -/
def ofFills (mids : List MidSample) (fills : List Fill) : Option Row :=
  fills.foldlM (onFill mids) {}

/-- What the columns of a row have to do with each other. -/
structure Sound (r : Row) : Prop where
  parts : Acc.Parts r.sum r.stale r.fresh
  sum_le : r.sum.den ≤ r.shares
  stale_le : r.stale.den ≤ r.staleShares
  shares_le : r.staleShares ≤ r.shares
  fills_le : r.staleFills ≤ r.fills

/-- The columns of the stale fills are empty. -/
def Fresh (r : Row) : Prop := r.staleFills = 0 ∧ r.staleShares = 0 ∧ r.stale = {}

variable {r r' : Row} {fills : List Fill} {f : Fill} {m : ℚ} {mids : List MidSample}

theorem count_sums (r : Row) (f : Fill) : (r.count f).sum = r.sum ∧ (r.count f).stale = r.stale ∧
    (r.count f).fresh = r.fresh := by
  unfold count
  cases f.stale <;> cases f.swept <;> exact ⟨rfl, rfl, rfl⟩

theorem count_shares (r : Row) (f : Fill) : (r.count f).fills = r.fills + 1 ∧
    (r.count f).shares = r.shares + f.qty.toNat ∧
    (r.count f).staleFills = r.staleFills + (if f.stale then 1 else 0) ∧
    (r.count f).staleShares = r.staleShares + (if f.stale then f.qty.toNat else 0) := by
  unfold count
  cases f.stale <;> cases f.swept <;> exact ⟨rfl, rfl, rfl, rfl⟩

theorem mark_counts (r : Row) (f : Fill) (m : ℚ) : (r.mark f m).fills = r.fills ∧
    (r.mark f m).shares = r.shares ∧ (r.mark f m).staleFills = r.staleFills ∧
    (r.mark f m).staleShares = r.staleShares := by
  unfold mark
  cases f.stale <;> exact ⟨rfl, rfl, rfl, rfl⟩

theorem mark_parts (h : Acc.Parts r.sum r.stale r.fresh) :
    Acc.Parts (r.mark f m).sum (r.mark f m).stale (r.mark f m).fresh := by
  unfold mark
  cases f.stale with
  | true => exact h.left
  | false => exact h.symm.left.symm

theorem mark_dens (r : Row) (f : Fill) (m : ℚ) : (r.mark f m).sum.den = r.sum.den + f.qty.toNat ∧
    (r.mark f m).stale.den = r.stale.den + (if f.stale then f.qty.toNat else 0) := by
  unfold mark
  cases f.stale <;> exact ⟨rfl, rfl⟩

theorem Sound.onFill (h : Sound r) (hf : onFill mids r f = some r') : Sound r' := by
  obtain ⟨m, -, hr⟩ := Option.bind_eq_some_iff.mp hf
  obtain rfl := Option.some.inj hr
  obtain ⟨hsum, hstale, hfresh⟩ := count_sums r f
  obtain ⟨hfills, hshares, hsf, hss⟩ := count_shares r f
  have hle : (if f.stale then f.qty.toNat else 0) ≤ f.qty.toNat := by split <;> omega
  have hone : (if f.stale then 1 else 0) ≤ 1 := by split <;> omega
  have h1 := h.sum_le
  have h2 := h.stale_le
  have h3 := h.shares_le
  have h4 := h.fills_le
  have hparts : Acc.Parts (r.count f).sum (r.count f).stale (r.count f).fresh := by
    rw [hsum, hstale, hfresh]
    exact h.parts
  by_cases hm : m < 0
  · rw [if_pos hm]
    exact ⟨hparts, by rw [hsum, hshares]; omega, by rw [hstale, hss]; omega,
      by rw [hss, hshares]; omega, by rw [hsf, hfills]; omega⟩
  · rw [if_neg hm]
    obtain ⟨c1, c2, c3, c4⟩ := mark_counts (r.count f) f m
    obtain ⟨d1, d2⟩ := mark_dens (r.count f) f m
    exact ⟨mark_parts hparts, by rw [d1, c2, hsum, hshares]; omega,
      by rw [d2, c4, hstale, hss]; omega, by rw [c4, c2, hss, hshares]; omega,
      by rw [c3, c1, hsf, hfills]; omega⟩

theorem Sound.onFills (h : Sound r) (hf : fills.foldlM (Row.onFill mids) r = some r') :
    Sound r' := by
  induction fills generalizing r with
  | nil =>
    obtain rfl := Option.some.inj hf
    exact h
  | cons f fills ih =>
    rw [List.foldlM_cons] at hf
    obtain ⟨r1, h1, hf⟩ := Option.bind_eq_some_iff.mp hf
    exact ih (h.onFill h1) hf

/-- Fills of no stale quote leave the stale columns empty. -/
theorem Fresh.onFills (h : Fresh r) (hfills : ∀ f ∈ fills, f.stale = false)
    (hf : fills.foldlM (Row.onFill mids) r = some r') : Fresh r' := by
  induction fills generalizing r with
  | nil =>
    obtain rfl := Option.some.inj hf
    exact h
  | cons f fills ih =>
    rw [List.foldlM_cons] at hf
    obtain ⟨r1, h1, hf⟩ := Option.bind_eq_some_iff.mp hf
    refine ih ?_ (fun g hg => hfills g (List.mem_cons_of_mem _ hg)) hf
    obtain ⟨m, -, hr⟩ := Option.bind_eq_some_iff.mp h1
    obtain rfl := Option.some.inj hr
    have hs := hfills f (List.mem_cons_self ..)
    obtain ⟨h2, h3, h4⟩ := h
    have hcount : Fresh (r.count f) := by
      obtain ⟨-, hstale, -⟩ := count_sums r f
      obtain ⟨-, -, hsf, hss⟩ := count_shares r f
      rw [hs] at hsf hss
      exact ⟨hsf.trans h2, hss.trans h3, hstale.trans h4⟩
    split
    · exact hcount
    · obtain ⟨-, -, c3, c4⟩ := mark_counts (r.count f) f m
      have hstale : ((r.count f).mark f m).stale = (r.count f).stale := by
        unfold mark
        rw [hs]
        rfl
      exact ⟨c3.trans hcount.1, c4.trans hcount.2.1, hstale.trans hcount.2.2⟩

end Row

/-! ### The outcome of a policy -/

structure FillObs where
  ts : Ts
  bps : ℚ
  qty : Qty
  side : Side
  deriving DecidableEq

structure Outcome where
  fills : ℕ := 0
  shares : ℕ := 0
  bid : Acc := {}
  ask : Acc := {}
  pnl : ℚ := 0
  obs : List FillObs := []
  deriving DecidableEq

namespace Outcome

def mark (o : Outcome) (f : Fill) (m : ℚ) : Outcome :=
  let bps := 10 ^ 4 * Row.diff f m / m
  let o := { o with
    obs := o.obs ++ [FillObs.mk f.ts bps f.qty f.side]
    pnl := o.pnl + Row.diff f m * f.qty.toNat / 10 ^ 4 }
  match f.side with
  | .buy => { o with bid := o.bid.add bps f.qty }
  | .sell => { o with ask := o.ask.add bps f.qty }

/-- The callback of `on_event`. -/
def onFill (mids : List MidSample) (horizon : Ts) (o : Outcome) (f : Fill) : Option Outcome := do
  let o := { o with fills := o.fills + 1, shares := o.shares + f.qty.toNat }
  let m ← midAt mids (f.ts + horizon)
  return if m < 0 then o else o.mark f m

def ofFills (mids : List MidSample) (horizon : Ts) (fills : List Fill) : Option Outcome :=
  fills.foldlM (onFill mids horizon) {}

/-- `to_obs` -/
def toObs (o : Outcome) : List WeightedObs :=
  o.obs.map fun x => (⟨x.ts, x.bps, x.qty.toNat⟩ : WeightedObs)

/-- The mean over the observations, taken after the run. -/
def markout (o : Outcome) : ℚ :=
  (o.obs.foldl (fun (a : Acc) x => a.add x.bps x.qty) {}).mean

end Outcome

/-! ### One score -/

/-- What has been added up to an accumulator. -/
def Acc.Sums (a : Acc) (obs : List WeightedObs) : Prop :=
  a.num = (obs.map weighted).sum ∧ (a.den : ℚ) = (obs.map WeightedObs.weight).sum

theorem Acc.Sums.mean {a : Acc} {obs : List WeightedObs} (h : a.Sums obs) :
    a.mean = totalMean obs := by
  rw [totalMean, ← h.1, ← h.2, Acc.mean]
  by_cases h0 : a.den > 0
  · rw [if_pos h0]
  · rw [if_neg h0, Nat.eq_zero_of_not_pos h0, Nat.cast_zero, div_zero]

theorem Acc.Sums.add {a : Acc} {obs : List WeightedObs} (h : a.Sums obs) (ts : Ts) (bps : ℚ)
    (qty : Qty) : (a.add bps qty).Sums (obs ++ [⟨ts, bps, qty.toNat⟩]) := by
  constructor
  · rw [List.map_append, List.sum_append, ← h.1]
    simp [Acc.add, weighted]
  · rw [List.map_append, List.sum_append, ← h.2]
    simp [Acc.add]

theorem Outcome.markout_eq (o : Outcome) : o.markout = totalMean o.toObs := by
  have hfold : ∀ (xs : List FillObs) (a : Acc) (obs : List WeightedObs), a.Sums obs →
      (xs.foldl (fun (a : Acc) x => a.add x.bps x.qty) a).Sums
        (obs ++ xs.map fun x => (⟨x.ts, x.bps, x.qty.toNat⟩ : WeightedObs)) := by
    intro xs
    induction xs with
    | nil => exact fun a obs h => by rwa [List.map_nil, List.append_nil]
    | cons x xs ih =>
      intro a obs h
      rw [List.map_cons, List.append_cons]
      exact ih _ _ (h.add x.ts x.bps x.qty)
  exact (hfold o.obs {} [] ⟨rfl, rfl⟩).mean

section Scored
variable {v : Market} {es : List BookEvent} {mids : List MidSample} {horizon : Ts} {f : Fill}
  {fills : List Fill}

/-- The mid looked up for a fill is negative where the fill has no score. -/
def Looks (v : Market) (es : List BookEvent) (mids : List MidSample) (horizon : Ts) : Prop :=
  ∀ f : Fill, ∃ m, midAt mids (f.ts + horizon) = some m ∧
    ((m < 0 ∧ scored v es mids horizon none f = none) ∨
      (¬m < 0 ∧ scored v es mids horizon none f =
        some ⟨f.ts, 10 ^ 4 * Row.diff f m / m, f.qty.toNat⟩))

theorem looks_pass {mm : MarketMaker} {m : Mids} (hc : Collected mm.market [] {})
    (hnone : mm.market.reading = none) (hq : Queried mm.book)
    (hrun : mm.pass {} es = some (fills, m))
    (htime : es.Pairwise fun e e' => e.ts.toNat ≤ e'.ts.toNat) (horizon : Ts) :
    Looks mm.market es m.samples horizon := by
  intro f
  obtain ⟨v, hv, hpos, hat⟩ := midAt_pass hc hnone hq hrun htime (f.ts + horizon)
  refine ⟨_, hat, ?_⟩
  simp only [scored, filtered, true_and, hv, Option.bind_eq_bind, Option.bind_some]
  by_cases hreach : Reaches m.samples (f.ts + horizon)
  · rw [if_pos hreach, if_pos hreach]
    rcases hpos with hno | ⟨mid, hmid, hone⟩
    · rw [hno]
      exact Or.inl ⟨by norm_num, rfl⟩
    · rw [hmid]
      refine Or.inr ⟨by rw [Option.getD_some]; linarith, ?_⟩
      rw [Option.getD_some, Row.diff, ← mul_assoc]
      rfl
  · rw [if_neg hreach, if_neg hreach]
    exact Or.inl ⟨by norm_num, rfl⟩

theorem Row.foldlM_sums (h : Looks v es mids (10 * kSec)) {r : Row} {obs : List WeightedObs}
    (hr : r.sum.Sums obs) (fills : List Fill) : ∃ r', fills.foldlM (Row.onFill mids) r = some r' ∧
      r'.sum.Sums (obs ++ fills.filterMap (scored v es mids (10 * kSec) none)) := by
  induction fills generalizing r obs with
  | nil => exact ⟨r, rfl, by rwa [List.filterMap_nil, List.append_nil]⟩
  | cons f fills ih =>
    obtain ⟨m, hm, hcase⟩ := h f
    have hcount : (r.count f).sum.Sums obs := by rwa [(count_sums r f).1]
    have hstep : Row.onFill mids r f = some (if m < 0 then r.count f else (r.count f).mark f m) := by
      simp only [Row.onFill, hm, Option.bind_eq_bind, Option.bind_some]
      rfl
    rw [List.foldlM_cons, hstep]
    rcases hcase with ⟨hneg, hno⟩ | ⟨hneg, hscore⟩
    · rw [if_pos hneg, List.filterMap_cons_none hno]
      exact ih hcount
    · rw [if_neg hneg, List.filterMap_cons_some hscore, List.append_cons]
      refine ih ?_
      have hsum : ((r.count f).mark f m).sum = (r.count f).sum.add (10 ^ 4 * diff f m / m) f.qty := by
        unfold mark
        cases f.stale <;> rfl
      rw [hsum]
      exact hcount.add f.ts _ f.qty

theorem Outcome.foldlM_obs (h : Looks v es mids horizon) {o : Outcome} (fills : List Fill) :
    ∃ o', fills.foldlM (Outcome.onFill mids horizon) o = some o' ∧
      o'.toObs = o.toObs ++ fills.filterMap (scored v es mids horizon none) := by
  induction fills generalizing o with
  | nil => exact ⟨o, rfl, by rw [List.filterMap_nil, List.append_nil]⟩
  | cons f fills ih =>
    obtain ⟨m, hm, hcase⟩ := h f
    rw [List.foldlM_cons]
    simp only [Outcome.onFill, hm, Option.bind_eq_bind, Option.bind_some]
    rcases hcase with ⟨hneg, hno⟩ | ⟨hneg, hscore⟩
    · rw [if_pos hneg, List.filterMap_cons_none hno]
      exact ih
    · rw [if_neg hneg, List.filterMap_cons_some hscore, List.append_cons]
      obtain ⟨o', ho', hobs⟩ := @ih (({ o with
        fills := o.fills + 1, shares := o.shares + f.qty.toNat } : Outcome).mark f m)
      refine ⟨o', ho', hobs.trans ?_⟩
      congr 1
      unfold mark
      cases f.side <;> simp [toObs]

end Scored

/-- The three tools score a fill alike. On a tape in time order, with the mids of any pass,
whatever the fills: what the policy evaluation keeps are the simulation's observations, and its
mean markout is their share-weighted mean; the sweep's mean markout is that of the simulation's
observations at ten seconds. -/
theorem tools_score_alike (lo hi : Price) (size : Qty) (latency : Ts) (model : FillModel)
    (maxOrders maxLevels : ℕ) (mm0 : MarketMaker)
    (h : make lo hi size latency model maxOrders maxLevels = some mm0) (es : List BookEvent)
    (htime : es.Pairwise fun e e' => e.ts.toNat ≤ e'.ts.toNat) (fills : List Fill) (mids : Mids)
    (hrun : mm0.pass {} es = some (fills, mids)) (horizon : Ts) (fs : List Fill) :
    ∃ (row : Row) (o : Outcome) (obs obs10 : List WeightedObs),
      Row.ofFills mids.samples fs = some row ∧ Outcome.ofFills mids.samples horizon fs = some o ∧
      toObs mids.samples horizon none fs = some obs ∧
      toObs mids.samples (10 * kSec) none fs = some obs10 ∧
      o.toObs = obs ∧ o.markout = totalMean obs ∧ row.sum.mean = totalMean obs10 := by
  obtain ⟨hc, hnone⟩ := Collected.make h
  have hq := make_queried h
  obtain ⟨row, hrow, hsums⟩ := @Row.foldlM_sums _ _ _
    (looks_pass hc hnone hq hrun htime (10 * kSec)) {} [] ⟨rfl, rfl⟩ fs
  obtain ⟨o, ho, hobs⟩ := @Outcome.foldlM_obs _ _ _ _
    (looks_pass hc hnone hq hrun htime horizon) {} fs
  refine ⟨row, o, _, _, hrow, ho, toObs_pass hc hnone hq hrun htime horizon none fs,
    toObs_pass hc hnone hq hrun htime (10 * kSec) none fs, hobs, ?_, hsums.mean⟩
  rw [o.markout_eq, hobs]
  rfl

/-- A bid and an ask, a trade at the bid, and a better bid twelve seconds later. -/
theorem tools_score_alike_one : ∃ (fills : List Fill) (mids : Mids),
    fills.length = 1 ∧ mids.samples.length = 2 ∧
    ∃ (row : Row) (o : Outcome) (obs obs10 : List WeightedObs),
      Row.ofFills mids.samples fills = some row ∧
      Outcome.ofFills mids.samples kSec fills = some o ∧
      toObs mids.samples kSec none fills = some obs ∧
      toObs mids.samples (10 * kSec) none fills = some obs10 ∧
      o.toObs = obs ∧ o.markout = totalMean obs ∧ row.sum.mean = totalMean obs10 := by
  have hrun : ((make 100 300 3 0 .naive 4 4).bind fun mm =>
      (mm.pass {} [⟨1, 1, 0, 200, 5, .add, .buy⟩, ⟨1, 2, 0, 300, 5, .add, .sell⟩,
        ⟨2, 1, 0, 0, 2, .execute, .buy⟩, ⟨12000000000, 3, 0, 210, 5, .add, .buy⟩]).map
          fun r => (r.1.length, r.2.samples.length)) = some (1, 2) := by decide +kernel
  obtain ⟨mm0, h, hrun⟩ := Option.bind_eq_some_iff.mp hrun
  obtain ⟨⟨fills, mids⟩, hpass, hlen⟩ := Option.map_eq_some_iff.mp hrun
  obtain ⟨hf, hs⟩ := Prod.mk.inj hlen
  exact ⟨fills, mids, hf, hs, tools_score_alike 100 300 3 0 .naive 4 4 mm0 h _ (by decide) fills
    mids hpass kSec fills⟩

/-! ### The rows of the sweep -/

theorem pass_run {mm : MarketMaker} {m mids : Mids} {es : List BookEvent} {fills : List Fill}
    (hrun : mm.pass m es = some (fills, mids)) :
    ∃ mm', mm.run (es.map .event) = some (mm', fills) := by
  induction es generalizing mm m fills with
  | nil =>
    obtain ⟨rfl, rfl⟩ := Prod.mk.inj (Option.some.inj hrun)
    exact ⟨mm, rfl⟩
  | cons e es ih =>
    simp only [MarketMaker.pass, Option.bind_eq_bind, Option.bind_eq_some_iff] at hrun
    obtain ⟨⟨mm1, first⟩, h1, ⟨rest, last⟩, hrest, hrun⟩ := hrun
    obtain ⟨rfl, rfl⟩ := Prod.mk.inj (Option.some.inj hrun)
    obtain ⟨mm', hmm'⟩ := ih hrest
    refine ⟨mm', ?_⟩
    have hin : mm.input (.event e) = some (mm1, first) := h1
    simp only [List.map_cons, MarketMaker.run, hin, hmm', Option.bind_eq_bind, Option.bind_some]
    rfl

/-- Every latency has its row, marked against the mids of the run without latency. Its markout
is that of its stale and of its fresh fills, by their shares, and no share is marked that was not
filled; the row without latency has no stale fill, so its markout is that of the fresh ones. -/
theorem sweep_rows (lo hi : Price) (size : Qty) (latency : Ts) (maxOrders maxLevels : ℕ)
    (mm0 mm : MarketMaker) (h0 : make lo hi size 0 .queueAware maxOrders maxLevels = some mm0)
    (h : make lo hi size latency .queueAware maxOrders maxLevels = some mm) (es : List BookEvent)
    (htime : es.Pairwise fun e e' => e.ts.toNat ≤ e'.ts.toNat) (fills0 fills : List Fill)
    (mids mids' : Mids) (hmids : mm0.pass {} es = some (fills0, mids))
    (hrun : mm.pass {} es = some (fills, mids')) :
    ∃ row, Row.ofFills mids.samples fills = some row ∧ row.Sound ∧
      row.sum.mean * row.sum.den =
        row.stale.mean * row.stale.den + row.fresh.mean * row.fresh.den ∧
      (latency = 0 → row.Fresh ∧ row.sum.mean = row.fresh.mean) := by
  obtain ⟨hc, hnone⟩ := Collected.make h0
  obtain ⟨row, hrow, -⟩ := @Row.foldlM_sums _ _ _
    (looks_pass hc hnone (make_queried h0) hmids htime (10 * kSec)) {} [] ⟨rfl, rfl⟩ fills
  have hstart : Row.Sound {} :=
    ⟨⟨(add_zero 0).symm, rfl, fun _ => rfl, fun _ => rfl⟩, le_rfl, le_rfl, le_rfl, le_rfl⟩
  have hsound := hstart.onFills hrow
  refine ⟨row, hrow, hsound, hsound.parts.mean, fun hl => ?_⟩
  obtain ⟨mm', hmm'⟩ := pass_run hrun
  have hidle : Idle mm := by
    obtain ⟨b, -, rfl⟩ := make_some h
    exact ⟨hl, fun _ => rfl⟩
  have hfresh : row.Fresh := Row.Fresh.onFills ⟨rfl, rfl, rfl⟩ (hidle.run_fresh hmm') hrow
  refine ⟨hfresh, ?_⟩
  have hnum := hsound.parts.num
  have hden := hsound.parts.den
  rw [hfresh.2.2] at hnum hden
  rw [Acc.mean, Acc.mean, hnum, hden]
  simp

/-- A fill of the quote, and one of it while its replacement is in flight for two seconds. -/
def requoted : List BookEvent :=
  [⟨1, 1, 0, 200, 5, .add, .buy⟩, ⟨1, 2, 0, 300, 5, .add, .sell⟩,
    ⟨10 * kSec, 3, 0, 200, 4, .add, .buy⟩, ⟨11 * kSec, 1, 0, 0, 5, .execute, .buy⟩,
    ⟨12 * kSec, 3, 0, 0, 1, .execute, .buy⟩, ⟨13 * kSec, 4, 0, 210, 5, .add, .buy⟩,
    ⟨14 * kSec, 3, 0, 0, 1, .execute, .buy⟩, ⟨30 * kSec, 5, 0, 220, 5, .add, .buy⟩]

theorem sweep_rows_requoted : ∃ (mids : List MidSample) (fills : List Fill) (row : Row),
    Row.ofFills mids fills = some row ∧ row.Sound ∧
      row.sum.mean * row.sum.den =
        row.stale.mean * row.stale.den + row.fresh.mean * row.fresh.den ∧
      row.sum.den = 2 ∧ row.stale.den = 1 ∧ row.sum.mean = 110000 / 51 := by
  have hrun : ((make 100 300 3 0 .queueAware 8 4).bind fun mm0 => (mm0.pass {} requoted).bind
      fun r0 => (make 100 300 3 (2 * kSec) .queueAware 8 4).bind fun mm =>
        (mm.pass {} requoted).bind fun r => (Row.ofFills r0.2.samples r.1).map fun row =>
          (row.sum.den, row.stale.den, row.sum.mean)) = some (2, 1, 110000 / 51) := by
    decide +kernel
  obtain ⟨mm0, h0, hrun⟩ := Option.bind_eq_some_iff.mp hrun
  obtain ⟨⟨fills0, mids⟩, hmids, hrun⟩ := Option.bind_eq_some_iff.mp hrun
  obtain ⟨mm, h, hrun⟩ := Option.bind_eq_some_iff.mp hrun
  obtain ⟨⟨fills, mids'⟩, hpass, hrun⟩ := Option.bind_eq_some_iff.mp hrun
  obtain ⟨row, hrow, heq⟩ := Option.map_eq_some_iff.mp hrun
  obtain ⟨hsum, hstale, hpoint⟩ : row.sum.den = 2 ∧ row.stale.den = 1 ∧
      row.sum.mean = 110000 / 51 := by
    simpa only [Prod.mk.injEq] using heq
  obtain ⟨row', hrow', hsound, hmean, -⟩ := sweep_rows 100 300 3 (2 * kSec) 8 4 mm0 mm h0 h
    requoted (by decide) fills0 fills mids mids' hmids hpass
  obtain rfl := Option.some.inj (hrow.symm.trans hrow')
  exact ⟨mids.samples, fills, row, hrow, hsound, hmean, hsum, hstale, hpoint⟩

end Hotpath.Sim
