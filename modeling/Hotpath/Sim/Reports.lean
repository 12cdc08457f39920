import Hotpath.Sim.Markouts

/-!
# The report of a session (src/sim_mm.cpp)

The observations of either fill model come in time order and with positive weights,
so every interval of the report is there, counts the fills it scores and, unless they
all fell at one instant, estimates their share-weighted mean markout.
-/

namespace Hotpath.Sim
open Hotpath.Book Hotpath.Support Hotpath.Sim.MarketMaker Hotpath.Sim.Bootstrap

/-- Fills of a tape: in time order, each at the time of an event and of some shares. -/
structure FillsOf (es : List BookEvent) (fills : List Fill) : Prop where
  order : fills.Pairwise fun f g => f.ts.toNat ≤ g.ts.toNat
  event : ∀ f ∈ fills, ∃ e ∈ es, f.ts = e.ts
  qty : ∀ f ∈ fills, 0 < f.qty.toNat

variable {mm mm' : MarketMaker} {e : BookEvent} {es : List BookEvent} {fills rest : List Fill}

theorem FillsOf.nil : FillsOf [] [] := ⟨.nil, by simp, by simp⟩

/-- The fills of an event go before those of the later events. -/
theorem FillsOf.cons (h : FillsOf es rest) (hfirst : ∀ f ∈ fills, f.ts = e.ts ∧ 0 < f.qty.toNat)
    (htime : ∀ e' ∈ es, e.ts.toNat ≤ e'.ts.toNat) : FillsOf (e :: es) (fills ++ rest) := by
  constructor
  case order =>
    refine List.pairwise_append.mpr ⟨List.pairwise_of_forall_mem_list ?_, h.order, ?_⟩
    · intro f hf g hg
      rw [(hfirst f hf).1, (hfirst g hg).1]
    · intro f hf g hg
      obtain ⟨e', he', hts⟩ := h.event g hg
      rw [(hfirst f hf).1, hts]
      exact htime e' he'
  case event =>
    intro f hf
    cases List.mem_append.mp hf with
    | inl hf => exact ⟨e, List.mem_cons_self .., (hfirst f hf).1⟩
    | inr hf =>
      obtain ⟨e', he', hts⟩ := h.event f hf
      exact ⟨e', List.mem_cons_of_mem _ he', hts⟩
  case qty =>
    intro f hf
    cases List.mem_append.mp hf with
    | inl hf => exact (hfirst f hf).2
    | inr hf => exact h.qty f hf

/-! ### Either fill model -/

theorem onEvent_stamps (h : mm.onEvent e = some (mm', fills)) :
    ∀ f ∈ fills, f.ts = e.ts ∧ 0 < f.qty.toNat := by
  obtain ⟨mm1, pre, book, -, -, -, -, rfl⟩ := onEvent_some h
  cases pre with
  | none => exact fun f hf => by cases hf
  | some pre =>
    have hside : ∀ s, ∀ f ∈ (stepSide mm1.fillModel (mm1.quote s) (mm1.pos s) s pre e).2.2,
        f.ts = e.ts ∧ 0 < f.qty.toNat := by
      intro s f hf
      have hout := stepSide_outcome mm1.fillModel (mm1.quote s) (mm1.pos s) s pre e
      generalize (stepSide mm1.fillModel (mm1.quote s) (mm1.pos s) s pre e).1 = q' at hout
      generalize (stepSide mm1.fillModel (mm1.quote s) (mm1.pos s) s pre e).2.2 = fs at hout hf
      cases hout with
      | quiet => cases hf
      | hit g q' _ _ _ _ _ hts hpos _ _ _ =>
        rw [List.mem_singleton.mp hf]
        exact ⟨hts, hpos⟩
    rw [(@stepSides_some { mm1 with book := book } e pre).2.2.2]
    intro f hf
    cases List.mem_append.mp hf with
    | inl hf => exact hside .buy f hf
    | inr hf => exact hside .sell f hf

theorem pass_fills {m mids : Mids} (hrun : mm.pass m es = some (fills, mids))
    (htime : es.Pairwise fun e e' => e.ts.toNat ≤ e'.ts.toNat) : FillsOf es fills := by
  induction es generalizing mm m fills with
  | nil =>
    obtain ⟨rfl, -⟩ := Prod.mk.inj (Option.some.inj hrun)
    exact .nil
  | cons e es ih =>
    simp only [MarketMaker.pass, Option.bind_eq_bind, Option.bind_eq_some_iff] at hrun
    obtain ⟨⟨mm1, first⟩, h1, ⟨rest, last⟩, hrest, hrun⟩ := hrun
    obtain ⟨rfl, rfl⟩ := Prod.mk.inj (Option.some.inj hrun)
    obtain ⟨hfirst, htail⟩ := List.pairwise_cons.mp htime
    exact (ih hrest htail).cons (onEvent_stamps h1) hfirst

theorem hit_stamps (q : NQ) (side : Side) (pre : Side × Price) (e : BookEvent) :
    ∀ f ∈ (NaivePass.hit q side pre e).2, f.ts = e.ts ∧ 0 < f.qty.toNat := by
  intro f hf
  unfold NaivePass.hit at hf
  split at hf
  · cases hf
  · dsimp only at hf
    generalize (if e.shares < q.remaining then e.shares else q.remaining) = taken at hf
    by_cases h0 : taken = 0
    · rw [if_pos h0] at hf
      cases hf
    · rw [if_neg h0] at hf
      rw [List.mem_singleton.mp hf]
      exact ⟨rfl, Nat.pos_of_ne_zero fun hc => h0 (UInt32.toNat_inj.mp hc)⟩

theorem naive_stamps {n n' : NaivePass} (h : n.step e = some (n', fills)) :
    ∀ f ∈ fills, f.ts = e.ts ∧ 0 < f.qty.toNat := by
  simp only [NaivePass.step, Option.bind_eq_bind, Option.bind_eq_some_iff] at h
  obtain ⟨pre, -, book, -, n1, -, h⟩ := h
  obtain ⟨-, rfl⟩ := Prod.mk.inj (Option.some.inj h)
  cases pre with
  | none => exact fun f hf => by cases hf
  | some pre =>
    unfold NaivePass.hits
    dsimp only
    split
    · intro f hf
      cases List.mem_append.mp hf with
      | inl hf => exact hit_stamps _ _ _ _ f hf
      | inr hf => exact hit_stamps _ _ _ _ f hf
    · exact fun f hf => by cases hf

theorem naive_fills {n n' : NaivePass} (hrun : n.run es = some (n', fills))
    (htime : es.Pairwise fun e e' => e.ts.toNat ≤ e'.ts.toNat) : FillsOf es fills := by
  induction es generalizing n fills with
  | nil =>
    obtain ⟨-, rfl⟩ := Prod.mk.inj (Option.some.inj hrun)
    exact .nil
  | cons e es ih =>
    simp only [NaivePass.run, Option.bind_eq_bind, Option.bind_eq_some_iff] at hrun
    obtain ⟨⟨n1, first⟩, h1, ⟨n2, rest⟩, hrest, hrun⟩ := hrun
    obtain ⟨rfl, rfl⟩ := Prod.mk.inj (Option.some.inj hrun)
    obtain ⟨hfirst, htail⟩ := List.pairwise_cons.mp htime
    exact (ih hrest htail).cons (naive_stamps h1) hfirst

/-! ### The intervals -/

theorem scored_stamp {v : Market} {samples : List MidSample} {horizon : Ts}
    {sideFilter : Option Side} {f : Fill} {o : WeightedObs}
    (h : scored v es samples horizon sideFilter f = some o) : o.ts = f.ts ∧ o.weight = f.qty.toNat := by
  unfold scored at h
  split at h
  · simp only [Option.bind_eq_bind, Option.bind_eq_some_iff] at h
    obtain ⟨v', -, mid, -, h⟩ := h
    obtain rfl := Option.some.inj h
    exact ⟨rfl, rfl⟩
  · cases h

/-- Observations as the bootstrap asks for them. -/
structure Observed (obs : List WeightedObs) : Prop where
  order : obs.Pairwise fun x y => x.ts ≤ y.ts
  weight : ∀ o ∈ obs, 0 < o.weight

/-- The observations of a tape's fills are a series for the bootstrap. -/
theorem FillsOf.observed {v : Market} {samples : List MidSample} {horizon : Ts}
    {sideFilter : Option Side} (h : FillsOf es fills) :
    Observed (fills.filterMap (scored v es samples horizon sideFilter)) := by
  constructor
  case order =>
    refine List.pairwise_filterMap.mpr (h.order.imp fun {f g} hfg x hx y hy => ?_)
    rw [(scored_stamp hx).1, (scored_stamp hy).1]
    exact UInt64.le_iff_toNat_le.mpr hfg
  case weight =>
    intro o ho
    obtain ⟨f, hf, hscored⟩ := List.mem_filterMap.mp ho
    rw [(scored_stamp hscored).2]
    exact_mod_cast h.qty f hf

/-- No session has more blocks than can be counted. -/
theorem kBlock_fits (t0 t1 : Ts) : BlocksFit t0 t1 kBlock := by
  have hblock : kBlock.toNat = 300000000000 := rfl
  have hlt := t1.toNat_lt
  show (t1.toNat - t0.toNat) / kBlock.toNat + 1 < 2 ^ 64
  rw [hblock]
  omega

theorem kBlock_pos : 0 < kBlock := by decide

/-- The interval counts the observations, and its point is their mean where they span some
time. -/
structure Fair (obs : List WeightedObs) (r : Interval) : Prop where
  observed : Observed obs
  n : r.n = obs.length
  bounds : r.lo ≤ r.hi
  point : ∀ x ∈ obs, ∀ y ∈ obs, x.ts < y.ts → r.point = totalMean obs

/-- Every series has its interval. -/
theorem blockBootstrap_fair {obs : List WeightedObs} (h : Observed obs) (resamples : ℕ) :
    ∃ r, blockBootstrap obs kBlock resamples = some r ∧ Fair obs r := by
  cases hfront : obs.head? with
  | none =>
    rw [List.head?_eq_none_iff] at hfront
    subst hfront
    exact ⟨{}, rfl, h, rfl, le_rfl, fun x hx => absurd hx List.not_mem_nil⟩
  | some front =>
    have hne : obs ≠ [] := by rintro rfl; cases hfront
    have hback := List.getLast?_eq_some_getLast hne
    generalize obs.getLast hne = back at hback
    by_cases hspan : front.ts < back.ts
    · obtain ⟨r, hr, hest⟩ := @estimates_of_span _ _ _ _ resamples kBlock_pos hfront hback h.order
        h.weight hspan (kBlock_fits front.ts back.ts)
      exact ⟨r, hr, h, hest.n, hest.order, fun _ _ _ _ _ => hest.point⟩
    · have hle : back.ts ≤ front.ts := UInt64.not_lt.mp hspan
      refine ⟨{ n := obs.length }, ?_, h, rfl, le_rfl, fun x hx y hy hlt => ?_⟩
      · rw [blockBootstrap, hfront, hback]
        simp only [if_pos hle]
        rfl
      · -- two instants would span some time
        have hfirst := (between hfront hback h.order x hx).1
        have hlast := (between hfront hback h.order y hy).2
        exact absurd (UInt64.lt_of_le_of_lt hfirst (UInt64.lt_of_lt_of_le hlt hlast)) hspan

/-- A line of the report does right by the fills it scores, at what the market came to. -/
def Reported (v : Market) (es : List BookEvent) (mids : List MidSample) (fills : List Fill)
    (horizon : Ts) (row : MarkoutRow) : Prop :=
  ∀ x ∈ [(none, row.all), (some Side.buy, row.buy), (some Side.sell, row.sell)],
    ∃ obs, toObs mids horizon x.1 fills = some obs ∧
      obs = fills.filterMap (scored v es mids horizon x.1) ∧ Fair obs x.2

theorem reportMarkouts_fair {v : Market} {mids : List MidSample}
    (hobs : ∀ horizon sideFilter, toObs mids horizon sideFilter fills =
      some (fills.filterMap (scored v es mids horizon sideFilter))) (h : FillsOf es fills) :
    ∃ rows, reportMarkouts fills mids = some rows ∧
      List.Forall₂ (Reported v es mids fills) [1 * kSec, 10 * kSec, 60 * kSec] rows := by
  have hrow : ∀ horizon, ∃ row, (do
      let all ← blockBootstrap (← toObs mids horizon none fills) kBlock 2000
      let buy ← blockBootstrap (← toObs mids horizon (some .buy) fills) kBlock 2000
      let sell ← blockBootstrap (← toObs mids horizon (some .sell) fills) kBlock 2000
      return MarkoutRow.mk all buy sell) = some row ∧
        Reported v es mids fills horizon row := by
    intro horizon
    have hone : ∀ sideFilter, ∃ r, blockBootstrap
        (fills.filterMap (scored v es mids horizon sideFilter)) kBlock 2000 = some r ∧
          Fair (fills.filterMap (scored v es mids horizon sideFilter)) r := fun sideFilter =>
      blockBootstrap_fair h.observed 2000
    obtain ⟨all, hall, hfall⟩ := hone none
    obtain ⟨buy, hbuy, hfbuy⟩ := hone (some .buy)
    obtain ⟨sell, hsell, hfsell⟩ := hone (some .sell)
    refine ⟨⟨all, buy, sell⟩, ?_, ?_⟩
    · simp only [hobs, hall, hbuy, hsell, Option.bind_eq_bind, Option.bind_some]
      rfl
    · intro x hx
      simp only [List.mem_cons, List.not_mem_nil, or_false] at hx
      rcases hx with rfl | rfl | rfl
      · exact ⟨_, hobs _ _, rfl, hfall⟩
      · exact ⟨_, hobs _ _, rfl, hfbuy⟩
      · exact ⟨_, hobs _ _, rfl, hfsell⟩
  obtain ⟨r1, h1, hr1⟩ := hrow (1 * kSec)
  obtain ⟨r2, h2, hr2⟩ := hrow (10 * kSec)
  obtain ⟨r3, h3, hr3⟩ := hrow (60 * kSec)
  refine ⟨[r1, r2, r3], ?_, .cons hr1 (.cons hr2 (.cons hr3 .nil))⟩
  unfold reportMarkouts
  rw [List.mapM_cons, List.mapM_cons, List.mapM_cons, List.mapM_nil, h1, h2, h3]
  rfl

/-- On a tape in time order both fill models are reported on: the scored fills come in
time order and with positive weights, no interval is missing, each counts the fills it
scores, and the point of each whose fills span some time is their mean. -/
theorem both_models_reported (lo hi : Price) (size : Qty) (latency : Ts) (model : FillModel)
    (maxOrders maxLevels : ℕ) (mm0 : MarketMaker) (n0 n : NaivePass) (es : List BookEvent)
    (h : make lo hi size latency model maxOrders maxLevels = some mm0)
    (htime : es.Pairwise fun e e' => e.ts.toNat ≤ e'.ts.toNat) (fillsQ fillsN : List Fill)
    (mids : Mids) (hq : mm0.pass {} es = some (fillsQ, mids)) (hn : n0.run es = some (n, fillsN)) :
    ∀ fills ∈ [fillsN, fillsQ], ∃ rows, reportMarkouts fills mids.samples = some rows ∧
      List.Forall₂ (Reported mm0.market es mids.samples fills)
        [1 * kSec, 10 * kSec, 60 * kSec] rows := by
  obtain ⟨hc, hnone⟩ := Collected.make h
  intro fills hfills
  have hof : FillsOf es fills := by
    simp only [List.mem_cons, List.not_mem_nil, or_false] at hfills
    rcases hfills with rfl | rfl
    · exact naive_fills hn htime
    · exact pass_fills hq htime
  exact reportMarkouts_fair (fun horizon sideFilter =>
    toObs_pass hc hnone (make_queried h) hq htime horizon sideFilter fills) hof

/-! A session: the quote at the bid is reached twice, before the mid moves and after it. -/

def session : List BookEvent :=
  [⟨1, 1, 0, 200, 5, .add, .buy⟩, ⟨1, 2, 0, 300, 5, .add, .sell⟩, ⟨2, 3, 0, 200, 5, .add, .buy⟩,
    ⟨3, 1, 0, 0, 5, .execute, .buy⟩, ⟨2 * kSec, 3, 0, 0, 1, .execute, .buy⟩,
    ⟨4 * kSec, 3, 0, 0, 2, .execute, .buy⟩, ⟨13 * kSec, 4, 0, 210, 5, .add, .buy⟩,
    ⟨70 * kSec, 5, 0, 220, 5, .add, .buy⟩]

theorem session_runs : ∃ (mm0 : MarketMaker) (n0 n : NaivePass) (fillsQ fillsN : List Fill)
    (mids : Mids), make 100 300 3 0 .queueAware 8 4 = some mm0 ∧
      mm0.pass {} session = some (fillsQ, mids) ∧ n0.run session = some (n, fillsN) ∧
      toObs mids.samples (10 * kSec) none fillsQ =
        some [⟨2 * kSec, 2000, 1⟩, ⟨4 * kSec, 10 ^ 4 * 55 / 255, 2⟩] ∧ fillsN.length = 3 := by
  have hrun : ((make 100 300 3 0 .queueAware 8 4).bind fun mm => (mm.pass {} session).bind
      fun r => toObs r.2.samples (10 * kSec) none r.1) =
        some [⟨2 * kSec, 2000, 1⟩, ⟨4 * kSec, 10 ^ 4 * 55 / 255, 2⟩] := by decide +kernel
  have hrun' : ((NaivePass.make 100 300 3 8 4).bind fun n =>
      (n.run session).map fun r => r.2.length) = some 3 := by decide +kernel
  obtain ⟨mm0, h, hrun⟩ := Option.bind_eq_some_iff.mp hrun
  obtain ⟨⟨fillsQ, mids⟩, hpass, hobs⟩ := Option.bind_eq_some_iff.mp hrun
  obtain ⟨n0, -, hrun'⟩ := Option.bind_eq_some_iff.mp hrun'
  obtain ⟨⟨n, fillsN⟩, hn, hlen⟩ := Option.map_eq_some_iff.mp hrun'
  exact ⟨mm0, n0, n, fillsQ, fillsN, mids, h, hpass, hn, hobs, hlen⟩

theorem both_models_reported_session : ∃ (mm0 : MarketMaker) (n0 n : NaivePass)
    (fillsQ fillsN : List Fill) (mids : Mids), mm0.pass {} session = some (fillsQ, mids) ∧
      n0.run session = some (n, fillsN) ∧ fillsN.length = 3 ∧
      toObs mids.samples (10 * kSec) none fillsQ =
        some [⟨2 * kSec, 2000, 1⟩, ⟨4 * kSec, 10 ^ 4 * 55 / 255, 2⟩] ∧
      ∀ fills ∈ [fillsN, fillsQ], ∃ rows, reportMarkouts fills mids.samples = some rows ∧
        List.Forall₂ (Reported mm0.market session mids.samples fills)
          [1 * kSec, 10 * kSec, 60 * kSec] rows := by
  obtain ⟨mm0, n0, n, fillsQ, fillsN, mids, h, hpass, hn, hobs, hlen⟩ := session_runs
  exact ⟨mm0, n0, n, fillsQ, fillsN, mids, hpass, hn, hlen, hobs,
    both_models_reported 100 300 3 0 .queueAware 8 4 mm0 n0 n session h (by decide) fillsQ fillsN
      mids hpass hn⟩

end Hotpath.Sim
