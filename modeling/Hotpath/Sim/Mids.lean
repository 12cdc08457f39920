import Hotpath.Sim.SharedBook
import Hotpath.Support.Recorded

/-!
# The mid series (src/sim_mm.cpp, src/latency_sweep.cpp)

A pass over the tape notes the mid-price where it changes; a fill is marked
against the mid some time later. The mid is the market's, so the series is the
same under every configuration, and on a tape in time order looking it up gives
the mid that stood after all the events up to then.
-/

namespace Hotpath.Sim
open Hotpath.Book Hotpath.Support

structure MidSample where
  ts : Ts
  mid : ℚ
  deriving DecidableEq

/-- `std::upper_bound` by the time stamp. -/
def upperBound (s : List MidSample) (t : Ts) : Option ℕ :=
  lowerBound (fun i => (s[i]?).map fun m => !Decidable.decide (t < m.ts)) s.length 0 s.length

/-- -1 where there is no sample that early, or none that late. -/
def midAt (s : List MidSample) (t : Ts) : Option ℚ :=
  match s.getLast? with
  | none => some (-1)
  | some back =>
    if back.ts < t then some (-1)
    else do
      let it ← upperBound s t
      if it = 0 then return -1
      let m ← s[it - 1]?
      return m.mid

/-- `mids` and `last_mid`. -/
structure Mids where
  samples : List MidSample := []
  last : ℚ := -1
  deriving DecidableEq

def Mids.push (m : Mids) (ts : Ts) (mid : ℚ) : Mids :=
  if mid ≠ m.last then ⟨m.samples ++ [⟨ts, mid⟩], mid⟩ else m

def Mids.follow (m : Mids) (mm : MarketMaker) (ts : Ts) : Mids :=
  if mm.haveMid then m.push ts mm.mid else m

namespace MarketMaker

/-- The pass over the tape: the fills and the mids. -/
def pass : MarketMaker → Mids → List BookEvent → Option (List Fill × Mids)
  | _, mids, [] => some ([], mids)
  | mm, mids, e :: es => do
    let (mm, fills) ← mm.onEvent e
    let (rest, mids) ← pass mm (mids.follow mm e.ts) es
    return (fills ++ rest, mids)

/-! ### What the market shows -/

def Market.reading (v : Market) : Option ℚ := if v.haveMid then some v.mid else none

/-- The readings an observer takes after each event. -/
def Market.readings : Market → List BookEvent → Option (List (ℕ × Option ℚ))
  | _, [] => some []
  | v, e :: es => do
    let v ← v.step e
    let rest ← readings v es
    return (e.ts.toNat, v.reading) :: rest

/-- The market after all the events of the tape up to a time. -/
def Market.upTo (v : Market) (es : List BookEvent) (t : Ts) : Option Market :=
  v.steps (es.filter fun e => e.ts.toNat ≤ t.toNat)

variable {mm mm' : MarketMaker} {e : BookEvent} {es : List BookEvent} {v v' : Market}

/-- The best bid is a price and the best ask above it, so their mid is not a sentinel. -/
def Market.Priced (v : Market) : Prop := v.haveMid = true → 1 ≤ v.mid

theorem usable_mid {bb ba : Price} (h : usable bb ba = true) :
    1 ≤ ((bb.toNat : ℚ) + ba.toNat) / 2 := by
  simp only [usable, Bool.decide_and, Bool.and_eq_true, decide_eq_true_eq] at h
  obtain ⟨hbb, -, hlt⟩ := h
  have hne : bb.toNat ≠ 0 := fun h0 => hbb (UInt32.toNat_inj.mp h0)
  have hb : 1 ≤ bb.toNat := Nat.one_le_iff_ne_zero.mpr hne
  have ha : bb.toNat < ba.toNat := hlt
  have hb' : (1 : ℚ) ≤ bb.toNat := by exact_mod_cast hb
  have ha' : (1 : ℚ) ≤ ba.toNat := by exact_mod_cast (hb.trans ha.le)
  linarith

/-- A mid-price, once there is one, stays, and is that of two prices. -/
theorem Market.step_priced (h : v.Priced) (hs : v.step e = some v') :
    v'.Priced ∧ (v.haveMid = true → v'.haveMid = true) := by
  simp only [Market.step, Option.bind_eq_bind, Option.bind_eq_some_iff] at hs
  obtain ⟨pre, -, book, -, ⟨bb, b1⟩, -, ⟨ba, b2⟩, -, hs⟩ := hs
  obtain rfl := Option.some.inj hs
  by_cases hu : usable bb ba = true
  · rw [if_pos hu]
    exact ⟨fun _ => usable_mid hu, fun _ => rfl⟩
  · rw [if_neg hu]
    exact ⟨h, fun h' => h'⟩

theorem Market.upTo_priced (h : v.Priced) {t : Ts} (hs : v.upTo es t = some v') : v'.Priced := by
  unfold Market.upTo at hs
  generalize es.filter (fun e => e.ts.toNat ≤ t.toNat) = es at hs
  induction es generalizing v with
  | nil =>
    obtain rfl := Option.some.inj hs
    exact h
  | cons e es ih =>
    obtain ⟨v1, h1, hs⟩ := Option.bind_eq_some_iff.mp hs
    exact ih (Market.step_priced h h1).1 hs

theorem Market.readings_cons {rs : List (ℕ × Option ℚ)}
    (h : v.readings (e :: es) = some rs) : ∃ v1 rest, v.step e = some v1 ∧
      v1.readings es = some rest ∧ rs = (e.ts.toNat, v1.reading) :: rest := by
  simp only [Market.readings, Option.bind_eq_bind, Option.bind_eq_some_iff] at h
  obtain ⟨v1, h1, rest, hrest, hrs⟩ := h
  exact ⟨v1, rest, h1, hrest, (Option.some.inj hrs).symm⟩

theorem Market.readings_times {rs : List (ℕ × Option ℚ)} (h : v.readings es = some rs) :
    rs.map Prod.fst = es.map fun e => e.ts.toNat := by
  induction es generalizing v rs with
  | nil =>
    obtain rfl := Option.some.inj h
    rfl
  | cons e es ih =>
    obtain ⟨v1, rest, -, hrest, rfl⟩ := Market.readings_cons h
    rw [List.map_cons, List.map_cons, ih hrest]

/-- The last reading up to a time is of the market at that time. -/
theorem Market.readings_upTo {rs : List (ℕ × Option ℚ)} (h : v.readings es = some rs)
    (htime : es.Pairwise fun e e' => e.ts.toNat ≤ e'.ts.toNat) (t : Ts) :
    ∃ v', v.upTo es t = some v' ∧
      ((rs.filter fun x => x.1 ≤ t.toNat).getLast?.map Prod.snd).getD v.reading = v'.reading := by
  induction es generalizing v rs with
  | nil =>
    obtain rfl := Option.some.inj h
    exact ⟨v, rfl, rfl⟩
  | cons e es ih =>
    obtain ⟨v1, rest, h1, hrest, rfl⟩ := Market.readings_cons h
    obtain ⟨hfirst, htail⟩ := List.pairwise_cons.mp htime
    by_cases ht : e.ts.toNat ≤ t.toNat
    · obtain ⟨v', hv', hread⟩ := ih hrest htail
      refine ⟨v', ?_, ?_⟩
      · unfold Market.upTo
        rw [List.filter_cons_of_pos (p := fun e : BookEvent => e.ts.toNat ≤ t.toNat)
          (decide_eq_true ht), Market.steps, h1]
        exact hv'
      · rw [List.filter_cons_of_pos (p := fun x : ℕ × Option ℚ => x.1 ≤ t.toNat)
          (decide_eq_true ht), ← hread, List.getLast?_cons]
        cases (rest.filter fun x => x.1 ≤ t.toNat).getLast? with
        | none => rfl
        | some x => rfl
    · -- no later event is up to the time
      have hlate : ∀ x ∈ e :: es, ¬x.ts.toNat ≤ t.toNat := by
        intro x hx
        cases List.mem_cons.mp hx with
        | inl he => exact he ▸ ht
        | inr hx => exact fun hle => ht ((hfirst x hx).trans hle)
      have hnone : ∀ x ∈ (e.ts.toNat, v1.reading) :: rest, ¬x.1 ≤ t.toNat := by
        intro x hx
        have hmem := List.mem_map_of_mem (f := Prod.fst) hx
        rw [Market.readings_times h] at hmem
        obtain ⟨y, hy, hyx⟩ := List.mem_map.mp hmem
        rw [← hyx]
        exact hlate y hy
      refine ⟨v, ?_, ?_⟩
      · unfold Market.upTo
        rw [List.filter_eq_nil_iff.mpr fun x hx => by simpa using hlate x hx]
        rfl
      · rw [List.filter_eq_nil_iff.mpr fun x hx => by simpa using hnone x hx]
        rfl

/-! ### The series follows it -/

/-- The samples are kept of what the market has shown. -/
structure Collected (v : Market) (past : List (ℕ × Option ℚ)) (m : Mids) : Prop where
  kept : Kept (fun s : MidSample => s.ts.toNat) MidSample.mid past m.samples
  last : m.last = (m.samples.getLast?.map MidSample.mid).getD (-1)
  unset : v.haveMid = false → m.samples = []
  priced : v.Priced

theorem Collected.follow {past : List (ℕ × Option ℚ)} {m : Mids} (h : Collected v past m)
    (hs : v.step e = some mm.market) :
    Collected mm.market (past ++ [(e.ts.toNat, mm.market.reading)]) (m.follow mm e.ts) := by
  obtain ⟨hpriced, hstays⟩ := Market.step_priced h.priced hs
  by_cases hmid : mm.haveMid = true
  · have hread : mm.market.reading = some mm.mid := if_pos hmid
    have hone : 1 ≤ mm.mid := hpriced hmid
    have hset : ¬mm.market.haveMid = false := by
      show ¬mm.haveMid = false
      rw [hmid]
      decide
    unfold Mids.follow
    rw [if_pos hmid, Mids.push, hread]
    by_cases hnew : mm.mid ≠ m.last
    · rw [if_pos hnew]
      exact ⟨h.kept.changed ⟨e.ts, mm.mid⟩, by rw [List.getLast?_concat]; rfl,
        fun h' => absurd h' hset, hpriced⟩
    · rw [if_neg hnew]
      have heq : mm.mid = m.last := not_not.mp hnew
      have hlast : m.samples.getLast?.map MidSample.mid = some mm.mid := by
        have hl := h.last
        cases hg : m.samples.getLast? with
        | none =>
          rw [hg, ← heq] at hl
          have hneg : mm.mid = -1 := hl
          linarith
        | some s =>
          rw [hg, ← heq] at hl
          rw [hl]
          rfl
      exact ⟨h.kept.same _ _ hlast, h.last, fun h' => absurd h' hset, hpriced⟩
  · have hread : mm.market.reading = none := if_neg hmid
    have hunset : v.haveMid = false := Bool.eq_false_iff.mpr fun h' => hmid (hstays h')
    have hnil := h.unset hunset
    unfold Mids.follow
    rw [if_neg hmid, hread]
    have hkept := h.kept
    rw [hnil] at hkept
    exact ⟨hnil ▸ hkept.unset _, h.last, fun _ => hnil, hpriced⟩

/-- A pass collects the mids of the readings of its market. -/
theorem Collected.pass {past : List (ℕ × Option ℚ)} {m mids : Mids} {fills : List Fill}
    (h : Collected mm.market past m) (hq : Queried mm.book)
    (hrun : mm.pass m es = some (fills, mids)) : ∃ rs v,
      mm.market.readings es = some rs ∧ Collected v (past ++ rs) mids := by
  induction es generalizing mm m past fills with
  | nil =>
    obtain ⟨-, rfl⟩ := Prod.mk.inj (Option.some.inj hrun)
    exact ⟨[], mm.market, rfl, by rwa [List.append_nil]⟩
  | cons e es ih =>
    simp only [MarketMaker.pass, Option.bind_eq_bind, Option.bind_eq_some_iff] at hrun
    obtain ⟨⟨mm1, first⟩, h1, ⟨rest, mids'⟩, hrest, hrun⟩ := hrun
    obtain ⟨-, rfl⟩ := Prod.mk.inj (Option.some.inj hrun)
    have hev := onEvent_market hq e
    rw [h1] at hev
    have hstep : mm.market.step e = some mm1.market := hev.symm
    obtain ⟨rs, v, hrs, hcol⟩ := ih (h.follow hstep) (Market.step_queried hq hstep) hrest
    refine ⟨(e.ts.toNat, mm1.market.reading) :: rs, v, ?_, ?_⟩
    · simp only [Market.readings, hstep, hrs, Option.bind_eq_bind, Option.bind_some]
      rfl
    · rwa [List.append_assoc, List.singleton_append] at hcol

theorem Collected.make {lo hi : Price} {size : Qty} {latency : Ts} {model : FillModel}
    {maxOrders maxLevels : ℕ} (h : make lo hi size latency model maxOrders maxLevels = some mm) :
    Collected mm.market [] {} ∧ mm.market.reading = none := by
  obtain ⟨b, -, rfl⟩ := make_some h
  exact ⟨⟨.start, rfl, fun _ => rfl, fun h' => by cases h'⟩, rfl⟩

end MarketMaker

/-! ### Looking it up -/

theorem upperBound_eq {s : List MidSample}
    (hs : s.Pairwise fun a b => a.ts.toNat ≤ b.ts.toNat) (t : Ts) :
    upperBound s t = some (s.filter fun m => m.ts.toNat ≤ t.toNat).length ∧
      s.take (s.filter fun m => m.ts.toNat ≤ t.toNat).length =
        s.filter fun m => m.ts.toNat ≤ t.toNat := by
  have hp : (fun m : MidSample => !decide (t < m.ts)) =
      fun m => decide (m.ts.toNat ≤ t.toNat) := by
    funext m
    rw [← decide_not]
    exact decide_eq_decide.mpr (by rw [UInt64.lt_iff_toNat_lt]; exact not_lt)
  unfold upperBound
  rw [hp]
  have hdown : s.Pairwise fun a b => decide (b.ts.toNat ≤ t.toNat) = true →
      decide (a.ts.toNat ≤ t.toNat) = true := by
    refine hs.imp fun {a b} hab => ?_
    rw [decide_eq_true_eq, decide_eq_true_eq]
    exact hab.trans
  exact ⟨lowerBound_filter hdown (Nat.zero_le _), take_filter hdown⟩

/-- In a series in time order the last sample up to a time is found, as long as
the series goes on after it. -/
theorem midAt_eq {s : List MidSample} (hs : s.Pairwise fun a b => a.ts.toNat ≤ b.ts.toNat)
    (t : Ts) : midAt s t = some (if ∃ m ∈ s, t.toNat ≤ m.ts.toNat then
      ((s.filter fun m => m.ts.toNat ≤ t.toNat).getLast?.map MidSample.mid).getD (-1) else -1) := by
  obtain ⟨hupper, htake⟩ := upperBound_eq hs t
  unfold midAt
  cases hback : s.getLast? with
  | none =>
    rw [List.getLast?_eq_none_iff] at hback
    subst hback
    rfl
  | some back =>
    obtain ⟨init, rfl⟩ := List.getLast?_eq_some_iff.mp hback
    have hlast : ∀ m ∈ init ++ [back], m.ts.toNat ≤ back.ts.toNat := by
      intro m hm
      cases List.mem_append.mp hm with
      | inl hm => exact (List.pairwise_append.mp hs).2.2 m hm back (List.mem_singleton_self _)
      | inr hm => exact le_of_eq (by rw [List.mem_singleton.mp hm])
    dsimp only
    by_cases hlate : back.ts < t
    · have hno : ¬∃ m ∈ init ++ [back], t.toNat ≤ m.ts.toNat := by
        rintro ⟨m, hm, hle⟩
        exact absurd (UInt64.lt_iff_toNat_lt.mp hlate) (not_lt.mpr (hle.trans (hlast m hm)))
      rw [if_pos hlate, if_neg hno]
    · have hyes : ∃ m ∈ init ++ [back], t.toNat ≤ m.ts.toNat :=
        ⟨back, List.mem_append_right _ (List.mem_singleton_self _),
          not_lt.mp fun hlt => hlate (UInt64.lt_iff_toNat_lt.mpr hlt)⟩
      rw [if_neg hlate, if_pos hyes, hupper, Option.bind_eq_bind, Option.bind_some]
      generalize init ++ [back] = s at htake
      generalize s.filter (fun m => m.ts.toNat ≤ t.toNat) = early at htake
      cases hfound : early.getLast? with
      | none =>
        rw [List.getLast?_eq_none_iff] at hfound
        rw [hfound]
        rfl
      | some m =>
        obtain ⟨init, rfl⟩ := List.getLast?_eq_some_iff.mp hfound
        have hlen : (init ++ [m]).length = init.length + 1 := List.length_append
        have hget : s[init.length]? = some m := by
          rw [← List.getElem?_take_of_lt (show init.length < init.length + 1 by omega), ← hlen, htake,
            List.getElem?_concat_length]
        rw [hlen, if_neg (Nat.succ_ne_zero _), Nat.add_sub_cancel, hget]
        rfl

end Hotpath.Sim
