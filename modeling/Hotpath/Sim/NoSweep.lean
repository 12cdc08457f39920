import Hotpath.Sim.QueueAhead
import Hotpath.Sim.Touch

/-!
# Marks of a fill without latency

Nothing is in flight when an event comes, so no fill is stale. A fill is swept
where a quote is better than the order that trades. Once the book is two-sided
and uncrossed an active quote rests at the price of a live order of its side, as
each event's last query has it; before that none is active, as long as no
replacement has misled the cached ticks into an uncrossed touch.
-/

namespace Hotpath.Book.HybridBook
open Hotpath.Support

variable {b b' : HybridBook} {Q : Queues} {s : Side} {bb ba : Price}

/-- No live order of the side has a better price. -/
def AtBest (b : HybridBook) (s : Side) (px : Price) : Prop :=
  ∀ q, b.hasLevel s q → ¬better s q px = true

/-- Both sides have live orders, and every bid is below every ask. -/
structure TwoSided (b : HybridBook) : Prop where
  bid : ∃ p, b.hasLevel .buy p
  ask : ∃ p, b.hasLevel .sell p
  uncrossed : ∀ p q, b.hasLevel .buy p → b.hasLevel .sell q → p < q

/-- The price of some level, zero when the side has none. -/
def LivePrice (Q : Queues) (s : Side) (px : Price) : Prop :=
  (px = kInvalidPrice ∧ ∀ p, Q s p = []) ∨ (px ≠ kInvalidPrice ∧ Q s px ≠ [])

theorem betterOf_mem (s : Side) (g o : Price) :
    (betterOf s g o = g ∧ g ≠ kInvalidPrice) ∨ (betterOf s g o = o ∧ o ≠ kInvalidPrice) ∨
      (betterOf s g o = kInvalidPrice ∧ g = kInvalidPrice ∧ o = kInvalidPrice) := by
  unfold betterOf
  by_cases hg : g = kInvalidPrice
  · rw [if_pos hg]
    by_cases ho : o = kInvalidPrice
    · exact Or.inr (Or.inr ⟨ho, hg, ho⟩)
    · exact Or.inr (Or.inl ⟨rfl, ho⟩)
  · rw [if_neg hg]
    by_cases ho : o = kInvalidPrice
    · rw [if_pos ho]
      exact Or.inl ⟨rfl, hg⟩
    · rw [if_neg ho]
      by_cases hb : better s g o = true
      · rw [if_pos hb]
        exact Or.inl ⟨rfl, hg⟩
      · rw [if_neg hb]
        exact Or.inr (Or.inl ⟨rfl, ho⟩)

/-- Whatever is cached, a query answers the price of a level, if there is one. -/
theorem Rep.best_live (hr : Rep b Q) (hz : NoZero b) (s : Side) :
    ∃ px r, HintFor b s r ∧ b.best s = some (px, b.setHint s r) ∧
      LivePrice Q s px := by
  obtain ⟨r, hfound, hgrid⟩ := hr.grid.gridBest_found s
  have hocc := hr.occupied_iff s
  refine ⟨_, r, hfound.hintFor, best_of_gridBest hgrid, ?_⟩
  have hover := isBest_topKey s (b.over_ s)
  have hzero : Q s kInvalidPrice = [] := hr.noZero_iff.mp hz s
  rcases betterOf_mem s (if r < 0 then kInvalidPrice else b.priceOf r.toNat)
    (topKey s (b.over_ s)) with ⟨he, hne⟩ | ⟨he, hne⟩ | ⟨he, hg, ho⟩
  · right
    rw [show betterOf s _ ((b.setHint s r).overBest s) = _ from he]
    refine ⟨hne, ?_⟩
    rcases hfound.hintFor with hr0 | ⟨t, rfl, ht⟩
    · rw [hr0] at hne
      exact absurd rfl hne
    · rw [if_neg (by omega), Int.toNat_natCast]
      exact (hocc _).mpr (Or.inl ⟨t, ht, rfl⟩)
  · right
    rw [show betterOf s _ ((b.setHint s r).overBest s) = _ from he]
    refine ⟨hne, ?_⟩
    rcases hover with ⟨h0, -⟩ | ⟨hmem, -⟩
    · exact absurd h0 hne
    · exact (hocc _).mpr (Or.inr hmem)
  · left
    refine ⟨he, fun p => ?_⟩
    by_contra hp
    rcases (hocc p).mp hp with ⟨t, ht, rfl⟩ | hmem
    · -- some tick is in use, so the one found has a price
      have hlive : ∀ u : ℕ, used b s u → b.priceOf u ≠ kInvalidPrice := fun u hu h0 =>
        (hocc _).mpr (Or.inl ⟨u, hu, h0.symm⟩) hzero
      rcases hfound with ⟨-, htop⟩ | ⟨-, u, rfl, hu⟩
      · rcases htop with ⟨-, hnone⟩ | ⟨u, rfl, hu, -⟩
        · exact hnone t ht
        · rw [if_neg (by omega), Int.toNat_natCast] at hg
          exact hlive u hu hg
      · rw [if_neg (by omega), Int.toNat_natCast] at hg
        exact hlive u hu hg
    · rcases hover with ⟨-, hnone⟩ | ⟨hmem', -⟩
      · exact hnone p hmem
      · rw [ho] at hmem'
        exact (hocc _).mpr (Or.inr hmem') hzero

theorem LivePrice.some (h : LivePrice Q s bb) {p : Price} (hp : Q s p ≠ []) :
    bb ≠ kInvalidPrice ∧ Q s bb ≠ [] := by
  cases h with
  | inl h => exact absurd (h.2 p) hp
  | inr h => exact h

/-- What both queries answer, whatever is cached. -/
theorem Rep.touched (hr : Rep b Q) (hz : NoZero b) (h : Touched b b' bb ba) :
    Rep b' Q ∧ NoZero b' ∧ LivePrice Q .buy bb ∧ LivePrice Q .sell ba ∧
      b'.ids = b.ids ∧ b'.orders = b.orders ∧ b'.levels = b.levels := by
  obtain ⟨b1, h1, h2⟩ := h
  obtain ⟨pb, rb, hfor, hbid, hlive⟩ := hr.best_live hz .buy
  rw [bestBid, hbid] at h1
  obtain ⟨rfl, rfl⟩ := Prod.mk.inj (Option.some.inj h1)
  have hr1 := hr.setHint .buy hfor
  have hz1 := hr1.noZero_iff.mpr (hr.noZero_iff.mp hz)
  obtain ⟨pa, ra, hfor', hask, hlive'⟩ := hr1.best_live hz1 .sell
  rw [bestAsk, hask] at h2
  obtain ⟨rfl, rfl⟩ := Prod.mk.inj (Option.some.inj h2)
  have hr2 := hr1.setHint .sell hfor'
  exact ⟨hr2, hr2.noZero_iff.mpr (hr.noZero_iff.mp hz), hlive, hlive', rfl, rfl, rfl⟩

theorem IsBestPrice.not_better {px q : Price} (h : IsBestPrice Q s px) (hq : Q s q ≠ []) :
    px = q ∨ better s px q = true := by
  rcases h with ⟨-, hnone⟩ | ⟨-, hbest⟩
  · exact absurd (hnone q) hq
  · exact (hbest q hq).imp Eq.symm id

theorem Rep.twoSided_of_best (hr : Rep b Q) (hb : IsBestPrice Q .buy bb)
    (ha : IsBestPrice Q .sell ba) (hb0 : bb ≠ kInvalidPrice) (ha0 : ba ≠ kInvalidPrice)
    (hlt : bb < ba) : b.TwoSided := by
  have hlive : ∀ s px, IsBestPrice Q s px → px ≠ kInvalidPrice → b.hasLevel s px := by
    intro s px h h0
    rcases h with ⟨hz, -⟩ | ⟨h, -⟩
    · exact absurd hz h0
    · exact hr.hasLevel_iff.mpr h
  refine ⟨⟨bb, hlive .buy bb hb hb0⟩, ⟨ba, hlive .sell ba ha ha0⟩, fun p q hp hq => ?_⟩
  have hp' := hb.not_better (hr.hasLevel_iff.mp hp)
  have hq' := ha.not_better (hr.hasLevel_iff.mp hq)
  simp only [better, decide_eq_true_eq, gt_iff_lt] at hp' hq'
  rw [UInt32.lt_iff_toNat_lt] at hlt hp' hq' ⊢
  rw [← UInt32.toNat_inj] at hp' hq'
  omega

/-- The prices of a side's levels, read off the grid and the overflow map. -/
def livePrices (b : HybridBook) (s : Side) : List Price :=
  ((List.range b.ticks).filter fun t => 0 ≤ (b.grid s).slot.getD t (-1)).map b.priceOf ++
    (b.over_ s).keys

theorem Rep.mem_livePrices (hr : Rep b Q) {p : Price} :
    p ∈ b.livePrices s ↔ b.hasLevel s p := by
  rw [hr.hasLevel_iff, hr.occupied_iff, livePrices, List.mem_append, Std.TreeMap.mem_keys]
  apply or_congr_left
  simp only [List.mem_map, List.mem_filter, List.mem_range, decide_eq_true_eq]
  constructor
  · rintro ⟨t, ⟨-, ht⟩, rfl⟩
    exact ⟨t, ht, rfl⟩
  · rintro ⟨t, ht, rfl⟩
    exact ⟨t, ⟨(hr.grid.used_priceOf ht).1, ht⟩, rfl⟩

/-- Every bid below every ask, of two sides with levels. -/
def twoSided (b : HybridBook) : Bool :=
  b.livePrices .buy ≠ [] && b.livePrices .sell ≠ [] &&
    (b.livePrices .buy).all fun p => (b.livePrices .sell).all fun q => p < q

theorem Rep.twoSided_iff (hr : Rep b Q) : b.twoSided = true ↔ b.TwoSided := by
  have hne : ∀ s, b.livePrices s ≠ [] ↔ ∃ p, b.hasLevel s p := by
    intro s
    constructor
    · intro h
      obtain ⟨p, hp⟩ := List.exists_mem_of_ne_nil _ h
      exact ⟨p, hr.mem_livePrices.mp hp⟩
    · rintro ⟨p, hp⟩
      exact List.ne_nil_of_mem (hr.mem_livePrices.mpr hp)
  simp only [twoSided, Bool.and_eq_true, List.all_eq_true, decide_eq_true_eq, hne,
    hr.mem_livePrices]
  constructor
  · rintro ⟨⟨hb, ha⟩, hlt⟩
    exact ⟨hb, ha, fun p q hp hq => hlt p hp q hq⟩
  · intro h
    exact ⟨⟨h.bid, h.ask⟩, fun p hp q hq => h.uncrossed p q hp hq⟩

end Hotpath.Book.HybridBook

namespace Hotpath.Sim
open Hotpath.Book Hotpath.Book.HybridBook

namespace MarketMaker

variable {mm mm' : MarketMaker} {e : BookEvent} {Q : Queues}

/-- Without latency the quotes an event meets are those of the event before, and
at a usable touch it leaves no quote off it. -/
theorem Idle.stages (hi : Idle mm) {fills : List Fill} (h : mm.onEvent e = some (mm', fills)) :
    ∃ bb0 ba0 bb ba b0 b1 pre, Touched mm.book b0 bb0 ba0 ∧ b0.step e.op = some b1 ∧
      Touched b1 mm'.book bb ba ∧ ({ mm with book := b0 } : MarketMaker).resolve e = some pre ∧
      (∀ f ∈ fills, ∃ p, pre = some p ∧ Marked (mm.quote f.side) f.side p e f) ∧
      (usable bb ba = true → ∀ s, (mm'.quote s).active = true →
        (mm'.quote s).px = touchOf bb ba s) ∧
      (¬usable bb ba = true → ∀ s, (mm'.quote s).active = true → (mm.quote s).active = true) := by
  obtain ⟨mm1, pre, book, hland, hpre, hstep, hreq, rfl⟩ := onEvent_some h
  obtain ⟨⟨bb0, ba0, mm2, hq0, hb0⟩, -, hlat1, -, -, hquote1, -⟩ :=
    landEarlier_idle hi.landed hland
  obtain ⟨c1, c2, g1, g2, rfl⟩ := queryTouch_some.mp hq0
  have hidle1 : Idle { mm1 with book := book } :=
    ⟨hlat1.trans hi.latency, fun s => by rw [hquote1]; exact hi.landed s⟩
  obtain ⟨hidle2, hbook2, -⟩ := stepSides_idle hidle1 pre e
  obtain ⟨bb, ba, mm3, hq1, hd, hcase⟩ := requote_zero hidle2.latency hidle2.landed hreq
  obtain ⟨d1, d2, k1, k2, rfl⟩ := queryTouch_some.mp hq1
  rw [hbook2] at k1
  refine ⟨bb0, ba0, bb, ba, mm1.book, book, pre, ⟨c1, g1, hb0 ▸ g2⟩, hstep,
    ⟨d1, k1, hd.book ▸ k2⟩, hpre, fun f hf => ?_, fun hu s ha => ?_, fun hu s ha => ?_⟩
  · have hmarks := stepSides_marks pre hf
    rw [← hquote1]
    exact hmarks
  · rcases hcase with ⟨hnot, -⟩ | ⟨-, hcase⟩
    · exact absurd hu hnot
    · rcases hcase s with ⟨⟨hact, hpx⟩, hsame⟩ | ⟨-, -, hact, hjoin⟩
      · rw [hsame] at ha ⊢
        exact hpx.resolve_left (not_not.mpr ha)
      · exact (hjoin (hact.symm.trans ha)).1
  · rcases hcase with ⟨-, hsame⟩ | ⟨hu', -⟩
    · rw [hsame] at ha
      rw [← hquote1]
      cases pre with
      | none => exact ha
      | some pre =>
        rw [(stepSides_some pre).2.1] at ha
        obtain ⟨f, ht⟩ := stepSide_taken mm1.fillModel (mm1.quote s) (mm1.pos s) s pre e
        exact ht.active ha
    · exact absurd hu' hu

/-! ### Runs -/

/-- An execution names an order at its side's best price. -/
def ExecutesBest (mm : MarketMaker) : Input → Prop
  | .quoting _ _ => True
  | .event e => e.type = .execute → ∀ pre, mm.resolve e = some (some pre) →
      mm.book.AtBest pre.side pre.px

/-- A two-sided and uncrossed book stays so. -/
def StaysTwoSided (mm : MarketMaker) (x : Input) : Prop :=
  mm.book.TwoSided → ∀ mm' fills, mm.input x = some (mm', fills) → mm'.book.TwoSided

/-- Until the book is two-sided and uncrossed no replacement demotes a best level. -/
def SafeBefore (mm : MarketMaker) (x : Input) : Prop := ¬mm.book.TwoSided → x.safe mm

/-- Between the events of such a run. -/
structure Placed (mm : MarketMaker) (Q : Queues) : Prop extends Idle mm where
  rep : Rep mm.book Q
  zero : NoZero mm.book
  hint : ¬mm.book.TwoSided → HintOk mm.book
  quotes : ∀ s, (mm.quote s).active = true →
    mm.book.TwoSided ∧ mm.book.hasLevel s (mm.quote s).px

theorem resolve_orders {b : HybridBook} (hi : b.ids = mm.book.ids)
    (ho : b.orders = mm.book.orders) (hl : b.levels = mm.book.levels) (e : BookEvent) :
    ({ mm with book := b } : MarketMaker).resolve e = mm.resolve e := by
  simp only [resolve, findOrder, levelByIndex, hi, ho, hl]

theorem Placed.unswept (hp : Placed mm Q) (hbest : ExecutesBest mm (.event e)) {fills : List Fill}
    (h : mm.onEvent e = some (mm', fills)) : ∀ f ∈ fills, f.swept = false := by
  obtain ⟨bb0, ba0, bb, ba, b0, b1, pre, htouch, -, -, hpre, hmarks, -⟩ := hp.stages h
  obtain ⟨-, -, -, -, hids, horders, hlevels⟩ := hp.rep.touched hp.zero htouch
  rw [resolve_orders hids horders hlevels] at hpre
  intro f hf
  obtain ⟨p, rfl, -, -, -, hswept⟩ := hmarks f hf
  cases hs : f.swept with
  | false => rfl
  | true =>
    obtain ⟨hactive, hps, he, hbetter⟩ := hswept hs
    have hlevel := (hp.quotes f.side hactive).2
    rw [← hps] at hlevel hbetter
    have hno := hbest he p hpre _ hlevel
    cases hsd : p.side with
    | buy =>
      rw [hsd] at hbetter hno
      exact absurd hbetter hno
    | sell =>
      rw [hsd] at hbetter hno
      exact absurd hbetter hno

theorem Placed.onEvent (hp : Placed mm Q) (hvalid : (Input.event e).valid)
    (hstays : StaysTwoSided mm (.event e)) (hsafe : SafeBefore mm (.event e)) {fills : List Fill}
    (h : mm.onEvent e = some (mm', fills)) : ∃ Q', Placed mm' Q' := by
  obtain ⟨bb1, ba1, bb2, ba2, c0, c1, -, -, -, hidle, -⟩ := hp.toIdle.onEvent h
  obtain ⟨bb0, ba0, bb, ba, b0, b1, pre, htouch, hstep, htouch', -, -, hat, hoff⟩ := hp.stages h
  obtain ⟨hr0, hz0, -⟩ := hp.rep.touched hp.zero htouch
  obtain ⟨-, Q', hr1, -⟩ := hr0.step_sim e.op hvalid.1 hstep
  have hz1 := hr0.step_noZero hz0 e.op hvalid.1 hvalid.2 hstep
  obtain ⟨hr', hz', hbb, hba, -⟩ := hr1.touched hz1 htouch'
  -- the cache was right before the event, and the event keeps it so
  have hright : ¬mm'.book.TwoSided →
      HintsKnown mm'.book ∧ IsBestPrice Q' .buy bb ∧ IsBestPrice Q' .sell ba := by
    intro hnot
    have hnot0 : ¬mm.book.TwoSided := fun ht => hnot (hstays ht mm' fills h)
    obtain ⟨-, hk0, hd0, -⟩ := hp.rep.touched_best (hp.hint hnot0) hp.zero htouch
    have hsafe' := hr0.safe_of_known hk0 e hvalid.1 (by rw [hd0]; exact hsafe hnot0)
    have hh1 := hr0.step_hint (fun s => Or.inr (hk0 s)) e.op hvalid.1 hsafe' hstep
    obtain ⟨-, hk, -, -, hpb, hpa, -⟩ := hr1.touched_best hh1 hz1 htouch'
    exact ⟨hk, hpb, hpa⟩
  refine ⟨Q', hidle, hr', hz', fun hnot s => Or.inr ((hright hnot).1 s), fun s ha => ?_⟩
  by_cases ht : mm'.book.TwoSided
  · obtain ⟨p, hpb⟩ := ht.bid
    obtain ⟨q, hqa⟩ := ht.ask
    obtain ⟨hbb0, hbbq⟩ := hbb.some (hr'.hasLevel_iff.mp hpb)
    obtain ⟨hba0, hbaq⟩ := hba.some (hr'.hasLevel_iff.mp hqa)
    have hlb := hr'.hasLevel_iff.mpr hbbq
    have hla := hr'.hasLevel_iff.mpr hbaq
    have hu : usable bb ba = true := by
      simp only [usable, decide_eq_true_eq]
      exact ⟨hbb0, hba0, ht.uncrossed bb ba hlb hla⟩
    refine ⟨ht, ?_⟩
    rw [hat hu s ha]
    cases s with
    | buy => exact hlb
    | sell => exact hla
  · -- no quote was active, and the touch is not usable
    exfalso
    by_cases hu : usable bb ba = true
    · obtain ⟨-, hpb, hpa⟩ := hright ht
      simp only [usable, decide_eq_true_eq] at hu
      exact ht (hr'.twoSided_of_best hpb hpa hu.1 hu.2.1 hu.2.2)
    · exact ht (hstays (hp.quotes s (hoff hu s ha)).1 mm' fills h)

theorem Idle.run_fresh (hi : Idle mm) {xs : List Input} {fills : List Fill}
    (h : mm.run xs = some (mm', fills)) : ∀ f ∈ fills, f.stale = false := by
  induction xs generalizing mm fills with
  | nil =>
    obtain ⟨rfl, rfl⟩ := Prod.mk.inj (Option.some.inj h)
    intro f hf
    cases hf
  | cons x xs ih =>
    obtain ⟨mm1, f1, f2, h1, h2, rfl⟩ := run_cons h
    have hone : Idle mm1 ∧ ∀ f ∈ f1, f.stale = false := by
      cases x with
      | quoting bid ask =>
        obtain ⟨rfl, rfl⟩ := Prod.mk.inj (Option.some.inj h1)
        exact ⟨⟨hi.latency, hi.landed⟩, fun f hf => by cases hf⟩
      | event e =>
        obtain ⟨bb0, ba0, bb, ba, b0, b1, -, -, -, hidle, -⟩ := hi.onEvent h1
        obtain ⟨bb0, ba0, bb, ba, b0, b1, pre, -, -, -, -, hmarks, -⟩ := hi.stages h1
        refine ⟨hidle, fun f hf => ?_⟩
        obtain ⟨p, -, -, -, hstale, -⟩ := hmarks f hf
        exact hstale.trans (hi.landed f.side)
    intro f hf
    cases List.mem_append.mp hf with
    | inl hf => exact hone.2 f hf
    | inr hf => exact ih hone.1 h2 f hf

theorem Placed.run_unswept (hp : Placed mm Q) {xs : List Input} (hvalid : ∀ x ∈ xs, x.valid)
    (hbest : along ExecutesBest mm xs) (hstays : along StaysTwoSided mm xs)
    (hsafe : along SafeBefore mm xs) {fills : List Fill} (h : mm.run xs = some (mm', fills)) :
    ∀ f ∈ fills, f.swept = false := by
  induction xs generalizing mm Q fills with
  | nil =>
    obtain ⟨rfl, rfl⟩ := Prod.mk.inj (Option.some.inj h)
    intro f hf
    cases hf
  | cons x xs ih =>
    obtain ⟨mm1, f1, f2, h1, h2, rfl⟩ := run_cons h
    have hone : (∃ Q', Placed mm1 Q') ∧ ∀ f ∈ f1, f.swept = false := by
      cases x with
      | quoting bid ask =>
        obtain ⟨rfl, rfl⟩ := Prod.mk.inj (Option.some.inj h1)
        exact ⟨⟨Q, ⟨hp.latency, hp.landed⟩, hp.rep, hp.zero, hp.hint, hp.quotes⟩,
          fun f hf => by cases hf⟩
      | event e =>
        exact ⟨hp.onEvent (hvalid _ (List.mem_cons_self ..)) hstays.1 hsafe.1 h1,
          hp.unswept hbest.1 h1⟩
    obtain ⟨⟨Q', hp'⟩, hf1⟩ := hone
    intro f hf
    cases List.mem_append.mp hf with
    | inl hf => exact hf1 f hf
    | inr hf =>
      exact ih hp' (fun y hy => hvalid y (List.mem_cons_of_mem _ hy)) (hbest.2 mm1 f1 h1)
        (hstays.2 mm1 f1 h1) (hsafe.2 mm1 f1 h1) h2 f hf

/-- Without latency no fill is stale. Where every execution names an order at its
side's best price and the book, once two-sided and uncrossed, stays so, no fill
is swept either, provided that before then no replacement demotes a best level
and so misleads the cached tick. -/
theorem fills_unmarked (lo hi : Price) (size : Qty) (model : FillModel) (maxOrders maxLevels : ℕ)
    (mm0 : MarketMaker) (hmake : make lo hi size 0 model maxOrders maxLevels = some mm0)
    (xs : List Input) (hvalid : ∀ x ∈ xs, x.valid) (mm : MarketMaker) (fills : List Fill)
    (hrun : mm0.run xs = some (mm, fills)) :
    (∀ f ∈ fills, f.stale = false) ∧
      (along ExecutesBest mm0 xs → along StaysTwoSided mm0 xs → along SafeBefore mm0 xs →
        ∀ f ∈ fills, f.swept = false) := by
  obtain ⟨b, hb, rfl⟩ := make_some hmake
  have hidle : Idle { book := b, quoteSize := size, latency := 0, fillModel := model } :=
    ⟨rfl, fun _ => rfl⟩
  refine ⟨hidle.run_fresh hrun, fun hbest hstays hsafe => ?_⟩
  obtain ⟨Q, hr, -, hh, hz⟩ := Tracks.make hb
  have hplaced : Placed { book := b, quoteSize := size, latency := 0, fillModel := model } Q :=
    ⟨hidle, hr, hz, fun _ => hh, fun s ha => by cases ha⟩
  exact hplaced.run_unswept hvalid hbest hstays hsafe hrun

/-! ### Two runs -/

theorem Idle.input_rep (hi : Idle mm) (hr : Rep mm.book Q) (hz : NoZero mm.book) {x : Input}
    (hvalid : x.valid) {fills : List Fill} (h : mm.input x = some (mm', fills)) :
    Idle mm' ∧ ∃ Q', Rep mm'.book Q' ∧ NoZero mm'.book := by
  cases x with
  | quoting bid ask =>
    obtain ⟨rfl, rfl⟩ := Prod.mk.inj (Option.some.inj h)
    exact ⟨⟨hi.latency, hi.landed⟩, Q, hr, hz⟩
  | event e =>
    obtain ⟨bb0, ba0, bb, ba, b0, b1, htouch, hstep, htouch', hidle, -⟩ := hi.onEvent h
    obtain ⟨hr0, hz0, -⟩ := hr.touched hz htouch
    obtain ⟨-, Q', hr1, -⟩ := hr0.step_sim e.op hvalid.1 hstep
    obtain ⟨hr', hz', -⟩ := hr1.touched (hr0.step_noZero hz0 e.op hvalid.1 hvalid.2 hstep) htouch'
    exact ⟨hidle, Q', hr', hz'⟩

def executesBest (mm : MarketMaker) : Input → Bool
  | .quoting _ _ => true
  | .event e => e.type ≠ .execute || match mm.resolve e with
    | some (some pre) => (mm.book.livePrices pre.side).all fun q => !better pre.side q pre.px
    | _ => true

/-- Both promises of the caller, at input `k` of a run. -/
def bestAt (mm0 : MarketMaker) (xs : List Input) (k : ℕ) : Bool :=
  match mm0.run (xs.take k), xs[k]? with
  | some (mm, _), some x => executesBest mm x && (!mm.book.twoSided ||
      match mm.input x with
      | some (mm', _) => mm'.book.twoSided
      | none => true)
  | _, _ => true

theorem executesBest_sound (hr : Rep mm.book Q) {x : Input} (h : executesBest mm x = true) :
    ExecutesBest mm x := by
  cases x with
  | quoting bid ask => trivial
  | event e =>
    intro he pre hpre q hq
    simp only [executesBest, he, hpre, ne_eq, not_true_eq_false, decide_false, Bool.false_or,
      List.all_eq_true, Bool.not_eq_true'] at h
    rw [h q (hr.mem_livePrices.mpr hq)]
    exact Bool.false_ne_true

theorem Idle.run_rep (hi : Idle mm) (hr : Rep mm.book Q) (hz : NoZero mm.book)
    {xs : List Input} (hvalid : ∀ x ∈ xs, x.valid) {fills : List Fill}
    (h : mm.run xs = some (mm', fills)) :
    Idle mm' ∧ ∃ Q', Rep mm'.book Q' ∧ NoZero mm'.book := by
  induction xs generalizing mm Q fills with
  | nil =>
    obtain ⟨rfl, rfl⟩ := Prod.mk.inj (Option.some.inj h)
    exact ⟨hi, Q, hr, hz⟩
  | cons x xs ih =>
    obtain ⟨mm1, f1, f2, h1, h2, rfl⟩ := run_cons h
    obtain ⟨hi1, Q1, hr1, hz1⟩ := hi.input_rep hr hz (hvalid x (List.mem_cons_self ..)) h1
    exact ih hi1 hr1 hz1 (fun y hy => hvalid y (List.mem_cons_of_mem _ hy)) h2

theorem bestAt_sound (hi : Idle mm) (hr : Rep mm.book Q) (hz : NoZero mm.book)
    {xs : List Input} (hvalid : ∀ x ∈ xs, x.valid)
    (h : (List.range xs.length).all (bestAt mm xs) = true) :
    along ExecutesBest mm xs ∧ along StaysTwoSided mm xs := by
  have hat : ∀ k mm' fills x, mm.run (xs.take k) = some (mm', fills) → xs[k]? = some x →
      ExecutesBest mm' x ∧ StaysTwoSided mm' x := by
    intro k mm1 f1 x hrun hx
    have hk : k < xs.length := (List.getElem?_eq_some_iff.mp hx).1
    have hb := List.all_eq_true.mp h k (List.mem_range.mpr hk)
    obtain ⟨hi1, Q1, hr1, hz1⟩ :=
      hi.run_rep hr hz (fun y hy => hvalid y (List.mem_of_mem_take hy)) hrun
    simp only [bestAt, hrun, hx, Bool.and_eq_true, Bool.or_eq_true, Bool.not_eq_true'] at hb
    refine ⟨executesBest_sound hr1 hb.1, fun ht mm2 f2 h2 => ?_⟩
    obtain ⟨-, Q2, hr2, -⟩ := hi1.input_rep hr1 hz1 (hvalid x (List.mem_of_getElem? hx)) h2
    have hnot : ¬mm1.book.twoSided = false := by
      rw [hr1.twoSided_iff.mpr ht]
      decide
    have hnext := hb.2.resolve_left hnot
    rw [h2] at hnext
    exact hr2.twoSided_iff.mp hnext
  exact ⟨along_of_takes fun k mm' fills x hrun hx => (hat k mm' fills x hrun hx).1,
    along_of_takes fun k mm' fills x hrun hx => (hat k mm' fills x hrun hx).2⟩

/-- A crossed book: the best bid goes below the second, and the market maker joins
it as if uncrossed. The book empties from the other side and refills lower. -/
def misled : List Input := [.event ⟨1, 1, 0, 400, 5, .add, .buy⟩,
  .event ⟨2, 2, 0, 300, 5, .add, .buy⟩, .event ⟨3, 3, 0, 200, 5, .add, .sell⟩,
  .event ⟨4, 1, 4, 100, 5, .replace, .buy⟩, .event ⟨5, 3, 0, 0, 0, .delete, .sell⟩,
  .event ⟨6, 2, 0, 0, 0, .delete, .buy⟩, .event ⟨7, 5, 0, 50, 5, .add, .buy⟩,
  .event ⟨8, 4, 0, 0, 0, .delete, .buy⟩, .event ⟨9, 5, 0, 0, 5, .execute, .buy⟩]

theorem misled_valid : ∀ x ∈ misled, x.valid := by
  simp [misled, Input.valid, BookEvent.op, Op.refs, Op.prices]

/-- Without the proviso a quote left over from a misread touch is swept. -/
theorem misled_quote_swept : ¬∀ (lo hi : Price) (size : Qty) (model : FillModel)
    (maxOrders maxLevels : ℕ) (mm0 : MarketMaker),
    make lo hi size 0 model maxOrders maxLevels = some mm0 →
    ∀ xs : List Input, (∀ x ∈ xs, x.valid) → ∀ mm fills, mm0.run xs = some (mm, fills) →
    mm.book.rejected = 0 → along ExecutesBest mm0 xs → along StaysTwoSided mm0 xs →
    ∀ f ∈ fills, f.swept = false := by
  intro hall
  have hrun : ((make 100 400 3 0 .queueAware 8 8).bind fun mm0 => (mm0.run misled).map fun r =>
      (r.1.book.rejected, r.2)) = some (0, [⟨9, 100, 3, .buy, 5, false, true⟩]) := by
    decide +kernel
  have halong : ((make 100 400 3 0 .queueAware 8 8).map fun mm0 =>
      (List.range misled.length).all (bestAt mm0 misled)) = some true := by decide +kernel
  obtain ⟨mm0, hmake, h⟩ := Option.bind_eq_some_iff.mp hrun
  obtain ⟨⟨mm, fills⟩, hrun, h⟩ := Option.map_eq_some_iff.mp h
  simp only [Prod.mk.injEq] at h
  obtain ⟨hrej, rfl⟩ := h
  rw [hmake, Option.map_some, Option.some.injEq] at halong
  obtain ⟨b, hb, hmm0⟩ := make_some hmake
  obtain ⟨Q, hr, -, -, hz⟩ := Tracks.make hb
  have hbest : along ExecutesBest mm0 misled ∧ along StaysTwoSided mm0 misled := by
    subst hmm0
    exact bestAt_sound ⟨rfl, fun _ => rfl⟩ hr hz misled_valid halong
  have hswept := hall 100 400 3 .queueAware 8 8 mm0 hmake misled misled_valid mm _ hrun hrej
    hbest.1 hbest.2 _ (List.mem_cons_self ..)
  cases hswept

/-- An execution at the best bid of an uncrossed book. -/
def atBest : List Input := [.event ⟨1, 1, 0, 200, 5, .add, .buy⟩,
  .event ⟨2, 2, 0, 300, 5, .add, .sell⟩, .event ⟨3, 1, 0, 0, 4, .execute, .buy⟩]

theorem fills_unmarked_three : ∃ (mm0 mm : MarketMaker) (fills : List Fill),
    make 100 300 3 0 .naive 4 4 = some mm0 ∧ mm0.run atBest = some (mm, fills) ∧
    shares .buy fills = 3 ∧ (∀ f ∈ fills, f.stale = false) ∧ ∀ f ∈ fills, f.swept = false := by
  have hrun : ((make 100 300 3 0 .naive 4 4).bind fun mm0 => (mm0.run atBest).map fun r =>
      ((List.range atBest.length).all (bestAt mm0 atBest), shares .buy r.2)) =
      some (true, 3) := by decide +kernel
  obtain ⟨mm0, hmake, h⟩ := Option.bind_eq_some_iff.mp hrun
  obtain ⟨⟨mm, fills⟩, hrun, h⟩ := Option.map_eq_some_iff.mp h
  obtain ⟨halong, hshares⟩ := Prod.mk.inj h
  have hvalid : ∀ x ∈ atBest, x.valid := by
    simp [atBest, Input.valid, BookEvent.op, Op.refs, Op.prices]
  obtain ⟨b, hb, hmm0⟩ := make_some hmake
  obtain ⟨Q, hr, -, -, hz⟩ := Tracks.make hb
  have hbest : along ExecutesBest mm0 atBest ∧ along StaysTwoSided mm0 atBest := by
    subst hmm0
    exact bestAt_sound ⟨rfl, fun _ => rfl⟩ hr hz hvalid halong
  have hsafe : along SafeBefore mm0 atBest :=
    ⟨fun _ h => absurd h (by decide), fun _ _ _ => ⟨fun _ h => absurd h (by decide),
      fun _ _ _ => ⟨fun _ h => absurd h (by decide), fun _ _ _ => trivial⟩⟩⟩
  obtain ⟨hstale, hswept⟩ :=
    fills_unmarked 100 300 3 .naive 4 4 mm0 hmake atBest hvalid mm fills hrun
  exact ⟨mm0, mm, fills, hmake, hrun, hshares, hstale, hswept hbest.1 hbest.2 hsafe⟩

end MarketMaker

end Hotpath.Sim
