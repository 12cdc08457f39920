import Hotpath.Book.HybridBest
import Hotpath.Sim.Quoting

/-!
# Joining the touch

With no latency the quotes follow the book's best prices event by event, as
far as the book knows them. Both sides are queried on either side of the book
change, so the cached ticks are known when it starts. A replacement is the one
change that can mislead them: it takes the last order from the best grid level
and starts a level of the window below another one.
-/

namespace Hotpath.Book.HybridBook
open Hotpath.Support

variable {b b' : HybridBook} {Q : Queues} {m : MapBook} {s : Side}

/-- `t` is the tick of the replaced order, alone on its side's best grid level;
the new level starts below the one at tick `u`. -/
def demotesBest (b : HybridBook) (oldRef : OrderId) (px : Price) : Prop :=
  ∃ oi t u : ℕ, b.ids.find OpenHashMap.hash oldRef = some (some (oi : ℤ)) ∧
    (b.ord oi).level = (b.grid (b.ord oi).side).slot.getD t (-1) ∧
    (b.lev (b.ord oi).level.toNat).orders = 1 ∧
    (∀ v, used b (b.ord oi).side v → v = t ∨ beyond (b.ord oi).side t v) ∧
    b.inGrid px = true ∧ b.levelIx (b.ord oi).side px < 0 ∧
    used b (b.ord oi).side u ∧ u ≠ t ∧ beyond (b.ord oi).side u (b.tickOf px)

/-- Both cached ticks are the best ones. -/
def HintsKnown (b : HybridBook) : Prop := ∀ s, IsTop s (used b s) (b.grid s).hint

theorem setHint_demotesBest {r : ℤ} {oldRef : OrderId} {px : Price} :
    (b.setHint s r).demotesBest oldRef px ↔ b.demotesBest oldRef px := by
  simp only [demotesBest, setHint_slot, setHint_used, setHint_levelIx]
  rfl

theorem startsSafe_of_known (hk : HintsKnown b) (px : Price) : b.startsSafe s px := by
  intro _ _ hneg t ht
  rcases hk s with ⟨-, hnone⟩ | ⟨u, hu, -, -⟩
  · exact absurd ht (hnone t)
  · omega

/-- With the best ticks known only a demoting replacement can mislead the cache. -/
theorem Rep.safe_of_known (hr : Rep b Q) (hk : HintsKnown b) (e : BookEvent)
    (hrefs : ∀ ref ∈ e.op.refs, ref ≠ OpenHashMap.kEmpty)
    (hd : e.type = .replace → e.shares = 0 ∨ ¬b.demotesBest e.order_ref e.price) :
    (Call.op e.op).safe b := by
  unfold BookEvent.op at hrefs ⊢
  cases he : e.type with
  | add => exact Or.inr (startsSafe_of_known hk e.price)
  | execute => trivial
  | cancel => trivial
  | delete => trivial
  | replace =>
    rw [he] at hrefs
    have href : e.order_ref ≠ OpenHashMap.kEmpty := hrefs _ (by simp [Op.refs])
    rcases hd he with h0 | hd
    · exact Or.inl h0
    · refine Or.inr fun oi b1 hfind h1 hin hix hneg u hu hbeyond => ?_
      rcases hr.found href with hl | ⟨n, s, p, l, r, hl, hq, -, hs, -⟩
      · rw [hr.table.find_spec href, hl] at hfind
        cases hfind
      · have hoi : oi = n := by
          rw [hr.table.find_spec href, hl] at hfind
          simpa using hfind.symm
        subst hoi
        obtain ⟨b2, h2, hr2, hp⟩ := hr.retire href hl hq
        rw [h1] at h2
        obtain rfl := Option.some.inj h2
        have hpx := priceOf_congr hp.lo
        rw [hs] at hix hneg hu hbeyond
        -- a tick in use afterwards was in use before, at another price
        obtain ⟨hut, huq⟩ := hr2.used_iff.mp hu
        rw [hp.ticks] at hut
        rw [hpx] at huq
        have huse : used b s u := by
          refine hr.used_iff.mpr ⟨hut, fun hnil => huq ?_⟩
          by_cases hsp : b.priceOf u = p
          · rw [hsp] at hnil
            rw [hnil] at hq
            exact absurd hq (by simp)
          · rw [set2_other fun h => hsp h.2, hnil]
        have hin' : b.inGrid e.price = true := by
          rw [← hin]
          simp only [inGrid, hp.lo, hp.ticks]
        have htick : b1.tickOf e.price = b.tickOf e.price := by rw [tickOf, tickOf, hp.lo]
        rw [htick] at hbeyond
        rw [hp.hint] at hneg
        by_cases hdrop : s = s ∧ l ++ r = [] ∧ b.inGrid p = true ∧ (b.grid s).hint = b.tickOf p
        · obtain ⟨-, hlast, hinp, hhint⟩ := hdrop
          have htop : ∀ v, used b s v → v = b.tickOf p ∨ beyond s (b.tickOf p) v := by
            rcases hk s with ⟨h, -⟩ | ⟨t, ht, -, hbest⟩
            · omega
            · have htp : t = b.tickOf p := by exact_mod_cast ht.symm.trans hhint
              rw [← htp]
              exact hbest
          have hone : Q s p = [oi] := by
            obtain ⟨rfl, rfl⟩ := List.append_eq_nil_iff.mp hlast
            exact hq
          have hmem : oi ∈ Q s p := by simp [hone]
          have hlevel := (hr.order s p oi hmem).level
          obtain ⟨k, hk', -, -, hlv⟩ := hr.level s p (hr.absent_of hmem)
          have hut' : u ≠ b.tickOf p := by
            rintro rfl
            rw [hr.grid.window.priceOf_tickOf hinp, set2_same, hlast] at huq
            exact huq rfl
          have hne : e.price ≠ p := by
            intro heq
            rw [heq] at hbeyond
            rcases htop u huse with h | h
            · exact hut' h
            · cases s <;> simp only [beyond] at h hbeyond <;> omega
          refine hd ⟨oi, b.tickOf p, u, hfind, ?_, ?_, ?_, hin', ?_, ?_, hut', ?_⟩
          · rw [hs, hlevel, levelIx, if_pos hinp]
          · rw [hlevel, hk', Int.toNat_natCast, hlv.orders, hone]
            rfl
          · rw [hs]
            exact htop
          · rw [hs]
            by_contra hc
            have hnil := hr2.absent s e.price hix
            rw [set2_other fun h => hne h.2] at hnil
            exact hr.live s e.price (by omega) hnil
          · rw [hs]
            exact huse
          · rw [hs]
            exact hbeyond
        · rw [if_neg hdrop] at hneg
          rcases hk s with ⟨-, hnone⟩ | ⟨t, ht, -, -⟩
          · exact hnone u huse
          · omega

/-- The book before and after both of its best prices are asked. -/
def Touched (b b' : HybridBook) (bb ba : Price) : Prop :=
  ∃ b1, b.bestBid = some (bb, b1) ∧ b1.bestAsk = some (ba, b')

/-- With the cache right both queries answer the best prices and leave both ticks known. -/
theorem Rep.touched_best {bb ba : Price} (hr : Rep b Q) (hh : HintOk b) (hz : NoZero b)
    (h : Touched b b' bb ba) : Rep b' Q ∧ HintsKnown b' ∧ b'.demotesBest = b.demotesBest ∧
      b'.rejected = b.rejected ∧ IsBestPrice Q .buy bb ∧ IsBestPrice Q .sell ba ∧
      ∀ m, Agrees b Q m → Agrees b' Q m := by
  obtain ⟨b1, h1, h2⟩ := h
  obtain ⟨pb, rb, hbid, htop, hpb, hr1, hh1⟩ := hr.best_eq hh (hr.noZero_iff.mp hz) .buy
  rw [bestBid, hbid] at h1
  obtain ⟨rfl, rfl⟩ := Prod.mk.inj (Option.some.inj h1)
  obtain ⟨pa, ra, hask, htop', hpa, hr2, -⟩ := hr1.best_eq hh1 (hr.noZero_iff.mp hz) .sell
  rw [bestAsk, hask] at h2
  obtain ⟨rfl, rfl⟩ := Prod.mk.inj (Option.some.inj h2)
  refine ⟨hr2, fun s => ?_, ?_, rfl, hpb, hpa, fun m ha => (ha.setHint rb).setHint ra⟩
  · rw [setHint_used, setHint_used]
    cases s with
    | buy =>
      rw [setHint_other (by simp), setHint_hint]
      exact htop
    | sell =>
      rw [setHint_hint, ← setHint_used (b := b) (s := .buy) (r := rb)]
      exact htop'
  · funext old px
    rw [eq_iff_iff, setHint_demotesBest, setHint_demotesBest]

theorem Tracks.touched {bb ba : Price} (ht : Tracks b m) (h : Touched b b' bb ba) :
    Tracks b' m ∧ HintsKnown b' ∧ b'.demotesBest = b.demotesBest ∧ b'.rejected = b.rejected ∧
      (b.rejected = 0 → bb = mapBest m .buy ∧ ba = mapBest m .sell) := by
  obtain ⟨Q, hr, ha, hh, hz⟩ := ht
  obtain ⟨hr', hk, hd, hrej, hbid, hask, hagree⟩ := hr.touched_best hh hz h
  have hz' := hr'.noZero_iff.mpr (hr.noZero_iff.mp hz)
  refine ⟨⟨Q, hr', fun h0 => hagree m (ha (hrej ▸ h0)), fun s => Or.inr (hk s), hz'⟩, hk, hd, hrej,
    fun h0 => ⟨?_, ?_⟩⟩
  · exact hbid.unique ((ha h0).mapBest_isBest .buy)
  · exact hask.unique ((ha h0).mapBest_isBest .sell)

/-- The head of a side of the snapshot is a live level. -/
theorem Tracks.head (ht : Tracks b m) (h0 : b.rejected = 0) {v : LevelView}
    (hv : (ladder m.snapshot s).head? = some v) :
    v.price = mapBest m s ∧ v.price ≠ kInvalidPrice ∧ b.hasLevel s v.price ∧
      ∀ q, b.hasLevel s q → q = v.price ∨ better s v.price q = true := by
  obtain ⟨Q, hr, ha, -, hz⟩ := ht
  replace ha := ha h0
  have hpx : v.price = mapBest m s := by rw [mapBest_head, hv]; rfl
  simp only [hr.hasLevel_iff]
  have hlive : Q s v.price ≠ [] := by
    refine hr.live s _ ?_
    cases s with
    | buy =>
      rw [← keys_mem hr m.bids (ha.levels .buy)]
      simp only [ladder, MapBook.snapshot] at hv
      cases hl : m.bids.toList with
      | nil => rw [hl] at hv; cases hv
      | cons x xs =>
        rw [hl] at hv
        obtain rfl := Option.some.inj hv
        exact List.mem_cons_self ..
    | sell =>
      rw [← keys_mem hr m.asks (ha.levels .sell)]
      simp only [ladder, MapBook.snapshot] at hv
      cases hl : m.asks.toList with
      | nil => rw [hl] at hv; cases hv
      | cons x xs =>
        rw [hl] at hv
        obtain rfl := Option.some.inj hv
        exact List.mem_cons_self ..
  refine ⟨hpx, fun h => ?_, hlive, ?_⟩
  · rw [h, hr.noZero_iff.mp hz s] at hlive
    exact hlive rfl
  · rcases ha.mapBest_isBest s with ⟨-, hnone⟩ | ⟨-, hbest⟩
    · exact absurd (hnone v.price) hlive
    · rw [hpx]
      exact hbest

end Hotpath.Book.HybridBook

namespace Hotpath.Sim
open Hotpath.Book Hotpath.Book.HybridBook

namespace MarketMaker

variable {mm mm' : MarketMaker} {m : MapBook} {e : BookEvent}

/-- The orders and prices of an input are real ones. -/
def Input.valid : Input → Prop
  | .quoting _ _ => True
  | .event e => (∀ ref ∈ e.op.refs, ref ≠ 0) ∧ ∀ px ∈ e.op.prices, px ≠ 0

/-- The condition on the state before an input. -/
def Input.safe (mm : MarketMaker) : Input → Prop
  | .quoting _ _ => True
  | .event e => e.type = .replace → e.shares = 0 ∨ ¬mm.book.demotesBest e.order_ref e.price

def safeInputs : MarketMaker → List Input → Prop
  | _, [] => True
  | mm, x :: xs => x.safe mm ∧ ∀ mm' fills, mm.input x = some (mm', fills) → safeInputs mm' xs

def Input.op? : Input → Option Op
  | .quoting _ _ => none
  | .event e => some e.op

/-- Between the events of a run without latency. -/
structure Idle (mm : MarketMaker) : Prop where
  latency : mm.latency = 0
  landed : ∀ s, (mm.quote s).inFlight = false

/-- A quote on a side at its best price. -/
structure AtTouch (q : Quote) (px : Price) : Prop where
  active : q.active = true
  landed : q.inFlight = false
  price : q.px = px

theorem stepSide_inFlight (model : FillModel) (q : Quote) (pos : QueuePosition) (side : Side)
    (pre : Pre) (e : BookEvent) :
    (stepSide model q pos side pre e).1.inFlight = q.inFlight := by
  obtain ⟨f, ht⟩ := stepSide_taken model q pos side pre e
  exact ht.inFlight

theorem stepSides_idle (hi : Idle mm) (pre : Option Pre) (e : BookEvent) :
    Idle (mm.stepSides pre e).1 ∧ (mm.stepSides pre e).1.book = mm.book ∧
      (mm.stepSides pre e).1.allow = mm.allow := by
  have hd := @stepSides_desk mm e pre
  refine ⟨⟨hd.latency.trans hi.latency, fun s => ?_⟩, hd.book, hd.allow⟩
  cases pre with
  | none => exact hi.landed s
  | some pre =>
    rw [(stepSides_some pre).2.1, stepSide_inFlight]
    exact hi.landed s

/-- Without latency an event ends with every allowed quote at a usable touch. -/
theorem Idle.onEvent (hi : Idle mm) {fills : List Fill} (h : mm.onEvent e = some (mm', fills)) :
    ∃ bb0 ba0 bb ba b0 b1, Touched mm.book b0 bb0 ba0 ∧ b0.step e.op = some b1 ∧
      Touched b1 mm'.book bb ba ∧ Idle mm' ∧ mm'.allow = mm.allow ∧
      (usable bb ba = true → ∀ s, mm.allow s = true →
        AtTouch (mm'.quote s) (touchOf bb ba s)) := by
  obtain ⟨mm1, pre, book, hland, -, hstep, hreq, -⟩ := onEvent_some h
  obtain ⟨⟨bb0, ba0, mm2, hq0, hb0⟩, -, hlat1, -, hallow1, hquote1, -⟩ :=
    landEarlier_idle hi.landed hland
  obtain ⟨c1, c2, g1, g2, rfl⟩ := queryTouch_some.mp hq0
  have hidle1 : Idle { mm1 with book := book } :=
    ⟨hlat1.trans hi.latency, fun s => by rw [hquote1]; exact hi.landed s⟩
  obtain ⟨hidle2, hbook2, hallow2⟩ := stepSides_idle hidle1 pre e
  obtain ⟨bb, ba, mm3, hq1, hd, hcase⟩ := requote_zero hidle2.latency hidle2.landed hreq
  obtain ⟨d1, d2, k1, k2, rfl⟩ := queryTouch_some.mp hq1
  rw [hbook2] at k1
  have hallow : ∀ s, ({ mm1 with book := book }.stepSides pre e).1.allow s = mm.allow s := by
    intro s
    rw [hallow2]
    exact congrFun hallow1 s
  refine ⟨bb0, ba0, bb, ba, mm1.book, book, ⟨c1, g1, hb0 ▸ g2⟩, hstep,
    ⟨d1, k1, hd.book ▸ k2⟩, ⟨hd.latency.trans hidle2.latency, fun s => ?_⟩,
    hd.allow.trans (funext hallow), fun hu s ha => ?_⟩
  · rcases hcase with ⟨-, hsame⟩ | ⟨-, hcase⟩
    · rw [hsame]
      exact hidle2.landed s
    · rcases hcase s with ⟨-, hsame⟩ | ⟨-, hflight, -⟩
      · rw [hsame]
        exact hidle2.landed s
      · exact hflight
  · rcases hcase with ⟨hnot, -⟩ | ⟨-, hcase⟩
    · exact absurd hu hnot
    · rcases hcase s with ⟨⟨hact, hpx⟩, hsame⟩ | ⟨-, hflight, hact, hjoin⟩
      · rw [hallow s, ha] at hact
        rw [hsame]
        exact ⟨hact, hidle2.landed s, hpx.resolve_left (not_not.mpr hact)⟩
      · rw [hallow s, ha] at hact
        exact ⟨hact, hflight, (hjoin ((hallow s).trans ha)).1⟩

/-! ### Runs -/

/-- A safe event, and the touch it leaves. -/
theorem event_tracks (hi : Idle mm) (ht : Tracks mm.book m) (hvalid : (Input.event e).valid)
    (hsafe : (Input.event e).safe mm) {fills : List Fill} (h : mm.onEvent e = some (mm', fills)) :
    Idle mm' ∧ Tracks mm'.book (m.step e.op) ∧ mm'.allow = mm.allow ∧
      (mm'.book.rejected = 0 →
        usable (mapBest (m.step e.op) .buy) (mapBest (m.step e.op) .sell) = true →
        ∀ s, mm'.allow s = true → AtTouch (mm'.quote s) (mapBest (m.step e.op) s)) := by
  obtain ⟨bb0, ba0, bb, ba, b0, b1, h0, hstep, h1, hi', hallow, htouch⟩ := hi.onEvent h
  obtain ⟨ht0, hk0, hd0, -, -⟩ := ht.touched h0
  obtain ⟨Q, hr, hrest⟩ := ht0
  have hsafe' := hr.safe_of_known hk0 e hvalid.1 (by rw [hd0]; exact hsafe)
  have ht1 := Tracks.step ⟨Q, hr, hrest⟩ e.op hvalid.1 hvalid.2 hsafe' hstep
  obtain ⟨ht2, -, -, hrej, hbest⟩ := ht1.touched h1
  refine ⟨hi', ht2, hallow, fun h0 hu s ha => ?_⟩
  obtain ⟨rfl, rfl⟩ := hbest (by rw [← hrej, h0])
  rw [hallow] at ha
  have ht := htouch hu s ha
  cases s <;> exact ht

/-- The safe inputs keep the market maker's book with the reference book. -/
theorem input_tracks (hi : Idle mm) (ht : Tracks mm.book m) (x : Input) (hvalid : x.valid)
    (hsafe : x.safe mm) {fills : List Fill} (h : mm.input x = some (mm', fills)) :
    Idle mm' ∧ Tracks mm'.book (m.replay x.op?.toList) := by
  cases x with
  | quoting bid ask =>
    obtain ⟨rfl, rfl⟩ := Prod.mk.inj (Option.some.inj h)
    exact ⟨⟨hi.latency, hi.landed⟩, ht⟩
  | event e =>
    obtain ⟨hi', ht', -⟩ := event_tracks hi ht hvalid hsafe h
    exact ⟨hi', ht'⟩

theorem run_tracks (hi : Idle mm) (ht : Tracks mm.book m) (xs : List Input)
    (hvalid : ∀ x ∈ xs, x.valid) (hsafe : safeInputs mm xs) {fills : List Fill}
    (h : mm.run xs = some (mm', fills)) :
    Idle mm' ∧ Tracks mm'.book (m.replay (xs.filterMap Input.op?)) := by
  induction xs generalizing mm m fills with
  | nil =>
    obtain ⟨rfl, rfl⟩ := Prod.mk.inj (Option.some.inj h)
    exact ⟨hi, ht⟩
  | cons x xs ih =>
    obtain ⟨mm1, f1, f2, h1, h2, rfl⟩ := run_cons h
    obtain ⟨hi1, ht1⟩ := input_tracks hi ht x (hvalid x (List.mem_cons_self ..)) hsafe.1 h1
    have hrest := ih hi1 ht1 (fun y hy => hvalid y (List.mem_cons_of_mem _ hy)) (hsafe.2 _ _ h1) h2
    cases x <;> exact hrest

theorem safeInputs_snoc {x : Input} {xs : List Input} (h : safeInputs mm (xs ++ [x])) :
    safeInputs mm xs ∧ ∀ mm1 fills, mm.run xs = some (mm1, fills) → x.safe mm1 := by
  induction xs generalizing mm with
  | nil =>
    refine ⟨trivial, fun mm1 fills h' => ?_⟩
    obtain ⟨rfl, -⟩ := Prod.mk.inj (Option.some.inj h')
    exact h.1
  | cons y ys ih =>
    refine ⟨⟨h.1, fun mm1 f1 h1 => (ih (h.2 mm1 f1 h1)).1⟩, fun mm2 fills h' => ?_⟩
    obtain ⟨mm1, f1, f2, h1, h2, rfl⟩ := run_cons h'
    exact (ih (h.2 mm1 f1 h1)).2 mm2 f2 h2

/-- After every event of a safe run that leaves the book two-sided and uncrossed,
the quotes, if both are allowed, rest at the best prices of their sides. -/
theorem quotes_join_touch (lo hi : Price) (size : Qty) (model : FillModel)
    (maxOrders maxLevels : ℕ) (mm0 : MarketMaker)
    (hmake : make lo hi size 0 model maxOrders maxLevels = some mm0) (xs : List Input)
    (e : BookEvent) (hvalid : ∀ x ∈ xs ++ [.event e], x.valid)
    (hsafe : safeInputs mm0 (xs ++ [.event e])) (mm : MarketMaker) (fills : List Fill)
    (hrun : mm0.run (xs ++ [.event e]) = some (mm, fills)) (hrej : mm.book.rejected = 0)
    (hallow : ∀ s, mm.allow s = true) (snap : Snapshot) (hsnap : mm.book.snapshot = some snap)
    (bid ask : LevelView) (hbid : snap.bid.head? = some bid) (hask : snap.ask.head? = some ask)
    (huncrossed : bid.price < ask.price) (s : Side) :
    AtTouch (mm.quote s) (touchOf bid.price ask.price s) ∧
    touchOf bid.price ask.price s = mapBest
      (MapBook.empty.replay ((xs ++ [Input.event e]).filterMap Input.op?)) s ∧
    mm.book.hasLevel s (touchOf bid.price ask.price s) ∧
    ∀ q, mm.book.hasLevel s q → q = touchOf bid.price ask.price s ∨
      better s (touchOf bid.price ask.price s) q = true := by
  obtain ⟨b, hb, rfl⟩ := make_some hmake
  have hi0 : Idle { book := b, quoteSize := size, latency := 0, fillModel := model } :=
    ⟨rfl, fun _ => rfl⟩
  obtain ⟨hsafe0, hsafe1⟩ := safeInputs_snoc hsafe
  obtain ⟨mm1, f1, f2, h1, hev, -⟩ := run_snoc hrun
  obtain ⟨hi1, ht1⟩ := run_tracks hi0 (Tracks.make hb) xs
    (fun x hx => hvalid x (List.mem_append_left _ hx)) hsafe0 h1
  -- the last event's own final queries read the book it leaves
  have hv := hvalid (.event e) (List.mem_append_right _ (List.mem_cons_self ..))
  obtain ⟨-, ht, -, htouch⟩ := event_tracks hi1 ht1 hv (hsafe1 mm1 f1 h1) hev
  have hops : MapBook.empty.replay ((xs ++ [Input.event e]).filterMap Input.op?) =
      (MapBook.empty.replay (xs.filterMap Input.op?)).step e.op := by
    rw [MapBook.replay, List.filterMap_append, List.foldl_append]
    rfl
  rw [hops]
  generalize (MapBook.empty.replay (xs.filterMap Input.op?)).step e.op = m at ht htouch ⊢
  have hsnap' : snap = m.snapshot := by
    obtain ⟨Q, hr, ha, -⟩ := ht
    exact Option.some.inj (hsnap.symm.trans ((ha hrej).snapshot_eq hr).1)
  rw [hsnap'] at hbid hask
  obtain ⟨hpb, hzb, hlb⟩ := ht.head (s := .buy) hrej hbid
  obtain ⟨hpa, hza, hla⟩ := ht.head (s := .sell) hrej hask
  have hu : usable (mapBest m .buy) (mapBest m .sell) = true := by
    rw [← hpb, ← hpa]
    simp only [usable, decide_eq_true_eq]
    exact ⟨hzb, hza, huncrossed⟩
  have ht := htouch hrej hu s (hallow s)
  cases s with
  | buy =>
    rw [← hpb] at ht
    exact ⟨ht, hpb, hlb⟩
  | sell =>
    rw [← hpa] at ht
    exact ⟨ht, hpa, hla⟩

theorem quotes_join_touch_two : ∃ (mm0 mm : MarketMaker) (fills : List Fill),
    make 100 300 3 0 .queueAware 8 8 = some mm0 ∧
    mm0.run ([.event ⟨1, 1, 0, 200, 5, .add, .buy⟩] ++ [.event ⟨2, 2, 0, 300, 5, .add, .sell⟩]) =
      some (mm, fills) ∧
    AtTouch (mm.quote .buy) 200 := by
  have hrun : ((make 100 300 3 0 .queueAware 8 8).bind fun mm0 => (mm0.run
      ([.event ⟨1, 1, 0, 200, 5, .add, .buy⟩] ++ [.event ⟨2, 2, 0, 300, 5, .add, .sell⟩])).bind
      fun r => (r.1.book.snapshot).map fun snap =>
        (r.1.book.rejected, r.1.allow .buy, r.1.allow .sell, snap)) =
      some (0, true, true, ⟨[⟨200, 5, 1⟩], [⟨300, 5, 1⟩]⟩) := by decide +kernel
  obtain ⟨mm0, hmake, h⟩ := Option.bind_eq_some_iff.mp hrun
  obtain ⟨⟨mm, fills⟩, hrun, h⟩ := Option.bind_eq_some_iff.mp h
  obtain ⟨snap, hsnap, h⟩ := Option.map_eq_some_iff.mp h
  obtain ⟨hrej, h⟩ := Prod.mk.inj h
  obtain ⟨hbuy, h⟩ := Prod.mk.inj h
  obtain ⟨hsell, rfl⟩ := Prod.mk.inj h
  have hallow : ∀ s, mm.allow s = true := by
    intro s
    cases s with
    | buy => exact hbuy
    | sell => exact hsell
  have hvalid : ∀ x ∈ [Input.event ⟨1, 1, 0, 200, 5, .add, .buy⟩] ++
      [Input.event ⟨2, 2, 0, 300, 5, .add, .sell⟩], x.valid := by
    simp [Input.valid, BookEvent.op, Op.refs, Op.prices]
  have hsafe : safeInputs mm0 ([.event ⟨1, 1, 0, 200, 5, .add, .buy⟩] ++
      [.event ⟨2, 2, 0, 300, 5, .add, .sell⟩]) :=
    ⟨fun h => absurd h (by simp), fun _ _ _ => ⟨fun h => absurd h (by simp), fun _ _ _ => trivial⟩⟩
  obtain ⟨htouch, -⟩ := quotes_join_touch 100 300 3 .queueAware 8 8 mm0 hmake _ _ hvalid hsafe mm
    fills hrun hrej hallow _ hsnap ⟨200, 5, 1⟩ ⟨300, 5, 1⟩ rfl rfl (by decide) .buy
  exact ⟨mm0, mm, fills, hmake, hrun, htouch⟩

/-- The best bid replaced by one below the second level: the quote joins the new
order, not the touch. -/
theorem quote_misses_touch : ∃ (mm0 mm : MarketMaker) (fills : List Fill) (snap : Snapshot)
    (bid ask : LevelView), make 100 300 1 0 .queueAware 8 8 = some mm0 ∧
    mm0.run [.event ⟨1, 1, 0, 300, 5, .add, .buy⟩, .event ⟨2, 2, 0, 200, 5, .add, .buy⟩,
      .event ⟨3, 3, 0, 400, 5, .add, .sell⟩, .event ⟨4, 1, 4, 100, 5, .replace, .buy⟩] =
      some (mm, fills) ∧
    mm.book.rejected = 0 ∧ (∀ s, mm.allow s = true) ∧ mm.book.snapshot = some snap ∧
    snap.bid.head? = some bid ∧ snap.ask.head? = some ask ∧ bid.price = 200 ∧
    bid.price < ask.price ∧ (mm.quote .buy).active = true ∧ (mm.quote .buy).px = 100 := by
  have hrun : ((make 100 300 1 0 .queueAware 8 8).bind fun mm0 => (mm0.run
      [.event ⟨1, 1, 0, 300, 5, .add, .buy⟩, .event ⟨2, 2, 0, 200, 5, .add, .buy⟩,
        .event ⟨3, 3, 0, 400, 5, .add, .sell⟩, .event ⟨4, 1, 4, 100, 5, .replace, .buy⟩]).bind
      fun r => (r.1.book.snapshot).map fun snap => (r.1.book.rejected, r.1.allow .buy,
        r.1.allow .sell, snap, (r.1.quote .buy).active, (r.1.quote .buy).px)) =
      some (0, true, true, ⟨[⟨200, 5, 1⟩, ⟨100, 5, 1⟩], [⟨400, 5, 1⟩]⟩, true, 100) := by
    decide +kernel
  obtain ⟨mm0, hmake, h⟩ := Option.bind_eq_some_iff.mp hrun
  obtain ⟨⟨mm, fills⟩, hrun, h⟩ := Option.bind_eq_some_iff.mp h
  obtain ⟨snap, hsnap, h⟩ := Option.map_eq_some_iff.mp h
  simp only [Prod.mk.injEq] at h
  obtain ⟨hrej, hbuy, hsell, rfl, hact, hpx⟩ := h
  have hallow : ∀ s, mm.allow s = true := by
    intro s
    cases s with
    | buy => exact hbuy
    | sell => exact hsell
  exact ⟨mm0, mm, fills, _, ⟨200, 5, 1⟩, ⟨400, 5, 1⟩, hmake, hrun, hrej, hallow, hsnap, rfl, rfl,
    rfl, by decide, hact, hpx⟩

end MarketMaker

end Hotpath.Sim
