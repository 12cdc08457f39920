import Hotpath.Book.HybridBest
import Hotpath.Book.IntrusiveTwin

/-!
# The intrusive book refines the reference book

An operation that runs on the hybrid book runs on its twin, so a run of the
intrusive book from its construction has a run of a hybrid book beside it. The
reference book's ladder lists the prices the vectors list, in their order.
-/

namespace Hotpath.Book.IntrusiveBook
open Hotpath.Support
open HybridBook (Queues Rep Core Agrees SameIndex viewAt views_eq keys_mem mapBest mapBest_head ladder better
  bids_sorted asks_sorted noQueues)

variable {h h' : HybridBook} {i i' : IntrusiveBook} {Q : Queues} {m : MapBook} {s : Side}
  {ref : OrderId}

/-! ### Operations -/

theorem Twin.order_at (ht : Twin h i) {m : ℕ} (hm : subscript h.orders (m : ℤ) = some (h.ord m)) :
    subscript i.orders (m : ℤ) = some (strip (h.ord m)) := by
  rw [ht.same]
  show subscript (h.orders.map strip) (m : ℤ) = _
  rw [subscript_map, hm]
  rfl

/-- The part of `reduce` that takes shares from an order that stays. -/
theorem Twin.cut (ht : Twin h i) (oi li : ℤ) (take : Qty) :
    Option.Rel Twin
      ((modifyAt h.orders oi fun o => { o with qty := o.qty - take }).bind fun orders =>
        (modifyAt h.levels li fun l => { l with qty := l.qty - take }).bind fun levels =>
          some { h with orders := orders, levels := levels })
      ((modifyAt i.orders oi fun o => { o with qty := o.qty - take }).bind fun orders =>
        (modifyAt i.levels li fun l => { l with qty := l.qty - take }).bind fun levels =>
          some { i with orders := orders, levels := levels }) := by
  rw [ht.orders_eq, ht.levels_eq, modifyAt_map (f := strip) (g := fun o => { o with qty := o.qty - take })
    fun _ => rfl, Option.bind_map]
  cases modifyAt h.orders oi fun o => { o with qty := o.qty - take } with
  | none => exact Option.Rel.none
  | some orders =>
    cases hl : modifyAt h.levels li fun l => { l with qty := l.qty - take } with
    | none =>
      simp only [Option.bind_some, Option.bind_none, Function.comp_def]
      exact Option.Rel.none
    | some levels =>
      have hsame : SameIndex h { h with orders := orders, levels := levels } := ⟨rfl, rfl, rfl, rfl⟩
      simp only [Option.bind_some, Function.comp_def]
      apply Option.Rel.some
      apply ht.shadow_eq hsame (modifyAt_length hl) rfl
      conv_lhs => rw [ht.same]
      rfl

theorem Twin.reduce (ht : Twin h i) (hr : Rep h Q) (href : ref ≠ OpenHashMap.kEmpty) (qty : Qty) :
    Option.Rel Twin (h.reduce ref qty) (i.reduce ref qty) := by
  have hfind := hr.table.find_spec href
  have hfind' : i.ids.find OpenHashMap.hash ref = some (OpenHashMap.lookup h.ids ref) := by
    rw [ht.ids_eq, hfind]
  simp only [HybridBook.reduce, IntrusiveBook.reduce, hfind, hfind', Option.bind_eq_bind,
    Option.bind_some]
  cases hr.found href with
  | inl hl =>
    rw [hl]
    exact Option.Rel.some ht
  | inr hfound =>
    obtain ⟨m, s, p, l, r, hl, hq, hid, hs, hat⟩ := hfound
    have hm : m ∈ Q s p := by simp [hq]
    rw [hl]
    simp only [hat, ht.order_at hat, Option.bind_some]
    have htake : ∀ take : Qty, Option.Rel Twin
        (if take = (h.ord m).qty then h.retire ref m
          else (modifyAt h.orders m fun o => { o with qty := o.qty - take }).bind fun orders =>
            (modifyAt h.levels (h.ord m).level fun l => { l with qty := l.qty - take }).bind
              fun levels => some { h with orders := orders, levels := levels })
        (if take = (h.ord m).qty then i.retire ref m
          else (modifyAt i.orders m fun o => { o with qty := o.qty - take }).bind fun orders =>
            (modifyAt i.levels (h.ord m).level fun l => { l with qty := l.qty - take }).bind
              fun levels => some { i with orders := orders, levels := levels }) := by
      intro take
      by_cases hall : take = (h.ord m).qty
      · rw [if_pos hall, if_pos hall]
        exact ht.retire hr hm ref
      · rw [if_neg hall, if_neg hall]
        exact ht.cut _ _ _
    exact htake (if qty < (h.ord m).qty then qty else (h.ord m).qty)

theorem Twin.remove (ht : Twin h i) (hr : Rep h Q) (href : ref ≠ OpenHashMap.kEmpty) :
    Option.Rel Twin (h.remove ref) (i.remove ref) := by
  have hfind := hr.table.find_spec href
  have hfind' : i.ids.find OpenHashMap.hash ref = some (OpenHashMap.lookup h.ids ref) := by
    rw [ht.ids_eq, hfind]
  simp only [HybridBook.remove, IntrusiveBook.remove, hfind, hfind', Option.bind_eq_bind,
    Option.bind_some]
  cases hr.found href with
  | inl hl =>
    rw [hl]
    exact Option.Rel.some ht
  | inr hfound =>
    obtain ⟨m, s, p, l, r, hl, hq, -⟩ := hfound
    rw [hl]
    exact ht.retire hr (by simp [hq] : m ∈ Q s p) ref

theorem Twin.replace (ht : Twin h i) (hr : Rep h Q) (href : ref ≠ OpenHashMap.kEmpty)
    (new : OrderId) (px : Price) (qty : Qty) :
    Option.Rel Twin (h.replace ref new px qty) (i.replace ref new px qty) := by
  have hfind := hr.table.find_spec href
  have hfind' : i.ids.find OpenHashMap.hash ref = some (OpenHashMap.lookup h.ids ref) := by
    rw [ht.ids_eq, hfind]
  simp only [HybridBook.replace, IntrusiveBook.replace, hfind, hfind', Option.bind_eq_bind,
    Option.bind_some]
  cases hr.found href with
  | inl hl =>
    rw [hl]
    exact Option.Rel.some ht
  | inr hfound =>
    obtain ⟨m, s, p, l, r, hl, hq, hid, hs, hat⟩ := hfound
    have hm : m ∈ Q s p := by simp [hq]
    obtain ⟨h1, hretire, hr1, -⟩ := hr.retire href hl hq
    have ht1 := ht.retire hr hm ref
    rw [hretire] at ht1
    obtain ⟨i1, hretire', ht1'⟩ := rel_right ht1
    rw [hl]
    simp only [hat, ht.order_at hat, hretire, hretire', Option.bind_some]
    exact ht1'.add hr1.toCore new _ px qty

/-- After a clear no level is in use, so both vectors are empty. -/
theorem Twin.clear (ht : Twin h i) (hr : Rep h Q) : Twin h.clear i.clear := by
  have hempty : ∀ s p, h.clear.levelIx s p < 0 := by
    intro s p
    by_contra hx
    exact hr.clear.1.live s p (by omega) rfl
  refine ⟨?_, fun s => ⟨[], List.Pairwise.nil, fun p => ?_, rfl⟩, ?_⟩
  · rw [ht.same]
    simp only [IntrusiveBook.clear, HybridBook.clear, shadow, List.length_map]
  · have hlt := hempty s p
    exact iff_of_false List.not_mem_nil (by omega)
  · show h.levels.length = ((List.range h.levels.length).map int32).length + (0 + 0)
    rw [List.length_map, List.length_range, Nat.add_zero]

theorem Twin.step (ht : Twin h i) (hr : Rep h Q) (op : Op)
    (hrefs : ∀ ref ∈ op.refs, ref ≠ OpenHashMap.kEmpty) :
    Option.Rel Twin (h.step op) (i.step op) := by
  cases op with
  | add ref s p qty => exact ht.add hr.toCore ref s p qty
  | execute ref qty => exact ht.reduce hr (hrefs ref (by simp [Op.refs])) qty
  | cancel ref qty => exact ht.reduce hr (hrefs ref (by simp [Op.refs])) qty
  | remove ref => exact ht.remove hr (hrefs ref (by simp [Op.refs]))
  | replace ref new px qty => exact ht.replace hr (hrefs ref (by simp [Op.refs])) new px qty
  | clear => exact Option.Rel.some (ht.clear hr)

theorem Twin.run (ht : Twin h i) (hr : Rep h Q) (ops : List Op)
    (hrefs : ∀ op ∈ ops, ∀ ref ∈ op.refs, ref ≠ OpenHashMap.kEmpty) :
    Option.Rel Twin (Design.run h ops) (Design.run i ops) := by
  induction ops generalizing h i Q with
  | nil => exact Option.Rel.some ht
  | cons op ops ih =>
    have hop := hrefs op (List.mem_cons_self ..)
    have hstep : Option.Rel (fun h i => Twin h i ∧ ∃ Q, Rep h Q) (h.step op) (i.step op) := by
      apply rel_imp (ht.step hr op hop)
      intro h1 i1 h1eq _ ht1
      obtain ⟨-, Q1, hr1, -⟩ := hr.step_sim op hop h1eq
      exact ⟨ht1, Q1, hr1⟩
    apply rel_bind hstep
    intro h1 i1 h1i1
    obtain ⟨ht1, Q1, hr1⟩ := h1i1
    exact ih ht1 hr1 fun op hm => hrefs op (List.mem_cons_of_mem _ hm)

/-- The window of the hybrid book plays no part. -/
theorem Twin.make {maxOrders maxLevels : ℕ} (hmake : make maxOrders maxLevels = some i) :
    ∃ h, HybridBook.make 0 0 maxOrders maxLevels = some h ∧ Twin h i := by
  obtain ⟨ids, hids, hi⟩ := Option.bind_eq_some_iff.mp hmake
  obtain rfl := Option.some.inj hi
  have hh : ∃ h, HybridBook.make 0 0 maxOrders maxLevels = some h ∧
      h.orders = List.replicate maxOrders {} ∧ h.levels = List.replicate maxLevels {} ∧
      h.freeOrders = (List.range maxOrders).map int32 ∧
      h.freeLevels = (List.range maxLevels).map int32 ∧ h.ids = ids ∧ h.rejected = 0 := by
    rw [HybridBook.make, if_neg (by decide), hids]
    exact ⟨_, rfl, rfl, rfl, rfl, rfl, rfl, rfl⟩
  obtain ⟨h, hmk, ho, hl, hfo, hfl, hid, hrej⟩ := hh
  obtain ⟨hr, -⟩ := HybridBook.Rep.make hmk
  refine ⟨h, hmk, ?_, fun s => ⟨[], List.Pairwise.nil, fun p => ?_, rfl⟩, ?_⟩
  · simp only [shadow, ho, hl, hfo, hfl, hid, hrej, List.map_replicate]
    rfl
  · apply iff_of_false List.not_mem_nil
    intro hx
    exact hr.live s p hx rfl
  · rw [hl, hfl, List.length_replicate, List.length_map, List.length_range]
    rfl

/-! ### Queries -/

theorem Twin.collect_eq {ps : List Price} (ht : Twin h i) (hc : Core h Q)
    (hl : Listed h s ps (i.idx s)) :
    i.collect s = some ((ps.take kSnapshotDepth).map (viewAt h Q s)) := by
  rw [collect, hl.eq, ht.levels_eq, ← List.map_take]
  apply mapM_map_some
  intro p hp
  have hx : 0 ≤ h.levelIx s p := (hl.mem p).mp (List.mem_of_mem_take hp)
  rw [← hc.viewOf_eq hx, HybridBook.viewOf]
  cases subscript h.levels (h.levelIx s p) <;> rfl

theorem Twin.prices_eq {ps : List Price} (ht : Twin h i) (hc : Core h Q)
    (hl : Listed h s ps (i.idx s)) : i.prices s = some ps := by
  rw [prices, hl.eq, ht.levels_eq, ← List.map_id ps, List.map_map]
  apply mapM_map_some
  intro p hp
  obtain ⟨level, hsub, hprice⟩ := Core.priced hc s p ((hl.mem p).mp hp)
  show (subscript h.levels (h.levelIx s p)).map HybridBook.Level.price = some p
  rw [hsub, Option.map_some, hprice]

theorem Twin.best_eq {ps : List Price} (ht : Twin h i) (hc : Core h Q)
    (hl : Listed h s ps (i.idx s)) : i.best s = some (ps.head?.getD kInvalidPrice) := by
  rw [best, hl.eq, ht.levels_eq]
  cases ps with
  | nil => rfl
  | cons p ps =>
    obtain ⟨level, hsub, hprice⟩ := Core.priced hc s p ((hl.mem p).mp (List.mem_cons_self ..))
    show (subscript h.levels (h.levelIx s p)).map HybridBook.Level.price = some p
    rw [hsub, Option.map_some, hprice]

/-- The prices of a side of the reference book, best first. -/
def mapPrices (m : MapBook) : Side → List Price
  | .buy => m.bids.toList.map Prod.fst
  | .sell => m.asks.toList.map Prod.fst

/-- Both lists are sorted and hold the same prices, so they are one. -/
theorem Listed.eq_mapPrices {ps : List Price} {v : List ℤ} (hl : Listed h s ps v) (hr : Rep h Q)
    (ha : Agrees h Q m) : ps = mapPrices m s := by
  have : Std.Irrefl fun p q => better s p q = true := ⟨HybridBook.better_irrefl⟩
  have : Std.Antisymm fun p q => better s p q = true :=
    ⟨fun p q hpq hqp => absurd hqp (HybridBook.better_asymm hpq)⟩
  cases s with
  | buy =>
    apply hl.sorted.eq_of_mem_iff (bids_sorted m.bids)
    intro p
    rw [hl.mem, keys_mem hr m.bids (ha.levels .buy)]
  | sell =>
    apply hl.sorted.eq_of_mem_iff (List.pairwise_map.mpr (asks_sorted m.asks))
    intro p
    rw [hl.mem, keys_mem hr m.asks (ha.levels .sell)]

theorem Twin.snapshot_eq (ht : Twin h i) (hr : Rep h Q) (ha : Agrees h Q m) :
    i.snapshot = some m.snapshot := by
  obtain ⟨bids, hbids⟩ := ht.listed .buy
  obtain ⟨asks, hasks⟩ := ht.listed .sell
  have hbid := ht.collect_eq hr.toCore hbids
  have hask := ht.collect_eq hr.toCore hasks
  rw [hbids.eq_mapPrices hr ha] at hbid
  rw [hasks.eq_mapPrices hr ha] at hask
  rw [mapPrices, views_eq (s := .buy) m.bids (ha.levels .buy)] at hbid
  rw [mapPrices, views_eq (s := .sell) m.asks (ha.levels .sell)] at hask
  simp only [snapshot, hbid, hask, Option.bind_eq_bind, Option.bind_some]
  rfl

theorem Twin.best_price (ht : Twin h i) (hr : Rep h Q) (ha : Agrees h Q m) (s : Side) :
    i.best s = some (mapBest m s) := by
  obtain ⟨ps, hl⟩ := ht.listed s
  rw [ht.best_eq hr.toCore hl, hl.eq_mapPrices hr ha]
  cases s with
  | buy =>
    rw [mapBest, MapBook.bestBid, ← Std.TreeMap.map_fst_toList_eq_keys]
    rfl
  | sell =>
    rw [mapBest, MapBook.bestAsk, ← Std.TreeMap.map_fst_toList_eq_keys]
    rfl

/-! ### The refinement -/

/-- A run that rejects nothing answers as the reference book does, after every
operation, and keeps its vectors sorted. With pools of at most `2^31` entries
every run is defined. -/
theorem intrusive_eq_map (maxOrders maxLevels : ℕ) (i0 : IntrusiveBook)
    (hmake : IntrusiveBook.make maxOrders maxLevels = some i0) (ops : List Op)
    (hrefs : ∀ op ∈ ops, ∀ ref ∈ op.refs, ref ≠ 0) :
    (maxOrders ≤ 2 ^ 31 → maxLevels ≤ 2 ^ 31 → ∃ i, Design.run i0 ops = some i) ∧
    ∀ i, Design.run i0 ops = some i → i.rejected = 0 → ∀ n,
      ∃ bn bids asks, Design.run i0 (ops.take n) = some bn ∧
        bn.snapshot = some (MapBook.empty.replay (ops.take n)).snapshot ∧
        bn.bestBid = some (MapBook.empty.replay (ops.take n)).bestBid ∧
        bn.bestAsk = some (MapBook.empty.replay (ops.take n)).bestAsk ∧
        bn.orderCount = (MapBook.empty.replay (ops.take n)).orderCount ∧
        bn.levelsInUse = bn.bidLevels + bn.askLevels ∧
        bn.prices .buy = some bids ∧ bids.Pairwise (fun p q => p > q) ∧
        bn.prices .sell = some asks ∧ asks.Pairwise (fun p q => p < q) := by
  obtain ⟨h0, hmk, ht0⟩ := Twin.make hmake
  obtain ⟨hr0, -, -, -, horders, hlevels, -⟩ := HybridBook.Rep.make hmk
  constructor
  · intro ho hl
    obtain ⟨h, hrun⟩ := hr0.run_total ⟨by rwa [horders], by rwa [hlevels]⟩ ops hrefs
    have htwin := ht0.run hr0 ops hrefs
    rw [hrun] at htwin
    obtain ⟨i, hi, -⟩ := rel_right htwin
    exact ⟨i, hi⟩
  · intro i hrun hrej n
    have htwin := ht0.run hr0 ops hrefs
    rw [hrun] at htwin
    obtain ⟨h, hh, ht⟩ := rel_left htwin
    obtain ⟨hn, Qn, hrunn, hrn, han⟩ :=
      Agrees.run_take hmk hrefs hh (ht.rejected_eq ▸ hrej) n
    have htwinn := ht0.run hr0 (ops.take n) fun op hm => hrefs op (List.mem_of_mem_take hm)
    rw [hrunn] at htwinn
    obtain ⟨bn, hbn, htn⟩ := rel_right htwinn
    obtain ⟨bids, hbids⟩ := htn.listed .buy
    obtain ⟨asks, hasks⟩ := htn.listed .sell
    have hcount : bn.levelsInUse = bn.bidLevels + bn.askLevels := by
      have hc := htn.count
      rw [levelsInUse, bidLevels, askLevels]
      have hlv : bn.levels = hn.levels ∧ bn.freeLevels = hn.freeLevels := by
        rw [htn.same]
        exact ⟨rfl, rfl⟩
      rw [hlv.1, hlv.2]
      omega
    refine ⟨bn, bids, asks, hbn, htn.snapshot_eq hrn han, htn.best_price hrn han .buy,
      htn.best_price hrn han .sell, ?_, hcount, htn.prices_eq hrn.toCore hbids, ?_,
      htn.prices_eq hrn.toCore hasks, ?_⟩
    · rw [orderCount, htn.ids_eq]
      exact han.size.symm
    · exact hbids.sorted.imp fun hpq => by simpa [better] using hpq
    · exact hasks.sorted.imp fun hpq => by simpa [better] using hpq

theorem intrusive_eq_map_replace : ∃ i0 i : IntrusiveBook, make 4 4 = some i0 ∧
    Design.run i0 [.add 1 .buy 300 5, .add 2 .buy 0 7, .execute 2 9, .replace 1 3 100 5] = some i ∧
    i.bestBid = some (MapBook.empty.replay
      [.add 1 .buy 300 5, .add 2 .buy 0 7, .execute 2 9, .replace 1 3 100 5]).bestBid ∧
    i.levelsInUse = i.bidLevels + i.askLevels := by
  have hrun : ((make 4 4).bind fun i0 => (Design.run i0
      [.add 1 .buy 300 5, .add 2 .buy 0 7, .execute 2 9, .replace 1 3 100 5]).map
        IntrusiveBook.rejected) = some 0 := by decide +kernel
  obtain ⟨i0, hmake, h⟩ := Option.bind_eq_some_iff.mp hrun
  obtain ⟨i, hi, hrej⟩ := Option.map_eq_some_iff.mp h
  obtain ⟨bn, -, -, hn, -, hbid, -, -, hcount, -⟩ := (intrusive_eq_map 4 4 i0 hmake
    [.add 1 .buy 300 5, .add 2 .buy 0 7, .execute 2 9, .replace 1 3 100 5]
    (by simp [Op.refs])).2 i hi hrej 4
  exact ⟨i0, bn, hmake, hn, hbid, hcount⟩

end Hotpath.Book.IntrusiveBook
