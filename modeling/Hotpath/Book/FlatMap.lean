import Hotpath.Book.FlatRefine

/-!
# The flat book shows the map book's levels

Cell by cell agreement gives equal snapshots, and an operation that is not
rejected keeps it while no level holds more than `2^32` deposits.
-/

namespace Hotpath.Book.FlatBook
open Hotpath.Support
open HybridBook (set2 bids_sorted asks_sorted reversed_sorted)

variable {b b' : FlatBook} {W : Standing} {m : MapBook} {s : Side} {p : Price}

/-! ### Snapshots -/

section Levels
variable {cmp : Price → Price → Ordering} [Std.TransCmp cmp] [Std.LawfulEqCmp cmp]
  {levels : Std.TreeMap Price Agg cmp}

theorem views_eq (h : ∀ p, b.cell s p = mapCell levels[p]?) (n : ℕ) :
    ((levels.toList.map Prod.fst).take n).map (viewAt b s) =
      (levels.toList.take n).map MapBook.view := by
  rw [← List.map_take, List.map_map]
  apply List.map_congr_left
  intro x hx
  have hget := Std.TreeMap.mem_toList_iff_getElem?_eq_some.mp (List.mem_of_mem_take hx)
  show viewAt b s x.1 = MapBook.view x
  rw [viewAt, h, hget]
  rfl

theorem keys_mem (h : ∀ p, b.cell s p = mapCell levels[p]?) (p : Price) :
    p ∈ levels.toList.map Prod.fst ↔ (b.cell s p).used = true := by
  rw [h, List.mem_map]
  cases hget : levels[p]? with
  | none =>
    constructor
    · intro hx
      obtain ⟨x, hx, rfl⟩ := hx
      rw [Std.TreeMap.mem_toList_iff_getElem?_eq_some.mp hx] at hget
      cases hget
    · intro hx
      cases hx
  | some a =>
    have hmem := Std.TreeMap.mem_toList_iff_getElem?_eq_some.mpr hget
    exact ⟨fun _ => rfl, fun _ => ⟨(p, a), hmem, rfl⟩⟩

end Levels

theorem Agrees.cell_eq (ha : Agrees b W m) (h : Holds b W) (s : Side) (p : Price) :
    b.cell s p = mapCells m s p :=
  (h.cells s p).trans (ha.cells s p).symm

theorem Agrees.snapshot_eq (ha : Agrees b W m) (h : Holds b W) :
    b.snapshot = some m.snapshot ∧ b.orderCount = m.orderCount := by
  have hbids : ∀ p, b.cell .buy p = mapCell m.bids[p]? := ha.cell_eq h .buy
  have hasks : ∀ p, b.cell .sell p = mapCell m.asks[p]? := ha.cell_eq h .sell
  have hbid : b.collect .buy (b.over_ .buy).toList.reverse =
      some ((m.bids.toList.take kSnapshotDepth).map MapBook.view) := by
    rw [← views_eq hbids]
    apply h.collect_eq (bids_sorted m.bids) (keys_mem hbids) (reversed_sorted _)
    intro p a
    rw [List.mem_reverse, Std.TreeMap.mem_toList_iff_getElem?_eq_some]
  have hask : b.collect .sell (b.over_ .sell).toList =
      some ((m.asks.toList.take kSnapshotDepth).map MapBook.view) := by
    rw [← views_eq hasks]
    apply h.collect_eq (List.pairwise_map.mpr (asks_sorted m.asks)) (keys_mem hasks)
      (asks_sorted _)
    intro p a
    exact Std.TreeMap.mem_toList_iff_getElem?_eq_some
  constructor
  · simp only [snapshot, hbid, hask, Option.bind_eq_bind, Option.bind_some]
    rfl
  · exact ha.size.symm

/-! ### Runs -/

theorem Sound.make {lo hi : Price} {maxOrders : ℕ} (h : make lo hi maxOrders = some b) :
    Sound b ∧ b.rejected = 0 ∧ b.ids.size = 0 ∧ (∀ s p, b.cell s p = cellOf []) ∧
      (∀ k ≠ OpenHashMap.kEmpty, OpenHashMap.lookup b.ids k = none) ∧
      ∀ s, (b.grid s).hint = -1 := by
  have htick : kTick = 100 := rfl
  by_cases hwin : hi < lo - lo % 100
  · simp [FlatBook.make, htick, if_pos hwin] at h
  · simp only [FlatBook.make, htick, if_neg hwin, Option.bind_eq_bind] at h
    obtain ⟨ids, hids, h⟩ := Option.bind_eq_some_iff.mp h
    obtain ⟨hw, -, hsize, hnone⟩ := OpenHashMap.WF.make (h := OpenHashMap.hash) hids
    have heq := Option.some.inj h
    have hblank : Sized b ∧ ∀ s p, b.cell s p = cellOf [] := by
      rw [← heq]
      exact Sized.blank (Span.Ok.make hwin) (fun _ => rfl) (fun _ => rfl) (fun _ => rfl)
        (fun _ => rfl) fun _ => rfl
    subst heq
    exact ⟨⟨hblank.1, hw⟩, rfl, hsize, hblank.2, hnone, fun _ => rfl⟩

theorem Tracks.make {lo hi : Price} {maxOrders : ℕ} (h : make lo hi maxOrders = some b)
    {I : FlatBook → Standing → Prop} (hI : I b fun _ _ => []) :
    Tracks I b (fun _ _ => []) MapBook.empty := by
  obtain ⟨hs, -, hsize, hcell, hnone, -⟩ := Sound.make h
  refine ⟨⟨hs, hcell, fun k hk r hl => ?_⟩, ⟨fun k hk => (hnone k hk).symm, hsize.symm,
    fun s p => ?_⟩, hI⟩
  · rw [hnone k hk] at hl
    cases hl
  · cases s <;> rfl

theorem admits_any (b : FlatBook) (op : Op) : admits (fun _ _ _ => True) b op := by
  cases op with
  | add ref s p qty => exact Or.inr trivial
  | replace ref new p qty => exact Or.inr fun _ _ _ _ => trivial
  | execute ref qty => trivial
  | cancel ref qty => trivial
  | remove ref => trivial
  | clear => trivial

theorem Tracks.run (ht : Tracks (fun _ _ => True) b W m) (ops : List Op)
    (hrefs : ∀ op ∈ ops, ∀ ref ∈ op.refs, ref ≠ OpenHashMap.kEmpty)
    (hroom : roomy m (counts W) ops) (hrun : Design.run b ops = some b')
    (hrej : b'.rejected = b.rejected) :
    ∃ W', Tracks (fun _ _ => True) b' W' (m.replay ops) := by
  induction ops generalizing b W m with
  | nil =>
    obtain rfl := Option.some.inj hrun
    exact ⟨W, ht⟩
  | cons op ops ih =>
    obtain ⟨b1, h1, hrest⟩ := Option.bind_eq_some_iff.mp hrun
    have hop := hrefs op (List.mem_cons_self ..)
    have hops : ∀ op ∈ ops, ∀ ref ∈ op.refs, ref ≠ OpenHashMap.kEmpty :=
      fun op hm => hrefs op (List.mem_cons_of_mem _ hm)
    obtain ⟨b2, h2, hs1, hle⟩ := ht.holds.toSound.step op hop
    obtain rfl : b1 = b2 := Option.some.inj (h1.symm.trans h2)
    obtain ⟨b3, h3, -, hle'⟩ := hs1.run ops hops
    obtain rfl : b' = b3 := Option.some.inj (hrest.symm.trans h3)
    obtain ⟨W1, ht1, hc1⟩ := ht.step keeps_nothing op hop (admits_any b op) hroom.1 h1 (by omega)
    exact ih ht1 hops (hc1 ▸ hroom.2) hrest (by omega)

theorem roomy.take {c : Tally} {ops : List Op} (h : roomy m c ops) (n : ℕ) :
    roomy m c (ops.take n) := by
  induction ops generalizing m c n with
  | nil => rwa [List.take_nil]
  | cons op ops ih =>
    cases n with
    | zero => exact h.1
    | succ n => exact ⟨h.1, ih h.2 n⟩

theorem tally_le (m : MapBook) (c : Tally) (op : Op) (s : Side) (p : Price) :
    tally m c op s p ≤ c s p + 1 := by
  have harr : ∀ (c : Tally) s' p' qty, arrived c s' p' qty s p ≤ c s p + 1 := by
    intro c s' p' qty
    unfold arrived set2
    split
    · omega
    · dsimp only
      split
      · rename_i h
        rw [h.1, h.2]
      · omega
  have hdep : ∀ r, departed c r s p ≤ c s p := by
    intro r
    unfold departed set2
    split
    · rename_i h
      rw [h.1, h.2]
      omega
    · omega
  have hred : ∀ ref qty, reduced m c ref qty s p ≤ c s p := by
    intro ref qty
    rw [reduced]
    cases m.orders[ref]? with
    | none => exact le_rfl
    | some r =>
      dsimp only
      by_cases hlt : qty < r.qty
      · rw [if_pos hlt]
      · rw [if_neg hlt]
        exact hdep r
  cases op with
  | add ref s' p' qty => exact harr c s' p' qty
  | execute ref qty => exact (hred ref qty).trans (Nat.le_succ _)
  | cancel ref qty => exact (hred ref qty).trans (Nat.le_succ _)
  | remove ref =>
    rw [tally]
    cases m.orders[ref]? with
    | none => exact Nat.le_succ _
    | some r => exact (hdep r).trans (Nat.le_succ _)
  | replace ref new p' qty =>
    rw [tally]
    cases m.orders[ref]? with
    | none => exact Nat.le_succ _
    | some r => exact (harr _ _ _ _).trans (Nat.succ_le_succ (hdep r))
  | clear => exact Nat.zero_le _

/-- A sequence of at most `2^32` operations cannot fill a level. -/
theorem roomy_of_length {c : Tally} {ops : List Op} (h : ∀ s p, c s p + ops.length ≤ 2 ^ 32) :
    roomy m c ops := by
  induction ops generalizing m c with
  | nil => exact h
  | cons op ops ih =>
    constructor
    · intro s p
      exact (Nat.le_add_right ..).trans (h s p)
    · apply ih
      intro s p
      have hle := tally_le m c op s p
      have hlen : c s p + (ops.length + 1) ≤ 2 ^ 32 := h s p
      omega

/-- Whatever the window and the table, every run is defined, and one that
rejects nothing and never brings a level above `2^32` deposits shows the
reference book's snapshot and order count after every operation. -/
theorem flat_snapshot_eq_map (lo hi : Price) (maxOrders : ℕ) (b0 : FlatBook)
    (hmake : make lo hi maxOrders = some b0) (ops : List Op)
    (hrefs : ∀ op ∈ ops, ∀ ref ∈ op.refs, ref ≠ 0)
    (hroom : roomy MapBook.empty (fun _ _ => 0) ops) :
    ∃ b, Design.run b0 ops = some b ∧ (b.rejected = 0 → ∀ n,
      ∃ bn, Design.run b0 (ops.take n) = some bn ∧
        bn.snapshot = some (MapBook.empty.replay (ops.take n)).snapshot ∧
        bn.orderCount = (MapBook.empty.replay (ops.take n)).orderCount) := by
  have ht := Tracks.make (I := fun _ _ => True) hmake trivial
  obtain ⟨h, hrej0, -⟩ := Sound.make hmake
  obtain ⟨b, hrun, -, -⟩ := h.run ops hrefs
  refine ⟨b, hrun, fun hrej n => ?_⟩
  have htake : ∀ op ∈ ops.take n, ∀ ref ∈ op.refs, ref ≠ OpenHashMap.kEmpty :=
    fun op hm => hrefs op (List.mem_of_mem_take hm)
  have hdrop : ∀ op ∈ ops.drop n, ∀ ref ∈ op.refs, ref ≠ OpenHashMap.kEmpty :=
    fun op hm => hrefs op (List.mem_of_mem_drop hm)
  obtain ⟨bn, hn, hsn, hle⟩ := h.run _ htake
  obtain ⟨b1, hb1, -, hle'⟩ := hsn.run _ hdrop
  have hb : b = b1 := by
    rw [← List.take_append_drop n ops, Design.run_append, hn, Option.bind_some, hb1] at hrun
    exact (Option.some.inj hrun).symm
  rw [hb] at hrej
  obtain ⟨Wn, htn⟩ := ht.run _ htake (hroom.take n) hn (by omega)
  exact ⟨bn, hn, htn.agrees.snapshot_eq htn.holds⟩

theorem flat_snapshot_eq_map_replace : ∃ b0 b bn : FlatBook, make 100 300 4 = some b0 ∧
    Design.run b0 [.add 1 .buy 300 5, .add 2 .buy 200 7, .replace 1 3 100 5] = some b ∧
    Design.run b0 [.add 1 .buy 300 5, .add 2 .buy 200 7] = some bn ∧
    bn.snapshot = some (MapBook.empty.replay [.add 1 .buy 300 5, .add 2 .buy 200 7]).snapshot ∧
    bn.orderCount = (MapBook.empty.replay [.add 1 .buy 300 5, .add 2 .buy 200 7]).orderCount := by
  have hrun : ((make 100 300 4).bind fun b0 => (Design.run b0
      [.add 1 .buy 300 5, .add 2 .buy 200 7, .replace 1 3 100 5]).map FlatBook.rejected) =
      some 0 := by decide +kernel
  obtain ⟨b0, hmake, h⟩ := Option.bind_eq_some_iff.mp hrun
  obtain ⟨b, hb, hrej⟩ := Option.map_eq_some_iff.mp h
  have hroom : roomy MapBook.empty (fun _ _ => 0)
      [.add 1 .buy 300 5, .add 2 .buy 200 7, .replace 1 3 100 5] := by
    apply roomy_of_length
    intro s p
    decide
  obtain ⟨b1, hb1, hall⟩ := flat_snapshot_eq_map 100 300 4 b0 hmake
    [.add 1 .buy 300 5, .add 2 .buy 200 7, .replace 1 3 100 5] (by simp [Op.refs]) hroom
  obtain rfl : b = b1 := Option.some.inj (hb.symm.trans hb1)
  obtain ⟨bn, hn⟩ := hall hrej 2
  exact ⟨b0, b, bn, hmake, hb, hn⟩

/-! ### A level that wraps its count -/

/-- The buy level at 100 holds `l` and nothing else stands anywhere; order 1 was
added last and order 2 first. -/
structure Piled (b : FlatBook) (m : MapBook) (l : List (OrderId × Qty)) : Prop where
  holds : Holds b (set2 (fun _ _ => []) .buy 100 l)
  agrees : Agrees b (set2 (fun _ _ => []) .buy 100 l) m
  lo : b.lo = 100
  ticks : b.ticks = 3
  top : OpenHashMap.lookup b.ids 1 = some ⟨100, 1, .buy⟩
  first : OpenHashMap.lookup b.ids 2 = some ⟨100, 2, .buy⟩

theorem Piled.add {l : List (OrderId × Qty)} (h : Piled b m l) :
    ∃ b', b.add 1 .buy 100 1 = some b' ∧ b'.rejected = b.rejected ∧
      Piled b' (m.add 1 .buy 100 1) ((1, 1) :: l) := by
  have h1 : (1 : OrderId) ≠ OpenHashMap.kEmpty := by decide
  have h2 : (2 : OrderId) ≠ OpenHashMap.kEmpty := by decide
  have hq : (1 : Qty) ≠ 0 := by decide
  rcases h.holds.add h1 .buy 100 hq with ⟨hnone, -⟩ | ⟨b', hrun, hc, hh, hagree⟩
  · rw [h.top] at hnone
    cases hnone
  · have ha' := hagree m h.agrees
    rw [HybridBook.set2_same, HybridBook.set2_set2] at hh ha'
    refine ⟨b', hrun, hc.rejected, hh, ha', hc.lo.trans h.lo, hc.ticks.trans h.ticks, ?_, ?_⟩
    · rw [← ha'.records 1 h1, MapBook.orders_add m 1 .buy 100 hq, getElem?_insert_if]
      rfl
    · rw [← ha'.records 2 h2, MapBook.orders_add m 1 .buy 100 hq, getElem?_insert_if,
        h.agrees.records 2 h2, h.first]
      rfl

theorem Piled.run {l : List (OrderId × Qty)} (h : Piled b m l) (n : ℕ) :
    ∃ b', Design.run b (List.replicate n (.add 1 .buy 100 1)) = some b' ∧
      b'.rejected = b.rejected ∧
      Piled b' (m.replay (List.replicate n (.add 1 .buy 100 1)))
        (List.replicate n (1, 1) ++ l) := by
  induction n generalizing b m l with
  | zero => exact ⟨b, rfl, rfl, h⟩
  | succ n ih =>
    obtain ⟨b1, h1, hrej1, hp1⟩ := h.add
    obtain ⟨b', h', hrej', hp'⟩ := ih hp1
    have hlist : List.replicate n (1, 1) ++ (1, 1) :: l =
        List.replicate (n + 1) ((1, 1) : OrderId × Qty) ++ l := by
      rw [List.replicate_succ', List.append_assoc]
      rfl
    rw [hlist] at hp'
    refine ⟨b', ?_, hrej'.trans hrej1, hp'⟩
    rw [List.replicate_succ, Design.run]
    show (b.add 1 .buy 100 1).bind _ = _
    rw [h1]
    exact h'

theorem piled_start : ∃ b0 b, make 100 300 4 = some b0 ∧
    Design.run b0 [.add 2 .buy 100 2, .add 1 .buy 100 1] = some b ∧ b.rejected = 0 ∧
    Piled b (MapBook.empty.replay [.add 2 .buy 100 2, .add 1 .buy 100 1]) [(1, 1), (2, 2)] := by
  have hrun : ((make 100 300 4).bind fun b0 => (b0.add 2 .buy 100 2).bind fun b1 =>
      (b1.add 1 .buy 100 1).map fun b => (b0.lo, b0.ticks, b0.rejected, b1.rejected, b.rejected)) =
      some (100, 3, 0, 0, 0) := by decide +kernel
  obtain ⟨b0, hmake, hrun⟩ := Option.bind_eq_some_iff.mp hrun
  obtain ⟨b1, h1, hrun⟩ := Option.bind_eq_some_iff.mp hrun
  obtain ⟨b, h2, hrun⟩ := Option.map_eq_some_iff.mp hrun
  simp only [Prod.mk.injEq] at hrun
  obtain ⟨hlo, hticks, hrej0, hrej1, hrej⟩ := hrun
  obtain ⟨hh0, ha0, -⟩ := Tracks.make (I := fun _ _ => True) hmake trivial
  have hr1 : (1 : OrderId) ≠ OpenHashMap.kEmpty := by decide
  have hr2 : (2 : OrderId) ≠ OpenHashMap.kEmpty := by decide
  obtain ⟨hc1, hh1, hagree1⟩ := hh0.add_ok hr2 .buy 100 (by decide) h1 (hrej1.trans hrej0.symm)
  obtain ⟨hc, hh, hagree⟩ := hh1.add_ok hr1 .buy 100 (by decide) h2 (hrej.trans hrej1.symm)
  have ha := hagree _ (hagree1 _ ha0)
  rw [HybridBook.set2_same, HybridBook.set2_set2] at hh ha
  refine ⟨b0, b, hmake, ?_, hrej, hh, ha, ?_, ?_, ?_, ?_⟩
  · show (b0.add 2 .buy 100 2).bind _ = _
    rw [h1]
    show (b1.add 1 .buy 100 1).bind _ = _
    rw [h2]
    rfl
  · rw [hc.lo, hc1.lo, hlo]
  · rw [hc.ticks, hc1.ticks, hticks]
  · rw [← ha.records 1 hr1]
    decide +kernel
  · rw [← ha.records 2 hr2]
    decide +kernel

theorem total_replicate (n : ℕ) :
    total (List.replicate n (1, 1) ++ [(1, 1), (2, 2)]) = n + 3 := by
  induction n with
  | zero => rfl
  | succ n ih =>
    rw [List.replicate_succ, List.cons_append, total_cons, ih]
    show 1 + (n + 3) = n + 1 + 3
    omega

/-- The orders of a level are counted past `2^32`; one leaves, another comes. -/
def wrapOps (n : ℕ) : List Op :=
  [.add 2 .buy 100 2, .add 1 .buy 100 1] ++ (List.replicate n (.add 1 .buy 100 1) ++
    [.remove 1, .add 2 .buy 100 1])

theorem Piled.wraps {n : ℕ} (h : Piled b m (List.replicate n (1, 1) ++ [(1, 1), (2, 2)]))
    (hn : n = 2 ^ 32 - 1) :
    ∃ b', Design.run b [.remove 1, .add 2 .buy 100 1] = some b' ∧ b'.rejected = b.rejected ∧
      (∀ snap, b'.snapshot = some snap → snap.bid = [⟨100, 2, 1⟩]) ∧
      (m.replay [.remove 1, .add 2 .buy 100 1]).level .buy 100 = some ⟨1, 1⟩ := by
  have hr1 : (1 : OrderId) ≠ OpenHashMap.kEmpty := by decide
  have hr2 : (2 : OrderId) ≠ OpenHashMap.kEmpty := by decide
  have hq : (1 : Qty) ≠ 0 := by decide
  have hlen : (List.replicate n ((1, 1) : OrderId × Qty) ++ [(1, 1), (2, 2)]).length = n + 2 := by
    rw [List.length_append, List.length_replicate]
    rfl
  have hcellOf : cellOf (List.replicate n ((1, 1) : OrderId × Qty) ++ [(1, 1), (2, 2)]) =
      ⟨true, 2, 1⟩ := by
    have hne : List.replicate n ((1, 1) : OrderId × Qty) ++ [(1, 1), (2, 2)] ≠ [] :=
      List.append_ne_nil_of_right_ne_nil _ (by simp)
    have hqty : UInt32.ofNat (n + 3) = 2 := by
      rw [hn]
      decide
    have hcnt : UInt32.ofNat (n + 2) = 1 := by
      rw [hn]
      decide
    rw [cellOf, total_replicate, hlen, decide_eq_true hne, hqty, hcnt]
  have hcell : b.cell .buy 100 = ⟨true, 2, 1⟩ := by
    rw [h.holds.cells, HybridBook.set2_same, hcellOf]
  have hin : b.inGrid 100 = true := by
    simp only [FlatBook.inGrid, h.lo, h.ticks]
    decide
  -- the grid's cell: its bit goes, its shares stay
  obtain ⟨b1, h1, hs1, hc1, hlook, -⟩ := h.holds.toSound.retire hr1 h.top
  have hin1 : b1.inGrid 100 = true := by
    simp only [FlatBook.inGrid, hc1.lo, hc1.ticks, h.lo, h.ticks]
    decide
  have hcell1 : b1.cell = set2 b.cell .buy 100 ⟨false, 1, 0⟩ := by
    rw [hc1.cell, hcell, hin]
    rfl
  have hlook2 : OpenHashMap.lookup b1.ids 2 = some ⟨100, 2, .buy⟩ := by
    rw [hlook 2 hr2, if_neg (by decide), h.first]
  rcases hs1.add hr2 .buy 100 hq with ⟨hnone, -⟩ | ⟨b2, h2, hs2, hc2, -, -⟩
  · rw [hlook2] at hnone
    cases hnone
  have hcell2 : b2.cell = set2 b.cell .buy 100 ⟨true, 2, 1⟩ := by
    rw [hc2.cell, hcell1, hin1, HybridBook.set2_same, HybridBook.set2_set2]
    rfl
  have hrun : Design.run b [.remove 1, .add 2 .buy 100 1] = some b2 := by
    have hrem : b.remove 1 = some b1 := by
      simp only [FlatBook.remove, h.holds.table.find_spec hr1, h.top, Option.bind_eq_bind,
        Option.bind_some, h1]
    show (b.remove 1).bind _ = _
    rw [hrem]
    show (b1.add 2 .buy 100 1).bind _ = _
    rw [h2]
    rfl
  have hused : ∀ p, p ∈ [(100 : Price)] ↔ (b2.cell .buy p).used = true := by
    intro p
    rw [List.mem_singleton, hcell2]
    by_cases hp : p = 100
    · rw [hp, HybridBook.set2_same]
      exact iff_of_true rfl rfl
    · have hno : ¬(Side.buy = .buy ∧ p = 100) := fun he => hp he.2
      rw [HybridBook.set2_other hno, h.holds.cells, HybridBook.set2_other hno]
      exact iff_of_false hp (by decide)
  have hbid : b2.collect .buy (b2.over_ .buy).toList.reverse = some [⟨100, 2, 1⟩] := by
    rw [hs2.collect_eq (List.pairwise_singleton ..) hused (reversed_sorted _) fun p a => by
      rw [List.mem_reverse, Std.TreeMap.mem_toList_iff_getElem?_eq_some]]
    simp only [kSnapshotDepth, List.take_succ_cons, List.take_nil, List.map_cons, List.map_nil,
      viewAt, hcell2, HybridBook.set2_same]
  -- the map's level goes with its shares
  have hl : m.level .buy 100 = some ⟨2, 1⟩ := by
    have hm : mapCells m .buy 100 = ⟨true, 2, 1⟩ := by
      rw [h.agrees.cells, HybridBook.set2_same, hcellOf]
    rw [mapCells] at hm
    cases hl : m.level .buy 100 with
    | none =>
      rw [hl] at hm
      cases hm
    | some a =>
      rw [hl] at hm
      obtain ⟨q, c⟩ := a
      simp only [mapCell, Cell.mk.injEq] at hm
      rw [hm.2.1, hm.2.2]
  have hrec : m.orders[(1 : OrderId)]? = some ⟨100, 1, .buy⟩ := by
    rw [h.agrees.records 1 hr1, h.top]
  have hgone : (withdraw m 1 ⟨100, 1, .buy⟩).level .buy 100 = none := by
    show (m.detach ⟨100, 1, .buy⟩ 1).level .buy 100 = none
    rw [MapBook.level_detach (r := ⟨100, 1, .buy⟩) hl]
    rfl
  refine ⟨b2, hrun, hc2.rejected.trans hc1.rejected, fun snap hsnap => ?_, ?_⟩
  · simp only [snapshot, hbid, Option.bind_eq_bind, Option.bind_some] at hsnap
    obtain ⟨ask, -, hsnap⟩ := Option.bind_eq_some_iff.mp hsnap
    rw [← Option.some.inj hsnap]
  · show ((m.remove 1).add 2 .buy 100 1).level .buy 100 = _
    rw [withdraw_remove hrec, MapBook.level_add _ _ _ _ hq, hgone]
    rfl

/-- A bid of the reference book's snapshot is a level of it. -/
theorem level_of_bid {v : LevelView} (h : v ∈ m.snapshot.bid) :
    m.level .buy v.price = some ⟨v.qty, v.orders⟩ := by
  obtain ⟨⟨p, a⟩, hx, rfl⟩ := List.mem_map.mp h
  exact Std.TreeMap.mem_toList_iff_getElem?_eq_some.mp (List.mem_of_mem_take hx)

/-- One order below `2^32 + 1` deposits leaves and the count reads zero: the map
drops the level, the grid clears its bit and keeps the shares, which the next
arrival finds again. -/
theorem flat_keeps_shares : ¬∀ (lo hi : Price) (maxOrders : ℕ) (b0 : FlatBook),
    make lo hi maxOrders = some b0 → ∀ ops : List Op,
    (∀ op ∈ ops, ∀ ref ∈ op.refs, ref ≠ 0) →
    ∃ b, Design.run b0 ops = some b ∧ (b.rejected = 0 → ∀ n,
      ∃ bn, Design.run b0 (ops.take n) = some bn ∧
        bn.snapshot = some (MapBook.empty.replay (ops.take n)).snapshot ∧
        bn.orderCount = (MapBook.empty.replay (ops.take n)).orderCount) := by
  intro hall
  obtain ⟨b0, b1, hmake, h1, hrej1, hp1⟩ := piled_start
  obtain ⟨n, hn⟩ : ∃ n : ℕ, n = 2 ^ 32 - 1 := ⟨_, rfl⟩
  obtain ⟨b2, h2, hrej2, hp⟩ := hp1.run n
  have hr1 : (1 : OrderId) ≠ OpenHashMap.kEmpty := by decide
  have hr2 : (2 : OrderId) ≠ OpenHashMap.kEmpty := by decide
  obtain ⟨b4, h4, hrej4, hbid, hlevel⟩ := hp.wraps hn
  have hrun : Design.run b0 (wrapOps n) = some b4 := by
    rw [wrapOps, Design.run_append, h1, Option.bind_some, Design.run_append, h2,
      Option.bind_some, h4]
  have hreplay : MapBook.empty.replay (wrapOps n) =
      ((MapBook.empty.replay [.add 2 .buy 100 2, .add 1 .buy 100 1]).replay
        (List.replicate n (.add 1 .buy 100 1))).replay [.remove 1, .add 2 .buy 100 1] := by
    simp only [wrapOps, MapBook.replay, List.foldl_append]
  have hrefs : ∀ op ∈ wrapOps n, ∀ ref ∈ op.refs, ref ≠ 0 := by
    intro op hop
    simp only [wrapOps, List.mem_append, List.mem_replicate] at hop
    rcases hop with hop | hop | hop
    · fin_cases hop <;> simp [Op.refs]
    · rw [hop.2]
      simp [Op.refs]
    · fin_cases hop <;> simp [Op.refs]
  obtain ⟨b, hb, hsnap⟩ := hall 100 300 4 b0 hmake (wrapOps n) hrefs
  obtain rfl : b = b4 := Option.some.inj (hb.symm.trans hrun)
  obtain ⟨bn, hbn, hs, -⟩ := hsnap (hrej4.trans (hrej2.trans hrej1)) (wrapOps n).length
  rw [List.take_length] at hbn hs
  obtain rfl : b = bn := Option.some.inj (hb.symm.trans hbn)
  have hmem : (⟨100, 2, 1⟩ : LevelView) ∈ (MapBook.empty.replay (wrapOps n)).snapshot.bid := by
    rw [hbid _ hs]
    exact List.mem_singleton_self _
  have hshown := level_of_bid hmem
  rw [hreplay, hlevel] at hshown
  exact absurd hshown (by decide)

end Hotpath.Book.FlatBook
