import Hotpath.Book.FlatSnapshot
import Hotpath.Book.HybridRefine

/-!
# The flat book refines the map book

`Agrees b W m` relates a flat book to the reference book: the same records, and
for each price the aggregate of what stands there. The cells count orders in 32
bits and a grid cell is not looked at before it is counted down, so a level must
not come to hold more than `2^32` deposits; `roomy` says so of a sequence of
operations.
-/

namespace Hotpath.Book.FlatBook
open Hotpath.Support
open HybridBook (set2 set2_same set2_other set2_set2 bids_sorted asks_sorted reversed_sorted)

variable {b b' : FlatBook} {W : Standing} {m : MapBook} {s : Side} {p : Price} {ref : OrderId}
  {qty : Qty} {r : Rec}

/-! ### The reference book by cells -/

def mapCells (m : MapBook) (s : Side) (p : Price) : Cell := mapCell (m.level s p)

theorem mapCells_add (m : MapBook) (ref : OrderId) (s : Side) (p : Price) {qty : Qty}
    (h : qty ≠ 0) :
    mapCells (m.add ref s p qty) = set2 (mapCells m) s p ((mapCells m s p).arrive false qty) := by
  funext s' p'
  rw [mapCells, MapBook.level_add m ref s p h, set2]
  split
  · unfold mapCells
    cases m.level s p with
    | none => simp [mapCell, Cell.arrive]
    | some a => simp [mapCell, Cell.arrive]
  · rfl

theorem mapCells_detach (hu : (mapCells m r.side r.px).used = true) (qty : Qty) :
    mapCells (m.detach r qty) =
      set2 (mapCells m) r.side r.px ((mapCells m r.side r.px).depart false qty) := by
  cases hl : m.level r.side r.px with
  | none =>
    rw [mapCells, hl] at hu
    cases hu
  | some a =>
    funext s' p'
    rw [mapCells, MapBook.level_detach hl, set2]
    have hcell : mapCells m r.side r.px = ⟨true, a.qty, a.orders⟩ := by
      rw [mapCells, hl]
      rfl
    split
    · rw [hcell]
      by_cases h0 : a.orders - 1 = 0
      · simp [mapCell, Cell.depart, h0]
      · simp [mapCell, Cell.depart, h0]
    · rfl

theorem mapCells_reduce {px : Price} {q : Qty} (hrec : m.orders[ref]? = some ⟨px, q, s⟩)
    (hlt : qty < q) (hu : (mapCells m s px).used = true) :
    mapCells (m.reduce ref qty) = set2 (mapCells m) s px ((mapCells m s px).shrink false qty) := by
  cases hl : m.level s px with
  | none =>
    rw [mapCells, hl] at hu
    cases hu
  | some a =>
    funext s' p'
    rw [mapCells, (HybridBook.level_reduce hrec hlt).2 a hl, set2]
    have hcell : mapCells m s px = ⟨true, a.qty, a.orders⟩ := by
      rw [mapCells, hl]
      rfl
    split
    · rw [hcell]
      rfl
    · rfl

/-- An order's deposit is withdrawn and its record goes. -/
def withdraw (m : MapBook) (ref : OrderId) (r : Rec) : MapBook :=
  { m.detach r r.qty with orders := m.orders.erase ref }

/-! ### What an operation changes -/

/-- What holds whatever the levels hold. -/
structure Sound (b : FlatBook) : Prop extends Sized b where
  table : b.ids.WF OpenHashMap.hash

/-- One cell changes, and the cached tick of its side with it. -/
structure Changed (b b' : FlatBook) (s : Side) (p : Price) (c : Cell) (h : ℤ) : Prop where
  rejected : b'.rejected = b.rejected
  lo : b'.lo = b.lo
  ticks : b'.ticks = b.ticks
  cell : b'.cell = set2 b.cell s p c
  hints : HintsAt b b' s p h

/-- A change of the table or of a counter leaves the levels as they are. -/
theorem Sized.keep (hs : Sized b) (hlo : b'.lo = b.lo) (ht : b'.ticks = b.ticks)
    (hg : b'.grid = b.grid) (ho : b'.over_ = b.over_) : Sized b' := by
  obtain ⟨lo, ticks, grid, over_, ids, x, y, z⟩ := b
  obtain ⟨lo', ticks', grid', over_', ids', x', y', z'⟩ := b'
  obtain rfl : lo' = lo := hlo
  obtain rfl : ticks' = ticks := ht
  obtain rfl : grid' = grid := hg
  obtain rfl : over_' = over_ := ho
  exact ⟨hs.window, hs.qtys, hs.cnts, hs.bits, hs.outside, hs.hints⟩

theorem add_zero (b : FlatBook) (ref : OrderId) (s : Side) (p : Price) :
    b.add ref s p 0 = some b := rfl

theorem Sound.add (h : Sound b) (href : ref ≠ OpenHashMap.kEmpty) (s : Side) (p : Price)
    (hq : qty ≠ 0) :
    (OpenHashMap.lookup b.ids ref = none ∧
      b.add ref s p qty = some { b with rejected := b.rejected + 1 }) ∨
    ∃ b', b.add ref s p qty = some b' ∧ Sound b' ∧
      Changed b b' s p ((b.cell s p).arrive (b.inGrid p) qty)
        (raiseHint s (b.grid s).hint (b.tickOf p)) ∧
      (∀ k ≠ OpenHashMap.kEmpty, OpenHashMap.lookup b'.ids k =
        if k = ref then some ⟨p, qty, s⟩ else OpenHashMap.lookup b.ids k) ∧
      b'.ids.size = if (OpenHashMap.lookup b.ids ref).isSome then b.ids.size
        else b.ids.size + 1 := by
  rcases h.table.insert_spec href ⟨p, qty, s⟩ with ⟨hnone, -, hi⟩ | ⟨ids, hi, hw, -, hlook, hsize⟩
  · refine Or.inl ⟨hnone, ?_⟩
    simp only [FlatBook.add, if_neg hq, hi, Option.bind_eq_bind, Option.bind_some]
    rfl
  · right
    have hids : Sized { b with ids := ids } := h.toSized.keep rfl rfl rfl rfl
    obtain ⟨b', hdep, hs', hk, hcell, hhint⟩ := hids.arrive s p qty
    have hrun : b.add ref s p qty = some b' := by
      simp only [FlatBook.add, if_neg hq, hi, Option.bind_eq_bind, Option.bind_some]
      exact hdep
    have hids' : b'.ids = ids := hk.ids
    refine ⟨b', hrun, ⟨hs', hids' ▸ hw⟩, ⟨hk.rejected, hk.lo, hk.ticks, hcell, hhint⟩,
      hids' ▸ hlook, ?_⟩
    rw [hids']
    rcases hsize with ⟨hsome, hsz⟩ | ⟨hnone, -, hsz⟩
    · rw [hsz, if_pos (Option.isSome_iff_ne_none.mpr hsome)]
    · rw [hsz, hnone]
      rfl

theorem Sound.retire (h : Sound b) (href : ref ≠ OpenHashMap.kEmpty)
    (hl : OpenHashMap.lookup b.ids ref = some r) : ∃ b', b.retire ref r = some b' ∧ Sound b' ∧
      Changed b b' r.side r.px ((b.cell r.side r.px).depart (b.inGrid r.px) r.qty)
        (if (b.cell r.side r.px).cnt - 1 = 0 ∧ (b.grid r.side).hint = b.tickOf r.px then -1
          else (b.grid r.side).hint) ∧
      (∀ k ≠ OpenHashMap.kEmpty, OpenHashMap.lookup b'.ids k =
        if k = ref then none else OpenHashMap.lookup b.ids k) ∧
      b'.ids.size + 1 = b.ids.size := by
  obtain ⟨b1, hdep, hs1, hk, hcell, hhint⟩ := h.toSized.depart r.side r.px r.qty
  have htable : b1.ids.WF OpenHashMap.hash := hk.ids ▸ h.table
  rcases htable.erase_spec href with ⟨hnone, -⟩ | ⟨-, ids, he, hw, -, hsize, hlook⟩
  · rw [hk.ids, hl] at hnone
    cases hnone
  · have hrun : b.retire ref r = some { b1 with ids := ids } := by
      simp only [FlatBook.retire, hdep, he, Option.bind_eq_bind, Option.bind_some]
      rfl
    rw [hk.ids] at hsize hlook
    exact ⟨_, hrun, ⟨hs1.keep rfl rfl rfl rfl, hw⟩, ⟨hk.rejected, hk.lo, hk.ticks, hcell, hhint⟩,
      hlook, hsize⟩

theorem Sound.cut (h : Sound b) (href : ref ≠ OpenHashMap.kEmpty)
    (hl : OpenHashMap.lookup b.ids ref = some r) (hlt : qty < r.qty) :
    ∃ b', b.reduce ref qty = some b' ∧ Sound b' ∧
      Changed b b' r.side r.px ((b.cell r.side r.px).shrink (b.inGrid r.px) qty)
        (b.grid r.side).hint ∧
      (∀ k ≠ OpenHashMap.kEmpty, OpenHashMap.lookup b'.ids k =
        if k = ref then some ⟨r.px, r.qty - qty, r.side⟩ else OpenHashMap.lookup b.ids k) ∧
      b'.ids.size = b.ids.size := by
  have hne : ¬qty = r.qty := fun he => UInt32.lt_irrefl r.qty (he ▸ hlt)
  obtain ⟨ids, hwr, hw, -, hsize, hlook⟩ := h.table.write_spec href (by rw [hl]; simp)
    (MapBook.Rec.mk r.px (r.qty - qty) r.side)
  have hids : Sized { b with ids := ids } := h.toSized.keep rfl rfl rfl rfl
  obtain ⟨b', hshr, hs', hk, hcell, hhint⟩ := hids.shrink r.side r.px qty
  have hrun : b.reduce ref qty = some b' := by
    simp only [FlatBook.reduce, h.table.find_spec href, hl, Option.bind_eq_bind, Option.bind_some,
      if_pos hlt, if_neg hne, hwr]
    exact hshr
  have hids' : b'.ids = ids := hk.ids
  exact ⟨b', hrun, ⟨hs', hids' ▸ hw⟩, ⟨hk.rejected, hk.lo, hk.ticks, hcell, hhint⟩,
    hids' ▸ hlook, hids' ▸ hsize⟩

theorem Sound.reduce_all (h : Sound b) (href : ref ≠ OpenHashMap.kEmpty)
    (hl : OpenHashMap.lookup b.ids ref = some r) (hle : ¬qty < r.qty) :
    b.reduce ref qty = b.retire ref r := by
  simp only [FlatBook.reduce, h.table.find_spec href, hl, Option.bind_eq_bind, Option.bind_some,
    if_neg hle, if_true]

theorem Sound.reduce_none (h : Sound b) (href : ref ≠ OpenHashMap.kEmpty)
    (hl : OpenHashMap.lookup b.ids ref = none) (qty : Qty) : b.reduce ref qty = some b := by
  simp only [FlatBook.reduce, h.table.find_spec href, hl, Option.bind_eq_bind, Option.bind_some]
  rfl

/-- Nothing stands in a book of zeros. -/
theorem Sized.blank (hw : b.span.Ok) (hq : ∀ s, (b.grid s).qty = List.replicate b.ticks 0)
    (hc : ∀ s, (b.grid s).cnt = List.replicate b.ticks 0)
    (hb : ∀ s, (b.grid s).bits = List.replicate ((b.ticks + 63) / 64) 0)
    (ho : ∀ s, b.over_ s = ∅) (hh : ∀ s, (b.grid s).hint = -1) :
    Sized b ∧ ∀ s p, b.cell s p = cellOf [] := by
  have hbit : ∀ s t, bitAt (b.grid s).bits t = false := by
    intro s t
    rw [hb, bitAt, List.getD_eq_getElem?_getD, List.getElem?_replicate]
    split <;> exact BitVec.getLsbD_zero
  have hzero : ∀ t, (List.replicate b.ticks (0 : UInt32)).getD t 0 = 0 := by
    intro t
    rw [List.getD_eq_getElem?_getD, List.getElem?_replicate]
    split <;> rfl
  constructor
  · refine ⟨hw, fun s => ?_, fun s => ?_, fun s => ⟨hw, ?_, fun t ht => ?_⟩, fun s p hp => ?_,
      fun s => Or.inl (hh s)⟩
    · rw [hq, List.length_replicate]
    · rw [hc, List.length_replicate]
    · rw [hb, List.length_replicate]
      rfl
    · rw [hbit] at ht
      cases ht
    · rw [ho] at hp
      exact absurd hp Std.TreeMap.not_mem_emptyc
  · intro s p
    unfold cell
    split
    · rw [hbit, hq, hc, hzero]
      rfl
    · rw [ho]
      rfl

theorem Sized.clear (hs : Sized b) : Sized b.clear ∧ ∀ s p, b.clear.cell s p = cellOf [] := by
  apply Sized.blank (b := b.clear) hs.window
  · intro s
    show ((b.grid s).qty.map fun _ => (0 : UInt32)) = _
    rw [List.map_const', hs.qtys]
    rfl
  · intro s
    show ((b.grid s).cnt.map fun _ => (0 : UInt32)) = _
    rw [List.map_const', hs.cnts]
    rfl
  · intro s
    show ((b.grid s).bits.map fun _ => (0 : Word)) = _
    rw [List.map_const', (hs.bits s).words]
    rfl
  · intro s
    rfl
  · intro s
    rfl

/-! ### Every operation is defined -/

theorem Sound.reduce_some (h : Sound b) (href : ref ≠ OpenHashMap.kEmpty) (qty : Qty) :
    ∃ b', b.reduce ref qty = some b' ∧ Sound b' ∧ b.rejected ≤ b'.rejected := by
  cases hl : OpenHashMap.lookup b.ids ref with
  | none => exact ⟨b, h.reduce_none href hl qty, h, le_rfl⟩
  | some r =>
    by_cases hlt : qty < r.qty
    · obtain ⟨b', hrun, h', hc, -⟩ := h.cut href hl hlt
      exact ⟨b', hrun, h', hc.rejected.ge⟩
    · obtain ⟨b', hrun, h', hc, -⟩ := h.retire href hl
      exact ⟨b', (h.reduce_all href hl hlt).trans hrun, h', hc.rejected.ge⟩

theorem Sound.add_some (h : Sound b) (href : ref ≠ OpenHashMap.kEmpty) (s : Side) (p : Price)
    (qty : Qty) : ∃ b', b.add ref s p qty = some b' ∧ Sound b' ∧ b.rejected ≤ b'.rejected := by
  by_cases hq : qty = 0
  · rw [hq]
    exact ⟨b, add_zero b ref s p, h, le_rfl⟩
  · rcases h.add href s p hq with ⟨-, hrun⟩ | ⟨b', hrun, h', hc, -⟩
    · exact ⟨_, hrun, ⟨h.toSized.keep rfl rfl rfl rfl, h.table⟩, Nat.le_succ _⟩
    · exact ⟨b', hrun, h', hc.rejected.ge⟩

theorem Sound.step (h : Sound b) (op : Op) (hrefs : ∀ ref ∈ op.refs, ref ≠ OpenHashMap.kEmpty) :
    ∃ b', b.step op = some b' ∧ Sound b' ∧ b.rejected ≤ b'.rejected := by
  cases op with
  | add ref s p qty => exact h.add_some (hrefs ref (by simp [Op.refs])) s p qty
  | execute ref qty => exact h.reduce_some (hrefs ref (by simp [Op.refs])) qty
  | cancel ref qty => exact h.reduce_some (hrefs ref (by simp [Op.refs])) qty
  | remove ref =>
    have href := hrefs ref (by simp [Op.refs])
    simp only [FlatBook.step, FlatBook.remove, h.table.find_spec href, Option.bind_eq_bind,
      Option.bind_some]
    cases hl : OpenHashMap.lookup b.ids ref with
    | none => exact ⟨b, rfl, h, le_rfl⟩
    | some r =>
      obtain ⟨b', hrun, h', hc, -⟩ := h.retire href hl
      exact ⟨b', hrun, h', hc.rejected.ge⟩
  | replace ref new p qty =>
    have href := hrefs ref (by simp [Op.refs])
    simp only [FlatBook.step, FlatBook.replace, h.table.find_spec href, Option.bind_eq_bind,
      Option.bind_some]
    cases hl : OpenHashMap.lookup b.ids ref with
    | none => exact ⟨b, rfl, h, le_rfl⟩
    | some r =>
      obtain ⟨b1, hr, h1, hc, -⟩ := h.retire href hl
      obtain ⟨b', ha, h', hle'⟩ := h1.add_some (hrefs new (by simp [Op.refs])) r.side p qty
      refine ⟨b', ?_, h', hc.rejected.ge.trans hle'⟩
      simp only [hr, Option.bind_some]
      exact ha
  | clear => exact ⟨b.clear, rfl, ⟨h.toSized.clear.1, h.table.clear.1⟩, le_rfl⟩

theorem Sound.run (h : Sound b) (ops : List Op)
    (hrefs : ∀ op ∈ ops, ∀ ref ∈ op.refs, ref ≠ OpenHashMap.kEmpty) :
    ∃ b', Design.run b ops = some b' ∧ Sound b' ∧ b.rejected ≤ b'.rejected := by
  induction ops generalizing b with
  | nil => exact ⟨b, rfl, h, le_rfl⟩
  | cons op ops ih =>
    obtain ⟨b1, h1, hs1, hle⟩ := h.step op (hrefs op (List.mem_cons_self ..))
    obtain ⟨b', h', hs', hle'⟩ := ih hs1 fun op hm => hrefs op (List.mem_cons_of_mem _ hm)
    refine ⟨b', ?_, hs', hle.trans hle'⟩
    show (b.step op).bind _ = _
    rw [h1]
    exact h'

/-! ### Agreement -/

/-- Each cell is the aggregate of what stands there, and every record names a
deposit of its own. -/
structure Holds (b : FlatBook) (W : Standing) : Prop extends Sound b where
  cells : ∀ s p, b.cell s p = cellOf (W s p)
  live : ∀ ref ≠ OpenHashMap.kEmpty, ∀ r, OpenHashMap.lookup b.ids ref = some r →
    (ref, r.qty) ∈ W r.side r.px

structure Agrees (b : FlatBook) (W : Standing) (m : MapBook) : Prop where
  records : ∀ ref ≠ OpenHashMap.kEmpty, m.orders[ref]? = OpenHashMap.lookup b.ids ref
  size : m.orders.size = b.ids.size
  cells : ∀ s p, mapCells m s p = cellOf (W s p)

theorem cells_set2 {f : Side → Price → Cell} (hf : ∀ s p, f s p = cellOf (W s p)) (s : Side)
    (p : Price) (l : List (OrderId × Qty)) (s' : Side) (p' : Price) :
    set2 f s p (cellOf l) s' p' = cellOf (set2 W s p l s' p') := by
  unfold set2
  split
  · rfl
  · exact hf s' p'

/-- A cell that follows what stands there, with the one record that changed. -/
theorem Holds.changed {l : List (OrderId × Qty)} {hint : ℤ} {x : Option MapBook.Rec}
    (h : Holds b W) (h' : Sound b') (hc : Changed b b' s p (cellOf l) hint)
    (hlook : ∀ k ≠ OpenHashMap.kEmpty,
      OpenHashMap.lookup b'.ids k = if k = ref then x else OpenHashMap.lookup b.ids k)
    (hnew : ∀ r, x = some r → (ref, r.qty) ∈ set2 W s p l r.side r.px)
    (hkeep : ∀ d ∈ W s p, d.1 ≠ ref → d ∈ l) : Holds b' (set2 W s p l) := by
  refine ⟨h', fun s' p' => ?_, fun k hk rk hlk => ?_⟩
  · rw [hc.cell]
    exact cells_set2 h.cells ..
  · rw [hlook k hk] at hlk
    by_cases hkr : k = ref
    · rw [if_pos hkr] at hlk
      rw [hkr]
      exact hnew rk hlk
    · rw [if_neg hkr] at hlk
      have hold := h.live k hk rk hlk
      by_cases hsp : rk.side = s ∧ rk.px = p
      · rw [hsp.1, hsp.2] at hold ⊢
        rw [set2_same]
        exact hkeep _ hold hkr
      · rwa [set2_other hsp]

/-- An arrival that the table takes. -/
theorem Holds.add (h : Holds b W) (href : ref ≠ OpenHashMap.kEmpty) (s : Side) (p : Price)
    (hq : qty ≠ 0) :
    (OpenHashMap.lookup b.ids ref = none ∧
      b.add ref s p qty = some { b with rejected := b.rejected + 1 }) ∨
    ∃ b', b.add ref s p qty = some b' ∧
      Changed b b' s p (cellOf ((ref, qty) :: W s p))
        (raiseHint s (b.grid s).hint (b.tickOf p)) ∧
      Holds b' (set2 W s p ((ref, qty) :: W s p)) ∧
      ∀ m, Agrees b W m → Agrees b' (set2 W s p ((ref, qty) :: W s p)) (m.add ref s p qty) := by
  rcases h.toSound.add href s p hq with hfull | ⟨b', hrun, h', hc, hlook, hsize⟩
  · exact Or.inl hfull
  · right
    have hpush := cellOf_cons (ref, qty) (W s p)
    rw [h.cells, hpush] at hc
    refine ⟨b', hrun, hc, h.changed h' hc hlook ?_ fun d hd _ => List.mem_cons_of_mem _ hd,
      fun m ha => ⟨fun k hk => ?_, ?_, fun s' p' => ?_⟩⟩
    · intro rk hrk
      obtain rfl := Option.some.inj hrk
      rw [set2_same]
      exact List.mem_cons_self ..
    · rw [MapBook.orders_add m ref s p hq, getElem?_insert_if, hlook k hk, ha.records k hk]
    · rw [MapBook.orders_add m ref s p hq, size_insert_if, ha.records ref href, hsize, ha.size]
    · rw [mapCells_add m ref s p hq, ha.cells s p, hpush]
      exact cells_set2 ha.cells ..

theorem Holds.add_ok (h : Holds b W) (href : ref ≠ OpenHashMap.kEmpty) (s : Side) (p : Price)
    (hq : qty ≠ 0) (hrun : b.add ref s p qty = some b') (hrej : b'.rejected = b.rejected) :
    Changed b b' s p (cellOf ((ref, qty) :: W s p)) (raiseHint s (b.grid s).hint (b.tickOf p)) ∧
      Holds b' (set2 W s p ((ref, qty) :: W s p)) ∧
      ∀ m, Agrees b W m → Agrees b' (set2 W s p ((ref, qty) :: W s p)) (m.add ref s p qty) := by
  rcases h.add href s p hq with ⟨-, h'⟩ | ⟨b1, h', hall⟩
  · rw [h'] at hrun
    obtain rfl := Option.some.inj hrun
    have hbad : b.rejected + 1 = b.rejected := hrej
    omega
  · rw [h'] at hrun
    obtain rfl := Option.some.inj hrun
    exact hall

theorem Holds.used (h : Holds b W) (href : ref ≠ OpenHashMap.kEmpty)
    (hl : OpenHashMap.lookup b.ids ref = some r) (ha : Agrees b W m) :
    (mapCells m r.side r.px).used = true := by
  rw [ha.cells]
  exact decide_eq_true (List.ne_nil_of_mem (h.live ref href r hl))

theorem Holds.retire (h : Holds b W) (href : ref ≠ OpenHashMap.kEmpty)
    (hl : OpenHashMap.lookup b.ids ref = some r) (hroom : (W r.side r.px).length ≤ 2 ^ 32) :
    ∃ b', b.retire ref r = some b' ∧
      Changed b b' r.side r.px (cellOf ((W r.side r.px).erase (ref, r.qty)))
        (if (W r.side r.px).erase (ref, r.qty) = [] ∧ (b.grid r.side).hint = b.tickOf r.px
          then -1 else (b.grid r.side).hint) ∧
      Holds b' (set2 W r.side r.px ((W r.side r.px).erase (ref, r.qty))) ∧
      ∀ m, Agrees b W m → Agrees b'
        (set2 W r.side r.px ((W r.side r.px).erase (ref, r.qty))) (withdraw m ref r) := by
  have hmem := h.live ref href r hl
  have hpull : ∀ inside, (cellOf (W r.side r.px)).depart inside r.qty =
      cellOf ((W r.side r.px).erase (ref, r.qty)) := cellOf_erase hmem hroom
  have hlast := cnt_last hmem hroom
  obtain ⟨b', hrun, h', hc, hlook, hsize⟩ := h.toSound.retire href hl
  have hcell : (b.cell r.side r.px).depart (b.inGrid r.px) r.qty =
      cellOf ((W r.side r.px).erase (ref, r.qty)) := by rw [h.cells, hpull]
  rw [hcell, h.cells] at hc
  simp only [hlast] at hc
  refine ⟨b', hrun, hc, h.changed h' hc hlook ?_ ?_, fun m ha =>
    ⟨fun k hk => ?_, ?_, fun s' p' => ?_⟩⟩
  · intro rk hrk
    cases hrk
  · intro d hd hne
    exact (List.mem_erase_of_ne fun heq => hne (congrArg Prod.fst heq)).mpr hd
  · show (m.orders.erase ref)[k]? = _
    rw [getElem?_erase_if, hlook k hk, ha.records k hk]
  · show (m.orders.erase ref).size = b'.ids.size
    rw [size_erase_if, ha.records ref href, hl, ha.size]
    simp only [Option.isSome_some, if_true]
    omega
  · show mapCells (m.detach r r.qty) s' p' = _
    rw [mapCells_detach (h.used href hl ha), ha.cells, hpull]
    exact cells_set2 ha.cells ..

theorem Holds.cut (h : Holds b W) (href : ref ≠ OpenHashMap.kEmpty)
    (hl : OpenHashMap.lookup b.ids ref = some r) (hlt : qty < r.qty) :
    ∃ b', b.reduce ref qty = some b' ∧
      Changed b b' r.side r.px (cellOf (FlatBook.cut (W r.side r.px) (ref, r.qty) qty))
        (b.grid r.side).hint ∧
      Holds b' (set2 W r.side r.px (FlatBook.cut (W r.side r.px) (ref, r.qty) qty)) ∧
      ∀ m, Agrees b W m → Agrees b'
        (set2 W r.side r.px (FlatBook.cut (W r.side r.px) (ref, r.qty) qty))
        (m.reduce ref qty) := by
  have hmem := h.live ref href r hl
  have hcut : ∀ inside, (cellOf (W r.side r.px)).shrink inside qty =
      cellOf (FlatBook.cut (W r.side r.px) (ref, r.qty) qty) :=
    cellOf_cut hmem (UInt32.le_of_lt hlt)
  obtain ⟨b', hrun, h', hc, hlook, hsize⟩ := h.toSound.cut href hl hlt
  have hcell : (b.cell r.side r.px).shrink (b.inGrid r.px) qty =
      cellOf (FlatBook.cut (W r.side r.px) (ref, r.qty) qty) := by rw [h.cells, hcut]
  rw [hcell] at hc
  refine ⟨b', hrun, hc, h.changed h' hc hlook ?_ ?_, fun m ha => ?_⟩
  · intro rk hrk
    obtain rfl := Option.some.inj hrk
    rw [set2_same]
    exact List.mem_cons_self ..
  · intro d hd hne
    exact List.mem_cons_of_mem _
      ((List.mem_erase_of_ne fun heq => hne (congrArg Prod.fst heq)).mpr hd)
  · have hrec : m.orders[ref]? = some ⟨r.px, r.qty, r.side⟩ := by
      rw [ha.records ref href, hl]
    have horders := (HybridBook.level_reduce hrec hlt).1
    refine ⟨fun k hk => ?_, ?_, fun s' p' => ?_⟩
    · rw [horders, getElem?_insert_if, hlook k hk, ha.records k hk]
    · rw [horders, size_insert_if, hrec, hsize, ha.size]
      rfl
    · rw [mapCells_reduce hrec hlt (h.used href hl ha), ha.cells, hcut]
      exact cells_set2 ha.cells ..

/-! ### Room in the levels -/

/-- How many deposits stand at each level. -/
abbrev Tally := Side → Price → ℕ

def departed (c : Tally) (r : Rec) : Tally := set2 c r.side r.px (c r.side r.px - 1)

def arrived (c : Tally) (s : Side) (p : Price) (qty : Qty) : Tally :=
  if qty = 0 then c else set2 c s p (c s p + 1)

/-- The tally after `qty` shares of an order are taken. -/
def reduced (m : MapBook) (c : Tally) (ref : OrderId) (qty : Qty) : Tally :=
  match m.orders[ref]? with
  | none => c
  | some r => if qty < r.qty then c else departed c r

/-- The tally after an operation on the reference book; a reference that is used
again leaves its first deposit in the tally. -/
def tally (m : MapBook) (c : Tally) : Op → Tally
  | .add _ s p qty => arrived c s p qty
  | .execute ref qty => reduced m c ref qty
  | .cancel ref qty => reduced m c ref qty
  | .remove ref => match m.orders[ref]? with
    | none => c
    | some r => departed c r
  | .replace ref _ p qty => match m.orders[ref]? with
    | none => c
    | some r => arrived (departed c r) r.side p qty
  | .clear => fun _ _ => 0

/-- No level comes to hold more than `2^32` deposits. -/
def roomy : MapBook → Tally → List Op → Prop
  | _, c, [] => ∀ s p, c s p ≤ 2 ^ 32
  | m, c, op :: ops => (∀ s p, c s p ≤ 2 ^ 32) ∧ roomy (m.step op) (tally m c op) ops

def counts (W : Standing) : Tally := fun s p => (W s p).length

theorem counts_set2 (W : Standing) (s : Side) (p : Price) (l : List (OrderId × Qty)) :
    counts (set2 W s p l) = set2 (counts W) s p l.length := by
  funext s' p'
  unfold counts set2
  split <;> rfl

theorem counts_erase {x : OrderId × Qty} (h : x ∈ W r.side r.px) :
    counts (set2 W r.side r.px ((W r.side r.px).erase x)) = departed (counts W) r := by
  rw [counts_set2, List.length_erase_of_mem h]
  rfl

theorem counts_cut {x : OrderId × Qty} (h : x ∈ W s p) (take : Qty) :
    counts (set2 W s p (FlatBook.cut (W s p) x take)) = counts W := by
  have hpos := List.length_pos_of_mem h
  have hlen : (FlatBook.cut (W s p) x take).length = counts W s p := by
    rw [FlatBook.cut, List.length_cons, List.length_erase_of_mem h]
    show (W s p).length - 1 + 1 = (W s p).length
    omega
  rw [counts_set2, hlen, HybridBook.set2_self]

/-! ### Steps -/

/-- The arrivals of an operation meet a condition on the book they arrive in. A
replacement arrives after the order it replaces has left. -/
def admits (ok : FlatBook → Side → Price → Prop) (b : FlatBook) : Op → Prop
  | .add _ s px qty => qty = 0 ∨ ok b s px
  | .replace old _ px qty => qty = 0 ∨ ∀ r b1,
      b.ids.find OpenHashMap.hash old = some (some r) → b.retire old r = some b1 → ok b1 r.side px
  | _ => True

/-- Every change of a level keeps `I`, an arrival where `ok` holds. -/
structure Keeps (ok : FlatBook → Side → Price → Prop) (I : FlatBook → Standing → Prop) : Prop where
  arrive : ∀ {b b' W s p x c}, Holds b W → I b W → ok b s p →
    Holds b' (set2 W s p (x :: W s p)) →
    Changed b b' s p c (raiseHint s (b.grid s).hint (b.tickOf p)) →
    I b' (set2 W s p (x :: W s p))
  depart : ∀ {b b' W s p l c}, Holds b W → I b W → W s p ≠ [] → Holds b' (set2 W s p l) →
    Changed b b' s p c (if l = [] ∧ (b.grid s).hint = b.tickOf p then -1
      else (b.grid s).hint) → I b' (set2 W s p l)
  cut : ∀ {b b' W s p l c}, Holds b W → I b W → W s p ≠ [] → l ≠ [] → Holds b' (set2 W s p l) →
    Changed b b' s p c (b.grid s).hint → I b' (set2 W s p l)
  clear : ∀ b : FlatBook, I b.clear fun _ _ => []

/-- Nothing has to be kept. -/
theorem keeps_nothing : Keeps (fun _ _ _ => True) fun _ _ => True :=
  ⟨fun _ _ _ _ _ => trivial, fun _ _ _ _ _ => trivial, fun _ _ _ _ _ _ => trivial, fun _ => trivial⟩

/-- The two books agree, and `I` holds of what stands. -/
structure Tracks (I : FlatBook → Standing → Prop) (b : FlatBook) (W : Standing) (m : MapBook) :
    Prop where
  holds : Holds b W
  agrees : Agrees b W m
  inv : I b W

variable {ok : FlatBook → Side → Price → Prop} {I : FlatBook → Standing → Prop}

theorem Tracks.add (ht : Tracks I b W m) (hk : Keeps ok I) (href : ref ≠ OpenHashMap.kEmpty)
    (hok : qty = 0 ∨ ok b s p) (hrun : b.add ref s p qty = some b')
    (hrej : b'.rejected = b.rejected) : ∃ W', Tracks I b' W' (m.add ref s p qty) ∧
      counts W' = arrived (counts W) s p qty := by
  by_cases hq : qty = 0
  · rw [hq, add_zero] at hrun
    obtain rfl := Option.some.inj hrun
    have hm : m.add ref s p qty = m := by rw [MapBook.add, if_pos hq]
    rw [hm, arrived, if_pos hq]
    exact ⟨W, ht, rfl⟩
  · obtain ⟨hc, hh, hagree⟩ := ht.holds.add_ok href s p hq hrun hrej
    have hinv := hk.arrive ht.holds ht.inv (hok.resolve_left hq) hh hc
    refine ⟨_, ⟨hh, hagree m ht.agrees, hinv⟩, ?_⟩
    rw [counts_set2, arrived, if_neg hq]
    rfl

theorem withdraw_remove (hrec : m.orders[ref]? = some r) : m.remove ref = withdraw m ref r := by
  simp only [MapBook.remove, hrec, withdraw, MapBook.orders_detach]

theorem withdraw_reduce (hrec : m.orders[ref]? = some r) (hle : ¬qty < r.qty) :
    m.reduce ref qty = withdraw m ref r := by
  simp only [MapBook.reduce, hrec, if_neg hle, if_true, withdraw, MapBook.orders_detach]

theorem withdraw_replace (hrec : m.orders[ref]? = some r) (new : OrderId) (p : Price) (qty : Qty) :
    m.replace ref new p qty = (withdraw m ref r).add new r.side p qty := by
  simp only [MapBook.replace, hrec, withdraw, MapBook.orders_detach]

theorem Tracks.retire (ht : Tracks I b W m) (hk : Keeps ok I) (href : ref ≠ OpenHashMap.kEmpty)
    (hl : OpenHashMap.lookup b.ids ref = some r) (hroom : ∀ s p, counts W s p ≤ 2 ^ 32) :
    ∃ b' W', b.retire ref r = some b' ∧ b'.rejected = b.rejected ∧
      Tracks I b' W' (withdraw m ref r) ∧ counts W' = departed (counts W) r := by
  have hmem := ht.holds.live ref href r hl
  obtain ⟨b', hrun, hc, hh, hagree⟩ := ht.holds.retire href hl (hroom r.side r.px)
  have hinv := hk.depart ht.holds ht.inv (List.ne_nil_of_mem hmem) hh hc
  exact ⟨b', _, hrun, hc.rejected, ⟨hh, hagree m ht.agrees, hinv⟩, counts_erase hmem⟩

theorem Tracks.reduce (ht : Tracks I b W m) (hk : Keeps ok I) (href : ref ≠ OpenHashMap.kEmpty)
    (hroom : ∀ s p, counts W s p ≤ 2 ^ 32) (qty : Qty) (hrun : b.reduce ref qty = some b') :
    ∃ W', Tracks I b' W' (m.reduce ref qty) ∧ counts W' = reduced m (counts W) ref qty := by
  have hrec := ht.agrees.records ref href
  cases hl : OpenHashMap.lookup b.ids ref with
  | none =>
    rw [hl] at hrec
    rw [ht.holds.reduce_none href hl] at hrun
    obtain rfl := Option.some.inj hrun
    have hm : m.reduce ref qty = m := by simp only [MapBook.reduce, hrec]
    rw [hm, reduced, hrec]
    exact ⟨W, ht, rfl⟩
  | some r =>
    rw [hl] at hrec
    rw [reduced, hrec]
    dsimp only
    by_cases hlt : qty < r.qty
    · have hmem := ht.holds.live ref href r hl
      obtain ⟨b1, h', hc, hh, hagree⟩ := ht.holds.cut href hl hlt
      rw [h'] at hrun
      obtain rfl := Option.some.inj hrun
      have hne : FlatBook.cut (W r.side r.px) (ref, r.qty) qty ≠ [] := by simp [FlatBook.cut]
      have hinv := hk.cut ht.holds ht.inv (List.ne_nil_of_mem hmem) hne hh hc
      rw [if_pos hlt]
      exact ⟨_, ⟨hh, hagree m ht.agrees, hinv⟩, counts_cut hmem qty⟩
    · obtain ⟨b1, W', h', -, ht', hc'⟩ := ht.retire hk href hl hroom
      rw [ht.holds.reduce_all href hl hlt, h'] at hrun
      obtain rfl := Option.some.inj hrun
      rw [if_neg hlt, withdraw_reduce hrec hlt]
      exact ⟨W', ht', hc'⟩

/-- An operation that is not rejected keeps the agreement. -/
theorem Tracks.step (ht : Tracks I b W m) (hk : Keeps ok I) (op : Op)
    (hrefs : ∀ ref ∈ op.refs, ref ≠ OpenHashMap.kEmpty) (hok : admits ok b op)
    (hroom : ∀ s p, counts W s p ≤ 2 ^ 32) (hrun : b.step op = some b')
    (hrej : b'.rejected = b.rejected) :
    ∃ W', Tracks I b' W' (m.step op) ∧ counts W' = tally m (counts W) op := by
  cases op with
  | add ref s p qty => exact ht.add hk (hrefs ref (by simp [Op.refs])) hok hrun hrej
  | execute ref qty => exact ht.reduce hk (hrefs ref (by simp [Op.refs])) hroom qty hrun
  | cancel ref qty => exact ht.reduce hk (hrefs ref (by simp [Op.refs])) hroom qty hrun
  | remove ref =>
    have href := hrefs ref (by simp [Op.refs])
    have hrec := ht.agrees.records ref href
    simp only [FlatBook.step, FlatBook.remove, ht.holds.table.find_spec href, Option.bind_eq_bind,
      Option.bind_some] at hrun
    cases hl : OpenHashMap.lookup b.ids ref with
    | none =>
      rw [hl] at hrun hrec
      obtain rfl := Option.some.inj hrun
      have hm : m.remove ref = m := by simp only [MapBook.remove, hrec]
      simp only [MapBook.step, hm, tally, hrec]
      exact ⟨W, ht, rfl⟩
    | some r =>
      rw [hl] at hrun hrec
      obtain ⟨b1, W', h', -, ht', hc'⟩ := ht.retire hk href hl hroom
      dsimp only at hrun
      rw [h'] at hrun
      obtain rfl := Option.some.inj hrun
      simp only [MapBook.step, withdraw_remove hrec, tally, hrec]
      exact ⟨W', ht', hc'⟩
  | replace ref new p qty =>
    have href := hrefs ref (by simp [Op.refs])
    have hrec := ht.agrees.records ref href
    have hfind := ht.holds.table.find_spec href
    simp only [FlatBook.step, FlatBook.replace, hfind, Option.bind_eq_bind, Option.bind_some]
      at hrun
    cases hl : OpenHashMap.lookup b.ids ref with
    | none =>
      rw [hl] at hrun hrec
      obtain rfl := Option.some.inj hrun
      have hm : m.replace ref new p qty = m := by simp only [MapBook.replace, hrec]
      simp only [MapBook.step, hm, tally, hrec]
      exact ⟨W, ht, rfl⟩
    | some r =>
      rw [hl] at hrun hrec hfind
      obtain ⟨b1, W1, h', hrej1, ht1, hc1⟩ := ht.retire hk href hl hroom
      simp only [h', Option.bind_some] at hrun
      have hok1 : qty = 0 ∨ ok b1 r.side p := hok.imp_right fun h => h r b1 hfind h'
      obtain ⟨W', ht', hc'⟩ := ht1.add hk (hrefs new (by simp [Op.refs])) hok1 hrun
        (hrej.trans hrej1.symm)
      simp only [MapBook.step, withdraw_replace hrec, tally, hrec]
      exact ⟨W', ht', by rw [hc', hc1]⟩
  | clear =>
    obtain rfl := Option.some.inj hrun
    obtain ⟨hs, hcells⟩ := ht.holds.toSized.clear
    obtain ⟨hw, -, hsize, hnone⟩ := ht.holds.table.clear
    refine ⟨fun _ _ => [], ⟨⟨⟨hs, hw⟩, hcells, fun k hk r hl => ?_⟩,
      ⟨fun k hk => ?_, hsize.symm, fun s p => ?_⟩, hk.clear b⟩, rfl⟩
    · have hl' : OpenHashMap.lookup b.ids.clear k = some r := hl
      rw [hnone k hk] at hl'
      cases hl'
    · exact (hnone k hk).symm
    · cases s <;> rfl

end Hotpath.Book.FlatBook
