import Hotpath.Book.FlatBest
import Hotpath.Book.FreshStart

/-!
# The cleared books of all three designs

The flat book keeps its levels in the grid, which `clear` fills, so only the values
of empty slots of its table are left over. The intrusive book is the twin of a
hybrid book, and what it answers is read off that book's slots in use.
-/

namespace Hotpath.Book
open Hotpath.Support
open HybridBook (Call)
open OpenHashMap (SameEntries)

namespace FlatBook

variable {b c : FlatBook} {s : Side} {p : Price} {ref : OrderId} {qty : Qty} {k : ℕ}

instance : Readable FlatBook where
  reading b := ⟨b.snapshot, fun s => (b.best s).map Prod.fst, b.orderCount⟩
  rejected := rejected

instance : Caller FlatBook := ⟨call⟩

structure Alike (k : ℕ) (b c : FlatBook) : Prop where
  lo : c.lo = b.lo
  ticks : c.ticks = b.ticks
  grid : c.grid = b.grid
  over_ : c.over_ = b.over_
  ids : SameEntries OpenHashMap.hash b.ids c.ids
  rejected : c.rejected = b.rejected + k

theorem Alike.eq_with (ha : Alike k b c) : ∃ ids ops gops, c = { b with
    ids := ids, overflowOps := ops, gridOps := gops, rejected := b.rejected + k } := by
  obtain ⟨lo, ticks, grid, over_, ids, ops, gops, rejected⟩ := c
  obtain ⟨hlo, hticks, hgrid, hover, -, hrej⟩ := ha
  dsimp only at hlo hticks hgrid hover hrej
  subst hlo hticks hgrid hover hrej
  exact ⟨ids, ops, gops, rfl⟩

theorem Alike.deposit (ha : Alike k b c) (s : Side) (p : Price) (qty : Qty) (delta : ℤ) :
    Option.Rel (Alike k) (b.deposit s p qty delta) (c.deposit s p qty delta) := by
  obtain ⟨ids', ops', gops', rfl⟩ := ha.eq_with
  apply rel_ite
  · intro _
    exact Option.Rel.some ⟨rfl, rfl, rfl, rfl, ha.ids, rfl⟩
  · intro _
    apply rel_bind_self
    intro n
    apply rel_ite
    · intro _
      apply rel_bind_self
      intro cnt
      apply rel_ite
      · intro _
        apply rel_bind_self
        intro bits
        apply rel_bind_self
        intro q
        exact Option.Rel.some ⟨rfl, rfl, rfl, rfl, ha.ids, rfl⟩
      · intro _
        apply rel_bind_self
        intro bits
        apply rel_bind_self
        intro q
        exact Option.Rel.some ⟨rfl, rfl, rfl, rfl, ha.ids, rfl⟩
    · intro _
      apply rel_bind_self
      intro q
      apply rel_bind_self
      intro cnt
      apply rel_ite
      · intro _
        apply rel_bind_self
        intro bits
        exact Option.Rel.some ⟨rfl, rfl, rfl, rfl, ha.ids, rfl⟩
      · intro _
        exact Option.Rel.some ⟨rfl, rfl, rfl, rfl, ha.ids, rfl⟩

theorem Alike.forget (ha : Alike k b c) (href : ref ≠ OpenHashMap.kEmpty) :
    Option.Rel (Alike k)
      ((b.ids.erase OpenHashMap.hash ref).bind fun x => some { b with ids := x.1 })
      ((c.ids.erase OpenHashMap.hash ref).bind fun x => some { c with ids := x.1 }) := by
  apply rel_bind (ha.ids.erase href)
  rintro ⟨ids, erased⟩ ⟨ids', erased'⟩ ⟨hids, -⟩
  exact Option.Rel.some ⟨ha.lo, ha.ticks, ha.grid, ha.over_, hids, ha.rejected⟩

theorem Alike.retire (ha : Alike k b c) (href : ref ≠ OpenHashMap.kEmpty) (r : Rec) :
    Option.Rel (Alike k) (b.retire ref r) (c.retire ref r) := by
  apply rel_bind (ha.deposit r.side r.px r.qty (-1))
  intro x y hxy
  exact hxy.forget href

theorem Alike.add (ha : Alike k b c) (href : ref ≠ OpenHashMap.kEmpty) (s : Side) (p : Price)
    (qty : Qty) : Option.Rel (Alike k) (b.add ref s p qty) (c.add ref s p qty) := by
  apply rel_ite
  · intro _
    exact Option.Rel.some ha
  · intro _
    apply rel_bind (ha.ids.insert href _)
    rintro ⟨ids, ok⟩ ⟨ids', ok'⟩ ⟨hids, hok⟩
    dsimp only at hids hok
    subst hok
    apply rel_ite
    · intro _
      have hrej := ha.rejected
      refine Option.Rel.some ⟨ha.lo, ha.ticks, ha.grid, ha.over_, ha.ids, ?_⟩
      show c.rejected + 1 = b.rejected + 1 + k
      omega
    · intro _
      have ha' : Alike k { b with ids := ids } { c with ids := ids' } :=
        ⟨ha.lo, ha.ticks, ha.grid, ha.over_, hids, ha.rejected⟩
      exact ha'.deposit s p qty 1

theorem Alike.shrink (ha : Alike k b c) (s : Side) (p : Price) (take : Qty) :
    Option.Rel (Alike k) (b.shrink s p take) (c.shrink s p take) := by
  obtain ⟨ids', ops', gops', rfl⟩ := ha.eq_with
  apply rel_ite
  · intro _
    apply rel_bind_self
    intro q
    exact Option.Rel.some ⟨rfl, rfl, rfl, rfl, ha.ids, rfl⟩
  · intro _
    dsimp only
    cases (b.over_ s)[p]? with
    | none => exact Option.Rel.some ha
    | some a => exact Option.Rel.some ⟨rfl, rfl, rfl, rfl, ha.ids, rfl⟩

theorem Alike.reduce (ha : Alike k b c) (href : ref ≠ OpenHashMap.kEmpty) (qty : Qty) :
    Option.Rel (Alike k) (b.reduce ref qty) (c.reduce ref qty) := by
  simp only [FlatBook.reduce, ha.ids.find href, ha.ids.left.find_spec href, Option.bind_eq_bind,
    Option.bind_some]
  cases hl : OpenHashMap.lookup b.ids ref with
  | none => exact Option.Rel.some ha
  | some r =>
    have hfound : OpenHashMap.lookup b.ids ref ≠ none := by
      rw [hl]
      exact Option.some_ne_none r
    apply rel_ite
    · intro _
      exact ha.retire href r
    · intro _
      apply rel_bind (ha.ids.write href hfound _)
      intro ids ids' hids
      have ha' : Alike k { b with ids := ids } { c with ids := ids' } :=
        ⟨ha.lo, ha.ticks, ha.grid, ha.over_, hids, ha.rejected⟩
      exact ha'.shrink r.side r.px _

theorem Alike.step (ha : Alike k b c) (op : Op)
    (hrefs : ∀ ref ∈ op.refs, ref ≠ OpenHashMap.kEmpty) :
    Option.Rel (Alike k) (b.step op) (c.step op) := by
  cases op with
  | add ref s p qty => exact ha.add (hrefs ref (by simp [Op.refs])) s p qty
  | execute ref qty => exact ha.reduce (hrefs ref (by simp [Op.refs])) qty
  | cancel ref qty => exact ha.reduce (hrefs ref (by simp [Op.refs])) qty
  | remove ref =>
    have href := hrefs ref (by simp [Op.refs])
    simp only [FlatBook.step, FlatBook.remove, ha.ids.find href, ha.ids.left.find_spec href,
      Option.bind_eq_bind, Option.bind_some]
    cases OpenHashMap.lookup b.ids ref with
    | none => exact Option.Rel.some ha
    | some r => exact ha.retire href r
  | replace ref new p qty =>
    have href := hrefs ref (by simp [Op.refs])
    simp only [FlatBook.step, FlatBook.replace, ha.ids.find href, ha.ids.left.find_spec href,
      Option.bind_eq_bind, Option.bind_some]
    cases OpenHashMap.lookup b.ids ref with
    | none => exact Option.Rel.some ha
    | some r =>
      apply rel_bind (ha.retire href r)
      intro x y hxy
      exact hxy.add (hrefs new (by simp [Op.refs])) r.side p qty
  | clear =>
    obtain ⟨ids', ops', gops', rfl⟩ := ha.eq_with
    exact Option.Rel.some ⟨rfl, rfl, rfl, rfl, ha.ids.clear, rfl⟩

/-! ### Queries -/

theorem Alike.best (ha : Alike k b c) (s : Side) :
    Option.Rel (fun x y => y.1 = x.1 ∧ Alike k x.2 y.2) (b.best s) (c.best s) := by
  have hcache : ∀ hint : ℤ, Alike k
      { b with grid := Function.update b.grid s { b.grid s with hint := hint } }
      { c with grid := Function.update c.grid s { c.grid s with hint := hint } } := by
    intro hint
    refine ⟨ha.lo, ha.ticks, ?_, ha.over_, ha.ids, ha.rejected⟩
    rw [ha.grid]
  have hgrid : Option.Rel (fun x y => y.1 = x.1 ∧ Alike k x.2 y.2) (b.gridBest s)
      (c.gridBest s) := by
    obtain ⟨ids', ops', gops', rfl⟩ := ha.eq_with
    rw [FlatBook.gridBest, FlatBook.gridBest]
    apply rel_ite
    · intro _
      apply rel_bind_self
      intro hint
      exact Option.Rel.some ⟨rfl, hcache hint⟩
    · intro _
      apply rel_bind_self
      intro set
      apply rel_ite
      · intro _
        apply rel_bind_self
        intro hint
        exact Option.Rel.some ⟨rfl, hcache hint⟩
      · intro _
        exact Option.Rel.some ⟨rfl, hcache _⟩
  apply rel_bind hgrid
  rintro ⟨g, x⟩ ⟨g', y⟩ ⟨hg, hxy⟩
  dsimp only at hg hxy ⊢
  subst hg
  have hover : y.overBest s = x.overBest s := by
    cases s with
    | buy => simp only [overBest, hxy.over_]
    | sell => simp only [overBest, hxy.over_]
  rw [hover]
  apply rel_ite
  · intro _
    exact Option.Rel.some ⟨rfl, hxy⟩
  · intro _
    apply rel_ite
    · intro _
      exact Option.Rel.some ⟨rfl, hxy⟩
    · intro _
      exact Option.Rel.some ⟨rfl, hxy⟩

theorem Alike.snapshot (ha : Alike k b c) : c.snapshot = b.snapshot := by
  obtain ⟨ids', ops', gops', rfl⟩ := ha.eq_with
  have hloop : ∀ s n t oit, collectLoop { b with
      ids := ids', overflowOps := ops', gridOps := gops', rejected := b.rejected + k } s n t oit =
        b.collectLoop s n t oit := by
    intro s n
    induction n with
    | zero =>
      intro t oit
      rfl
    | succ n ih =>
      intro t oit
      simp only [collectLoop, ih]
      rfl
  simp only [FlatBook.snapshot, collect, hloop]
  rfl

theorem Alike.call (ha : Alike k b c) (call : Call) (hnamed : call.named) :
    Option.Rel (Alike k) (b.call call) (c.call call) := by
  cases call with
  | op op => exact ha.step op (hnamed op rfl)
  | best side =>
    rw [FlatBook.call, FlatBook.call, Option.map_eq_bind, Option.map_eq_bind]
    apply rel_bind (ha.best side)
    intro x y hxy
    exact Option.Rel.some hxy.2
  | snapshot =>
    rw [FlatBook.call, FlatBook.call, ha.snapshot, Option.map_eq_bind, Option.map_eq_bind]
    apply rel_bind_self
    intro snap
    exact Option.Rel.some ha

theorem Alike.indistinguishable (ha : Alike k b c) : Indistinguishable b c := by
  apply indistinguishable_of (R := Alike k) (k := k) _ _ ha
  · intro b c call ha hnamed
    exact ha.call call hnamed
  · intro b c ha
    have hbest : ∀ s, (c.best s).map Prod.fst = (b.best s).map Prod.fst :=
      fun s => rel_map_eq (ha.best s) fun _ _ h => h.1
    simp only [Readable.reading, ha.snapshot, hbest]
    exact ⟨by rw [orderCount, orderCount, ha.ids.size], ha.rejected⟩

/-! ### The cleared book -/

/-- What no call changes. -/
structure SameSize (b c : FlatBook) : Prop where
  lo : c.lo = b.lo
  ticks : c.ticks = b.ticks
  table : c.ids.slots.length = b.ids.slots.length

theorem SameSize.trans {b1 b2 b3 : FlatBook} (h : SameSize b1 b2) (h' : SameSize b2 b3) :
    SameSize b1 b3 :=
  ⟨h'.lo.trans h.lo, h'.ticks.trans h.ticks, h'.table.trans h.table⟩

theorem Kept.sameSize {b' : FlatBook} (hk : Kept b b') : SameSize b b' :=
  ⟨hk.lo, hk.ticks, by rw [hk.ids]⟩

theorem Sound.add_size {b' : FlatBook} (h : Sound b) (href : ref ≠ OpenHashMap.kEmpty)
    (ha : b.add ref s p qty = some b') : SameSize b b' := by
  by_cases hqty : qty = 0
  · rw [hqty, add_zero] at ha
    obtain rfl := Option.some.inj ha
    exact ⟨rfl, rfl, rfl⟩
  · simp only [FlatBook.add, if_neg hqty, Option.bind_eq_bind] at ha
    rcases h.table.insert_spec href ⟨p, qty, s⟩ with ⟨-, -, hi⟩ | ⟨ids, hi, -, hlen, -⟩
    · rw [hi] at ha
      obtain rfl := Option.some.inj ha
      exact ⟨rfl, rfl, rfl⟩
    · rw [hi] at ha
      have hids : Sized { b with ids := ids } := h.toSized.keep rfl rfl rfl rfl
      obtain ⟨b1, hdep, -, hk, -⟩ := hids.arrive s p qty
      obtain rfl : b1 = b' := Option.some.inj (hdep.symm.trans ha)
      exact ⟨hk.lo, hk.ticks, by rw [hk.ids]; exact hlen⟩

theorem Sound.retire_size {b' : FlatBook} (h : Sound b) (href : ref ≠ OpenHashMap.kEmpty) {r : Rec}
    (hr : b.retire ref r = some b') : SameSize b b' := by
  obtain ⟨b1, hdep, -, hk, -⟩ := h.toSized.depart r.side r.px r.qty
  have htable : b1.ids.WF OpenHashMap.hash := hk.ids ▸ h.table
  simp only [FlatBook.retire, hdep, Option.bind_eq_bind, Option.bind_some] at hr
  rcases htable.erase_spec href with ⟨-, he⟩ | ⟨-, ids, he, -, hlen, -⟩
  · rw [he] at hr
    obtain rfl := Option.some.inj hr
    exact hk.sameSize
  · rw [he] at hr
    obtain rfl := Option.some.inj hr
    exact ⟨hk.lo, hk.ticks, hlen.trans (by rw [hk.ids])⟩

theorem Sound.reduce_size {b' : FlatBook} (h : Sound b) (href : ref ≠ OpenHashMap.kEmpty)
    (hr : b.reduce ref qty = some b') : SameSize b b' := by
  cases hl : OpenHashMap.lookup b.ids ref with
  | none =>
    rw [h.reduce_none href hl qty] at hr
    obtain rfl := Option.some.inj hr
    exact ⟨rfl, rfl, rfl⟩
  | some r =>
    by_cases hlt : qty < r.qty
    · have hne : ¬qty = r.qty := fun he => UInt32.lt_irrefl r.qty (he ▸ hlt)
      obtain ⟨ids, hwr, -, hlen, -⟩ := h.table.write_spec href (by rw [hl]; simp)
        (MapBook.Rec.mk r.px (r.qty - qty) r.side)
      have hids : Sized { b with ids := ids } := h.toSized.keep rfl rfl rfl rfl
      obtain ⟨b1, hshr, -, hk, -⟩ := hids.shrink r.side r.px qty
      simp only [FlatBook.reduce, h.table.find_spec href, hl, Option.bind_eq_bind,
        Option.bind_some, if_pos hlt, if_neg hne, hwr] at hr
      obtain rfl : b1 = b' := Option.some.inj (hshr.symm.trans hr)
      exact ⟨hk.lo, hk.ticks, by rw [hk.ids]; exact hlen⟩
    · rw [h.reduce_all href hl hlt] at hr
      exact h.retire_size href hr

theorem Sound.step_size {b' : FlatBook} (h : Sound b) (op : Op)
    (hrefs : ∀ ref ∈ op.refs, ref ≠ OpenHashMap.kEmpty) (hr : b.step op = some b') :
    SameSize b b' := by
  cases op with
  | add ref s p qty => exact h.add_size (hrefs ref (by simp [Op.refs])) hr
  | execute ref qty => exact h.reduce_size (hrefs ref (by simp [Op.refs])) hr
  | cancel ref qty => exact h.reduce_size (hrefs ref (by simp [Op.refs])) hr
  | remove ref =>
    have href := hrefs ref (by simp [Op.refs])
    simp only [FlatBook.step, FlatBook.remove, h.table.find_spec href, Option.bind_eq_bind,
      Option.bind_some] at hr
    cases hl : OpenHashMap.lookup b.ids ref with
    | none =>
      rw [hl] at hr
      obtain rfl := Option.some.inj hr
      exact ⟨rfl, rfl, rfl⟩
    | some r =>
      rw [hl] at hr
      exact h.retire_size href hr
  | replace ref new p qty =>
    have href := hrefs ref (by simp [Op.refs])
    simp only [FlatBook.step, FlatBook.replace, h.table.find_spec href, Option.bind_eq_bind,
      Option.bind_some] at hr
    cases hl : OpenHashMap.lookup b.ids ref with
    | none =>
      rw [hl] at hr
      obtain rfl := Option.some.inj hr
      exact ⟨rfl, rfl, rfl⟩
    | some r =>
      rw [hl] at hr
      obtain ⟨b1, hret, hadd⟩ := Option.bind_eq_some_iff.mp hr
      obtain ⟨b1', hret', h1, -⟩ := h.retire href hl
      obtain rfl : b1' = b1 := Option.some.inj (hret'.symm.trans hret)
      exact (h.retire_size href hret).trans (h1.add_size (hrefs new (by simp [Op.refs])) hadd)
  | clear =>
    obtain rfl := Option.some.inj hr
    exact ⟨rfl, rfl, List.length_map _⟩

theorem Sound.call_keeps {b' : FlatBook} (h : Sound b) (call : Call) (hnamed : call.named)
    (hr : b.call call = some b') : Sound b' ∧ SameSize b b' := by
  cases call with
  | op op =>
    obtain ⟨b1, h1, hs1, -⟩ := h.step op (hnamed op rfl)
    obtain rfl : b1 = b' := Option.some.inj (h1.symm.trans hr)
    exact ⟨hs1, h.step_size op (hnamed op rfl) hr⟩
  | best side =>
    obtain ⟨x, hx, rfl⟩ := Option.map_eq_some_iff.mp hr
    obtain ⟨px, r, hbest, hnames⟩ := h.toSized.best_some side
    rw [hbest] at hx
    obtain rfl := Option.some.inj hx
    exact ⟨h.setHint side hnames, rfl, rfl, rfl⟩
  | snapshot =>
    obtain ⟨snap, -, rfl⟩ := Option.map_eq_some_iff.mp hr
    exact ⟨h, rfl, rfl, rfl⟩

theorem Alike.cleared {lo hi : Price} {maxOrders : ℕ} (hmake : make lo hi maxOrders = some b)
    (h : Sound c) (hsize : SameSize b c) : Alike c.rejected b c.clear := by
  have htick : kTick = 100 := rfl
  by_cases hwin : hi < lo - lo % 100
  · simp [FlatBook.make, htick, if_pos hwin] at hmake
  · simp only [FlatBook.make, htick, if_neg hwin, Option.bind_eq_bind] at hmake
    obtain ⟨ids, hids, hb⟩ := Option.bind_eq_some_iff.mp hmake
    obtain rfl := Option.some.inj hb
    obtain ⟨hlo, hticks, htable⟩ := hsize
    have hgrid : c.clear.grid = fun _ => freshGrid c.ticks := by
      funext s
      show Grid.mk ((c.grid s).qty.map fun _ => 0) ((c.grid s).cnt.map fun _ => 0)
        ((c.grid s).bits.map fun _ => 0) (-1) = _
      rw [List.map_const', List.map_const', List.map_const', h.qtys, h.cnts, (h.bits s).words]
      rfl
    rw [hticks] at hgrid
    refine ⟨hlo, hticks, hgrid, rfl, SameEntries.fresh hids h.table ?_, (Nat.zero_add _).symm⟩
    exact htable.trans (OpenHashMap.WF.make (h := OpenHashMap.hash) hids).2.1

theorem cleared_indistinguishable {lo hi : Price} {maxOrders : ℕ}
    (hmake : make lo hi maxOrders = some b) (calls : List Call)
    (hnamed : ∀ call ∈ calls, call.named) (hrun : Caller.run b calls = some c) :
    Indistinguishable b c.clear := by
  have hstart : Sound b ∧ SameSize b b := ⟨(Sound.make hmake).1, rfl, rfl, rfl⟩
  obtain ⟨h, hsize⟩ := run_keeps (I := fun c => Sound c ∧ SameSize b c)
    (fun b1 b2 call h hc h12 => by
      obtain ⟨h2, hs⟩ := h.1.call_keeps call hc h12
      exact ⟨h2, h.2.trans hs⟩)
    hstart calls hnamed hrun
  exact (Alike.cleared hmake h hsize).indistinguishable

end FlatBook

namespace IntrusiveBook
open HybridBook (Rep Queues Core InUse)

variable {h g : HybridBook} {i j : IntrusiveBook} {Q : Queues} {s : Side} {k : ℕ}

/-- Its queries leave the book as it is. -/
def call (b : IntrusiveBook) : Call → Option IntrusiveBook
  | .op op => b.step op
  | .best side => (b.best side).map fun _ => b
  | .snapshot => (b.snapshot).map fun _ => b

instance : Caller IntrusiveBook := ⟨call⟩

/-- Two sorted lists of the same prices name the same levels. -/
theorem Twin.idx_eq (hi : Twin h i) (hj : Twin g j) (hix : g.levelIx = h.levelIx) :
    j.idx = i.idx := by
  funext s
  have : Std.Irrefl fun p q => HybridBook.better s p q = true := ⟨HybridBook.better_irrefl⟩
  have : Std.Antisymm fun p q => HybridBook.better s p q = true :=
    ⟨fun p q hpq hqp => absurd hqp (HybridBook.better_asymm hpq)⟩
  obtain ⟨ps, hl⟩ := hi.listed s
  obtain ⟨ps', hl'⟩ := hj.listed s
  have hps : ps' = ps := by
    apply hl'.sorted.eq_of_mem_iff hl.sorted
    intro p
    rw [hl'.mem, hl.mem, hix]
  rw [hl'.eq, hl.eq, hps, hix]

theorem Twin.listed_inUse (hi : Twin h i) (hc : Core h Q) {li : ℤ} (hli : li ∈ i.idx s) :
    InUse h.freeLevels li := by
  obtain ⟨ps, hl⟩ := hi.listed s
  rw [hl.eq] at hli
  obtain ⟨p, hp, rfl⟩ := List.mem_map.mp hli
  exact hc.level_inUse ((hl.mem p).mp hp)

structure Pair (k : ℕ) (i j : IntrusiveBook) : Prop where
  twins : ∃ h g, Twin h i ∧ Twin g j ∧ HybridBook.Pair k h g

theorem Pair.level (ha : HybridBook.Alike k h g) (hi : Twin h i) (hj : Twin g j) (hc : Core h Q)
    {li : ℤ} (hli : li ∈ i.idx s) : subscript j.levels li = subscript i.levels li := by
  have hli' : i.levels = h.levels := by
    rw [hi.same]
    rfl
  have hlj : j.levels = g.levels := by
    rw [hj.same]
    rfl
  rw [hli', hlj]
  have hread := rel_map_eq ((hi.listed_inUse hc hli).subscript ha.levels) fun _ _ h => h
  rwa [Option.map_id_fun, id, id] at hread

theorem Pair.reading (hp : Pair k i j) : Readable.reading j = Readable.reading i := by
  obtain ⟨h, g, hi, hj, ⟨Q, hr⟩, -, ha⟩ := hp.twins
  have hidx := hi.idx_eq hj ha.index.levelIx_eq
  have hbest : ∀ s, j.best s = i.best s := by
    intro s
    rw [IntrusiveBook.best, IntrusiveBook.best, hidx]
    cases hs : i.idx s with
    | nil => rfl
    | cons li rest =>
      have hmem : li ∈ i.idx s := by
        rw [hs]
        exact List.mem_cons_self ..
      show (subscript j.levels li).map _ = (subscript i.levels li).map _
      rw [Pair.level ha hi hj hr.toCore hmem]
  have hcollect : ∀ s, j.collect s = i.collect s := by
    intro s
    rw [collect, collect, hidx]
    apply mapM_congr
    intro li hli
    rw [Pair.level ha hi hj hr.toCore (List.mem_of_mem_take hli)]
  have hcount : j.orderCount = i.orderCount := by
    rw [orderCount, orderCount, hj.ids_eq, hi.ids_eq, ha.ids.size]
  show Reading.mk _ _ _ = Reading.mk _ _ _
  rw [IntrusiveBook.snapshot, hcollect, hcollect, funext hbest, hcount]
  rfl

theorem Pair.call (hp : Pair k i j) (call : Call) (hnamed : call.named) :
    Option.Rel (Pair k) (i.call call) (j.call call) := by
  cases call with
  | op op =>
    obtain ⟨h, g, hi, hj, hpair⟩ := hp.twins
    obtain ⟨Q, hr⟩ := hpair.left
    obtain ⟨Q', hr'⟩ := hpair.right
    apply rel_trans (hpair.call (.op op) hnamed) (hi.step hr op (hnamed op rfl))
      (hj.step hr' op (hnamed op rfl))
    intro h' g' i' j' hpair' hi' hj'
    exact ⟨h', g', hi', hj', hpair'⟩
  | best side =>
    have hsame : j.best side = i.best side :=
      congrFun (congrArg Reading.best hp.reading) side
    rw [IntrusiveBook.call, IntrusiveBook.call, hsame, Option.map_eq_bind, Option.map_eq_bind]
    apply rel_bind_self
    intro px
    exact Option.Rel.some hp
  | snapshot =>
    have hsame : j.snapshot = i.snapshot := congrArg Reading.snapshot hp.reading
    rw [IntrusiveBook.call, IntrusiveBook.call, hsame, Option.map_eq_bind, Option.map_eq_bind]
    apply rel_bind_self
    intro snap
    exact Option.Rel.some hp

theorem Pair.indistinguishable (hp : Pair k i j) : Indistinguishable i j := by
  apply indistinguishable_of (R := Pair k) (k := k) _ _ hp
  · intro i j call hp hnamed
    exact hp.call call hnamed
  · intro i j hp
    obtain ⟨h, g, hi, hj, hpair⟩ := hp.twins
    refine ⟨hp.reading, ?_⟩
    show j.rejected = i.rejected + k
    rw [hj.rejected_eq, hi.rejected_eq, hpair.alike.rejected]

theorem cleared_indistinguishable {maxOrders maxLevels : ℕ} (hmake : make maxOrders maxLevels = some i)
    (calls : List Call) (hnamed : ∀ call ∈ calls, call.named) (hrun : Caller.run i calls = some j) :
    Indistinguishable i j.clear := by
  obtain ⟨h0, hmk, ht0⟩ := Twin.make hmake
  have hr0 := (HybridBook.Rep.make hmk).1
  have hstart : ∃ h Q, Twin h i ∧ Rep h Q ∧ HybridBook.SameSize h0 h :=
    ⟨h0, _, ht0, hr0, rfl, rfl, rfl, rfl, rfl⟩
  obtain ⟨h, Q, ht, hr, hsize⟩ := run_keeps
    (I := fun j => ∃ h Q, Twin h j ∧ Rep h Q ∧ HybridBook.SameSize h0 h)
    (fun i1 i2 call hi1 hc h12 => by
      obtain ⟨h, Q, ht, hr, hs⟩ := hi1
      cases call with
      | op op =>
        have hrel := ht.step hr op (hc op rfl)
        rw [show i1.step op = some i2 from h12] at hrel
        obtain ⟨h', hh', ht'⟩ := rel_left hrel
        obtain ⟨-, Q', hr', -⟩ := hr.step_sim op (hc op rfl) hh'
        exact ⟨h', Q', ht', hr', hs.trans (hr.step_size op (hc op rfl) hh')⟩
      | best side =>
        obtain ⟨px, -, rfl⟩ := Option.map_eq_some_iff.mp h12
        exact ⟨h, Q, ht, hr, hs⟩
      | snapshot =>
        obtain ⟨snap, -, rfl⟩ := Option.map_eq_some_iff.mp h12
        exact ⟨h, Q, ht, hr, hs⟩)
    hstart calls hnamed hrun
  have hpair := HybridBook.Pair.cleared hmk hr hsize
  exact Pair.indistinguishable ⟨h0, h.clear, ht0, ht.clear hr, hpair⟩

end IntrusiveBook

/-- Clearing a book of any design gives one that no later calls tell from a new book of
its parameters. -/
theorem clear_eq_fresh :
    (∀ lo hi maxOrders maxLevels (b0 b : HybridBook) (calls : List Call),
      HybridBook.make lo hi maxOrders maxLevels = some b0 →
      (∀ call ∈ calls, call.named) → Caller.run b0 calls = some b →
      Indistinguishable b0 b.clear) ∧
    (∀ lo hi maxOrders (b0 b : FlatBook) (calls : List Call),
      FlatBook.make lo hi maxOrders = some b0 →
      (∀ call ∈ calls, call.named) → Caller.run b0 calls = some b →
      Indistinguishable b0 b.clear) ∧
    (∀ maxOrders maxLevels (i0 i : IntrusiveBook) (calls : List Call),
      IntrusiveBook.make maxOrders maxLevels = some i0 →
      (∀ call ∈ calls, call.named) → Caller.run i0 calls = some i →
      Indistinguishable i0 i.clear) := by
  refine ⟨?_, ?_, ?_⟩
  · intro lo hi maxOrders maxLevels b0 b calls hmake hnamed hrun
    exact HybridBook.cleared_indistinguishable hmake calls hnamed hrun
  · intro lo hi maxOrders b0 b calls hmake hnamed hrun
    exact FlatBook.cleared_indistinguishable hmake calls hnamed hrun
  · intro maxOrders maxLevels i0 i calls hmake hnamed hrun
    exact IntrusiveBook.cleared_indistinguishable hmake calls hnamed hrun

/-- The table of four slots has turned away the third order. -/
theorem clear_eq_fresh_rejected :
    (∃ b0 b : HybridBook, HybridBook.make 100 300 4 4 = some b0 ∧ b.rejected = 1 ∧
      Indistinguishable b0 b.clear) ∧
    (∃ b0 b : FlatBook, FlatBook.make 100 300 4 = some b0 ∧ b.rejected = 1 ∧
      Indistinguishable b0 b.clear) ∧
    (∃ i0 i : IntrusiveBook, IntrusiveBook.make 4 4 = some i0 ∧ i.rejected = 1 ∧
      Indistinguishable i0 i.clear) := by
  have hnamed : ∀ call ∈ [Call.op (.add 1 .buy 100 5), .op (.add 2 .sell 300 5), .best .buy,
      .op (.add 3 .buy 200 5)], call.named := by
    simp [HybridBook.Call.named, HybridBook.Call.op?, Op.refs]
  refine ⟨?_, ?_, ?_⟩
  · have hrun : ((HybridBook.make 100 300 4 4).bind fun b0 => (Caller.run b0
        [Call.op (.add 1 .buy 100 5), .op (.add 2 .sell 300 5), .best .buy,
          .op (.add 3 .buy 200 5)]).map HybridBook.rejected) = some 1 := by decide +kernel
    obtain ⟨b0, hmake, hrun⟩ := Option.bind_eq_some_iff.mp hrun
    obtain ⟨b, hb, hrej⟩ := Option.map_eq_some_iff.mp hrun
    exact ⟨b0, b, hmake, hrej, clear_eq_fresh.1 100 300 4 4 b0 b _ hmake hnamed hb⟩
  · have hrun : ((FlatBook.make 100 300 4).bind fun b0 => (Caller.run b0
        [Call.op (.add 1 .buy 100 5), .op (.add 2 .sell 300 5), .best .buy,
          .op (.add 3 .buy 200 5)]).map FlatBook.rejected) = some 1 := by decide +kernel
    obtain ⟨b0, hmake, hrun⟩ := Option.bind_eq_some_iff.mp hrun
    obtain ⟨b, hb, hrej⟩ := Option.map_eq_some_iff.mp hrun
    exact ⟨b0, b, hmake, hrej, clear_eq_fresh.2.1 100 300 4 b0 b _ hmake hnamed hb⟩
  · have hrun : ((IntrusiveBook.make 4 4).bind fun i0 => (Caller.run i0
        [Call.op (.add 1 .buy 100 5), .op (.add 2 .sell 300 5), .best .buy,
          .op (.add 3 .buy 200 5)]).map IntrusiveBook.rejected) = some 1 := by decide +kernel
    obtain ⟨i0, hmake, hrun⟩ := Option.bind_eq_some_iff.mp hrun
    obtain ⟨i, hi, hrej⟩ := Option.map_eq_some_iff.mp hrun
    exact ⟨i0, i, hmake, hrej, clear_eq_fresh.2.2 4 4 i0 i _ hmake hnamed hi⟩

end Hotpath.Book
