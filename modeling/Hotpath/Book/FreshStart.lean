import Hotpath.Support.Recycled
import Hotpath.Core.OpenHashSame
import Hotpath.Book.Rejection

/-!
# A cleared book

`clear` empties the table and the index and makes all slots free; what the slots
held stays in them. `Alike k b c` says that two books have one index and the same
slots in use, the same in both but for the stamps, and that `c` has counted `k`
rejections more. Every operation writes a slot it takes before it reads it, so what
runs on one book runs on the other and keeps the two alike.
-/

namespace Hotpath.Book
open Hotpath.Support
open HybridBook (Call)

/-- A design with its calls: an operation, or a query, which may write a cached tick. -/
class Caller (B : Type) where
  call : B → Call → Option B

def Caller.run {B : Type} [Caller B] : B → List Call → Option B
  | b, [] => some b
  | b, c :: cs => (Caller.call b c).bind fun b => Caller.run b cs

/-- No reference of the call is zero. -/
def HybridBook.Call.named (c : Call) : Prop := ∀ op, c.op? = some op → ∀ ref ∈ op.refs, ref ≠ 0

/-- Whatever is called from now on, both answer alike and count the same rejections. -/
def Indistinguishable {B : Type} [Caller B] [Readable B] (b c : B) : Prop :=
  ∀ later : List Call, (∀ call ∈ later, call.named) →
    Option.Rel (fun b' c' => Readable.reading c' = Readable.reading b' ∧
      Readable.rejected c' + Readable.rejected b = Readable.rejected b' + Readable.rejected c)
      (Caller.run b later) (Caller.run c later)

section Runs
variable {B : Type} [Caller B]

theorem run_rel {R : B → B → Prop}
    (hcall : ∀ b c call, R b c → call.named → Option.Rel R (Caller.call b call) (Caller.call c call))
    {b c : B} (h : R b c) (calls : List Call) (hnamed : ∀ call ∈ calls, call.named) :
    Option.Rel R (Caller.run b calls) (Caller.run c calls) := by
  induction calls generalizing b c with
  | nil => exact Option.Rel.some h
  | cons call calls ih =>
    apply rel_bind (hcall b c call h (hnamed call (List.mem_cons_self ..)))
    intro b1 c1 h1
    exact ih h1 fun call hc => hnamed call (List.mem_cons_of_mem _ hc)

theorem run_keeps {I : B → Prop}
    (hcall : ∀ b b' call, I b → call.named → Caller.call b call = some b' → I b') {b b' : B}
    (h : I b) (calls : List Call) (hnamed : ∀ call ∈ calls, call.named)
    (hrun : Caller.run b calls = some b') : I b' := by
  induction calls generalizing b with
  | nil =>
    obtain rfl := Option.some.inj hrun
    exact h
  | cons call calls ih =>
    obtain ⟨b1, h1, hrun⟩ := Option.bind_eq_some_iff.mp hrun
    exact ih (hcall b b1 call h (hnamed call (List.mem_cons_self ..)) h1)
      (fun call hc => hnamed call (List.mem_cons_of_mem _ hc)) hrun

/-- A relation that every call keeps, and under which answers agree. -/
theorem indistinguishable_of [Readable B] {R : B → B → Prop} {k : ℕ}
    (hcall : ∀ b c call, R b c → call.named → Option.Rel R (Caller.call b call) (Caller.call c call))
    (hread : ∀ b c, R b c → Readable.reading c = Readable.reading b ∧
      Readable.rejected c = Readable.rejected b + k) {b c : B} (h : R b c) :
    Indistinguishable b c := by
  intro later hnamed
  apply rel_imp (run_rel hcall h later hnamed)
  intro b' c' _ _ h'
  have hnow := (hread b c h).2
  obtain ⟨hsame, hthen⟩ := hread b' c' h'
  exact ⟨hsame, by omega⟩

end Runs

namespace HybridBook
open OpenHashMap (SameEntries)
open IntrusiveBook (strip)

variable {b c : HybridBook} {Q : Queues} {s : Side} {p : Price} {ref : OrderId} {qty : Qty}
  {k : ℕ}

structure Alike (k : ℕ) (b c : HybridBook) : Prop where
  index : SameIndex b c
  freeOrders : c.freeOrders = b.freeOrders
  freeLevels : c.freeLevels = b.freeLevels
  orders : AgreeOff strip (2 ^ 31) b.freeOrders b.orders c.orders
  levels : AgreeOff id (2 ^ 31) b.freeLevels b.levels c.levels
  ids : SameEntries OpenHashMap.hash b.ids c.ids
  rejected : c.rejected = b.rejected + k

theorem Alike.eq_with (ha : Alike k b c) : ∃ orders levels ids ops seq, c = { b with
    orders := orders, levels := levels, ids := ids, rejected := b.rejected + k,
    overflowOps := ops, nextSeq := seq } := by
  obtain ⟨lo, ticks, grid, over_, orders, levels, freeOrders, freeLevels, ids, rejected, ops,
    seq⟩ := c
  obtain ⟨⟨hlo, hticks, hgrid, hover⟩, hfo, hfl, -, -, -, hrej⟩ := ha
  dsimp only at hlo hticks hgrid hover hfo hfl hrej
  subst hlo hticks hgrid hover hfo hfl hrej
  exact ⟨orders, levels, ids, ops, seq, rfl⟩

/-! ### Slots in use -/

theorem FreeOk.not_usable {l : List ℤ} {len n : ℕ} {P : ℕ → Prop} (h : FreeOk l len P)
    (hn : ¬P n) : (n : ℤ) ∉ usable l := by
  obtain ⟨good, bad, rfl, -, hg, hneg, -⟩ := h
  intro hm
  have htake : usable (good.map Nat.cast ++ bad) = good.map Nat.cast := by
    rw [usable, List.takeWhile_append_of_pos]
    · cases bad with
      | nil => simp
      | cons x bad =>
        rw [List.takeWhile_cons_of_neg, List.append_nil]
        simpa using hneg x rfl
    · intro x hx
      obtain ⟨i, -, rfl⟩ := List.mem_map.mp hx
      simp
  rw [htake] at hm
  obtain ⟨i, hi, he⟩ := List.mem_map.mp hm
  obtain rfl : i = n := by exact_mod_cast he
  exact hn ((hg i).mp hi).2.2

theorem FreeOk.usable_of {l : List ℤ} {len n : ℕ} {P : ℕ → Prop} (h : FreeOk l len P)
    (hlt : n < len) (hsmall : n < 2 ^ 31) (hn : P n) : (n : ℤ) ∈ usable l := by
  obtain ⟨good, bad, rfl, -, hg, -⟩ := h
  rw [usable, List.takeWhile_append_of_pos]
  · exact List.mem_append_left _ (List.mem_map_of_mem ((hg n).mpr ⟨hlt, hsmall, hn⟩))
  · intro x hx
    obtain ⟨i, -, rfl⟩ := List.mem_map.mp hx
    simp

/-- A slot that can be handed out and read. -/
def InUse (free : List ℤ) (i : ℤ) : Prop := ∃ n : ℕ, i = n ∧ n < 2 ^ 31 ∧ (n : ℤ) ∉ usable free

theorem Core.level_inUse (hc : Core b Q) (hx : 0 ≤ b.levelIx s p) :
    InUse b.freeLevels (b.levelIx s p) := by
  obtain ⟨n, hn, -, hsmall, -⟩ := hc.level s p hx
  exact ⟨n, hn, hsmall, hc.freeLevels.not_usable fun h => h s p hn⟩

theorem Rep.order_inUse (hr : Rep b Q) {m : ℕ} (hm : m ∈ Q s p) : InUse b.freeOrders m :=
  ⟨m, rfl, (hr.order s p m hm).small, hr.freeOrders.not_usable fun h => h s p hm⟩

theorem InUse.subscript {α β : Type} {f : α → β} {free : List ℤ} {v w : List α} {i : ℤ}
    (hi : InUse free i) (h : AgreeOff f (2 ^ 31) free v w) :
    Option.Rel (fun x y => f y = f x) (subscript v i) (subscript w i) := by
  obtain ⟨n, rfl, hsmall, hfree⟩ := hi
  exact h.subscript hsmall hfree

/-! ### Levels -/

theorem Alike.findOrCreate (ha : Alike k b c) (s : Side) (p : Price) :
    Option.Rel (fun x y => Alike k x.1 y.1 ∧ y.2 = x.2) (b.findOrCreateLevel s p)
      (c.findOrCreateLevel s p) := by
  obtain ⟨orders', levels', ids', ops', seq', rfl⟩ := ha.eq_with
  obtain ⟨lo, ticks, grid, over_, orders, levels, freeOrders, freeLevels, ids, rejected, ops,
    seq⟩ := b
  simp only [findOrCreateLevel, Option.bind_eq_bind]
  apply rel_bind_self
  intro existing
  apply rel_ite
  · intro _
    exact Option.Rel.some ⟨ha, rfl⟩
  · intro _
    cases freeLevels with
    | nil => exact Option.Rel.some ⟨ha, rfl⟩
    | cons li free =>
      apply rel_bind (ha.levels.fill fun _ _ => rfl)
      intro lv lv' hlv
      apply rel_ite
      · intro _
        apply rel_bind_self
        intro slot
        apply rel_bind_self
        intro bits
        exact Option.Rel.some ⟨⟨⟨rfl, rfl, rfl, rfl⟩, rfl, rfl, ha.orders, hlv, ha.ids, rfl⟩, rfl⟩
      · intro _
        exact Option.Rel.some ⟨⟨⟨rfl, rfl, rfl, rfl⟩, rfl, rfl, ha.orders, hlv, ha.ids, rfl⟩, rfl⟩

theorem Alike.dropLevel (ha : Alike k b c) (s : Side) {li : ℤ} (hli : InUse b.freeLevels li) :
    Option.Rel (Alike k) (b.dropLevel s li) (c.dropLevel s li) := by
  have hnn : 0 ≤ li := by
    obtain ⟨n, rfl, -⟩ := hli
    exact Int.natCast_nonneg n
  apply rel_bind (hli.subscript ha.levels)
  intro level level' hlevel
  obtain rfl : level' = level := hlevel
  obtain ⟨orders', levels', ids', ops', seq', rfl⟩ := ha.eq_with
  apply rel_ite
  · intro _
    apply rel_bind_self
    intro slot
    apply rel_bind_self
    intro bits
    exact Option.Rel.some ⟨⟨rfl, rfl, rfl, rfl⟩, rfl, rfl, ha.orders, ha.levels.push hnn, ha.ids,
      rfl⟩
  · intro _
    exact Option.Rel.some ⟨⟨rfl, rfl, rfl, rfl⟩, rfl, rfl, ha.orders, ha.levels.push hnn, ha.ids,
      rfl⟩

/-! ### Orders -/

theorem Alike.unlink (ha : Alike k b c) {oi : ℤ} (hoi : InUse b.freeOrders oi)
    (hlevel : ∀ o, subscript b.orders oi = some o → InUse b.freeLevels o.level) :
    Option.Rel (Alike k) (b.unlink oi) (c.unlink oi) := by
  apply rel_bind_eq (hoi.subscript ha.orders)
  intro o o' ho _ hsame
  obtain ⟨hprev, hnext, hlev, hside, hqty⟩ : o'.prev = o.prev ∧ o'.next = o.next ∧
      o'.level = o.level ∧ o'.side = o.side ∧ o'.qty = o.qty := by
    simp only [strip, IntrusiveBook.Order.mk.injEq] at hsame
    obtain ⟨-, h1, h2, h3, h4, h5⟩ := hsame
    exact ⟨h2, h3, h4, h5, h1⟩
  rw [hprev, hnext, hlev, hside, hqty]
  have hin := hlevel o ho
  apply rel_bind (hin.subscript ha.levels)
  intro level level' hsub
  obtain rfl : level' = level := hsub
  apply rel_bind (ha.orders.modifyLink o.prev fun _ _ h =>
    congrArg (fun q : IntrusiveBook.Order => { q with next := o.next }) h)
  intro orders orders' horders
  apply rel_bind (horders.modifyLink o.next fun _ _ h =>
    congrArg (fun q : IntrusiveBook.Order => { q with prev := o.prev }) h)
  intro orders orders' horders
  apply rel_bind (horders.modifyAt oi fun _ _ h =>
    congrArg (fun q : IntrusiveBook.Order => { q with prev := -1, next := -1, level := -1 }) h)
  intro orders orders' horders
  apply rel_bind (ha.levels.modifyAt o.level fun _ _ _ => rfl)
  intro levels levels' hlevels
  have ha' : Alike k { b with orders := orders, levels := levels }
      { c with orders := orders', levels := levels' } :=
    ⟨⟨ha.index.lo, ha.index.ticks, ha.index.grid, ha.index.over_⟩, ha.freeOrders, ha.freeLevels,
      horders, hlevels, ha.ids, ha.rejected⟩
  apply rel_ite
  · intro _
    exact ha'.dropLevel o.side hin
  · intro _
    exact Option.Rel.some ha'

theorem Alike.retire (ha : Alike k b c) (hr : Rep b Q) {m : ℕ} (hm : m ∈ Q s p)
    (href : ref ≠ OpenHashMap.kEmpty) :
    Option.Rel (Alike k) (b.retire ref m) (c.retire ref m) := by
  have hlevel : ∀ o, subscript b.orders (m : ℤ) = some o → InUse b.freeLevels o.level := by
    intro o ho
    have hok := hr.order s p m hm
    rw [subscript_cast hok.inPool {}] at ho
    obtain rfl : b.ord m = o := Option.some.inj ho
    rw [hok.level]
    exact hr.level_inUse (hr.absent_of hm)
  apply rel_bind (ha.unlink (hr.order_inUse hm) hlevel)
  intro x y hxy
  apply rel_bind (hxy.ids.erase href)
  rintro ⟨ids, erased⟩ ⟨ids', erased'⟩ ⟨hids, -⟩
  apply Option.Rel.some
  refine ⟨⟨hxy.index.lo, hxy.index.ticks, hxy.index.grid, hxy.index.over_⟩, ?_, hxy.freeLevels,
    hxy.orders.push (Int.natCast_nonneg m), hxy.levels, hids, hxy.rejected⟩
  show (m : ℤ) :: y.freeOrders = (m : ℤ) :: x.freeOrders
  rw [hxy.freeOrders]

/-- The slot that is taken is overwritten, so its remains do not matter. -/
theorem Alike.enqueue (ha : Alike k b c) {oi li : ℤ} {free : List ℤ}
    (hfree : b.freeOrders = oi :: free) (hli : InUse b.freeLevels li)
    (href : ref ≠ OpenHashMap.kEmpty) (s : Side) (qty : Qty) :
    Option.Rel (Alike k) (HybridBook.enqueue { b with freeOrders := free } oi li ref s qty)
      (HybridBook.enqueue { c with freeOrders := free } oi li ref s qty) := by
  have hpool := ha.orders
  rw [hfree] at hpool
  apply rel_bind (hli.subscript ha.levels)
  intro level level' hlevel
  obtain rfl : level' = level := hlevel
  apply rel_bind (R := AgreeOff strip (2 ^ 31) free)
  · exact hpool.fill fun _ _ => rfl
  intro orders orders' horders
  apply rel_bind (horders.modifyLink level'.tail fun _ _ h =>
    congrArg (fun q : IntrusiveBook.Order => { q with next := oi }) h)
  intro orders orders' horders
  apply rel_bind (ha.levels.modifyAt li fun x y h => by rw [show y = x from h])
  intro levels levels' hlevels
  apply rel_bind (ha.ids.insert href oi)
  rintro ⟨ids, ok⟩ ⟨ids', ok'⟩ ⟨hids, hok⟩
  dsimp only at hids hok
  subst hok
  apply Option.Rel.some
  refine ⟨⟨ha.index.lo, ha.index.ticks, ha.index.grid, ha.index.over_⟩, rfl, ha.freeLevels,
    horders, hlevels, hids, ?_⟩
  have hrej := ha.rejected
  show (if ok' = true then c.rejected else c.rejected + 1) =
    (if ok' = true then b.rejected else b.rejected + 1) + k
  split
  · exact hrej
  · omega

/-! ### Operations -/

theorem Alike.reject (ha : Alike k b c) :
    Alike k { b with rejected := b.rejected + 1 } { c with rejected := c.rejected + 1 } := by
  have hrej := ha.rejected
  refine ⟨⟨ha.index.lo, ha.index.ticks, ha.index.grid, ha.index.over_⟩, ha.freeOrders,
    ha.freeLevels, ha.orders, ha.levels, ha.ids, ?_⟩
  show c.rejected + 1 = b.rejected + 1 + k
  omega

theorem add_nil (hqty : qty ≠ 0) (hf : b.freeOrders = []) (ref : OrderId) (s : Side) (p : Price) :
    b.add ref s p qty = some { b with rejected := b.rejected + 1 } := by
  simp only [HybridBook.add, if_neg hqty, hf]
  rfl

theorem add_cons (hqty : qty ≠ 0) {oi : ℤ} {free : List ℤ} (hf : b.freeOrders = oi :: free)
    (ref : OrderId) (s : Side) (p : Price) :
    b.add ref s p qty = (b.findOrCreateLevel s p).bind fun x =>
      if x.2 < 0 then some { x.1 with rejected := x.1.rejected + 1 }
      else HybridBook.enqueue { x.1 with freeOrders := free } oi x.2 ref s qty := by
  simp only [HybridBook.add, if_neg hqty, hf]
  rfl

theorem Alike.add (ha : Alike k b c) (hr : Rep b Q) (href : ref ≠ OpenHashMap.kEmpty) (s : Side)
    (p : Price) (qty : Qty) : Option.Rel (Alike k) (b.add ref s p qty) (c.add ref s p qty) := by
  by_cases hqty : qty = 0
  · rw [hqty, add_zero, add_zero]
    exact Option.Rel.some ha
  · cases hf : b.freeOrders with
    | nil =>
      rw [add_nil hqty hf, add_nil hqty (ha.freeOrders.trans hf)]
      exact Option.Rel.some ha.reject
    | cons oi free =>
      rw [add_cons hqty hf, add_cons hqty (ha.freeOrders.trans hf)]
      apply rel_bind_eq (ha.findOrCreate s p)
      rintro ⟨x, li⟩ ⟨y, li'⟩ hx - ⟨hxy, hli⟩
      dsimp only at hxy hli ⊢
      subst hli
      apply rel_ite
      · intro _
        exact Option.Rel.some hxy.reject
      · intro hneg
        rcases hr.level_for s p with ⟨-, h⟩ | ⟨-, -, h⟩ | ⟨n, b1, h, hc1, hso, hix, -⟩
        · rw [h] at hx
          cases hx
        · rw [h] at hx
          obtain ⟨-, rfl⟩ := Prod.mk.inj (Option.some.inj hx)
          exact absurd (by decide) hneg
        · rw [h] at hx
          obtain ⟨rfl, rfl⟩ := Prod.mk.inj (Option.some.inj hx)
          have hin := hc1.level_inUse (s := s) (p := p) (by omega)
          rw [hix] at hin
          exact hxy.enqueue (hso.freeOrders.trans hf) hin href s qty

theorem Alike.reduce (ha : Alike k b c) (hr : Rep b Q) (href : ref ≠ OpenHashMap.kEmpty)
    (qty : Qty) : Option.Rel (Alike k) (b.reduce ref qty) (c.reduce ref qty) := by
  simp only [HybridBook.reduce, ha.ids.find href, hr.table.find_spec href, Option.bind_eq_bind,
    Option.bind_some]
  rcases hr.found href with hl | ⟨m, s, p, l, r, hl, hq, -⟩
  · rw [hl]
    exact Option.Rel.some ha
  · have hm : m ∈ Q s p := by simp [hq]
    rw [hl]
    apply rel_bind_eq ((hr.order_inUse hm).subscript ha.orders)
    intro o o' ho _ hsame
    obtain ⟨hlev, hqty⟩ : o'.level = o.level ∧ o'.qty = o.qty := by
      simp only [strip, IntrusiveBook.Order.mk.injEq] at hsame
      exact ⟨hsame.2.2.2.2.1, hsame.2.1⟩
    rw [hlev, hqty]
    apply rel_ite
    · intro _
      exact ha.retire hr hm href
    · intro _
      apply rel_bind (ha.orders.modifyAt m fun _ _ h => congrArg (fun q : IntrusiveBook.Order =>
        { q with qty := q.qty - if qty < o.qty then qty else o.qty }) h)
      intro orders orders' horders
      apply rel_bind (ha.levels.modifyAt o.level fun x y h => by rw [show y = x from h])
      intro levels levels' hlevels
      exact Option.Rel.some ⟨⟨ha.index.lo, ha.index.ticks, ha.index.grid, ha.index.over_⟩,
        ha.freeOrders, ha.freeLevels, horders, hlevels, ha.ids, ha.rejected⟩

theorem Alike.remove (ha : Alike k b c) (hr : Rep b Q) (href : ref ≠ OpenHashMap.kEmpty) :
    Option.Rel (Alike k) (b.remove ref) (c.remove ref) := by
  simp only [HybridBook.remove, ha.ids.find href, hr.table.find_spec href, Option.bind_eq_bind,
    Option.bind_some]
  rcases hr.found href with hl | ⟨m, s, p, l, r, hl, hq, -⟩
  · rw [hl]
    exact Option.Rel.some ha
  · rw [hl]
    exact ha.retire hr (by simp [hq] : m ∈ Q s p) href

theorem Alike.replace (ha : Alike k b c) (hr : Rep b Q) (href : ref ≠ OpenHashMap.kEmpty)
    {new : OrderId} (hnew : new ≠ OpenHashMap.kEmpty) (px : Price) (qty : Qty) :
    Option.Rel (Alike k) (b.replace ref new px qty) (c.replace ref new px qty) := by
  simp only [HybridBook.replace, ha.ids.find href, hr.table.find_spec href, Option.bind_eq_bind,
    Option.bind_some]
  rcases hr.found href with hl | ⟨m, s, p, l, r, hl, hq, -⟩
  · rw [hl]
    exact Option.Rel.some ha
  · have hm : m ∈ Q s p := by simp [hq]
    rw [hl]
    apply rel_bind_eq ((hr.order_inUse hm).subscript ha.orders)
    intro o o' ho _ hsame
    have hside : o'.side = o.side := by
      simp only [strip, IntrusiveBook.Order.mk.injEq] at hsame
      exact hsame.2.2.2.2.2
    rw [hside]
    apply rel_bind_eq (ha.retire hr hm href)
    intro x y hx _ hxy
    obtain ⟨b1, hb1, hr1, -⟩ := hr.retire href hl hq
    rw [hb1] at hx
    obtain rfl := Option.some.inj hx
    exact hxy.add hr1 hnew o.side px qty

theorem AgreeOff.fresh {α β : Type} {f : α → β} {free : List ℤ} {v w : List α}
    (hlen : w.length = v.length) (hfree : free = (List.range v.length).map int32) :
    AgreeOff f (2 ^ 31) free v w := by
  constructor
  case length => exact hlen
  case slot =>
    intro n hsmall hn
    have hlt : ¬n < v.length := by
      intro hlt
      apply hn
      rw [hfree]
      exact (FreeOk.fresh (P := fun _ => True) fun _ _ => trivial).usable_of hlt hsmall trivial
    rw [List.getElem?_eq_none (by omega), List.getElem?_eq_none (by omega)]

theorem Alike.clear (ha : Alike k b c) : Alike k b.clear c.clear := by
  obtain ⟨orders', levels', ids', ops', seq', rfl⟩ := ha.eq_with
  have horders : orders'.length = b.orders.length := ha.orders.length
  have hlevels : levels'.length = b.levels.length := ha.levels.length
  refine ⟨⟨rfl, rfl, rfl, rfl⟩, ?_, ?_, AgreeOff.fresh horders rfl, AgreeOff.fresh hlevels rfl,
    ha.ids.clear, rfl⟩
  · show (List.range orders'.length).map int32 = (List.range b.orders.length).map int32
    rw [horders]
  · show (List.range levels'.length).map int32 = (List.range b.levels.length).map int32
    rw [hlevels]

theorem Alike.step (ha : Alike k b c) (hr : Rep b Q) (op : Op)
    (hrefs : ∀ ref ∈ op.refs, ref ≠ OpenHashMap.kEmpty) :
    Option.Rel (Alike k) (b.step op) (c.step op) := by
  cases op with
  | add ref s p qty => exact ha.add hr (hrefs ref (by simp [Op.refs])) s p qty
  | execute ref qty => exact ha.reduce hr (hrefs ref (by simp [Op.refs])) qty
  | cancel ref qty => exact ha.reduce hr (hrefs ref (by simp [Op.refs])) qty
  | remove ref => exact ha.remove hr (hrefs ref (by simp [Op.refs]))
  | replace ref new p qty =>
    exact ha.replace hr (hrefs ref (by simp [Op.refs])) (hrefs new (by simp [Op.refs])) p qty
  | clear => exact Option.Rel.some ha.clear

/-! ### Queries -/

theorem Alike.regrid (ha : Alike k b c) (f : (Side → SideGrid) → Side → SideGrid) :
    Alike k { b with grid := f b.grid } { c with grid := f c.grid } :=
  ⟨⟨ha.index.lo, ha.index.ticks, congrArg f ha.index.grid, ha.index.over_⟩, ha.freeOrders,
    ha.freeLevels, ha.orders, ha.levels, ha.ids, ha.rejected⟩

theorem Alike.gridBest (ha : Alike k b c) (s : Side) :
    Option.Rel (fun x y => y.1 = x.1 ∧ Alike k x.2 y.2) (b.gridBest s) (c.gridBest s) := by
  have hcache : ∀ hint : ℤ, Alike k
      { b with grid := Function.update b.grid s { b.grid s with hint := hint } }
      { c with grid := Function.update c.grid s { c.grid s with hint := hint } } :=
    fun hint => ha.regrid fun g => Function.update g s { g s with hint := hint }
  obtain ⟨orders', levels', ids', ops', seq', rfl⟩ := ha.eq_with
  rw [HybridBook.gridBest, HybridBook.gridBest]
  apply rel_ite
  · intro _
    apply rel_bind_self
    intro hint
    exact Option.Rel.some ⟨rfl, hcache hint⟩
  · intro _
    apply rel_bind_self
    intro li
    apply rel_ite
    · intro _
      apply rel_bind_self
      intro hint
      exact Option.Rel.some ⟨rfl, hcache hint⟩
    · intro _
      exact Option.Rel.some ⟨rfl, hcache _⟩

theorem Alike.best (ha : Alike k b c) (s : Side) :
    Option.Rel (fun x y => y.1 = x.1 ∧ Alike k x.2 y.2) (b.best s) (c.best s) := by
  apply rel_bind (ha.gridBest s)
  rintro ⟨g, x⟩ ⟨g', y⟩ ⟨hg, hxy⟩
  dsimp only at hg hxy ⊢
  subst hg
  have hover : y.overBest s = x.overBest s := by
    cases s with
    | buy => simp only [overBest, hxy.index.over_]
    | sell => simp only [overBest, hxy.index.over_]
  rw [hover]
  apply rel_ite
  · intro _
    exact Option.Rel.some ⟨rfl, hxy⟩
  · intro _
    apply rel_ite
    · intro _
      exact Option.Rel.some ⟨rfl, hxy⟩
    · intro _
      exact Option.Rel.some ⟨rfl, hxy⟩

theorem Alike.viewOf (ha : Alike k b c) {li : ℤ} (hli : li < 0 ∨ InUse b.freeLevels li) :
    c.viewOf li = b.viewOf li := by
  rw [HybridBook.viewOf, HybridBook.viewOf]
  cases hli with
  | inl hneg => rw [subscript_neg hneg, subscript_neg hneg]
  | inr hin =>
    have hread := rel_map_eq (hin.subscript ha.levels) fun _ _ h => h
    rw [Option.map_id_fun, id, id] at hread
    rw [hread]

/-- The grid and the overflow map lead to levels in use only. -/
theorem Alike.collectLoop (ha : Alike k b c) (s : Side)
    (hgrid : ∀ t li, subscript (b.grid s).slot t = some li → li < 0 ∨ InUse b.freeLevels li)
    (n : ℕ) (t : ℤ) (oit : List (Price × ℤ))
    (hoit : ∀ x ∈ oit, x.2 < 0 ∨ InUse b.freeLevels x.2) :
    c.collectLoop s n t oit = b.collectLoop s n t oit := by
  have hscan : ∀ t, c.scan s (c.grid s) t = b.scan s (b.grid s) t := by
    intro t
    cases s with
    | buy => simp only [scan, ha.index.grid]
    | sell => simp only [scan, scanUpGrid, ha.index.grid, ha.index.ticks]
  have hprice : ∀ t, c.priceOf t = b.priceOf t := by
    intro t
    rw [priceOf, priceOf, ha.index.lo]
  induction n generalizing t oit with
  | zero => rfl
  | succ n ih =>
    have hview : ∀ (x : Price × ℤ) (rest : List (Price × ℤ)), oit = x :: rest →
        c.viewOf x.2 = b.viewOf x.2 ∧ ∀ t, c.collectLoop s n t rest = b.collectLoop s n t rest := by
      intro x rest hx
      subst hx
      exact ⟨ha.viewOf (hoit x (List.mem_cons_self ..)), fun t =>
        ih t rest fun y hy => hoit y (List.mem_cons_of_mem _ hy)⟩
    have htick : ((subscript (c.grid s).slot t).bind fun li => (c.viewOf li).bind fun view =>
          (c.scan s (c.grid s) (scanNext s t)).bind fun t => (c.collectLoop s n t oit).bind fun rest =>
            some (view :: rest)) =
        (subscript (b.grid s).slot t).bind fun li => (b.viewOf li).bind fun view =>
          (b.scan s (b.grid s) (scanNext s t)).bind fun t => (b.collectLoop s n t oit).bind fun rest =>
            some (view :: rest) := by
      rw [hscan, ha.index.grid]
      cases hslot : subscript (b.grid s).slot t with
      | none => rfl
      | some li =>
        simp only [Option.bind_some, ha.viewOf (hgrid t li hslot)]
        apply bind_ext
        intro view
        apply bind_ext
        intro t'
        rw [ih t' oit hoit]
    cases oit with
    | nil =>
      by_cases ht : t < 0
      · simp only [HybridBook.collectLoop, if_pos ht]
      · simp only [HybridBook.collectLoop, if_neg ht, if_true, Option.bind_eq_bind]
        exact htick
    | cons x rest =>
      obtain ⟨px, li⟩ := x
      obtain ⟨hv, hrec⟩ := hview (px, li) rest rfl
      dsimp only at hv
      by_cases ht : t < 0
      · simp only [HybridBook.collectLoop, if_pos ht, hv, hrec]
      · simp only [HybridBook.collectLoop, if_neg ht, hprice, hv, hrec, Option.bind_eq_bind]
        split
        · exact htick
        · rfl

theorem Rep.slot_inUse (hr : Rep b Q) {t li : ℤ} (h : subscript (b.grid s).slot t = some li) :
    li < 0 ∨ InUse b.freeLevels li := by
  by_cases hneg : li < 0
  · exact Or.inl hneg
  · right
    have htick : 0 ≤ t ∧ (b.grid s).slot[t.toNat]? = some li := by
      rw [subscript] at h
      split at h
      · exact ⟨‹_›, h⟩
      · cases h
    have hlt : t.toNat < b.ticks := by
      rw [← hr.grid.slots s]
      exact (List.getElem?_eq_some_iff.mp htick.2).1
    have hix : b.levelIx s (b.priceOf t.toNat) = li := by
      rw [hr.grid.levelIx_priceOf hlt, List.getD_eq_getElem?_getD, htick.2]
      rfl
    rw [← hix]
    apply hr.level_inUse
    omega

theorem Rep.over_inUse (hr : Rep b Q) {x : Price × ℤ} (hx : x ∈ (b.over_ s).toList) :
    InUse b.freeLevels x.2 := by
  obtain ⟨p, li⟩ := x
  have hget := Std.TreeMap.mem_toList_iff_getElem?_eq_some.mp hx
  obtain ⟨hout, hnn⟩ := hr.grid.outside s p li hget
  have hix : b.levelIx s p = li := by
    simp only [levelIx, hout, Bool.false_eq_true, if_false, hget]
    rfl
  rw [← hix]
  apply hr.level_inUse
  omega

theorem Alike.snapshot (ha : Alike k b c) (hr : Rep b Q) : c.snapshot = b.snapshot := by
  have hstart : ∀ s, c.scan s (c.grid s) (c.scanStart s) = b.scan s (b.grid s) (b.scanStart s) := by
    intro s
    cases s with
    | buy => simp only [scan, scanStart, ha.index.grid, ha.index.ticks]
    | sell => simp only [scan, scanStart, scanUpGrid, ha.index.grid, ha.index.ticks]
  have hcollect : ∀ s oit, (∀ x ∈ oit, x ∈ (b.over_ s).toList) →
      c.collect s oit = b.collect s oit := by
    intro s oit hoit
    simp only [collect, hstart]
    apply bind_ext
    intro t
    apply ha.collectLoop s fun t li h => hr.slot_inUse h
    intro x hx
    exact Or.inr (hr.over_inUse (hoit x hx))
  simp only [HybridBook.snapshot, ha.index.over_]
  rw [hcollect .buy _ fun x hx => List.mem_reverse.mp hx, hcollect .sell _ fun x hx => hx]

theorem Alike.reading (ha : Alike k b c) (hr : Rep b Q) :
    Readable.reading c = Readable.reading b := by
  have hbest : ∀ s, (c.best s).map Prod.fst = (b.best s).map Prod.fst :=
    fun s => rel_map_eq (ha.best s) fun _ _ h => h.1
  simp only [Readable.reading, ha.snapshot hr, hbest]
  rw [orderCount, orderCount, ha.ids.size]

/-! ### Calls -/

instance : Caller HybridBook := ⟨call⟩

theorem Rep.best (hr : Rep b Q) {x : Price × HybridBook} (h : b.best s = some x) : Rep x.2 Q := by
  obtain ⟨px, r, hfound, hbest⟩ := hr.grid.best_found s
  rw [hbest] at h
  obtain rfl := Option.some.inj h
  exact hr.setHint s hfound.hintFor

theorem Rep.call {b' : HybridBook} (hr : ∃ Q, Rep b Q) (call : Call) (hnamed : call.named)
    (h : b.call call = some b') : ∃ Q, Rep b' Q := by
  obtain ⟨Q, hr⟩ := hr
  cases call with
  | op op =>
    obtain ⟨-, Q', hr', -⟩ := hr.step_sim op (hnamed op rfl) h
    exact ⟨Q', hr'⟩
  | best side =>
    obtain ⟨x, hx, rfl⟩ := Option.map_eq_some_iff.mp h
    exact ⟨Q, hr.best hx⟩
  | snapshot =>
    obtain ⟨snap, -, rfl⟩ := Option.map_eq_some_iff.mp h
    exact ⟨Q, hr⟩

/-- Two well-formed books that are alike. -/
structure Pair (k : ℕ) (b c : HybridBook) : Prop where
  left : ∃ Q, Rep b Q
  right : ∃ Q, Rep c Q
  alike : Alike k b c

theorem Pair.call (hp : Pair k b c) (call : Call) (hnamed : call.named) :
    Option.Rel (Pair k) (b.call call) (c.call call) := by
  have hrel : Option.Rel (Alike k) (b.call call) (c.call call) := by
    obtain ⟨⟨Q, hr⟩, -, ha⟩ := hp
    cases call with
    | op op => exact ha.step hr op (hnamed op rfl)
    | best side =>
      have hbest := ha.best side
      rw [HybridBook.call, HybridBook.call, Option.map_eq_bind, Option.map_eq_bind]
      apply rel_bind hbest
      intro x y hxy
      exact Option.Rel.some hxy.2
    | snapshot =>
      rw [HybridBook.call, HybridBook.call, ha.snapshot hr, Option.map_eq_bind, Option.map_eq_bind]
      apply rel_bind_self
      intro snap
      exact Option.Rel.some ha
  apply rel_imp hrel
  intro b' c' hb hc ha'
  exact ⟨Rep.call hp.left call hnamed hb, Rep.call hp.right call hnamed hc, ha'⟩

theorem Pair.indistinguishable (hp : Pair k b c) : Indistinguishable b c := by
  apply indistinguishable_of (R := Pair k) (k := k) _ _ hp
  · intro b c call hp hnamed
    exact hp.call call hnamed
  · intro b c hp
    obtain ⟨Q, hr⟩ := hp.left
    exact ⟨hp.alike.reading hr, hp.alike.rejected⟩

/-! ### The cleared book -/

/-- What no call changes. -/
structure SameSize (b c : HybridBook) : Prop where
  lo : c.lo = b.lo
  ticks : c.ticks = b.ticks
  orders : c.orders.length = b.orders.length
  levels : c.levels.length = b.levels.length
  table : c.ids.slots.length = b.ids.slots.length

theorem SameSize.trans {b1 b2 b3 : HybridBook} (h : SameSize b1 b2) (h' : SameSize b2 b3) :
    SameSize b1 b3 :=
  ⟨h'.lo.trans h.lo, h'.ticks.trans h.ticks, h'.orders.trans h.orders, h'.levels.trans h.levels,
    h'.table.trans h.table⟩

theorem Pushed.sameSize {b' : HybridBook} {m : ℕ} (hp : Pushed b b' m ref s p qty)
    (ht : b.ids.WF OpenHashMap.hash) (href : ref ≠ OpenHashMap.kEmpty) : SameSize b b' := by
  refine ⟨hp.lo, hp.ticks, hp.orders, hp.levels, ?_⟩
  obtain ⟨ok, hins⟩ : ∃ ok, b.ids.insert OpenHashMap.hash ref (m : ℤ) = some (b'.ids, ok) := by
    rcases hp.table with ⟨h, -⟩ | ⟨h, -⟩
    · exact ⟨_, h⟩
    · exact ⟨_, h⟩
  rcases ht.insert_spec href (m : ℤ) with ⟨-, -, hi⟩ | ⟨ids, hi, -, hlen, -⟩
  · rw [hi] at hins
    rw [← (Prod.mk.inj (Option.some.inj hins)).1]
  · rw [hi] at hins
    rw [← (Prod.mk.inj (Option.some.inj hins)).1, hlen]

theorem Pulled.sameSize {b' : HybridBook} {last : Prop} [Decidable last]
    (hp : Pulled b b' ref s p last) : SameSize b b' :=
  ⟨hp.lo, hp.ticks, hp.orders, hp.levels, hp.slots⟩

theorem Cut.sameSize {b' : HybridBook} {m : ℕ} {take : Qty} (hc : Cut b b' m take) :
    SameSize b b' :=
  ⟨hc.index.lo, hc.index.ticks, hc.orders, hc.levels, by rw [hc.ids]⟩

theorem Rep.add_size {b' : HybridBook} (hr : Rep b Q) (href : ref ≠ OpenHashMap.kEmpty)
    (h : b.add ref s p qty = some b') : SameSize b b' := by
  by_cases hqty : qty = 0
  · rw [hqty, add_zero] at h
    obtain rfl := Option.some.inj h
    exact ⟨rfl, rfl, rfl, rfl, rfl⟩
  · rcases hr.add_cases href s p hqty with ⟨-, h'⟩ | ⟨-, h'⟩ | ⟨m, b1, h', -, -, hp⟩
    · rw [h'] at h
      cases h
    · rw [h'] at h
      obtain rfl := Option.some.inj h
      exact ⟨rfl, rfl, rfl, rfl, rfl⟩
    · rw [h'] at h
      obtain rfl := Option.some.inj h
      exact hp.sameSize hr.table href

theorem Rep.reduce_size {b' : HybridBook} (hr : Rep b Q) (href : ref ≠ OpenHashMap.kEmpty)
    (h : b.reduce ref qty = some b') : SameSize b b' := by
  rcases hr.reduce_cases href qty with ⟨-, h'⟩ | ⟨m, s, p, l, r, -, -, -, -, hcase⟩
  · rw [h'] at h
    obtain rfl := Option.some.inj h
    exact ⟨rfl, rfl, rfl, rfl, rfl⟩
  · rcases hcase with ⟨-, b1, h', -, hp⟩ | ⟨-, b1, h', -, hc⟩
    · rw [h'] at h
      obtain rfl := Option.some.inj h
      exact hp.sameSize
    · rw [h'] at h
      obtain rfl := Option.some.inj h
      exact hc.sameSize

theorem Rep.step_size {b' : HybridBook} (hr : Rep b Q) (op : Op)
    (hrefs : ∀ ref ∈ op.refs, ref ≠ OpenHashMap.kEmpty) (h : b.step op = some b') :
    SameSize b b' := by
  cases op with
  | add ref s p qty => exact hr.add_size (hrefs ref (by simp [Op.refs])) h
  | execute ref qty => exact hr.reduce_size (hrefs ref (by simp [Op.refs])) h
  | cancel ref qty => exact hr.reduce_size (hrefs ref (by simp [Op.refs])) h
  | remove ref =>
    replace h : b.remove ref = some b' := h
    rcases hr.remove_cases (hrefs ref (by simp [Op.refs])) with
      ⟨-, h'⟩ | ⟨m, s, p, l, r, b1, -, -, -, -, h', -, hp⟩
    · rw [h'] at h
      obtain rfl := Option.some.inj h
      exact ⟨rfl, rfl, rfl, rfl, rfl⟩
    · rw [h'] at h
      obtain rfl := Option.some.inj h
      exact hp.sameSize
  | replace ref new p' qty =>
    replace h : b.replace ref new p' qty = some b' := h
    rcases hr.replace_cases (hrefs ref (by simp [Op.refs])) new p' qty with
      ⟨-, h'⟩ | ⟨m, s, p, l, r, b1, -, -, -, -, -, hr1, hp, h'⟩
    · rw [h'] at h
      obtain rfl := Option.some.inj h
      exact ⟨rfl, rfl, rfl, rfl, rfl⟩
    · rw [h'] at h
      exact hp.sameSize.trans (hr1.add_size (hrefs new (by simp [Op.refs])) h)
  | clear =>
    obtain rfl := Option.some.inj h
    exact ⟨rfl, rfl, rfl, rfl, List.length_map _⟩

theorem Rep.call_size {b' : HybridBook} (hr : Rep b Q) (call : Call) (hnamed : call.named)
    (h : b.call call = some b') : SameSize b b' := by
  cases call with
  | op op => exact hr.step_size op (hnamed op rfl) h
  | best side =>
    obtain ⟨x, hx, rfl⟩ := Option.map_eq_some_iff.mp h
    obtain ⟨px, r, -, hbest⟩ := hr.grid.best_found side
    rw [hbest] at hx
    obtain rfl := Option.some.inj hx
    exact ⟨rfl, rfl, rfl, rfl, rfl⟩
  | snapshot =>
    obtain ⟨snap, -, rfl⟩ := Option.map_eq_some_iff.mp h
    exact ⟨rfl, rfl, rfl, rfl, rfl⟩

/-- The parameters of a new book are all that a cleared one keeps. -/
theorem Pair.cleared {lo hi : Price} {maxOrders maxLevels : ℕ}
    (hmake : make lo hi maxOrders maxLevels = some b) (hr : Rep c Q) (hsize : SameSize b c) :
    Pair c.rejected b c.clear := by
  obtain ⟨hr0, -, -, -, -⟩ := Rep.make hmake
  refine ⟨⟨_, hr0⟩, ⟨_, hr.clear.1⟩, ?_⟩
  obtain ⟨-, ids, ticks, hids, -, rfl⟩ := make_some hmake
  obtain ⟨hlo, hticks, horders, hlevels, htable⟩ := hsize
  replace horders := horders.trans List.length_replicate
  replace hlevels := hlevels.trans List.length_replicate
  have hgrid : c.clear.grid = fun _ => freshGrid c.ticks := by
    funext s
    show SideGrid.mk ((c.grid s).slot.map fun _ => -1) ((c.grid s).bits.map fun _ => 0) (-1) = _
    rw [List.map_const', List.map_const', hr.grid.slots, hr.grid.words]
    rfl
  rw [hticks] at hgrid
  refine ⟨⟨hlo, hticks, hgrid, rfl⟩, ?_, ?_, AgreeOff.fresh ?_ ?_, AgreeOff.fresh ?_ ?_,
    SameEntries.fresh hids hr.table ?_, (Nat.zero_add _).symm⟩
  · show (List.range c.orders.length).map int32 = (List.range maxOrders).map int32
    rw [horders]
  · show (List.range c.levels.length).map int32 = (List.range maxLevels).map int32
    rw [hlevels]
  · exact horders.trans List.length_replicate.symm
  · rw [List.length_replicate]
  · exact hlevels.trans List.length_replicate.symm
  · rw [List.length_replicate]
  · exact htable.trans (OpenHashMap.WF.make (h := OpenHashMap.hash) hids).2.1

/-- A cleared book answers as a new one of its parameters does. -/
theorem cleared_indistinguishable {lo hi : Price} {maxOrders maxLevels : ℕ}
    (hmake : make lo hi maxOrders maxLevels = some b) (calls : List Call)
    (hnamed : ∀ call ∈ calls, call.named) (hrun : Caller.run b calls = some c) :
    Indistinguishable b c.clear := by
  have hstart : (∃ Q, Rep b Q) ∧ SameSize b b := ⟨⟨_, (Rep.make hmake).1⟩, rfl, rfl, rfl, rfl, rfl⟩
  obtain ⟨⟨Q, hr⟩, hsize⟩ := run_keeps (I := fun c => (∃ Q, Rep c Q) ∧ SameSize b c)
    (fun b1 b2 call h hc h12 => by
      obtain ⟨⟨Q, hr⟩, hs⟩ := h
      exact ⟨Rep.call ⟨Q, hr⟩ call hc h12, hs.trans (hr.call_size call hc h12)⟩)
    hstart calls hnamed hrun
  exact (Pair.cleared hmake hr hsize).indistinguishable

end HybridBook

end Hotpath.Book
