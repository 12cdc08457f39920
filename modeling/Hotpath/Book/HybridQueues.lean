import Hotpath.Book.HybridLine
import Hotpath.Book.HybridOneBid

/-!
# The queues of the hybrid book

The list walked from a level's head is the part of the line of live orders at its
side and price; the links are each other's inverse, the level has the list's
totals, the stamps grow, and what lies before an order is what its queue position
counts. The slots in use and the free ones are all there are.
-/

namespace Hotpath.Book.HybridBook
open Hotpath.Support

variable {b b' : HybridBook} {Q : Queues} {G : List Held} {k : ℕ} {s : Side} {p : Price}
  {ref : OrderId} {qty : Qty} {x : Held}

/-- The order slots from the level's head on by `next`. -/
def slotsAt (b : HybridBook) (s : Side) (p : Price) : List ℕ :=
  match b.levelFor s p with
  | some (some level) => follow (fun o => (b.ord o).next) b.orders.length level.head
  | _ => []

/-- The order slots from the level's tail on by `prev`. -/
def slotsBack (b : HybridBook) (s : Side) (p : Price) : List ℕ :=
  match b.levelFor s p with
  | some (some level) => follow (fun o => (b.ord o).prev) b.orders.length level.tail
  | _ => []

def slotUsed (b : HybridBook) (n : ℕ) : Prop := ∃ s p, n ∈ b.slotsAt s p

def levelUsed (b : HybridBook) (n : ℕ) : Prop := ∃ s p, b.lookupLevel s p = some (n : ℤ)

/-- The queue of a side at a price is the line's part there. -/
structure QueueOk (b : HybridBook) (L : Line) (s : Side) (p : Price) : Prop where
  orders : (b.slotsAt s p).map (fun o => ((b.ord o).id, (b.ord o).qty)) =
    (L.at_ s p).map fun e => (e.ref, e.qty)
  stamps : (b.slotsAt s p).Pairwise fun o o' => (b.ord o).seq < (b.ord o').seq
  back : b.slotsBack s p = (b.slotsAt s p).reverse
  owner : ∀ o ∈ b.slotsAt s p, (b.ord o).side = s ∧ b.lookupLevel s p = some (b.ord o).level
  level : (L.at_ s p = [] ∧ b.levelFor s p = some none) ∨
    ∃ level, b.levelFor s p = some (some level) ∧ level.price = p ∧
      level.orders = UInt32.ofNat (L.at_ s p).length ∧ level.qty = UInt32.ofNat (L.at_ s p).shares

/-- A free list and what is in use share out a pool. -/
structure Partition (free : List ℤ) (len : ℕ) (used : ℕ → Prop) : Prop where
  once : free.Nodup
  free : ∀ i, i ∈ free ↔ ∃ n : ℕ, i = n ∧ n < len ∧ ¬used n
  pool : ∀ n, used n → n < len

/-! ### Reading a book -/

theorem Rep.slotsAt_eq (hr : Rep b Q) (s : Side) (p : Price) : b.slotsAt s p = Q s p := by
  rcases hr.levelFor_cases s p with ⟨hq, hlv⟩ | ⟨n, -, hlv, hl⟩
  · simp only [slotsAt, hlv, hq]
  · simp only [slotsAt, hlv]
    exact hl.chain.follow_head (hr.queue_length s p)

theorem Rep.slotsBack_eq (hr : Rep b Q) (s : Side) (p : Price) :
    b.slotsBack s p = (Q s p).reverse := by
  rcases hr.levelFor_cases s p with ⟨hq, hlv⟩ | ⟨n, -, hlv, hl⟩
  · simp only [slotsBack, hlv, hq]
    rfl
  · simp only [slotsBack, hlv]
    exact hl.chain.follow_tail (hr.queue_length s p)

theorem FreeOk.partition {l : List ℤ} {len : ℕ} {P : ℕ → Prop} {used : ℕ → Prop}
    (h : FreeOk l len P) (hlen : len ≤ 2 ^ 31) (hused : ∀ n, P n ↔ ¬used n)
    (hpool : ∀ n, used n → n < len) : Partition l len used := by
  obtain ⟨good, bad, hl, hd, hg, -, hbad⟩ := h
  rw [hbad hlen, List.append_nil] at hl
  constructor
  case once =>
    rw [hl]
    exact hd.map Nat.cast_injective
  case free =>
    intro i
    rw [hl, List.mem_map]
    constructor
    · intro hi
      obtain ⟨n, hn, rfl⟩ := hi
      obtain ⟨hlt, -, hP⟩ := (hg n).mp hn
      exact ⟨n, rfl, hlt, (hused n).mp hP⟩
    · intro hi
      obtain ⟨n, rfl, hlt, hn⟩ := hi
      exact ⟨n, (hg n).mpr ⟨hlt, by omega, (hused n).mpr hn⟩, rfl⟩
  case pool => exact hpool

theorem Rep.slotUsed_iff (hr : Rep b Q) {n : ℕ} : b.slotUsed n ↔ ∃ s p, n ∈ Q s p := by
  unfold slotUsed
  simp only [hr.slotsAt_eq]

theorem Rep.order_partition (hr : Rep b Q) (hlen : b.orders.length ≤ 2 ^ 31) :
    Partition b.freeOrders b.orders.length b.slotUsed := by
  apply hr.freeOrders.partition hlen
  · intro n
    rw [hr.slotUsed_iff]
    simp only [not_exists]
  · intro n hn
    obtain ⟨s, p, hm⟩ := hr.slotUsed_iff.mp hn
    exact (hr.order s p n hm).inPool

theorem Rep.level_partition (hr : Rep b Q) (hlen : b.levels.length ≤ 2 ^ 31) :
    Partition b.freeLevels b.levels.length b.levelUsed := by
  have hused : ∀ n : ℕ, b.levelUsed n ↔ ∃ s p, b.levelIx s p = n := by
    intro n
    unfold levelUsed
    simp only [hr.grid.lookupLevel_eq, Option.some.injEq]
  apply hr.freeLevels.partition hlen
  · intro n
    rw [hused]
    simp only [not_exists]
  · intro n hn
    obtain ⟨s, p, hx⟩ := (hused n).mp hn
    obtain ⟨n', hn', hlt, -⟩ := hr.level s p (by omega)
    omega

/-! ### Queue position -/

/-- The walk stops at the order and has counted what lies before it. -/
theorem aheadLoop_eq {pv : ℕ → ℤ} {a : ℤ} {l r : List ℕ} {n : ℕ}
    (h : Seg (fun o => (b.ord o).next) pv a (l ++ n :: r) (-1)) (hn : n ∉ l)
    (hpool : ∀ o ∈ l, o < b.orders.length) {k : ℕ} (hk : l.length < k) (acc : Qty) :
    b.aheadLoop n k (first (l ++ n :: r) (-1)) acc = some (acc + UInt32.ofNat (b.total l)) := by
  induction l generalizing a k acc with
  | nil =>
    cases k with
    | zero => simp at hk
    | succ k =>
      have hstop : ¬(0 ≤ (n : ℤ) ∧ (n : ℤ) ≠ n) := fun h => h.2 rfl
      show b.aheadLoop n (k + 1) (n : ℤ) acc = some (acc + UInt32.ofNat 0)
      rw [aheadLoop, if_neg hstop]
      exact congrArg some (UInt32.add_zero acc).symm
  | cons o l ih =>
    cases k with
    | zero => simp at hk
    | succ k =>
      obtain ⟨-, hnext, hrest⟩ := h
      have hgo : 0 ≤ (o : ℤ) ∧ (o : ℤ) ≠ n := by
        refine ⟨Int.natCast_nonneg o, ?_⟩
        intro he
        have heq : o = n := by exact_mod_cast he
        exact hn (heq ▸ List.mem_cons_self ..)
      have hsub : subscript b.orders (o : ℤ) = some (b.ord o) :=
        subscript_cast (hpool o (List.mem_cons_self ..)) _
      have hnext' : (b.ord o).next = first (l ++ n :: r) (-1) := hnext
      have hrec := ih hrest (fun hm => hn (List.mem_cons_of_mem _ hm))
        (fun o' ho' => hpool o' (List.mem_cons_of_mem _ ho')) (by simpa using hk)
        (acc + (b.ord o).qty)
      show b.aheadLoop n (k + 1) (o : ℤ) acc = _
      rw [aheadLoop, if_pos hgo, hsub, Option.bind_eq_bind, Option.bind_some, hnext', hrec,
        UInt32.add_assoc]
      have htotal : b.total (o :: l) = (b.ord o).qty.toNat + b.total l := by
        rw [total, List.map_cons, List.sum_cons, total]
      rw [htotal, UInt32.ofNat_add, UInt32.ofNat_toNat]

theorem Rep.sharesAheadOf_eq (hr : Rep b Q) (href : ref ≠ OpenHashMap.kEmpty) {n : ℕ}
    (hlk : OpenHashMap.lookup b.ids ref = some (n : ℤ)) {l r : List ℕ} (hq : Q s p = l ++ n :: r) :
    b.sharesAheadOf ref = some (UInt32.ofNat (b.total l)) := by
  have hmem : n ∈ Q s p := by simp [hq]
  obtain ⟨hpool, -, hlevel, -⟩ := hr.order s p n hmem
  have hx := hr.absent_of hmem
  obtain ⟨n', hn', hlt, -, hl⟩ := hr.level s p hx
  have hord : subscript b.orders (n : ℤ) = some (b.ord n) := subscript_cast hpool _
  have hlev : subscript b.levels (n' : ℤ) = some (b.lev n') := subscript_cast hlt _
  have hneg : ¬(n' : ℤ) < 0 := by omega
  have hlen := hr.queue_length s p
  have hnd := hr.nodup s p
  have hchain := hl.chain
  rw [hq] at hlen hnd hchain
  have hnl : n ∉ l := fun hm => ne_of_nodup hnd (List.mem_append_left _ hm) rfl
  have hl' : ∀ o ∈ l, o < b.orders.length := by
    intro o ho
    apply (hr.order s p o _).inPool
    rw [hq]
    exact List.mem_append_left _ ho
  have hk : l.length < b.orders.length + 1 := by
    rw [List.length_append] at hlen
    omega
  simp only [sharesAheadOf, hr.table.find_spec href, hlk, hord, hlevel, hn', hlev, if_neg hneg,
    Option.bind_eq_bind, Option.bind_some]
  rw [hchain.head, aheadLoop_eq hchain.seg hnl hl' hk, UInt32.zero_add]

/-! ### Reading the line -/

theorem line_at (G : List Held) (s : Side) (p : Price) :
    (line G).at_ s p = line (G.filter fun x => x.side = s ∧ x.px = p) := by
  rw [line, line, Line.at_, List.filter_map]
  rfl

theorem Lined.qty_eq (hl : Lined b G k) (hx : x ∈ G) :
    (b.ord x.slot).id = x.ref ∧ (b.ord x.slot).seq = x.seq ∧ (b.ord x.slot).qty = x.qty := by
  have hd := hl.data x hx
  simp only [Order.data, Prod.mk.injEq] at hd
  exact ⟨hd.1, hd.2.1, hd.2.2.1⟩

theorem Lined.total_eq (hl : Lined b G k) {xs : List Held} (hxs : ∀ x ∈ xs, x ∈ G) :
    b.total (xs.map Held.slot) = (line xs).shares := by
  rw [total, line, Line.shares, List.map_map, List.map_map]
  congr 1
  apply List.map_congr_left
  intro x hx
  show (b.ord x.slot).qty.toNat = x.qty.toNat
  rw [(hl.qty_eq (hxs x hx)).2.2]

theorem Lined.queueOk (hl : Lined b G k) (s : Side) (p : Price) : QueueOk b (line G) s p := by
  have hslots : b.slotsAt s p = (G.filter fun x => x.side = s ∧ x.px = p).map Held.slot :=
    hl.rep.slotsAt_eq s p
  have hsub : ∀ x ∈ G.filter (fun x => x.side = s ∧ x.px = p), x ∈ G :=
    fun x hx => (List.mem_filter.mp hx).1
  constructor
  case orders =>
    rw [hslots, line_at, line, List.map_map, List.map_map]
    apply List.map_congr_left
    intro x hx
    obtain ⟨hid, -, hqty⟩ := hl.qty_eq (hsub x hx)
    show ((b.ord x.slot).id, (b.ord x.slot).qty) = (x.ref, x.qty)
    rw [hid, hqty]
  case stamps =>
    rw [hslots, List.pairwise_map]
    apply (hl.stamps.sublist List.filter_sublist).imp_of_mem
    intro x y hx hy hlt
    rw [(hl.qty_eq (hsub x hx)).2.1, (hl.qty_eq (hsub y hy)).2.1]
    exact hlt
  case back => rw [hl.rep.slotsBack_eq, hl.rep.slotsAt_eq]
  case owner =>
    intro o ho
    rw [hl.rep.slotsAt_eq] at ho
    obtain ⟨-, -, hlevel, hside, -⟩ := hl.rep.order s p o ho
    exact ⟨hside, by rw [hl.rep.grid.lookupLevel_eq, hlevel]⟩
  case level =>
    rcases hl.rep.levelFor_cases s p with ⟨hq, hlv⟩ | ⟨n, -, hlv, hok⟩
    · refine Or.inl ⟨?_, hlv⟩
      rw [line_at, line, List.map_eq_nil_iff.mp hq]
      rfl
    · refine Or.inr ⟨_, hlv, hok.price, ?_, ?_⟩
      · rw [hok.orders, line_at, line, slotsOf, List.length_map, List.length_map]
      · rw [hok.qty, line_at, slotsOf, hl.total_eq hsub]

/-- What an order waits for is what stands before it in the line. -/
theorem Lined.ahead_eq (hl : Lined b G k) (hx : x ∈ G) :
    b.sharesAheadOf x.ref =
      some (UInt32.ofNat (((line G).at_ x.side x.px).ahead x.ref).shares) := by
  have hmem : x ∈ G.filter fun y => y.side = x.side ∧ y.px = x.px := by
    simpa using hx
  obtain ⟨l, r, hsplit⟩ := List.append_of_mem hmem
  have hq : slotsOf G x.side x.px = l.map Held.slot ++ x.slot :: r.map Held.slot := by
    rw [slotsOf, hsplit, List.map_append, List.map_cons]
  have hsub : ∀ y ∈ l ++ x :: r, y ∈ G := by
    intro y hy
    rw [← hsplit] at hy
    exact (List.mem_filter.mp hy).1
  have hl' : ∀ y ∈ l, y ∈ G := fun y hy => hsub y (List.mem_append_left _ hy)
  have hnd : ((l ++ x :: r).map fun y => y.ref).Nodup := by
    rw [← hsplit]
    exact hl.distinct.sublist (List.filter_sublist.map _)
  have hahead : (line (l ++ x :: r)).ahead x.ref = line l := by
    rw [List.map_append, List.map_cons, List.nodup_append] at hnd
    have hne : ∀ e ∈ l.map Held.toEntry, decide (e.ref ≠ x.ref) = true := by
      intro e he
      obtain ⟨y, hy, rfl⟩ := List.mem_map.mp he
      exact decide_eq_true (hnd.2.2 _ (List.mem_map_of_mem hy) _ (List.mem_cons_self ..))
    rw [line, List.map_append, Line.ahead, List.takeWhile_append_of_pos hne, List.map_cons,
      List.takeWhile_cons]
    simp [line]
  rw [hl.rep.sharesAheadOf_eq (hl.real x hx) (hl.named x hx) hq, line_at, hsplit, hahead,
    hl.total_eq hl']

/-! ### Runs -/

def SamePools (b b' : HybridBook) : Prop :=
  b'.orders.length = b.orders.length ∧ b'.levels.length = b.levels.length

theorem Rep.add_pools (hr : Rep b Q) (href : ref ≠ OpenHashMap.kEmpty)
    (h : b.add ref s p qty = some b') : SamePools b b' := by
  by_cases hqty : qty = 0
  · rw [hqty, add_zero] at h
    obtain rfl := Option.some.inj h
    exact ⟨rfl, rfl⟩
  · rcases hr.add_cases href s p hqty with ⟨-, h'⟩ | ⟨-, h'⟩ | ⟨m, b1, h', -, -, hp⟩
    · rw [h'] at h
      cases h
    · rw [h'] at h
      obtain rfl := Option.some.inj h
      exact ⟨rfl, rfl⟩
    · rw [h'] at h
      obtain rfl := Option.some.inj h
      exact ⟨hp.orders, hp.levels⟩

theorem Rep.reduce_pools (hr : Rep b Q) (href : ref ≠ OpenHashMap.kEmpty)
    (h : b.reduce ref qty = some b') : SamePools b b' := by
  rcases hr.reduce_cases href qty with ⟨-, h'⟩ | ⟨m, s, p, l, r, -, -, -, -, hcase⟩
  · rw [h'] at h
    obtain rfl := Option.some.inj h
    exact ⟨rfl, rfl⟩
  · rcases hcase with ⟨-, b1, h', -, hp⟩ | ⟨-, b1, h', -, hc⟩
    · rw [h'] at h
      obtain rfl := Option.some.inj h
      exact ⟨hp.orders, hp.levels⟩
    · rw [h'] at h
      obtain rfl := Option.some.inj h
      exact ⟨hc.orders, hc.levels⟩

theorem Rep.step_pools (hr : Rep b Q) (op : Op)
    (hrefs : ∀ ref ∈ op.refs, ref ≠ OpenHashMap.kEmpty) (h : b.step op = some b') :
    SamePools b b' := by
  cases op with
  | add ref s p qty => exact hr.add_pools (hrefs ref (by simp [Op.refs])) h
  | execute ref qty => exact hr.reduce_pools (hrefs ref (by simp [Op.refs])) h
  | cancel ref qty => exact hr.reduce_pools (hrefs ref (by simp [Op.refs])) h
  | remove ref =>
    rcases hr.remove_cases (hrefs ref (by simp [Op.refs])) with
      ⟨-, h'⟩ | ⟨m, s, p, l, r, b1, -, -, -, -, h', -, hp⟩
    · rw [HybridBook.step, h'] at h
      obtain rfl := Option.some.inj h
      exact ⟨rfl, rfl⟩
    · rw [HybridBook.step, h'] at h
      obtain rfl := Option.some.inj h
      exact ⟨hp.orders, hp.levels⟩
  | replace ref new p' qty =>
    rcases hr.replace_cases (hrefs ref (by simp [Op.refs])) new p' qty with
      ⟨-, h'⟩ | ⟨m, s, p, l, r, b1, -, -, -, -, -, hr1, hp, h'⟩
    · rw [HybridBook.step, h'] at h
      obtain rfl := Option.some.inj h
      exact ⟨rfl, rfl⟩
    · rw [HybridBook.step, h'] at h
      obtain ⟨ho, hl⟩ := hr1.add_pools (hrefs new (by simp [Op.refs])) h
      exact ⟨ho.trans hp.orders, hl.trans hp.levels⟩
  | clear =>
    obtain rfl := Option.some.inj h
    exact ⟨rfl, rfl⟩

theorem Rep.run_pools (hr : Rep b Q) (ops : List Op)
    (hrefs : ∀ op ∈ ops, ∀ ref ∈ op.refs, ref ≠ OpenHashMap.kEmpty)
    (h : Design.run b ops = some b') : SamePools b b' := by
  induction ops generalizing b Q with
  | nil =>
    obtain rfl := Option.some.inj h
    exact ⟨rfl, rfl⟩
  | cons op ops ih =>
    obtain ⟨b1, h1, h'⟩ := Option.bind_eq_some_iff.mp h
    have hop := hrefs op (List.mem_cons_self ..)
    obtain ⟨-, Q1, hr1, -⟩ := hr.step_sim op hop h1
    obtain ⟨ho, hl⟩ := hr.step_pools op hop h1
    obtain ⟨ho', hl'⟩ := ih hr1 (fun op hm => hrefs op (List.mem_cons_of_mem _ hm)) h'
    exact ⟨ho'.trans ho, hl'.trans hl⟩

/-- After a run that rejects nothing and brings in only refs that are not in use,
the book holds the line. Pools of at most `2^31` entries are shared out between
what is free and what is in use, and every run on them is defined. -/
theorem queues_hold_line (lo hi : Price) (maxOrders maxLevels : ℕ) (b0 : HybridBook)
    (hmake : make lo hi maxOrders maxLevels = some b0) (ops : List Op)
    (hrefs : ∀ op ∈ ops, ∀ ref ∈ op.refs, ref ≠ 0) (hfresh : Line.freshRun [] ops)
    (hcount : (ops.filter Op.inserts).length < 2 ^ 32) :
    (maxOrders ≤ 2 ^ 31 → maxLevels ≤ 2 ^ 31 → ∃ b, Design.run b0 ops = some b) ∧
    ∀ b, Design.run b0 ops = some b → b.rejected = 0 →
      (∀ s p, QueueOk b (Line.replay [] ops) s p) ∧
      (∀ s p, (b.slotsAt s p).Nodup) ∧
      (∀ s p s' p' n, n ∈ b.slotsAt s p → n ∈ b.slotsAt s' p' → s' = s ∧ p' = p) ∧
      (∀ s p s' p', ∀ n : ℕ, b.lookupLevel s p = some (n : ℤ) → b.lookupLevel s' p' = some (n : ℤ) →
        s' = s ∧ p' = p) ∧
      (maxOrders ≤ 2 ^ 31 → Partition b.freeOrders maxOrders b.slotUsed) ∧
      (maxLevels ≤ 2 ^ 31 → Partition b.freeLevels maxLevels b.levelUsed) ∧
      ∀ e ∈ Line.replay [] ops, b.sharesAheadOf e.ref =
        some (UInt32.ofNat (((Line.replay [] ops).at_ e.side e.px).ahead e.ref).shares) := by
  obtain ⟨hr0, -, hrej0, -, horders, hlevels, -⟩ := Rep.make hmake
  constructor
  · intro ho hl
    exact hr0.run_total ⟨by rwa [horders], by rwa [hlevels]⟩ ops hrefs
  · intro b h hrej
    obtain ⟨G, k, hl, hG⟩ := (Lined.make hmake).run ops hrefs hfresh (by omega) h (by omega)
    replace hG : line G = Line.replay [] ops := hG
    have hlen : b.orders.length = maxOrders ∧ b.levels.length = maxLevels := by
      obtain ⟨h1, h2⟩ := hr0.run_pools ops hrefs h
      exact ⟨h1.trans horders, h2.trans hlevels⟩
    rw [← hG]
    refine ⟨hl.queueOk, ?_, ?_, ?_, ?_, ?_, ?_⟩
    · intro s p
      rw [hl.rep.slotsAt_eq]
      exact hl.rep.nodup s p
    · intro s p s' p' n hn hn'
      rw [hl.rep.slotsAt_eq] at hn hn'
      exact hl.rep.queue_unique hn hn'
    · intro s p s' p' n hn hn'
      rw [hl.rep.grid.lookupLevel_eq, Option.some.injEq] at hn hn'
      exact hl.rep.inj s p s' p' (by omega) (hn.trans hn'.symm)
    · intro ho
      rw [← hlen.1] at ho ⊢
      exact hl.rep.order_partition ho
    · intro hv
      rw [← hlen.2] at hv ⊢
      exact hl.rep.level_partition hv
    · intro e he
      obtain ⟨x, hx, rfl⟩ := List.mem_map.mp he
      exact hl.ahead_eq hx

theorem queues_hold_line_two : ∃ b0 b : HybridBook, make 100 300 4 4 = some b0 ∧
    Design.run b0 [.add 1 .buy 100 5, .add 2 .buy 100 7, .replace 1 3 100 6] = some b ∧
    QueueOk b (Line.replay [] [.add 1 .buy 100 5, .add 2 .buy 100 7, .replace 1 3 100 6]) .buy 100 ∧
    b.sharesAheadOf 3 = some 7 := by
  have hrun : ((make 100 300 4 4).bind fun b0 => (Design.run b0
      [.add 1 .buy 100 5, .add 2 .buy 100 7, .replace 1 3 100 6]).map HybridBook.rejected) =
      some 0 := by decide +kernel
  obtain ⟨b0, hmake, h⟩ := Option.bind_eq_some_iff.mp hrun
  obtain ⟨b, hb, hrej⟩ := Option.map_eq_some_iff.mp h
  obtain ⟨hqueue, -, -, -, -, -, hahead⟩ := (queues_hold_line 100 300 4 4 b0 hmake
    [.add 1 .buy 100 5, .add 2 .buy 100 7, .replace 1 3 100 6] (by simp [Op.refs])
    (by decide) (by decide)).2 b hb hrej
  exact ⟨b0, b, hmake, hb, hqueue .buy 100, hahead ⟨3, .buy, 100, 6⟩ (by decide)⟩

/-! ### Where the stamps and the slots wrap -/

/-- A bid, then `n` replacements of it, each by a new ref. -/
def rebids (n : ℕ) : List Op := .add 1 .buy 100 5 :: (List.range n).map fun i =>
  .replace (UInt64.ofNat (i + 1)) (UInt64.ofNat (i + 2)) 100 5

theorem rebids_succ (n : ℕ) : rebids (n + 1) =
    rebids n ++ [.replace (UInt64.ofNat (n + 1)) (UInt64.ofNat (n + 2)) 100 5] := by
  rw [rebids, List.range_succ, List.map_append]
  rfl

theorem freshRun_append (L : Line) (xs ys : List Op) :
    L.freshRun (xs ++ ys) ↔ L.freshRun xs ∧ (L.replay xs).freshRun ys := by
  induction xs generalizing L with
  | nil => exact ⟨fun h => ⟨trivial, h⟩, fun h => h.2⟩
  | cons x xs ih =>
    show L.fresh x ∧ (L.step x).freshRun (xs ++ ys) ↔ (L.fresh x ∧ _) ∧ _
    rw [ih, and_assoc]
    rfl

theorem rebids_line (n : ℕ) (hn : n + 2 < 2 ^ 64) :
    Line.replay [] (rebids n) = [⟨UInt64.ofNat (n + 1), .buy, 100, 5⟩] ∧
      Line.freshRun [] (rebids n) := by
  induction n with
  | zero => exact ⟨rfl, by decide, trivial⟩
  | succ n ih =>
    obtain ⟨hline, hfresh⟩ := ih (by omega)
    rw [rebids_succ]
    constructor
    · rw [Line.replay, List.foldl_append]
      show (Line.replay [] (rebids n)).step
        (.replace (UInt64.ofNat (n + 1)) (UInt64.ofNat (n + 2)) 100 5) =
          [⟨UInt64.ofNat (n + 2), .buy, 100, 5⟩]
      rw [hline]
      generalize UInt64.ofNat (n + 1) = old
      generalize UInt64.ofNat (n + 2) = new
      simp [Line.step, Line.replace, Line.find, Line.drop, Line.add]
    · rw [freshRun_append, hline]
      refine ⟨hfresh, ?_, trivial⟩
      simp [Line.fresh, Line.drop, Line.refs]

theorem rebids_real {n : ℕ} (hn : n + 1 < 2 ^ 64) : ∀ op ∈ rebids n, ∀ ref ∈ op.refs, ref ≠ 0 := by
  intro op hop ref hr
  cases hop with
  | head =>
    rw [List.mem_singleton.mp hr]
    decide
  | tail _ hop =>
    obtain ⟨i, hi, rfl⟩ := List.mem_map.mp hop
    rw [List.mem_range] at hi
    have hcase : ref ∈ [UInt64.ofNat (i + 1), UInt64.ofNat (i + 2)] := hr
    simp only [List.mem_cons, List.not_mem_nil, or_false] at hcase
    cases hcase with
    | inl he => exact he ▸ ofNat_ref (by omega)
    | inr he => exact he ▸ ofNat_ref (by omega)

/-- A pool size the id table accepts gives a book. -/
theorem make_some_free (lo hi : Price) (maxOrders maxLevels : ℕ) (hw : ¬hi < lo - lo % kTick)
    (hmax : ¬OpenHashMap.maxSize < maxOrders)
    (hpow : ¬(maxOrders = 0 ∨ maxOrders &&& (maxOrders - 1) ≠ 0)) :
    ∃ b, make lo hi maxOrders maxLevels = some b ∧
      b.freeOrders = (List.range maxOrders).map int32 := by
  rw [HybridBook.make, if_neg hw, OpenHashMap.make, if_neg hmax, if_neg hpow]
  exact ⟨_, rfl, rfl⟩

theorem rebids_run {b0 : HybridBook} (hro : Roomy b0) (hr : Rep b0 noQueues)
    (hsize : b0.ids.size = 0) (hnone : OpenHashMap.lookup b0.ids 1 = none) (n : ℕ)
    (hn : n + 1 < 2 ^ 64) :
    ∃ b, Design.run b0 (rebids n) = some b ∧
      OneBid b (UInt64.ofNat (n + 1)) (b0.nextSeq + UInt32.ofNat (n + 1)) := by
  induction n with
  | zero =>
    have hone : (1 : OrderId) ≠ OpenHashMap.kEmpty := by decide
    obtain ⟨b, h, -⟩ := hr.add_total hro.small hone .buy 100 5
    refine ⟨b, ?_, OneBid.first hro hr hsize (by decide) hnone h⟩
    show (b0.add 1 .buy 100 5).bind _ = some b
    rw [h]
    rfl
  | succ n ih =>
    obtain ⟨b, hrun, hb⟩ := ih (by omega)
    have hne : UInt64.ofNat (n + 2) ≠ UInt64.ofNat (n + 1) := by
      intro h
      have := ofNat_ref_inj (by omega) (by omega) h
      omega
    obtain ⟨m, hrm, -⟩ := hb.bid
    obtain ⟨b', h, -⟩ := hrm.step_total hb.room.small
      (.replace (UInt64.ofNat (n + 1)) (UInt64.ofNat (n + 2)) 100 5) fun r hr => by
        have hcase : r ∈ [UInt64.ofNat (n + 1), UInt64.ofNat (n + 2)] := hr
        simp only [List.mem_cons, List.not_mem_nil, or_false] at hcase
        cases hcase with
        | inl he => exact he ▸ ofNat_ref (by omega)
        | inr he => exact he ▸ ofNat_ref (by omega)
    refine ⟨b', ?_, ?_⟩
    · rw [rebids_succ, Design.run_append, hrun]
      show (b.step _).bind _ = some b'
      rw [h]
      rfl
    · have hnext := hb.replace (ofNat_ref (by omega)) (ofNat_ref (by omega)) hne h
      rw [UInt32.ofNat_add (n + 1) 1, ← UInt32.add_assoc]
      exact hnext

/-- The order that takes the stamp 0 queues behind one that has a larger stamp. -/
theorem OneBid.zero_stamp (hb : OneBid b ref 0) (href : ref ≠ OpenHashMap.kEmpty)
    {new : OrderId} (hnew : new ≠ OpenHashMap.kEmpty) (hne : new ≠ ref) :
    ∃ b', b.add new .buy 100 5 = some b' ∧ b'.rejected = 0 ∧
      ¬(b'.slotsAt .buy 100).Pairwise fun o o' => (b'.ord o).seq < (b'.ord o').seq := by
  have habsent := hb.absent href hnew hne
  obtain ⟨hro, hsize, hstamp, n, hr, hlk, -⟩ := hb
  obtain ⟨b', h, -⟩ := hr.add_total hro.small hnew .buy 100 5
  obtain ⟨-, -, hro', -⟩ := hro.add hr le_rfl hsize.le hnew habsent (by decide) h
  refine ⟨b', h, hro'.rejected, ?_⟩
  have hqty : (5 : Qty) ≠ 0 := by decide
  rcases hr.add_cases hnew .buy 100 hqty with
    ⟨-, h'⟩ | ⟨-, h'⟩ | ⟨m, b1, h', hr', -, hp⟩
  · rw [h'] at h
    cases h
  · rw [h'] at h
    have hrej := hro'.rejected
    rw [← Option.some.inj h] at hrej
    exact absurd hrej (Nat.succ_ne_zero _)
  · rw [h'] at h
    obtain rfl := Option.some.inj h
    have hseq : (b1.ord m).seq = 0 := by
      have hd := hp.data
      simp only [Order.data, Prod.mk.injEq] at hd
      rw [hd.2.1, hstamp]
    rw [hr'.slotsAt_eq, set2_same, bids, set2_same]
    intro hpair
    have hlt : (b1.ord n).seq < (b1.ord m).seq := by simpa using hpair
    rw [hseq] at hlt
    exact UInt32.not_lt_zero hlt

/-- A replacement takes a stamp too, so two adds are enough to come to the stamp 0;
and an `int32` that names a slot past `2^31` is negative, so the free list of a
larger pool names slots that are not there. -/
theorem stamps_and_slots_wrap :
    (∃ (b0 b : HybridBook) (ops : List Op), make 100 200 4 4 = some b0 ∧
      (∀ op ∈ ops, ∀ ref ∈ op.refs, ref ≠ 0) ∧ Line.freshRun [] ops ∧
      (ops.filter fun op => match op with | .add .. => true | _ => false).length = 2 ∧
      Design.run b0 ops = some b ∧ b.rejected = 0 ∧
      ¬(b.slotsAt .buy 100).Pairwise fun o o' => (b.ord o).seq < (b.ord o').seq) ∧
    ∃ (N : ℕ) (b0 : HybridBook), N = 2 ^ 32 ∧ make 100 200 N 4 = some b0 ∧
      ¬Partition b0.freeOrders N b0.slotUsed := by
  constructor
  · have hsome : (make 100 200 4 4).map (fun b => b.ids.limit) = some 2 := by decide +kernel
    obtain ⟨b0, hmake, hlimit⟩ := Option.map_eq_some_iff.mp hsome
    obtain ⟨hr, hsize, hrej, hseq, horders, hlevels, hnone⟩ := Rep.make hmake
    have hro : Roomy b0 := by
      refine ⟨⟨?_, ?_⟩, ?_, ?_, hlimit.ge, hrej⟩
      · rw [horders]
        norm_num
      · rw [hlevels]
        norm_num
      · rw [horders]
        norm_num
      · rw [hlevels]
        norm_num
    obtain ⟨n, hn⟩ : ∃ n : ℕ, n = 2 ^ 32 - 2 := ⟨_, rfl⟩
    obtain ⟨b1, hrun, hb⟩ := rebids_run hro hr hsize (hnone 1 (by decide)) n (by omega)
    obtain ⟨hline, hfresh⟩ := rebids_line n (by omega)
    have hzero : b0.nextSeq + UInt32.ofNat (n + 1) = 0 := by
      rw [hseq, hn]
      decide
    rw [hzero] at hb
    have hne : UInt64.ofNat (n + 2) ≠ UInt64.ofNat (n + 1) := by
      intro h
      have := ofNat_ref_inj (by omega) (by omega) h
      omega
    obtain ⟨b, h, hrej', hstamps⟩ :=
      hb.zero_stamp (ofNat_ref (by omega)) (ofNat_ref (by omega)) hne
    refine ⟨b0, b, rebids n ++ [.add (UInt64.ofNat (n + 2)) .buy 100 5], hmake, ?_, ?_, ?_, ?_,
      hrej', hstamps⟩
    · intro op hop ref hr
      cases List.mem_append.mp hop with
      | inl hop => exact rebids_real (by omega) op hop ref hr
      | inr hop =>
        rw [List.mem_singleton.mp hop] at hr
        rw [List.mem_singleton.mp hr]
        exact ofNat_ref (by omega)
    · rw [freshRun_append, hline]
      refine ⟨hfresh, ?_, trivial⟩
      show UInt64.ofNat (n + 2) ∉ [UInt64.ofNat (n + 1)]
      rw [List.mem_singleton]
      exact hne
    · rw [rebids, List.cons_append, List.filter_cons_of_pos rfl, List.filter_append,
        List.filter_eq_nil_iff.mpr]
      · rfl
      · intro op hop
        obtain ⟨i, -, rfl⟩ := List.mem_map.mp hop
        simp
    · rw [Design.run_append, hrun]
      show (b1.add _ .buy 100 5).bind _ = some b
      rw [h]
      rfl
  · obtain ⟨N, hN⟩ : ∃ N : ℕ, N = 2 ^ 32 := ⟨_, rfl⟩
    obtain ⟨b0, hmake, hfree⟩ := make_some_free 100 200 N 4 (by decide) (by rw [hN]; decide)
      (by rw [hN]; decide)
    refine ⟨N, b0, hN, hmake, ?_⟩
    intro hpart
    have hmem : int32 (2 ^ 31) ∈ b0.freeOrders := by
      rw [hfree]
      apply List.mem_map_of_mem
      rw [List.mem_range]
      omega
    obtain ⟨n, hn, -⟩ := (hpart.free _).mp hmem
    have hneg : int32 (2 ^ 31) < 0 := by decide
    omega

end Hotpath.Book.HybridBook
