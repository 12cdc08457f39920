import Hotpath.Book.HybridQueues
import Hotpath.Book.IntrusiveRefine

/-!
# The refs that live

What the callers of a pooled book see of it: which refs live, each with its
remaining shares. An operation the book rejects brings no ref in. The id table
counts them, and no slot is at once free and linked, whatever the operations,
as long as none of them names the ref the table keeps for its empty slots.
-/

namespace Hotpath.Book
open Hotpath.Support

abbrev Live := Std.TreeMap OrderId Qty

namespace Live

def add (L : Live) (taken : Bool) (ref : OrderId) (qty : Qty) : Live :=
  if qty ≠ 0 ∧ taken = true then L.insert ref qty else L

def reduce (L : Live) (ref : OrderId) (qty : Qty) : Live :=
  match L[ref]? with
  | none => L
  | some q => if qty < q then L.insert ref (q - qty) else L.erase ref

def replace (L : Live) (taken : Bool) (oldRef newRef : OrderId) (qty : Qty) : Live :=
  match L[oldRef]? with
  | none => L
  | some _ => add (L.erase oldRef) taken newRef qty

/-- `taken` is false where the book rejects the operation. -/
def step (L : Live) (taken : Bool) : Op → Live
  | .add ref _ _ qty => L.add taken ref qty
  | .execute ref qty => L.reduce ref qty
  | .cancel ref qty => L.reduce ref qty
  | .remove ref => L.erase ref
  | .replace oldRef newRef _ qty => L.replace taken oldRef newRef qty
  | .clear => ∅

/-- A run of a book with the refs that live beside it. -/
def run {B : Type} [Design B] (rejected : B → ℕ) : Live → B → List Op → Option (B × Live)
  | L, b, [] => some (b, L)
  | L, b, op :: ops => (Design.step b op).bind fun b' =>
      run rejected (L.step (decide (rejected b' = rejected b)) op) b' ops

end Live

/-- The refs an operation looks up or brings in; without shares nothing comes in. -/
def Op.uses : Op → List OrderId
  | .add ref _ _ qty => if qty = 0 then [] else [ref]
  | .execute ref _ => [ref]
  | .cancel ref _ => [ref]
  | .remove ref => [ref]
  | .replace oldRef newRef _ qty => if qty = 0 then [oldRef] else [oldRef, newRef]
  | .clear => []

/-- The same operation with a ref of no effect made an ordinary one. -/
def Op.plain : Op → Op
  | .add ref s px qty => .add (if qty = 0 then 1 else ref) s px qty
  | .replace oldRef newRef px qty => .replace oldRef (if qty = 0 then 1 else newRef) px qty
  | op => op

theorem Op.plain_refs (op : Op) (h : ∀ ref ∈ op.uses, ref ≠ OpenHashMap.kEmpty) :
    ∀ ref ∈ op.plain.refs, ref ≠ OpenHashMap.kEmpty := by
  have hone : (1 : OrderId) ≠ OpenHashMap.kEmpty := by decide
  cases op with
  | add ref s px qty =>
    by_cases hq : qty = 0 <;>
      simp_all [Op.plain, Op.uses, Op.refs]
  | replace oldRef newRef px qty =>
    by_cases hq : qty = 0 <;>
      simp_all [Op.plain, Op.uses, Op.refs]
  | execute ref qty => exact h
  | cancel ref qty => exact h
  | remove ref => exact h
  | clear => exact h

theorem Live.step_plain (L : Live) (taken : Bool) (op : Op) : L.step taken op.plain = L.step taken op := by
  cases op with
  | add ref s px qty =>
    by_cases hq : qty = 0
    · show L.add taken _ qty = L.add taken ref qty
      rw [Live.add, Live.add, if_neg fun hn => hn.1 hq, if_neg fun hn => hn.1 hq]
    · rw [Op.plain, if_neg hq]
  | replace oldRef newRef px qty =>
    by_cases hq : qty = 0
    · have hnone : ∀ (K : Live) ref, K.add taken ref qty = K := fun K ref => by
        rw [Live.add, if_neg fun hn => hn.1 hq]
      show L.replace taken oldRef _ qty = L.replace taken oldRef newRef qty
      rw [Live.replace, Live.replace]
      cases L[oldRef]? with
      | none => rfl
      | some q =>
        show Live.add (L.erase oldRef) taken _ qty = Live.add (L.erase oldRef) taken newRef qty
        rw [hnone, hnone]
    · rw [Op.plain, if_neg hq]
  | execute ref qty => rfl
  | cancel ref qty => rfl
  | remove ref => rfl
  | clear => rfl

theorem Live.run_plain {B : Type} [Design B] {rejected : B → ℕ}
    (hplain : ∀ (b : B) op, Design.step b op.plain = Design.step b op) (L : Live) (b : B)
    (ops : List Op) : Live.run rejected L b (ops.map Op.plain) = Live.run rejected L b ops := by
  induction ops generalizing L b with
  | nil => rfl
  | cons op ops ih =>
    show (Design.step b op.plain).bind _ = (Design.step b op).bind _
    rw [hplain]
    congr 1
    funext b'
    rw [Live.step_plain]
    exact ih _ b'

namespace HybridBook

variable {b b' : HybridBook} {Q : Queues} {L : Live} {s : Side} {p : Price} {ref : OrderId}
  {qty : Qty} {n : ℕ}

theorem step_plain (b : HybridBook) (op : Op) : b.step op.plain = b.step op := by
  cases op with
  | add ref s px qty =>
    by_cases hq : qty = 0
    · rw [hq]
      rfl
    · rw [Op.plain, if_neg hq]
  | replace oldRef newRef px qty =>
    by_cases hq : qty = 0
    · rw [hq]
      rfl
    · rw [Op.plain, if_neg hq]
  | execute ref qty => rfl
  | cancel ref qty => rfl
  | remove ref => rfl
  | clear => rfl

/-- The table knows the refs that live, and their orders have their shares. -/
structure Counts (b : HybridBook) (L : Live) : Prop where
  shares : ∀ ref ≠ OpenHashMap.kEmpty, ∀ q, L[ref]? = some q ↔
    ∃ n : ℕ, OpenHashMap.lookup b.ids ref = some (n : ℤ) ∧ (b.ord n).qty = q
  size : L.size = b.ids.size

theorem Counts.get (hc : Counts b L) (href : ref ≠ OpenHashMap.kEmpty)
    (hl : OpenHashMap.lookup b.ids ref = some (n : ℤ)) : L[ref]? = some (b.ord n).qty :=
  (hc.shares ref href _).mpr ⟨n, hl, rfl⟩

theorem Counts.get_none (hc : Counts b L) (href : ref ≠ OpenHashMap.kEmpty)
    (hl : OpenHashMap.lookup b.ids ref = none) : L[ref]? = none := by
  apply Option.eq_none_iff_forall_ne_some.mpr
  intro q hq
  obtain ⟨n, h, -⟩ := (hc.shares ref href q).mp hq
  rw [hl] at h
  cases h

/-- The table and the orders it names decide. -/
theorem Counts.congr (hc : Counts b L) (hr : Rep b Q) (hids : b'.ids = b.ids)
    (hord : ∀ n s p, n ∈ Q s p → (b'.ord n).qty = (b.ord n).qty) : Counts b' L := by
  constructor
  · intro ref href q
    rw [hc.shares ref href q, hids]
    apply exists_congr
    intro n
    apply and_congr_right
    intro hl
    obtain ⟨n', s, p, hn', hm, -⟩ := hr.named ref href _ hl
    obtain rfl : n = n' := by exact_mod_cast hn'
    rw [hord n s p hm]
  · rw [hids]
    exact hc.size

theorem Counts.push (hc : Counts b L) (hr : Rep b Q) (href : ref ≠ OpenHashMap.kEmpty)
    (hqty : qty ≠ 0) (hfresh : ∀ s' p', n ∉ Q s' p') (hp : Pushed b b' n ref s p qty) :
    Counts b' (L.add (decide (b'.rejected = b.rejected)) ref qty) := by
  have hold : ∀ m s' p', m ∈ Q s' p' → (b'.ord m).qty = (b.ord m).qty := by
    intro m s' p' hm
    exact Order.qty_of_data (hp.others m fun he => hfresh s' p' (he ▸ hm))
  rcases hp.table_cases hr.table href with ⟨hrej, hids, -⟩ | ⟨hrej, -, hlk, hsize⟩
  · have hno : ¬b'.rejected = b.rejected := by omega
    rw [Live.add, decide_eq_false hno, if_neg (by simp)]
    exact hc.congr hr hids hold
  · rw [Live.add, decide_eq_true hrej, if_pos ⟨hqty, rfl⟩]
    constructor
    · intro k hk q
      rw [getElem?_insert_if, hlk k hk]
      by_cases hkr : k = ref
      · rw [if_pos hkr, if_pos hkr]
        have hqn : (b'.ord n).qty = qty := by
          have hd := hp.data
          simp only [Order.data, Prod.mk.injEq] at hd
          exact hd.2.2.1
        constructor
        · intro hq
          exact ⟨n, rfl, hqn.trans (Option.some.inj hq)⟩
        · intro hq
          obtain ⟨m, hm, hq⟩ := hq
          obtain rfl : n = m := by exact_mod_cast Option.some.inj hm
          rw [← hq, hqn]
      · rw [if_neg hkr, if_neg hkr, hc.shares k hk q]
        apply exists_congr
        intro m
        apply and_congr_right
        intro hm
        obtain ⟨m', s', p', hm', hmem, -⟩ := hr.named k hk _ hm
        obtain rfl : m = m' := by exact_mod_cast hm'
        rw [hold m s' p' hmem]
    · rw [size_insert_if, hc.size]
      cases hsize with
      | inl hs =>
        obtain ⟨hsome, hs⟩ := hs
        rw [hs, if_pos]
        cases hl : OpenHashMap.lookup b.ids ref with
        | none => exact absurd hl hsome
        | some i =>
          obtain ⟨m, -, -, rfl, -⟩ := hr.named ref href i hl
          rw [hc.get href hl]
          rfl
      | inr hs =>
        obtain ⟨hnone, hs⟩ := hs
        rw [hs, hc.get_none href hnone]
        rfl

theorem Counts.pull (hc : Counts b L) (href : ref ≠ OpenHashMap.kEmpty)
    (hl : OpenHashMap.lookup b.ids ref = some (n : ℤ)) {last : Prop} [Decidable last]
    (hp : Pulled b b' ref s p last) : Counts b' (L.erase ref) := by
  constructor
  · intro k hk q
    rw [getElem?_erase_if, hp.ids k hk]
    by_cases hkr : k = ref
    · rw [if_pos hkr, if_pos hkr]
      simp
    · rw [if_neg hkr, if_neg hkr, hc.shares k hk q]
      apply exists_congr
      intro m
      rw [Order.qty_of_data (hp.data m)]
  · rw [size_erase_if, hc.get href hl, hc.size, ← hp.size]
    rfl

theorem Counts.cut (hc : Counts b L) (hr : Rep b Q) (href : ref ≠ OpenHashMap.kEmpty)
    (hl : OpenHashMap.lookup b.ids ref = some (n : ℤ)) (hid : (b.ord n).id = ref)
    (hcut : Cut b b' n qty) : Counts b' (L.insert ref ((b.ord n).qty - qty)) := by
  constructor
  · intro k hk q
    rw [getElem?_insert_if, hcut.ids]
    by_cases hkr : k = ref
    · rw [if_pos hkr, hkr, hl]
      constructor
      · intro hq
        refine ⟨n, rfl, ?_⟩
        rw [hcut.ord]
        exact Option.some.inj hq
      · intro hq
        obtain ⟨m, hm, hq⟩ := hq
        obtain rfl : n = m := by exact_mod_cast Option.some.inj hm
        rw [← hq, hcut.ord]
    · rw [if_neg hkr, hc.shares k hk q]
      apply exists_congr
      intro m
      apply and_congr_right
      intro hm
      obtain ⟨m', -, -, hm', -, hid'⟩ := hr.named k hk _ hm
      obtain rfl : m = m' := by exact_mod_cast hm'
      rw [hcut.others m fun he => hkr (by rw [← hid', he, hid])]
  · rw [size_insert_if, hc.get href hl, hc.size, hcut.ids]
    rfl

theorem Counts.reject (hc : Counts b L) (k : ℕ) : Counts { b with rejected := k } L :=
  ⟨hc.shares, hc.size⟩

/-! ### Steps -/

theorem Counts.add (hc : Counts b L) (hr : Rep b Q) (href : ref ≠ OpenHashMap.kEmpty)
    (h : b.add ref s p qty = some b') :
    Counts b' (L.add (decide (b'.rejected = b.rejected)) ref qty) := by
  by_cases hqty : qty = 0
  · rw [hqty, add_zero] at h
    obtain rfl := Option.some.inj h
    rw [Live.add, if_neg fun hn => hn.1 hqty]
    exact hc
  · rcases hr.add_cases href s p hqty with ⟨-, h'⟩ | ⟨-, h'⟩ | ⟨m, b1, h', -, hm, hp⟩
    · rw [h'] at h
      cases h
    · rw [h'] at h
      obtain rfl := Option.some.inj h
      rw [Live.add, decide_eq_false (Nat.succ_ne_self _), if_neg (by simp)]
      exact hc.reject _
    · rw [h'] at h
      obtain rfl := Option.some.inj h
      exact hc.push hr href hqty hm hp

theorem Counts.reduce (hc : Counts b L) (hr : Rep b Q) (href : ref ≠ OpenHashMap.kEmpty)
    (h : b.reduce ref qty = some b') : Counts b' (L.reduce ref qty) := by
  rcases hr.reduce_cases href qty with ⟨hl, h'⟩ | ⟨m, s, p, l, r, hl, -, hid, -, hcase⟩
  · rw [h'] at h
    obtain rfl := Option.some.inj h
    rw [Live.reduce, hc.get_none href hl]
    exact hc
  · rw [Live.reduce, hc.get href hl]
    rcases hcase with ⟨hle, b1, h', -, hp⟩ | ⟨hlt, b1, h', -, hcut⟩
    · rw [h'] at h
      obtain rfl := Option.some.inj h
      dsimp only
      rw [if_neg hle]
      exact hc.pull href hl hp
    · rw [h'] at h
      obtain rfl := Option.some.inj h
      dsimp only
      rw [if_pos hlt]
      exact hc.cut hr href hl hid hcut

theorem erase_absent (L : Live) (h : L[ref]? = none) {k : OrderId} : (L.erase ref)[k]? = L[k]? := by
  rw [getElem?_erase_if]
  split
  · rename_i hk
    rw [hk, h]
  · rfl

theorem Counts.step (hc : Counts b L) (hr : Rep b Q) (op : Op)
    (hrefs : ∀ ref ∈ op.refs, ref ≠ OpenHashMap.kEmpty) (h : b.step op = some b') :
    Counts b' (L.step (decide (b'.rejected = b.rejected)) op) := by
  cases op with
  | add ref s p qty => exact hc.add hr (hrefs ref (by simp [Op.refs])) h
  | execute ref qty => exact hc.reduce hr (hrefs ref (by simp [Op.refs])) h
  | cancel ref qty => exact hc.reduce hr (hrefs ref (by simp [Op.refs])) h
  | remove ref =>
    have href := hrefs ref (by simp [Op.refs])
    rcases hr.remove_cases href with ⟨hl, h'⟩ | ⟨m, s, p, l, r, b1, hl, -, -, -, h', -, hp⟩
    · rw [HybridBook.step, h'] at h
      obtain rfl := Option.some.inj h
      have hnone := hc.get_none href hl
      constructor
      · intro k hk q
        show (L.erase ref)[k]? = some q ↔ _
        rw [erase_absent L hnone]
        exact hc.shares k hk q
      · show (L.erase ref).size = _
        rw [size_erase_if, hnone]
        exact hc.size
    · rw [HybridBook.step, h'] at h
      obtain rfl := Option.some.inj h
      exact hc.pull href hl hp
  | replace ref new p' qty =>
    have href := hrefs ref (by simp [Op.refs])
    rcases hr.replace_cases href new p' qty with
      ⟨hl, h'⟩ | ⟨m, s, p, l, r, b1, hl, -, -, -, -, hr1, hp, h'⟩
    · rw [HybridBook.step, h'] at h
      obtain rfl := Option.some.inj h
      rw [Live.step, Live.replace, hc.get_none href hl]
      exact hc
    · rw [HybridBook.step, h'] at h
      rw [Live.step, Live.replace, hc.get href hl, ← hp.rejected]
      exact (hc.pull href hl hp).add hr1 (hrefs new (by simp [Op.refs])) h
  | clear =>
    obtain rfl := Option.some.inj h
    obtain ⟨-, hsize, hnone⟩ := hr.clear
    constructor
    · intro k hk q
      rw [hnone k hk]
      show (∅ : Live)[k]? = some q ↔ _
      simp
    · rw [hsize]
      rfl

theorem Counts.run (hc : Counts b L) (hr : Rep b Q) (hs : Small b) (ops : List Op)
    (hrefs : ∀ op ∈ ops, ∀ ref ∈ op.refs, ref ≠ OpenHashMap.kEmpty) :
    ∃ b' L' Q', Live.run HybridBook.rejected L b ops = some (b', L') ∧
      Design.run b ops = some b' ∧ Rep b' Q' ∧ Counts b' L' := by
  induction ops generalizing b L Q with
  | nil => exact ⟨b, L, Q, rfl, rfl, hr, hc⟩
  | cons op ops ih =>
    have hop := hrefs op (List.mem_cons_self ..)
    obtain ⟨b1, h1, hs1⟩ := hr.step_total hs op hop
    obtain ⟨-, Q1, hr1, -⟩ := hr.step_sim op hop h1
    obtain ⟨b', L', Q', hrun, hd, hr', hc'⟩ :=
      ih (hc.step hr op hop h1) hr1 hs1 fun op hm => hrefs op (List.mem_cons_of_mem _ hm)
    refine ⟨b', L', Q', ?_, ?_, hr', hc'⟩
    · show (b.step op).bind _ = _
      rw [h1]
      exact hrun
    · show (b.step op).bind _ = _
      rw [h1]
      exact hd

theorem Counts.make {lo hi : Price} {maxOrders maxLevels : ℕ}
    (h : HybridBook.make lo hi maxOrders maxLevels = some b) : Counts b ∅ := by
  obtain ⟨-, hsize, -, -, -, -, hnone⟩ := Rep.make h
  constructor
  · intro k hk q
    rw [hnone k hk]
    simp
  · rw [hsize]
    rfl

end HybridBook

namespace IntrusiveBook
open HybridBook (Queues Rep)

variable {h h' : HybridBook} {i : IntrusiveBook} {Q : Queues} {L L' : Live}

theorem step_plain (i : IntrusiveBook) (op : Op) : i.step op.plain = i.step op := by
  cases op with
  | add ref s px qty =>
    by_cases hq : qty = 0
    · rw [hq]
      rfl
    · rw [Op.plain, if_neg hq]
  | replace oldRef newRef px qty =>
    by_cases hq : qty = 0
    · rw [hq]
      rfl
    · rw [Op.plain, if_neg hq]
  | execute ref qty => rfl
  | cancel ref qty => rfl
  | remove ref => rfl
  | clear => rfl

def ord (i : IntrusiveBook) (n : ℕ) : Order := i.orders.getD n {}

/-- The slot is on the list of a level of either side. -/
def slotUsed (i : IntrusiveBook) (n : ℕ) : Prop :=
  ∃ s, ∃ li ∈ i.idx s, ∃ level, subscript i.levels li = some level ∧
    n ∈ follow (fun o => (i.ord o).next) i.orders.length level.head

theorem Twin.slot_queued (ht : Twin h i) (hr : Rep h Q) {n : ℕ} (hn : i.slotUsed n) :
    ∃ s p, n ∈ Q s p := by
  obtain ⟨s, li, hli, level, hsub, hmem⟩ := hn
  have hnext : (fun o => (i.ord o).next) = fun o => (h.ord o).next := by
    funext o
    have hstrip : ({} : Order) = strip {} := rfl
    rw [ord, ht.orders_eq, hstrip, List.getD_map]
    rfl
  obtain ⟨ps, hl⟩ := ht.listed s
  rw [hl.eq] at hli
  obtain ⟨p, hp, rfl⟩ := List.mem_map.mp hli
  obtain ⟨m, hm, hlt, -, hok⟩ := hr.level s p ((hl.mem p).mp hp)
  have hlev : subscript h.levels (m : ℤ) = some (h.lev m) := subscript_cast hlt _
  rw [ht.levels_eq, hm, hlev] at hsub
  rw [hnext, ht.orders_eq, List.length_map, ← Option.some.inj hsub,
    hok.chain.follow_head (hr.queue_length s p)] at hmem
  exact ⟨s, p, hmem⟩

theorem Twin.live_run (ht : Twin h i) (hr : Rep h Q) (ops : List Op)
    (hrefs : ∀ op ∈ ops, ∀ ref ∈ op.refs, ref ≠ OpenHashMap.kEmpty)
    (hrun : Live.run HybridBook.rejected L h ops = some (h', L')) :
    ∃ i', Live.run IntrusiveBook.rejected L i ops = some (i', L') ∧ Twin h' i' := by
  induction ops generalizing h i Q L with
  | nil =>
    obtain ⟨rfl, rfl⟩ := Prod.mk.inj (Option.some.inj hrun)
    exact ⟨i, rfl, ht⟩
  | cons op ops ih =>
    have hop := hrefs op (List.mem_cons_self ..)
    obtain ⟨h1, hstep, hrest⟩ := Option.bind_eq_some_iff.mp hrun
    have hrel := ht.step hr op hop
    have hstep' : h.step op = some h1 := hstep
    rw [hstep'] at hrel
    obtain ⟨i1, hi1, ht1⟩ := rel_right hrel
    obtain ⟨-, Q1, hr1, -⟩ := hr.step_sim op hop hstep'
    obtain ⟨i', hi', ht'⟩ := ih ht1 hr1 (fun op hm => hrefs op (List.mem_cons_of_mem _ hm)) hrest
    refine ⟨i', ?_, ht'⟩
    show (i.step op).bind _ = _
    rw [hi1, Option.bind_some, ht.rejected_eq, ht1.rejected_eq]
    exact hi'

end IntrusiveBook

/-! ### Streams of events -/

/-- A free list without repetition, of slots of the pool that are not linked. -/
structure FreeSlots (free : List ℤ) (len : ℕ) (linked : ℕ → Prop) : Prop where
  once : free.Nodup
  apart : ∀ i ∈ free, ∃ n : ℕ, i = n ∧ n < len ∧ ¬linked n

/-- Whatever the events, if none uses the ref the table keeps for itself and the
pools have at most `2^31` entries, a fresh book of either design takes them all
without a subscript out of range, keeps its free slots apart from the linked ones
and counts the refs that live. -/
theorem pools_stay_sound (events : List BookEvent) (hrefs : ∀ e ∈ events, ∀ ref ∈ e.op.uses, ref ≠ 0) :
    (∀ (lo hi : Price) (maxOrders maxLevels : ℕ) (b0 : HybridBook),
      HybridBook.make lo hi maxOrders maxLevels = some b0 → maxOrders ≤ 2 ^ 31 →
      maxLevels ≤ 2 ^ 31 → ∃ b L,
        Live.run HybridBook.rejected ∅ b0 (events.map BookEvent.op) = some (b, L) ∧
        FreeSlots b.freeOrders maxOrders b.slotUsed ∧ b.orderCount = L.size) ∧
    ∀ (maxOrders maxLevels : ℕ) (i0 : IntrusiveBook),
      IntrusiveBook.make maxOrders maxLevels = some i0 → maxOrders ≤ 2 ^ 31 →
      maxLevels ≤ 2 ^ 31 → ∃ i L,
        Live.run IntrusiveBook.rejected ∅ i0 (events.map BookEvent.op) = some (i, L) ∧
        FreeSlots i.freeOrders maxOrders i.slotUsed ∧ i.orderCount = L.size := by
  have hplain : ∀ op ∈ (events.map BookEvent.op).map Op.plain, ∀ ref ∈ op.refs,
      ref ≠ OpenHashMap.kEmpty := by
    intro op hop
    obtain ⟨op', hop', rfl⟩ := List.mem_map.mp hop
    obtain ⟨e, he, rfl⟩ := List.mem_map.mp hop'
    exact Op.plain_refs _ (hrefs e he)
  have hsound : ∀ (lo hi : Price) (maxOrders maxLevels : ℕ) (b0 : HybridBook),
      HybridBook.make lo hi maxOrders maxLevels = some b0 → maxOrders ≤ 2 ^ 31 →
      maxLevels ≤ 2 ^ 31 → ∃ b L Q, HybridBook.Rep b Q ∧ HybridBook.Counts b L ∧
        Live.run HybridBook.rejected ∅ b0 ((events.map BookEvent.op).map Op.plain) = some (b, L) ∧
        HybridBook.Partition b.freeOrders maxOrders b.slotUsed := by
    intro lo hi maxOrders maxLevels b0 hmake ho hl
    obtain ⟨hr0, -, -, -, horders, hlevels, -⟩ := HybridBook.Rep.make hmake
    obtain ⟨b, L, Q, hlive, hrun, hr, hc⟩ := (HybridBook.Counts.make hmake).run hr0
      ⟨by rwa [horders], by rwa [hlevels]⟩ _ hplain
    have hlen := (hr0.run_pools _ hplain hrun).1.trans horders
    have hpart := hr.order_partition (by rwa [hlen])
    rw [hlen] at hpart
    exact ⟨b, L, Q, hr, hc, hlive, hpart⟩
  constructor
  · intro lo hi maxOrders maxLevels b0 hmake ho hl
    obtain ⟨b, L, Q, -, hc, hlive, hpart⟩ := hsound lo hi maxOrders maxLevels b0 hmake ho hl
    rw [Live.run_plain HybridBook.step_plain] at hlive
    exact ⟨b, L, hlive, ⟨hpart.once, fun i hi => (hpart.free i).mp hi⟩, hc.size.symm⟩
  · intro maxOrders maxLevels i0 hmake ho hl
    obtain ⟨h0, hmk, ht0⟩ := IntrusiveBook.Twin.make hmake
    obtain ⟨h, L, Q, hr, hc, hlive, hpart⟩ := hsound 0 0 maxOrders maxLevels h0 hmk ho hl
    obtain ⟨i, hi, ht⟩ := ht0.live_run (HybridBook.Rep.make hmk).1 _ hplain hlive
    rw [Live.run_plain IntrusiveBook.step_plain] at hi
    have hfree : i.freeOrders = h.freeOrders := by
      rw [ht.same]
      rfl
    refine ⟨i, L, hi, ⟨?_, ?_⟩, ?_⟩
    · rw [hfree]
      exact hpart.once
    · intro x hx
      rw [hfree] at hx
      obtain ⟨n, rfl, hlt, hn⟩ := (hpart.free x).mp hx
      exact ⟨n, rfl, hlt, fun hu => hn (hr.slotUsed_iff.mpr (ht.slot_queued hr hu))⟩
    · rw [IntrusiveBook.orderCount, ht.ids_eq]
      exact hc.size.symm

theorem pools_stay_sound_two : ∃ (b0 b : HybridBook) (L : Live), HybridBook.make 100 300 4 4 = some b0 ∧
    Live.run HybridBook.rejected ∅ b0 ([⟨1, 1, 0, 200, 5, .add, .buy⟩, ⟨2, 1, 0, 100, 5, .add, .buy⟩,
      ⟨3, 1, 0, 0, 9, .execute, .buy⟩].map BookEvent.op) = some (b, L) ∧
    FreeSlots b.freeOrders 4 b.slotUsed ∧ b.orderCount = L.size := by
  have hsome : (HybridBook.make 100 300 4 4).isSome = true := by decide +kernel
  obtain ⟨b0, hmake⟩ := Option.isSome_iff_exists.mp hsome
  have hrefs : ∀ e ∈ ([⟨1, 1, 0, 200, 5, .add, .buy⟩, ⟨2, 1, 0, 100, 5, .add, .buy⟩,
      ⟨3, 1, 0, 0, 9, .execute, .buy⟩] : List BookEvent), ∀ ref ∈ e.op.uses, ref ≠ 0 := by
    simp [BookEvent.op, Op.uses]
  obtain ⟨b, L, h⟩ := (pools_stay_sound _ hrefs).1 100 300 4 4 b0 hmake (by norm_num) (by norm_num)
  exact ⟨b0, b, L, hmake, h⟩

/-- A lookup of ref 0 ends at an empty slot and answers with its stale value, so a
fresh book of either design subscripts `levels_[-1]`; an order under ref 0 is not
counted; and the cast indices of a pool of `2^33` slots repeat. -/
theorem zero_ref_unsound :
    (∃ b0, HybridBook.make 100 300 4 4 = some b0 ∧
      Book.apply b0 ⟨1, 0, 0, 0, 0, .delete, .buy⟩ = none) ∧
    (∃ i0, IntrusiveBook.make 4 4 = some i0 ∧
      Book.apply i0 ⟨1, 0, 0, 0, 0, .delete, .buy⟩ = none) ∧
    (∃ b0 b L, HybridBook.make 100 300 4 4 = some b0 ∧
      Live.run HybridBook.rejected ∅ b0 [(⟨1, 0, 0, 200, 5, .add, .buy⟩ : BookEvent).op] =
        some (b, L) ∧ b.orderCount = 0 ∧ L.size = 1) ∧
    ∃ (N : ℕ) (b0 : HybridBook), N = 2 ^ 33 ∧ HybridBook.make 100 200 N 4 = some b0 ∧
      ¬b0.freeOrders.Nodup := by
  refine ⟨?_, ?_, ?_, ?_⟩
  · have hrun : (HybridBook.make 100 300 4 4).map (fun b0 =>
        (Book.apply b0 ⟨1, 0, 0, 0, 0, .delete, .buy⟩).isNone) = some true := by decide +kernel
    obtain ⟨b0, hmake, h⟩ := Option.map_eq_some_iff.mp hrun
    exact ⟨b0, hmake, Option.isNone_iff_eq_none.mp h⟩
  · have hrun : (IntrusiveBook.make 4 4).map (fun i0 =>
        (Book.apply i0 ⟨1, 0, 0, 0, 0, .delete, .buy⟩).isNone) = some true := by decide +kernel
    obtain ⟨i0, hmake, h⟩ := Option.map_eq_some_iff.mp hrun
    exact ⟨i0, hmake, Option.isNone_iff_eq_none.mp h⟩
  · have hrun : ((HybridBook.make 100 300 4 4).bind fun b0 =>
        (Live.run HybridBook.rejected ∅ b0 [(⟨1, 0, 0, 200, 5, .add, .buy⟩ : BookEvent).op]).map
          fun x => (x.1.orderCount, x.2.size)) = some (0, 1) := by decide +kernel
    obtain ⟨b0, hmake, h⟩ := Option.bind_eq_some_iff.mp hrun
    obtain ⟨⟨b, L⟩, hlive, h⟩ := Option.map_eq_some_iff.mp h
    obtain ⟨h1, h2⟩ := Prod.mk.inj h
    exact ⟨b0, b, L, hmake, hlive, h1, h2⟩
  · obtain ⟨N, hN⟩ : ∃ N : ℕ, N = 2 ^ 33 := ⟨_, rfl⟩
    obtain ⟨b0, hmake, hfree⟩ := HybridBook.make_some_free 100 200 N 4 (by decide)
      (by rw [hN]; decide) (by rw [hN]; decide)
    refine ⟨N, b0, hN, hmake, ?_⟩
    rw [hfree]
    intro hnd
    have hmem : ∀ n, n < 2 ^ 33 → n ∈ List.range N := by
      intro n hn
      rw [List.mem_range, hN]
      exact hn
    have heq : int32 0 = int32 (2 ^ 32) := by decide
    have hzero := List.inj_on_of_nodup_map hnd (hmem 0 (by norm_num)) (hmem (2 ^ 32) (by norm_num)) heq
    exact absurd hzero (by norm_num)

end Hotpath.Book
