import Hotpath.Book.Cleared
import Hotpath.Book.FlatMap
import Hotpath.Book.FreshStart
import Hotpath.Book.Rejection

/-!
# Room in the pools

The reference book has no pools, but it tells what a pooled design needs: a slot for
each resting order, a level for each price with one, an entry of the id table for
each ref. An operation is rejected exactly where what the reference book holds leaves
no room for it, so the pools of a run can be sized on the reference book alone.
-/

namespace Hotpath.Book
open Hotpath.Support

namespace MapBook

/-- The orders that stand at some level. An order whose ref was used again still does. -/
def slotsInUse (m : MapBook) : ℕ :=
  weigh (fun _ agg => agg.orders.toNat) m.bids + weigh (fun _ agg => agg.orders.toNat) m.asks

def levelsInUse (m : MapBook) : ℕ := m.bids.size + m.asks.size

/-! ### What an operation asks for -/

/-- An entry of an id table of `capacity` slots: the entry of the ref itself, or one
below the load limit. -/
def tableRoom (capacity : ℕ) (m : MapBook) (ref : OrderId) : Bool :=
  m.orders[ref]?.isSome || m.orders.size + 1 ≤ capacity * 7 / 10

/-- Room for one more order in pools of these sizes. -/
def poolRoom (maxOrders maxLevels : ℕ) (m : MapBook) (ref : OrderId) (s : Side) (p : Price) :
    Bool :=
  m.slotsInUse < maxOrders && ((m.level s p).isSome || m.levelsInUse < maxLevels) &&
    tableRoom maxOrders m ref

/-- A design without pools can run out of its table alone. -/
def recordRoom (capacity : ℕ) (m : MapBook) (ref : OrderId) (_ : Side) (_ : Price) : Bool :=
  m.tableRoom capacity ref

/-- A replacement asks once its order has left. -/
def fits (room : MapBook → OrderId → Side → Price → Bool) (m : MapBook) : Op → Bool
  | .add ref s p qty => qty = 0 || room m ref s p
  | .replace oldRef newRef p qty =>
    match m.orders[oldRef]? with
    | none => true
    | some r => qty = 0 || room (m.remove oldRef) newRef r.side p
  | _ => true

/-- Each operation of a run fits the book it meets. -/
def fitsAll (room : MapBook → OrderId → Side → Price → Bool) : MapBook → List Op → Bool
  | _, [] => true
  | m, op :: ops => fits room m op && fitsAll room (m.step op) ops

end MapBook

/-! ### The slots in use -/

namespace HybridBook

variable {b b' : HybridBook} {Q : Queues} {m : MapBook} {s : Side} {p : Price} {ref : OrderId}
  {qty : Qty}

/-- A free list and a list of what is in use fill a pool. -/
theorem Partition.length {free : List ℤ} {len : ℕ} {used : ℕ → Prop}
    (h : Partition free len used) {inUse : List ℕ} (hnd : inUse.Nodup)
    (hmem : ∀ n, n ∈ inUse ↔ used n) : free.length + inUse.length = len := by
  have hdisj : ∀ x ∈ free, x ∉ inUse.map Nat.cast := by
    intro x hx hu
    obtain ⟨n, rfl, -, hn⟩ := (h.free x).mp hx
    obtain ⟨k, hk, hkn⟩ := List.mem_map.mp hu
    obtain rfl : k = n := by exact_mod_cast hkn
    exact hn ((hmem k).mp hk)
  have hall : (free ++ inUse.map Nat.cast).Perm ((List.range len).map Nat.cast) := by
    apply (List.perm_ext_iff_of_nodup ?_ (List.nodup_range.map Nat.cast_injective)).mpr
    · intro x
      rw [List.mem_append, List.mem_map, List.mem_map, h.free]
      constructor
      · intro hx
        rcases hx with ⟨n, rfl, hlt, -⟩ | ⟨n, hn, rfl⟩
        · exact ⟨n, List.mem_range.mpr hlt, rfl⟩
        · exact ⟨n, List.mem_range.mpr (h.pool n ((hmem n).mp hn)), rfl⟩
      · intro hx
        obtain ⟨n, hn, rfl⟩ := hx
        by_cases hu : used n
        · exact Or.inr ⟨n, (hmem n).mpr hu, rfl⟩
        · exact Or.inl ⟨n, rfl, List.mem_range.mp hn, hu⟩
    · exact List.Nodup.append h.once (hnd.map Nat.cast_injective) fun x hx hu => hdisj x hx hu
  have hlen := hall.length_eq
  rwa [List.length_append, List.length_map, List.length_map, List.length_range] at hlen

theorem exists_side {P : Side → Prop} : (∃ s, P s) ↔ P .buy ∨ P .sell := by
  constructor
  · rintro ⟨s, h⟩
    cases s with
    | buy => exact Or.inl h
    | sell => exact Or.inr h
  · rintro (h | h)
    · exact ⟨.buy, h⟩
    · exact ⟨.sell, h⟩

section Levels
variable {cmp : Price → Price → Ordering} [Std.TransCmp cmp] [Std.LawfulEqCmp cmp]
  {levels : Std.TreeMap Price MapBook.Agg cmp}

theorem Rep.mem_keys (hr : Rep b Q) (h : ∀ p, levels[p]? = b.aggOf (Q s p)) (p : Price) :
    p ∈ levels.keys ↔ 0 ≤ b.levelIx s p := by
  rw [← Std.TreeMap.map_fst_toList_eq_keys]
  exact keys_mem hr levels h p

/-- The queues of a side, one after another. -/
theorem Rep.side_slots (hr : Rep b Q) (h : ∀ p, levels[p]? = b.aggOf (Q s p)) :
    (levels.keys.flatMap (Q s)).Nodup ∧ (∀ n, n ∈ levels.keys.flatMap (Q s) ↔ ∃ p, n ∈ Q s p) ∧
      (levels.keys.flatMap (Q s)).length = weigh (fun _ agg => agg.orders.toNat) levels := by
  refine ⟨?_, ?_, ?_⟩
  · rw [List.nodup_flatMap]
    refine ⟨fun p _ => hr.nodup s p, Std.TreeMap.nodup_keys.imp ?_⟩
    intro p p' hne n hn hn'
    exact hne (hr.queue_unique hn' hn).2
  · intro n
    rw [List.mem_flatMap]
    constructor
    · intro hn
      obtain ⟨p, -, hn⟩ := hn
      exact ⟨p, hn⟩
    · intro hn
      obtain ⟨p, hn⟩ := hn
      exact ⟨p, (hr.mem_keys h p).mpr (hr.absent_of hn), hn⟩
  · rw [List.length_flatMap, ← Std.TreeMap.map_fst_toList_eq_keys, List.map_map, weigh]
    congr 1
    apply List.map_congr_left
    intro x hx
    have hget := Std.TreeMap.mem_toList_iff_getElem?_eq_some.mp hx
    rw [h, aggOf] at hget
    split at hget
    · cases hget
    · show (Q s x.1).length = x.2.orders.toNat
      rw [← Option.some.inj hget]
      exact (UInt32.toNat_ofNat_of_lt' (hr.length_lt s x.1)).symm

/-- The level slots of a side. -/
theorem Rep.side_levels (hr : Rep b Q) (h : ∀ p, levels[p]? = b.aggOf (Q s p)) :
    (levels.keys.map fun p => (b.levelIx s p).toNat).Nodup ∧
      ∀ n : ℕ, n ∈ levels.keys.map (fun p => (b.levelIx s p).toNat) ↔ ∃ p, b.levelIx s p = n := by
  constructor
  · apply Std.TreeMap.nodup_keys.map_on
    intro p hp p' hp' he
    have hx := (hr.mem_keys h p).mp hp
    have hx' := (hr.mem_keys h p').mp hp'
    exact (hr.inj s p s p' hx (by omega)).2.symm
  · intro n
    rw [List.mem_map]
    constructor
    · intro hn
      obtain ⟨p, hp, rfl⟩ := hn
      have hx := (hr.mem_keys h p).mp hp
      exact ⟨p, by omega⟩
    · intro hn
      obtain ⟨p, hp⟩ := hn
      exact ⟨p, (hr.mem_keys h p).mpr (by omega), by omega⟩

end Levels

/-- Free slots and resting orders fill the order pool. -/
theorem Agrees.orders_filled (ha : Agrees b Q m) (hr : Rep b Q) (hlen : b.orders.length ≤ 2 ^ 31) :
    b.freeOrders.length + m.slotsInUse = b.orders.length := by
  have hbids : ∀ p, m.bids[p]? = b.aggOf (Q .buy p) := ha.levels .buy
  have hasks : ∀ p, m.asks[p]? = b.aggOf (Q .sell p) := ha.levels .sell
  obtain ⟨hnd, hmem, hcount⟩ := hr.side_slots hbids
  obtain ⟨hnd', hmem', hcount'⟩ := hr.side_slots hasks
  have hall : (m.bids.keys.flatMap (Q .buy) ++ m.asks.keys.flatMap (Q .sell)).Nodup := by
    apply List.Nodup.append hnd hnd'
    intro n hn hn'
    obtain ⟨p, hp⟩ := (hmem n).mp hn
    obtain ⟨p', hp'⟩ := (hmem' n).mp hn'
    cases (hr.queue_unique hp hp').1
  have hlength := (hr.order_partition hlen).length hall fun n => by
    rw [hr.slotUsed_iff, List.mem_append, hmem, hmem', exists_side]
  rwa [List.length_append, hcount, hcount'] at hlength

/-- Free slots and levels in use fill the level pool. -/
theorem Agrees.levels_filled (ha : Agrees b Q m) (hr : Rep b Q) (hlen : b.levels.length ≤ 2 ^ 31) :
    b.freeLevels.length + m.levelsInUse = b.levels.length := by
  have hbids : ∀ p, m.bids[p]? = b.aggOf (Q .buy p) := ha.levels .buy
  have hasks : ∀ p, m.asks[p]? = b.aggOf (Q .sell p) := ha.levels .sell
  obtain ⟨hnd, hmem⟩ := hr.side_levels hbids
  obtain ⟨hnd', hmem'⟩ := hr.side_levels hasks
  have hall : (m.bids.keys.map (fun p => (b.levelIx .buy p).toNat) ++
      m.asks.keys.map fun p => (b.levelIx .sell p).toNat).Nodup := by
    apply List.Nodup.append hnd hnd'
    intro n hn hn'
    obtain ⟨p, hp⟩ := (hmem n).mp hn
    obtain ⟨p', hp'⟩ := (hmem' n).mp hn'
    cases (hr.inj .buy p .sell p' (by omega) (by omega)).1
  have hlength := (hr.level_partition hlen).length hall fun n => by
    rw [levelUsed, List.mem_append, hmem, hmem', exists_side]
    simp only [hr.grid.lookupLevel_eq, Option.some.injEq]
  rwa [List.length_append, List.length_map, List.length_map, Std.TreeMap.length_keys,
    Std.TreeMap.length_keys] at hlength

/-! ### What rejects an operation -/

/-- The sizes of the pools and of the id table. -/
structure Pooled (maxOrders maxLevels : ℕ) (b : HybridBook) : Prop where
  orders : b.orders.length = maxOrders
  levels : b.levels.length = maxLevels
  table : b.ids.slots.length = maxOrders

variable {maxOrders maxLevels : ℕ}

theorem Pooled.same (h : Pooled maxOrders maxLevels b) (hs : SameSize b b') :
    Pooled maxOrders maxLevels b' :=
  ⟨hs.orders.trans h.orders, hs.levels.trans h.levels, hs.table.trans h.table⟩

theorem Agrees.isSome_record (ha : Agrees b Q m) (hr : Rep b Q) (href : ref ≠ OpenHashMap.kEmpty) :
    m.orders[ref]?.isSome = (OpenHashMap.lookup b.ids ref).isSome := by
  cases hl : OpenHashMap.lookup b.ids ref with
  | none =>
    rw [ha.no_record href hl]
    rfl
  | some i =>
    obtain ⟨n, s, p, rfl, hn, -⟩ := hr.named ref href i hl
    rw [ha.record href hl hn]
    rfl

theorem Agrees.isSome_level (ha : Agrees b Q m) (hr : Rep b Q) (s : Side) (p : Price) :
    (m.level s p).isSome = true ↔ 0 ≤ b.levelIx s p := by
  rw [ha.levels, aggOf]
  by_cases hx : 0 ≤ b.levelIx s p
  · rw [if_neg (hr.live s p hx)]
    exact iff_of_true rfl hx
  · rw [if_pos (hr.absent s p (by omega))]
    exact iff_of_false Bool.false_ne_true hx

theorem Agrees.tableRoom_iff (ha : Agrees b Q m) (hr : Rep b Q) (href : ref ≠ OpenHashMap.kEmpty) :
    MapBook.tableRoom b.ids.slots.length m ref = true ↔
      OpenHashMap.lookup b.ids ref ≠ none ∨ b.ids.size + 1 ≤ b.ids.limit := by
  rw [MapBook.tableRoom, Bool.or_eq_true, decide_eq_true_iff, ha.isSome_record hr href, ha.size,
    Option.isSome_iff_ne_none]
  rfl

/-- The pools have room exactly where the reference book leaves it. -/
theorem Agrees.poolRoom_iff (ha : Agrees b Q m) (hr : Rep b Q) (hp : Pooled maxOrders maxLevels b)
    (hs : Small b) (href : ref ≠ OpenHashMap.kEmpty) (s : Side) (p : Price) :
    MapBook.poolRoom maxOrders maxLevels m ref s p = true ↔ ¬NoRoom b s p ∧
      (OpenHashMap.lookup b.ids ref ≠ none ∨ b.ids.size + 1 ≤ b.ids.limit) := by
  have horders := ha.orders_filled hr hs.orders
  have hlevels := ha.levels_filled hr hs.levels
  have htable := ha.tableRoom_iff hr href
  rw [hp.table] at htable
  rw [hp.orders] at horders
  rw [hp.levels] at hlevels
  have hfree : m.slotsInUse < maxOrders ↔ b.freeOrders ≠ [] := by
    rw [← List.length_pos_iff]
    omega
  have hfree' : m.levelsInUse < maxLevels ↔ b.freeLevels ≠ [] := by
    rw [← List.length_pos_iff]
    omega
  rw [MapBook.poolRoom, Bool.and_eq_true, Bool.and_eq_true, Bool.or_eq_true, decide_eq_true_iff,
    decide_eq_true_iff, htable, hfree, hfree', ha.isSome_level hr, NoRoom, not_or, not_and_or, not_lt]

/-- The table takes the new slot in, or it turns it away at its load limit. -/
theorem Pushed.taken_iff {n : ℕ} (hp : Pushed b b' n ref s p qty) (ht : b.ids.WF OpenHashMap.hash)
    (href : ref ≠ OpenHashMap.kEmpty) : b'.rejected = b.rejected ↔
      OpenHashMap.lookup b.ids ref ≠ none ∨ b.ids.size + 1 ≤ b.ids.limit := by
  rcases ht.insert_spec href (n : ℤ) with ⟨hnone, hfull, hi⟩ | ⟨ids, hi, -, -, -, hsize⟩
  · rcases hp.table with ⟨h, -⟩ | ⟨-, hrej⟩
    · rw [hi] at h
      cases (Prod.mk.inj (Option.some.inj h)).2
    · apply iff_of_false
      · omega
      · rintro (h | h)
        · exact h hnone
        · omega
  · rcases hp.table with ⟨-, hrej⟩ | ⟨h, -⟩
    · apply iff_of_true hrej
      rcases hsize with ⟨hl, -⟩ | ⟨-, hle, -⟩
      · exact Or.inl hl
      · exact Or.inr hle
    · rw [hi] at h
      cases (Prod.mk.inj (Option.some.inj h)).2

theorem Rep.add_taken_iff (hr : Rep b Q) (ha : Agrees b Q m) (hp : Pooled maxOrders maxLevels b)
    (hs : Small b) (href : ref ≠ OpenHashMap.kEmpty) (h : b.add ref s p qty = some b') :
    b'.rejected = b.rejected ↔
      (qty = 0 || MapBook.poolRoom maxOrders maxLevels m ref s p) = true := by
  rw [Bool.or_eq_true, decide_eq_true_iff, ha.poolRoom_iff hr hp hs href]
  by_cases hqty : qty = 0
  · rw [hqty, add_zero] at h
    obtain rfl := Option.some.inj h
    exact iff_of_true rfl (Or.inl hqty)
  · by_cases hroom : NoRoom b s p
    · rw [hr.add_noRoom ref hqty hroom] at h
      obtain rfl := Option.some.inj h
      apply iff_of_false
      · exact Nat.succ_ne_self _
      · rintro (h0 | h0)
        · exact hqty h0
        · exact h0.1 hroom
    · rcases hr.add_cases href s p hqty with ⟨-, h'⟩ | ⟨hno, -⟩ | ⟨n, b1, h', -, -, hpush⟩
      · rw [h'] at h
        cases h
      · exact absurd hno hroom
      · rw [h'] at h
        obtain rfl := Option.some.inj h
        rw [hpush.taken_iff hr.table href]
        constructor
        · exact fun h => Or.inr ⟨hroom, h⟩
        · exact fun h => (h.resolve_left hqty).2

/-- An operation is taken exactly where it fits the reference book. -/
theorem Rep.step_taken_iff (hr : Rep b Q) (ha : Agrees b Q m) (hp : Pooled maxOrders maxLevels b)
    (hs : Small b) (op : Op) (hrefs : ∀ ref ∈ op.refs, ref ≠ OpenHashMap.kEmpty)
    (h : b.step op = some b') : b'.rejected = b.rejected ↔
      m.fits (MapBook.poolRoom maxOrders maxLevels) op = true := by
  cases op with
  | add ref s p qty => exact hr.add_taken_iff ha hp hs (hrefs ref (by simp [Op.refs])) h
  | execute ref qty =>
    exact iff_of_true (hr.reduce_sim (hrefs ref (by simp [Op.refs])) qty h).1 rfl
  | cancel ref qty =>
    exact iff_of_true (hr.reduce_sim (hrefs ref (by simp [Op.refs])) qty h).1 rfl
  | remove ref =>
    refine iff_of_true ?_ rfl
    rcases hr.remove_cases (hrefs ref (by simp [Op.refs])) with
      ⟨-, h'⟩ | ⟨n, s, p, l, r, b1, -, -, -, -, h', -, hpull⟩
    · rw [step, h'] at h
      obtain rfl := Option.some.inj h
      rfl
    · rw [step, h'] at h
      obtain rfl := Option.some.inj h
      exact hpull.rejected
  | replace ref new p' qty =>
    have href := hrefs ref (by simp [Op.refs])
    have hnew := hrefs new (by simp [Op.refs])
    rcases hr.replace_cases href new p' qty with
      ⟨hl, h'⟩ | ⟨n, s, p, l, r, b1, hl, hq, -, -, -, hr1, hpull, h'⟩
    · rw [step, h'] at h
      obtain rfl := Option.some.inj h
      rw [MapBook.fits, ha.no_record href hl]
      exact iff_of_true rfl rfl
    · rw [step, h'] at h
      have hrec := ha.record href hl (by simp [hq] : n ∈ Q s p)
      have ha1 : Agrees b1 (set2 Q s p (l ++ r)) (m.remove ref) := by
        simp only [MapBook.remove, hrec, MapBook.orders_detach]
        exact ha.pull hr href hl hq hpull
      rw [MapBook.fits, hrec, ← hpull.rejected]
      exact hr1.add_taken_iff ha1 (hp.same hpull.sameSize) (hpull.small hs) hnew h
  | clear =>
    obtain rfl := Option.some.inj h
    exact iff_of_true rfl rfl

/-- A run rejects nothing exactly where each operation fits. -/
theorem Rep.run_taken_iff (hr : Rep b Q) (ha : Agrees b Q m) (hp : Pooled maxOrders maxLevels b)
    (hs : Small b) (ops : List Op) (hrefs : ∀ op ∈ ops, ∀ ref ∈ op.refs, ref ≠ OpenHashMap.kEmpty)
    (h : Design.run b ops = some b') : b'.rejected = b.rejected ↔
      m.fitsAll (MapBook.poolRoom maxOrders maxLevels) ops = true := by
  induction ops generalizing b Q m with
  | nil =>
    obtain rfl := Option.some.inj h
    exact iff_of_true rfl rfl
  | cons op ops ih =>
    obtain ⟨b1, h1, hrest⟩ := Option.bind_eq_some_iff.mp h
    have hop := hrefs op (List.mem_cons_self ..)
    have hops : ∀ op ∈ ops, ∀ ref ∈ op.refs, ref ≠ OpenHashMap.kEmpty :=
      fun op hm => hrefs op (List.mem_cons_of_mem _ hm)
    obtain ⟨hle, Q1, hr1, hagree⟩ := hr.step_sim op hop h1
    obtain ⟨b2, h2, hs1⟩ := hr.step_total hs op hop
    obtain rfl : b1 = b2 := Option.some.inj (h1.symm.trans h2)
    have hle' := (hr1.run_rep ops hops hrest).1
    rw [MapBook.fitsAll, Bool.and_eq_true, ← hr.step_taken_iff ha hp hs op hop h1]
    constructor
    · intro hrej
      have hrej1 : b1.rejected = b.rejected := by omega
      refine ⟨hrej1, ?_⟩
      rw [← ih hr1 (hagree m ha hrej1) (hp.same (hr.step_size op hop h1)) hs1 hops hrest]
      omega
    · rintro ⟨hrej1, hfits⟩
      rw [← ih hr1 (hagree m ha hrej1) (hp.same (hr.step_size op hop h1)) hs1 hops hrest] at hfits
      omega

end HybridBook

/-! ### The flat book's table -/

namespace FlatBook

variable {b b' : FlatBook} {m : MapBook} {s : Side} {p : Price} {ref : OrderId} {qty : Qty} {r : Rec}

/-- The id table holds the reference book's records. -/
structure Recorded (b : FlatBook) (m : MapBook) : Prop where
  records : ∀ k ≠ OpenHashMap.kEmpty, m.orders[k]? = OpenHashMap.lookup b.ids k
  size : m.orders.size = b.ids.size

theorem Recorded.room_iff (h : Recorded b m) (href : ref ≠ OpenHashMap.kEmpty) :
    MapBook.recordRoom b.ids.slots.length m ref s p = true ↔
      OpenHashMap.lookup b.ids ref ≠ none ∨ b.ids.size + 1 ≤ b.ids.limit := by
  rw [MapBook.recordRoom, MapBook.tableRoom, Bool.or_eq_true, decide_eq_true_iff, h.records ref href, h.size,
    Option.isSome_iff_ne_none]
  rfl

theorem Sound.taken_iff (h : Sound b) (href : ref ≠ OpenHashMap.kEmpty) (hq : qty ≠ 0)
    (hrun : b.add ref s p qty = some b') : b'.rejected = b.rejected ↔
      OpenHashMap.lookup b.ids ref ≠ none ∨ b.ids.size + 1 ≤ b.ids.limit := by
  rcases h.table.insert_spec href ⟨p, qty, s⟩ with ⟨hnone, hfull, hi⟩ | ⟨ids, hi, -, -, -, hsize⟩
  · simp only [FlatBook.add, if_neg hq, hi, Option.bind_eq_bind, Option.bind_some] at hrun
    obtain rfl := Option.some.inj hrun
    apply iff_of_false
    · exact Nat.succ_ne_self _
    · rintro (hl | hle)
      · exact hl hnone
      · omega
  · have hids : Sized { b with ids := ids } := h.toSized.keep rfl rfl rfl rfl
    obtain ⟨b1, hdep, -, hk, -⟩ := hids.arrive s p qty
    simp only [FlatBook.add, if_neg hq, hi, Option.bind_eq_bind, Option.bind_some] at hrun
    obtain rfl : b1 = b' := Option.some.inj (hdep.symm.trans hrun)
    apply iff_of_true hk.rejected
    rcases hsize with ⟨hl, -⟩ | ⟨-, hle, -⟩
    · exact Or.inl hl
    · exact Or.inr hle

theorem Recorded.add (h : Recorded b m) (hs : Sound b) (href : ref ≠ OpenHashMap.kEmpty)
    (hrun : b.add ref s p qty = some b') :
    (b'.rejected = b.rejected ↔
      (qty = 0 || MapBook.recordRoom b.ids.slots.length m ref s p) = true) ∧
    (b'.rejected = b.rejected → Recorded b' (m.add ref s p qty)) := by
  rw [Bool.or_eq_true, decide_eq_true_iff, h.room_iff href]
  by_cases hq : qty = 0
  · rw [hq, add_zero] at hrun
    obtain rfl := Option.some.inj hrun
    rw [MapBook.add, if_pos hq]
    exact ⟨iff_of_true rfl (Or.inl hq), fun _ => h⟩
  · rw [or_iff_right hq]
    refine ⟨hs.taken_iff href hq hrun, fun hrej => ?_⟩
    rcases hs.add href s p hq with ⟨-, hrun'⟩ | ⟨b1, hrun', -, -, hlook, hsize⟩
    · rw [hrun'] at hrun
      obtain rfl := Option.some.inj hrun
      exact absurd hrej (Nat.succ_ne_self _)
    · rw [hrun'] at hrun
      obtain rfl := Option.some.inj hrun
      constructor
      · intro k hk
        rw [MapBook.orders_add _ _ _ _ hq, getElem?_insert_if, hlook k hk, h.records k hk]
      · rw [MapBook.orders_add _ _ _ _ hq, size_insert_if, h.records ref href, h.size, hsize]

/-- An order that leaves takes its record with it. -/
theorem Recorded.retire (h : Recorded b m) (hs : Sound b) (href : ref ≠ OpenHashMap.kEmpty)
    (hl : OpenHashMap.lookup b.ids ref = some r) :
    ∃ b', b.retire ref r = some b' ∧ Sound b' ∧ b'.rejected = b.rejected ∧
      Recorded b' (withdraw m ref r) := by
  obtain ⟨b', hrun, hs', hc, hlook, hsize⟩ := hs.retire href hl
  refine ⟨b', hrun, hs', hc.rejected, ?_, ?_⟩
  · intro k hk
    show (m.orders.erase ref)[k]? = _
    rw [getElem?_erase_if, hlook k hk, h.records k hk]
  · show (m.orders.erase ref).size = _
    rw [size_erase_if, h.records ref href, hl, h.size, ← hsize]
    rfl

theorem Recorded.reduce (h : Recorded b m) (hs : Sound b) (href : ref ≠ OpenHashMap.kEmpty)
    (hrun : b.reduce ref qty = some b') :
    b'.rejected = b.rejected ∧ Recorded b' (m.reduce ref qty) := by
  have hrec := h.records ref href
  cases hl : OpenHashMap.lookup b.ids ref with
  | none =>
    rw [hl] at hrec
    rw [hs.reduce_none href hl] at hrun
    obtain rfl := Option.some.inj hrun
    simp only [MapBook.reduce, hrec, true_and]
    exact h
  | some r =>
    rw [hl] at hrec
    by_cases hlt : qty < r.qty
    · obtain ⟨b1, h', -, hc, hlook, hsize⟩ := hs.cut href hl hlt
      rw [h'] at hrun
      obtain rfl := Option.some.inj hrun
      have horders := (HybridBook.level_reduce hrec hlt).1
      refine ⟨hc.rejected, fun k hk => ?_, ?_⟩
      · rw [horders, getElem?_insert_if, hlook k hk, h.records k hk]
      · rw [horders, size_insert_if, hrec, hsize, h.size]
        rfl
    · obtain ⟨b1, h', -, hrej, hrec'⟩ := h.retire hs href hl
      rw [hs.reduce_all href hl hlt, h'] at hrun
      obtain rfl := Option.some.inj hrun
      rw [withdraw_reduce hrec hlt]
      exact ⟨hrej, hrec'⟩

/-- An operation is taken exactly where the table has room for it, and the records go on
agreeing. -/
theorem Recorded.step (h : Recorded b m) (hs : Sound b) (op : Op)
    (hrefs : ∀ ref ∈ op.refs, ref ≠ OpenHashMap.kEmpty) (hrun : b.step op = some b') :
    (b'.rejected = b.rejected ↔ m.fits (MapBook.recordRoom b.ids.slots.length) op = true) ∧
    (b'.rejected = b.rejected → Recorded b' (m.step op)) := by
  cases op with
  | add ref s p qty => exact h.add hs (hrefs ref (by simp [Op.refs])) hrun
  | execute ref qty =>
    obtain ⟨hrej, h'⟩ := h.reduce hs (hrefs ref (by simp [Op.refs])) hrun
    exact ⟨iff_of_true hrej rfl, fun _ => h'⟩
  | cancel ref qty =>
    obtain ⟨hrej, h'⟩ := h.reduce hs (hrefs ref (by simp [Op.refs])) hrun
    exact ⟨iff_of_true hrej rfl, fun _ => h'⟩
  | remove ref =>
    have href := hrefs ref (by simp [Op.refs])
    have hrec := h.records ref href
    simp only [FlatBook.step, FlatBook.remove, hs.table.find_spec href, Option.bind_eq_bind,
      Option.bind_some] at hrun
    cases hl : OpenHashMap.lookup b.ids ref with
    | none =>
      rw [hl] at hrun hrec
      obtain rfl := Option.some.inj hrun
      have hm : m.remove ref = m := by simp only [MapBook.remove, hrec]
      rw [MapBook.step, hm]
      exact ⟨iff_of_true rfl rfl, fun _ => h⟩
    | some r =>
      rw [hl] at hrun hrec
      obtain ⟨b1, h', -, hrej, hrec'⟩ := h.retire hs href hl
      dsimp only at hrun
      rw [h'] at hrun
      obtain rfl := Option.some.inj hrun
      rw [MapBook.step, withdraw_remove hrec]
      exact ⟨iff_of_true hrej rfl, fun _ => hrec'⟩
  | replace ref new p qty =>
    have href := hrefs ref (by simp [Op.refs])
    have hrec := h.records ref href
    simp only [FlatBook.step, FlatBook.replace, hs.table.find_spec href, Option.bind_eq_bind,
      Option.bind_some] at hrun
    cases hl : OpenHashMap.lookup b.ids ref with
    | none =>
      rw [hl] at hrun hrec
      obtain rfl := Option.some.inj hrun
      have hm : m.replace ref new p qty = m := by simp only [MapBook.replace, hrec]
      rw [MapBook.fits, MapBook.step, hrec, hm]
      exact ⟨iff_of_true rfl rfl, fun _ => h⟩
    | some r =>
      rw [hl] at hrun hrec
      obtain ⟨b1, h', hs1, hrej, h1⟩ := h.retire hs href hl
      have hlen := (hs.retire_size href h').table
      simp only [h', Option.bind_some] at hrun
      rw [MapBook.fits, MapBook.step, hrec, withdraw_replace hrec, ← hrej, ← hlen,
        withdraw_remove hrec]
      exact h1.add hs1 (hrefs new (by simp [Op.refs])) hrun
  | clear =>
    obtain rfl := Option.some.inj hrun
    obtain ⟨-, -, hsize, hnone⟩ := hs.table.clear
    refine ⟨iff_of_true rfl rfl, fun _ => ⟨fun k hk => ?_, hsize.symm⟩⟩
    exact (hnone k hk).symm

theorem Recorded.run_taken_iff (h : Recorded b m) (hs : Sound b) (ops : List Op)
    (hrefs : ∀ op ∈ ops, ∀ ref ∈ op.refs, ref ≠ OpenHashMap.kEmpty)
    (hrun : Design.run b ops = some b') : b'.rejected = b.rejected ↔
      m.fitsAll (MapBook.recordRoom b.ids.slots.length) ops = true := by
  induction ops generalizing b m with
  | nil =>
    obtain rfl := Option.some.inj hrun
    exact iff_of_true rfl rfl
  | cons op ops ih =>
    obtain ⟨b1, h1, hrest⟩ := Option.bind_eq_some_iff.mp hrun
    have hop := hrefs op (List.mem_cons_self ..)
    have hops : ∀ op ∈ ops, ∀ ref ∈ op.refs, ref ≠ OpenHashMap.kEmpty :=
      fun op hm => hrefs op (List.mem_cons_of_mem _ hm)
    obtain ⟨b2, h2, hs1, hle⟩ := hs.step op hop
    obtain rfl : b1 = b2 := Option.some.inj (h1.symm.trans h2)
    obtain ⟨b3, h3, -, hle'⟩ := hs1.run ops hops
    obtain rfl : b' = b3 := Option.some.inj (hrest.symm.trans h3)
    obtain ⟨htaken, hnext⟩ := h.step hs op hop h1
    have hlen := (hs.step_size op hop h1).table
    rw [MapBook.fitsAll, Bool.and_eq_true, ← htaken]
    constructor
    · intro hrej
      have hrej1 : b1.rejected = b.rejected := by omega
      refine ⟨hrej1, ?_⟩
      rw [← hlen, ← ih (hnext hrej1) hs1 hops hrest]
      omega
    · rintro ⟨hrej1, hfits⟩
      rw [← hlen, ← ih (hnext hrej1) hs1 hops hrest] at hfits
      omega

end FlatBook

/-! ### Runs -/

theorem HybridBook.Pooled.make {lo hi : Price} {maxOrders maxLevels : ℕ} {b : HybridBook}
    (h : HybridBook.make lo hi maxOrders maxLevels = some b) :
    HybridBook.Pooled maxOrders maxLevels b := by
  obtain ⟨-, -, -, -, horders, hlevels, -⟩ := HybridBook.Rep.make h
  obtain ⟨-, ids, ticks, hids, -, rfl⟩ := HybridBook.make_some h
  exact ⟨horders, hlevels, (OpenHashMap.WF.make (h := OpenHashMap.hash) hids).2.1⟩

theorem FlatBook.make_slots {lo hi : Price} {maxOrders : ℕ} {b : FlatBook}
    (h : FlatBook.make lo hi maxOrders = some b) : b.ids.slots.length = maxOrders := by
  have htick : FlatBook.kTick = 100 := rfl
  by_cases hwin : hi < lo - lo % 100
  · simp [FlatBook.make, htick, if_pos hwin] at h
  · simp only [FlatBook.make, htick, if_neg hwin, Option.bind_eq_bind] at h
    obtain ⟨ids, hids, h⟩ := Option.bind_eq_some_iff.mp h
    obtain rfl := Option.some.inj h
    exact (OpenHashMap.WF.make (h := OpenHashMap.hash) hids).2.1

/-- Whatever the window, a run of a bounded design rejects nothing exactly where each
operation fits the reference book it meets: the pools are used up by what rests there,
and by nothing else. -/
theorem rejects_where_full (ops : List Op) (hrefs : ∀ op ∈ ops, ∀ ref ∈ op.refs, ref ≠ 0) :
    (∀ (lo hi : Price) (maxOrders maxLevels : ℕ) (b0 : HybridBook),
      HybridBook.make lo hi maxOrders maxLevels = some b0 → maxOrders ≤ 2 ^ 31 →
      maxLevels ≤ 2 ^ 31 → ∃ b, Design.run b0 ops = some b ∧ (b.rejected = 0 ↔
        MapBook.empty.fitsAll (MapBook.poolRoom maxOrders maxLevels) ops = true)) ∧
    (∀ (maxOrders maxLevels : ℕ) (i0 : IntrusiveBook),
      IntrusiveBook.make maxOrders maxLevels = some i0 → maxOrders ≤ 2 ^ 31 →
      maxLevels ≤ 2 ^ 31 → ∃ i, Design.run i0 ops = some i ∧ (i.rejected = 0 ↔
        MapBook.empty.fitsAll (MapBook.poolRoom maxOrders maxLevels) ops = true)) ∧
    ∀ (lo hi : Price) (maxOrders : ℕ) (f0 : FlatBook), FlatBook.make lo hi maxOrders = some f0 →
      ∃ f, Design.run f0 ops = some f ∧ (f.rejected = 0 ↔
        MapBook.empty.fitsAll (MapBook.recordRoom maxOrders) ops = true) := by
  have hhybrid : ∀ (lo hi : Price) (maxOrders maxLevels : ℕ) (b0 : HybridBook),
      HybridBook.make lo hi maxOrders maxLevels = some b0 → maxOrders ≤ 2 ^ 31 →
      maxLevels ≤ 2 ^ 31 → ∃ b, Design.run b0 ops = some b ∧ (b.rejected = 0 ↔
        MapBook.empty.fitsAll (MapBook.poolRoom maxOrders maxLevels) ops = true) := by
    intro lo hi maxOrders maxLevels b0 hmake ho hl
    obtain ⟨hr, ha⟩ := HybridBook.Agrees.make hmake
    obtain ⟨-, -, hrej, -, horders, hlevels, -⟩ := HybridBook.Rep.make hmake
    have hs : HybridBook.Small b0 := ⟨by rwa [horders], by rwa [hlevels]⟩
    obtain ⟨b, hrun⟩ := hr.run_total hs ops hrefs
    refine ⟨b, hrun, ?_⟩
    rw [← hr.run_taken_iff ha (HybridBook.Pooled.make hmake) hs ops hrefs hrun, hrej]
  refine ⟨hhybrid, ?_, ?_⟩
  · intro maxOrders maxLevels i0 hmake ho hl
    obtain ⟨h0, hmk, ht0⟩ := IntrusiveBook.Twin.make hmake
    obtain ⟨h, hrun, hiff⟩ := hhybrid 0 0 maxOrders maxLevels h0 hmk ho hl
    have hrel := ht0.run (HybridBook.Rep.make hmk).1 ops hrefs
    rw [hrun] at hrel
    obtain ⟨i, hi, ht⟩ := rel_right hrel
    refine ⟨i, hi, ?_⟩
    rw [ht.rejected_eq, hiff]
  · intro lo hi maxOrders f0 hmake
    obtain ⟨hs, hrej, hsize, -, hnone, -⟩ := FlatBook.Sound.make hmake
    obtain ⟨f, hrun, -⟩ := hs.run ops hrefs
    have hrec : FlatBook.Recorded f0 MapBook.empty :=
      ⟨fun k hk => (hnone k hk).symm, hsize.symm⟩
    refine ⟨f, hrun, ?_⟩
    rw [← FlatBook.make_slots hmake, ← hrec.run_taken_iff hs ops hrefs hrun, hrej]

theorem rejects_where_full_two : ∃ (b0 b : HybridBook), HybridBook.make 100 300 4 1 = some b0 ∧
    Design.run b0 [.add 1 .buy 200 5, .add 2 .sell 300 5] = some b ∧ b.rejected ≠ 0 := by
  have hsome : (HybridBook.make 100 300 4 1).isSome = true := by decide +kernel
  obtain ⟨b0, hmake⟩ := Option.isSome_iff_exists.mp hsome
  obtain ⟨b, hrun, hiff⟩ := (rejects_where_full [.add 1 .buy 200 5, .add 2 .sell 300 5]
    (by simp [Op.refs])).1 100 300 4 1 b0 hmake (by norm_num) (by norm_num)
  refine ⟨b0, b, hmake, hrun, fun hrej => ?_⟩
  have hfits := hiff.mp hrej
  revert hfits
  decide +kernel

end Hotpath.Book
