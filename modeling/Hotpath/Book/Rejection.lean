import Hotpath.Book.HybridQueues
import Hotpath.Book.IntrusiveRefine

/-!
# Rejected operations

The counter of rejections is read by no operation. An addition that a pool turns
away changes nothing else. One that the id table turns away has been linked into
its level by then and stays there, under no ref. A replacement has just freed an
order slot and an entry of the table, so only the level pool can turn it away.
-/

namespace Hotpath.Book
open Hotpath.Support

/-- What every design answers. -/
structure Reading where
  snapshot : Option Snapshot
  best : Side → Option Price
  orderCount : ℕ

class Readable (B : Type) where
  reading : B → Reading
  rejected : B → ℕ

/-- What a design tells of its levels, each in its own terms. -/
class LevelCounts (B : Type) where
  Counts : Type
  counts : B → Counts

section Readings
variable {B : Type} [Design B] [Readable B] [LevelCounts B]

/-- `b'` answers every later run as `b` does, with one more rejection counted. -/
def AnswersAlike (b b' : B) : Prop :=
  ∀ later, Option.Rel (fun c c' => Readable.reading c' = Readable.reading c ∧
    LevelCounts.counts c' = LevelCounts.counts c ∧
    Readable.rejected c' = Readable.rejected c + 1) (Design.run b later) (Design.run b' later)

theorem AnswersAlike.counts_eq {b b' : B} (h : AnswersAlike b b') :
    LevelCounts.counts b' = LevelCounts.counts b := by
  have hnow := h []
  cases hnow with
  | some hcb => exact hcb.2.1

/-- What a rejected operation leaves of the state `b`: `counted` is a book with one
more rejection. -/
structure RejectsCleanly (counted : B → B) (noRoom : Side → Price → Prop) (b : B) : Prop where
  add : ∀ ref s p qty b', ref ≠ 0 → Design.step b (.add ref s p qty) = some b' →
    Readable.rejected b' = Readable.rejected b + 1 → (AnswersAlike b b' ↔ noRoom s p)
  replace : ∀ old new p qty b', old ≠ 0 → new ≠ 0 →
    Design.step b (.replace old new p qty) = some b' →
    Readable.rejected b' = Readable.rejected b + 1 →
    ∃ b1, Design.step b (.remove old) = some b1 ∧ b' = counted b1

end Readings

namespace HybridBook

instance : Readable HybridBook where
  reading b := ⟨b.snapshot, fun s => (b.best s).map Prod.fst, b.orderCount⟩
  rejected := rejected

/-- The levels made outside the window so far, and the orders `level_for` finds at a
price. -/
instance : LevelCounts HybridBook where
  Counts := ℕ × (Side → Price → Option (Option UInt32))
  counts b := (b.overflowOps, fun s p => (b.levelFor s p).map (Option.map Level.orders))

variable {b b' : HybridBook} {Q : Queues} {s : Side} {p : Price} {ref : OrderId} {qty : Qty}

/-- The book with `k` more rejections counted. -/
def bump (k : ℕ) (b : HybridBook) : HybridBook := { b with rejected := b.rejected + k }

theorem findOrCreateLevel_bump (k : ℕ) (b : HybridBook) (s : Side) (p : Price) :
    (b.bump k).findOrCreateLevel s p =
      (b.findOrCreateLevel s p).map fun x => (x.1.bump k, x.2) := by
  obtain ⟨lo, ticks, grid, over_, orders, levels, freeOrders, freeLevels, ids, rejected,
    overflowOps, nextSeq⟩ := b
  apply bind_eq_map
  intro existing
  apply ite_eq_map
  · rfl
  · cases freeLevels with
    | nil => rfl
    | cons li free =>
      apply bind_eq_map
      intro levels
      apply ite_eq_map
      · apply bind_eq_map
        intro slot
        apply bind_eq_map
        intro bits
        rfl
      · rfl

theorem dropLevel_bump (k : ℕ) (b : HybridBook) (s : Side) (li : ℤ) :
    (b.bump k).dropLevel s li = (b.dropLevel s li).map (bump k) := by
  apply bind_eq_map
  intro level
  apply ite_eq_map
  · apply bind_eq_map
    intro slot
    apply bind_eq_map
    intro bits
    rfl
  · rfl

theorem unlink_bump (k : ℕ) (b : HybridBook) (oi : ℤ) :
    (b.bump k).unlink oi = (b.unlink oi).map (bump k) := by
  apply bind_eq_map
  intro o
  apply bind_eq_map
  intro level
  apply bind_eq_map
  intro orders
  apply bind_eq_map
  intro orders
  apply bind_eq_map
  intro orders
  apply bind_eq_map
  intro levels
  apply ite_eq_map
  · exact dropLevel_bump k { b with orders := orders, levels := levels } o.side o.level
  · rfl

theorem retire_bump (k : ℕ) (b : HybridBook) (ref : OrderId) (oi : ℤ) :
    (b.bump k).retire ref oi = (b.retire ref oi).map (bump k) := by
  apply map_bind_eq_map (unlink_bump k b oi)
  intro a
  apply bind_eq_map
  intro x
  rfl

theorem enqueue_bump (k : ℕ) (b : HybridBook) (oi li : ℤ) (ref : OrderId) (s : Side) (qty : Qty) :
    (b.bump k).enqueue oi li ref s qty = (b.enqueue oi li ref s qty).map (bump k) := by
  apply bind_eq_map
  intro level
  apply bind_eq_map
  intro orders
  apply bind_eq_map
  intro orders
  apply bind_eq_map
  intro levels
  apply bind_eq_map
  rintro ⟨ids, ok⟩
  cases ok with
  | true => rfl
  | false =>
    simp only [bump, Option.pure_def, Option.map_some, Bool.false_eq_true, if_false,
      Nat.add_right_comm]

theorem add_bump (k : ℕ) (b : HybridBook) (ref : OrderId) (s : Side) (p : Price) (qty : Qty) :
    (b.bump k).add ref s p qty = (b.add ref s p qty).map (bump k) := by
  have hcount : ∀ a : HybridBook, some { a.bump k with rejected := (a.bump k).rejected + 1 } =
      (some { a with rejected := a.rejected + 1 }).map (bump k) := by
    intro a
    simp only [bump, Option.map_some, Nat.add_right_comm]
  obtain ⟨lo, ticks, grid, over_, orders, levels, freeOrders, freeLevels, ids, rejected,
    overflowOps, nextSeq⟩ := b
  apply ite_eq_map
  · rfl
  · cases freeOrders with
    | nil => exact hcount _
    | cons oi free =>
      apply map_bind_eq_map (findOrCreateLevel_bump k _ s p)
      rintro ⟨a, li⟩
      apply ite_eq_map
      · exact hcount a
      · exact enqueue_bump k { a with freeOrders := free } oi li ref s qty

theorem reduce_bump (k : ℕ) (b : HybridBook) (ref : OrderId) (qty : Qty) :
    (b.bump k).reduce ref qty = (b.reduce ref qty).map (bump k) := by
  apply bind_eq_map
  intro found
  cases found with
  | none => rfl
  | some oi =>
    apply bind_eq_map
    intro o
    apply ite_eq_map
    · exact retire_bump k b ref oi
    · apply bind_eq_map
      intro orders
      apply bind_eq_map
      intro levels
      rfl

/-- No operation reads the counter of rejections. -/
theorem step_bump (k : ℕ) (b : HybridBook) (op : Op) :
    (b.bump k).step op = (b.step op).map (bump k) := by
  cases op with
  | add ref s p qty => exact add_bump k b ref s p qty
  | execute ref qty => exact reduce_bump k b ref qty
  | cancel ref qty => exact reduce_bump k b ref qty
  | remove ref =>
    apply bind_eq_map
    intro found
    cases found with
    | none => rfl
    | some oi => exact retire_bump k b ref oi
  | replace ref new p qty =>
    apply bind_eq_map
    intro found
    cases found with
    | none => rfl
    | some oi =>
      apply bind_eq_map
      intro o
      apply map_bind_eq_map (retire_bump k b ref oi)
      intro a
      exact add_bump k a new o.side p qty
  | clear => rfl

theorem run_bump (k : ℕ) (b : HybridBook) (ops : List Op) :
    Design.run (b.bump k) ops = (Design.run b ops).map (bump k) := by
  induction ops generalizing b with
  | nil => rfl
  | cons op ops ih => exact map_bind_eq_map (step_bump k b op) ih

theorem best_bump (k : ℕ) (b : HybridBook) (s : Side) :
    (b.bump k).best s = (b.best s).map fun x => (x.1, x.2.bump k) := by
  have hgrid : (b.bump k).gridBest s = (b.gridBest s).map fun x => (x.1, x.2.bump k) := by
    rw [gridBest, gridBest]
    apply ite_eq_map
    · apply bind_eq_map
      intro hint
      rfl
    · apply bind_eq_map
      intro li
      apply ite_eq_map
      · apply bind_eq_map
        intro hint
        rfl
      · rfl
  apply map_bind_eq_map hgrid
  rintro ⟨g, a⟩
  apply ite_eq_map
  · rfl
  · apply ite_eq_map
    · rfl
    · rfl

theorem collectLoop_bump (k : ℕ) (b : HybridBook) (s : Side) (n : ℕ) (t : ℤ)
    (oit : List (Price × ℤ)) : (b.bump k).collectLoop s n t oit = b.collectLoop s n t oit := by
  induction n generalizing t oit with
  | zero => rfl
  | succ n ih =>
    simp only [collectLoop, ih]
    rfl

theorem snapshot_bump (k : ℕ) (b : HybridBook) : (b.bump k).snapshot = b.snapshot := by
  simp only [snapshot, collect, collectLoop_bump]
  rfl

theorem reading_bump (k : ℕ) (b : HybridBook) :
    Readable.reading (b.bump k) = Readable.reading b := by
  have hbest : ∀ s, ((b.bump k).best s).map Prod.fst = (b.best s).map Prod.fst := by
    intro s
    rw [best_bump, Option.map_map]
    rfl
  simp only [Readable.reading, snapshot_bump, hbest]
  rfl

theorem answersAlike_bump (b : HybridBook) : AnswersAlike b (b.bump 1) := by
  intro later
  rw [run_bump]
  apply rel_map
  intro c
  exact ⟨reading_bump 1 c, rfl, rfl⟩

/-! ### What turns an operation away -/

theorem Rep.add_noRoom (hr : Rep b Q) (ref : OrderId) (hqty : qty ≠ 0) (h : NoRoom b s p) :
    b.add ref s p qty = some (b.bump 1) := by
  cases hf : b.freeOrders with
  | nil =>
    simp only [add, if_neg hqty, hf]
    rw [← hf]
    rfl
  | cons oi free =>
    obtain ⟨hx, hl⟩ := h.resolve_left fun h0 => by rw [h0] at hf; cases hf
    simp only [add, if_neg hqty, hf, hr.grid.find_full hx hl, Option.bind_eq_bind,
      Option.bind_some]
    rw [if_pos (by omega), ← hf]
    rfl

/-- The order that the id table turns away is counted in its level. -/
theorem Pushed.counts_ne {m : ℕ} (hr : Rep b Q) (hr' : Rep b' (set2 Q s p (Q s p ++ [m]))) :
    LevelCounts.counts b' ≠ LevelCounts.counts b := by
  intro he
  have hlevel := congrFun (congrFun (congrArg Prod.snd he) s) p
  simp only [LevelCounts.counts] at hlevel
  have hlen := hr'.length_lt s p
  rw [set2_same, List.length_append, List.length_singleton] at hlen
  rcases hr'.levelFor_cases s p with ⟨hq', -⟩ | ⟨n', -, hlv', hok'⟩
  · rw [set2_same] at hq'
    exact List.append_ne_nil_of_right_ne_nil _ (List.cons_ne_nil m []) hq'
  · have horders := hok'.orders
    rw [set2_same, List.length_append, List.length_singleton] at horders
    rcases hr.levelFor_cases s p with ⟨-, hlv⟩ | ⟨n, -, hlv, hok⟩
    · rw [hlv, hlv'] at hlevel
      cases hlevel
    · rw [hlv, hlv'] at hlevel
      have hsame : (b'.lev n').orders = (b.lev n).orders :=
        Option.some.inj (Option.some.inj hlevel)
      rw [horders, hok.orders] at hsame
      have hnat := congrArg UInt32.toNat hsame
      rw [UInt32.toNat_ofNat', UInt32.toNat_ofNat', Nat.mod_eq_of_lt hlen,
        Nat.mod_eq_of_lt (by omega)] at hnat
      omega

theorem Rep.add_rejected (hr : Rep b Q) (href : ref ≠ OpenHashMap.kEmpty)
    (h : b.add ref s p qty = some b') (hrej : b'.rejected = b.rejected + 1) :
    AnswersAlike b b' ↔ NoRoom b s p := by
  have hqty : qty ≠ 0 := by
    rintro rfl
    rw [add_zero] at h
    obtain rfl := Option.some.inj h
    omega
  constructor
  · intro halike
    rcases hr.add_cases href s p hqty with ⟨-, h'⟩ | ⟨hroom, -⟩ | ⟨m, b1, h', hr1, -, -⟩
    · rw [h'] at h
      cases h
    · exact hroom
    · rw [h'] at h
      obtain rfl := Option.some.inj h
      exact absurd halike.counts_eq (Pushed.counts_ne hr hr1)
  · intro hroom
    rw [hr.add_noRoom ref hqty hroom] at h
    obtain rfl := Option.some.inj h
    exact answersAlike_bump b

/-- After its removal the order's slot and its entry of the table are free. -/
theorem Rep.replace_rejected (hr : Rep b Q) (href : ref ≠ OpenHashMap.kEmpty) {new : OrderId}
    (hnew : new ≠ OpenHashMap.kEmpty) (h : b.replace ref new p qty = some b')
    (hrej : b'.rejected = b.rejected + 1) :
    ∃ (m : ℕ) (s : Side) (b1 : HybridBook) (Q1 : Queues), (b.ord m).side = s ∧
      OpenHashMap.lookup b.ids ref = some (m : ℤ) ∧ (∃ p', m ∈ Q s p') ∧
      b.remove ref = some b1 ∧ b.retire ref m = some b1 ∧ Rep b1 Q1 ∧ NoRoom b1 s p ∧
      qty ≠ 0 ∧ b' = b1.bump 1 := by
  rcases hr.replace_cases href new p qty with
    ⟨-, h'⟩ | ⟨m, s, p', l, r, b1, hl, hq, -, hs, hretire, hr1, hp, h'⟩
  · rw [h'] at h
    obtain rfl := Option.some.inj h
    omega
  · rw [h'] at h
    have hrej1 : b'.rejected = b1.rejected + 1 := by rw [hp.rejected, hrej]
    have hremove : b.remove ref = some b1 := by
      simp only [remove, hr.table.find_spec href, hl, Option.bind_eq_bind, Option.bind_some]
      exact hretire
    have hqty : qty ≠ 0 := by
      rintro rfl
      rw [add_zero] at h
      obtain rfl := Option.some.inj h
      omega
    have hroom : NoRoom b1 s p := by
      rcases hr1.add_cases hnew s p hqty with ⟨-, ha⟩ | ⟨hroom, -⟩ | ⟨n, b2, ha, -, -, hpush⟩
      · rw [ha] at h
        cases h
      · exact hroom
      · rw [ha] at h
        obtain rfl := Option.some.inj h
        -- one entry fewer than a table within its limit
        have hload := hr.table.load
        have hsize := hp.size
        have hlimit : b1.ids.limit = b.ids.limit := by
          rw [OpenHashMap.limit, OpenHashMap.limit, hp.slots]
        rcases hr1.table.insert_spec hnew (n : ℤ) with ⟨-, hfull, -⟩ | ⟨ids, hins, -⟩
        · omega
        · rcases hpush.table with ⟨-, hsame⟩ | ⟨hins', -⟩
          · omega
          · rw [hins] at hins'
            exact absurd (Prod.mk.inj (Option.some.inj hins')).2 (by decide)
    refine ⟨m, s, b1, _, hs, hl, ⟨p', by simp [hq]⟩, hremove, hretire, hr1, hroom, hqty, ?_⟩
    rw [hr1.add_noRoom new hqty hroom] at h
    exact (Option.some.inj h).symm

end HybridBook

namespace IntrusiveBook
open HybridBook (Queues Rep Core)

variable {h : HybridBook} {i i' : IntrusiveBook} {Q : Queues} {s : Side} {p : Price}
  {ref : OrderId} {qty : Qty}

instance : Readable IntrusiveBook where
  reading b := ⟨b.snapshot, b.best, b.orderCount⟩
  rejected := rejected

/-- The levels of the pool in use, the lengths of the two vectors, and the orders
`level_at` finds at an index. -/
instance : LevelCounts IntrusiveBook where
  Counts := ℕ × ℕ × ℕ × (ℤ → Option UInt32)
  counts b := (b.levelsInUse, b.bidLevels, b.askLevels,
    fun k => (subscript b.levels k).map HybridBook.Level.orders)

def bump (k : ℕ) (b : IntrusiveBook) : IntrusiveBook := { b with rejected := b.rejected + k }

/-- The side's vector lists a level of this price. -/
def lists (b : IntrusiveBook) (s : Side) (p : Price) : Prop :=
  ∃ li ∈ b.idx s, ∃ level, subscript b.levels li = some level ∧ level.price = p

def NoRoom (b : IntrusiveBook) (s : Side) (p : Price) : Prop :=
  b.freeOrders = [] ∨ (¬b.lists s p ∧ b.freeLevels = [])

theorem findOrCreateLevel_bump (k : ℕ) (b : IntrusiveBook) (s : Side) (p : Price) :
    (b.bump k).findOrCreateLevel s p =
      (b.findOrCreateLevel s p).map fun x => (x.1.bump k, x.2) := by
  obtain ⟨orders, levels, freeOrders, freeLevels, idx, ids, rejected, creates, destroys,
    shifted⟩ := b
  apply bind_eq_map
  intro pos
  apply bind_eq_map
  intro existing
  cases existing with
  | some li => rfl
  | none =>
    cases freeLevels with
    | nil => rfl
    | cons li free =>
      apply bind_eq_map
      intro levels
      rfl

theorem dropLevel_bump (k : ℕ) (b : IntrusiveBook) (s : Side) (li : ℤ) :
    (b.bump k).dropLevel s li = (b.dropLevel s li).map (bump k) := by
  apply bind_eq_map
  intro level
  apply bind_eq_map
  intro pos
  apply ite_eq_map
  · rfl
  · rfl

theorem unlink_bump (k : ℕ) (b : IntrusiveBook) (oi : ℤ) :
    (b.bump k).unlink oi = (b.unlink oi).map (bump k) := by
  apply bind_eq_map
  intro o
  apply bind_eq_map
  intro level
  apply bind_eq_map
  intro orders
  apply bind_eq_map
  intro orders
  apply bind_eq_map
  intro orders
  apply bind_eq_map
  intro levels
  apply ite_eq_map
  · exact dropLevel_bump k { b with orders := orders, levels := levels } o.side o.level
  · rfl

theorem retire_bump (k : ℕ) (b : IntrusiveBook) (ref : OrderId) (oi : ℤ) :
    (b.bump k).retire ref oi = (b.retire ref oi).map (bump k) := by
  apply map_bind_eq_map (unlink_bump k b oi)
  intro a
  apply bind_eq_map
  intro x
  rfl

theorem enqueue_bump (k : ℕ) (b : IntrusiveBook) (oi li : ℤ) (ref : OrderId) (s : Side)
    (qty : Qty) :
    (b.bump k).enqueue oi li ref s qty = (b.enqueue oi li ref s qty).map (bump k) := by
  apply bind_eq_map
  intro level
  apply bind_eq_map
  intro orders
  apply bind_eq_map
  intro orders
  apply bind_eq_map
  intro levels
  apply bind_eq_map
  rintro ⟨ids, ok⟩
  cases ok with
  | true => rfl
  | false =>
    simp only [bump, Option.pure_def, Option.map_some, Bool.false_eq_true, if_false,
      Nat.add_right_comm]

theorem add_bump (k : ℕ) (b : IntrusiveBook) (ref : OrderId) (s : Side) (p : Price) (qty : Qty) :
    (b.bump k).add ref s p qty = (b.add ref s p qty).map (bump k) := by
  have hcount : ∀ a : IntrusiveBook, some { a.bump k with rejected := (a.bump k).rejected + 1 } =
      (some { a with rejected := a.rejected + 1 }).map (bump k) := by
    intro a
    simp only [bump, Option.map_some, Nat.add_right_comm]
  obtain ⟨orders, levels, freeOrders, freeLevels, idx, ids, rejected, creates, destroys,
    shifted⟩ := b
  apply ite_eq_map
  · rfl
  · cases freeOrders with
    | nil => exact hcount _
    | cons oi free =>
      apply map_bind_eq_map (findOrCreateLevel_bump k _ s p)
      rintro ⟨a, li⟩
      apply ite_eq_map
      · exact hcount a
      · exact enqueue_bump k { a with freeOrders := free } oi li ref s qty

theorem reduce_bump (k : ℕ) (b : IntrusiveBook) (ref : OrderId) (qty : Qty) :
    (b.bump k).reduce ref qty = (b.reduce ref qty).map (bump k) := by
  apply bind_eq_map
  intro found
  cases found with
  | none => rfl
  | some oi =>
    apply bind_eq_map
    intro o
    apply ite_eq_map
    · exact retire_bump k b ref oi
    · apply bind_eq_map
      intro orders
      apply bind_eq_map
      intro levels
      rfl

theorem step_bump (k : ℕ) (b : IntrusiveBook) (op : Op) :
    (b.bump k).step op = (b.step op).map (bump k) := by
  cases op with
  | add ref s p qty => exact add_bump k b ref s p qty
  | execute ref qty => exact reduce_bump k b ref qty
  | cancel ref qty => exact reduce_bump k b ref qty
  | remove ref =>
    apply bind_eq_map
    intro found
    cases found with
    | none => rfl
    | some oi => exact retire_bump k b ref oi
  | replace ref new p qty =>
    apply bind_eq_map
    intro found
    cases found with
    | none => rfl
    | some oi =>
      apply bind_eq_map
      intro o
      apply map_bind_eq_map (retire_bump k b ref oi)
      intro a
      exact add_bump k a new o.side p qty
  | clear => rfl

theorem run_bump (k : ℕ) (b : IntrusiveBook) (ops : List Op) :
    Design.run (b.bump k) ops = (Design.run b ops).map (bump k) := by
  induction ops generalizing b with
  | nil => rfl
  | cons op ops ih => exact map_bind_eq_map (step_bump k b op) ih

theorem reading_bump (k : ℕ) (b : IntrusiveBook) :
    Readable.reading (b.bump k) = Readable.reading b := rfl

theorem answersAlike_bump (b : IntrusiveBook) : AnswersAlike b (b.bump 1) := by
  intro later
  rw [run_bump]
  apply rel_map
  intro c
  exact ⟨reading_bump 1 c, rfl, rfl⟩

/-! ### What turns an operation away -/

theorem Twin.lists_iff (ht : Twin h i) (hp : Priced h) (s : Side) (p : Price) :
    i.lists s p ↔ 0 ≤ h.levelIx s p := by
  obtain ⟨ps, hl⟩ := ht.listed s
  rw [lists, ht.levels_eq, hl.eq]
  constructor
  · rintro ⟨li, hli, level, hsub, rfl⟩
    obtain ⟨q, hq, rfl⟩ := List.mem_map.mp hli
    obtain ⟨level', hsub', hprice⟩ := hp s q ((hl.mem q).mp hq)
    rw [hsub'] at hsub
    obtain rfl := Option.some.inj hsub
    rw [hprice]
    exact (hl.mem q).mp hq
  · intro hx
    obtain ⟨level, hsub, hprice⟩ := hp s p hx
    exact ⟨_, List.mem_map_of_mem ((hl.mem p).mpr hx), level, hsub, hprice⟩

theorem Twin.noRoom_iff (ht : Twin h i) (hp : Priced h) (s : Side) (p : Price) :
    NoRoom i s p ↔ HybridBook.NoRoom h s p := by
  have hfree : i.freeOrders = h.freeOrders ∧ i.freeLevels = h.freeLevels := by
    rw [ht.same]
    exact ⟨rfl, rfl⟩
  rw [NoRoom, HybridBook.NoRoom, ht.lists_iff hp, hfree.1, hfree.2, not_le]

/-- A level is found and nothing changes, or none is made, or one is taken from the
free list. -/
theorem findOrCreateLevel_cases {li : ℤ} (hf : i.findOrCreateLevel s p = some (i', li)) :
    i' = i ∨ (0 ≤ li ∧ i'.levels.length = i.levels.length ∧
      i'.freeLevels.length + 1 = i.freeLevels.length) := by
  simp only [findOrCreateLevel, Option.bind_eq_bind, Option.bind_eq_some_iff] at hf
  obtain ⟨pos, -, existing, -, hf⟩ := hf
  cases existing with
  | some li' =>
    obtain ⟨rfl, -⟩ := Prod.mk.inj (Option.some.inj hf)
    exact Or.inl rfl
  | none =>
    cases hfree : i.freeLevels with
    | nil =>
      simp only [hfree] at hf
      obtain ⟨rfl, -⟩ := Prod.mk.inj (Option.some.inj hf)
      exact Or.inl rfl
    | cons li' free =>
      simp only [hfree, Option.bind_eq_some_iff] at hf
      obtain ⟨levels, hl, hf⟩ := hf
      obtain ⟨rfl, rfl⟩ := Prod.mk.inj (Option.some.inj hf)
      exact Or.inr ⟨(modifyAt_some hl).1, modifyAt_length hl, rfl⟩

theorem enqueue_orders {oi li : ℤ} (he : i.enqueue oi li ref s qty = some i') :
    i'.levels.length = i.levels.length ∧ i'.freeLevels = i.freeLevels ∧
      ∃ level, subscript i.levels li = some level ∧
        (subscript i'.levels li).map HybridBook.Level.orders = some (level.orders + 1) := by
  simp only [enqueue, Option.bind_eq_bind, Option.bind_eq_some_iff] at he
  obtain ⟨level, hsub, o1, -, o2, -, levels, hl, ⟨ids, ok⟩, -, he⟩ := he
  obtain rfl := Option.some.inj he
  refine ⟨modifyAt_length hl, rfl, level, hsub, ?_⟩
  rw [subscript_modifyAt hl li, if_pos rfl, hsub]
  rfl

theorem Twin.add_noRoom (ht : Twin h i) (hr : Rep h Q) (ref : OrderId) (hqty : qty ≠ 0)
    (hroom : HybridBook.NoRoom h s p) : i.add ref s p qty = some (i.bump 1) := by
  have hsame : i.freeOrders = h.freeOrders := by
    rw [ht.same]
    rfl
  cases hf : i.freeOrders with
  | nil =>
    simp only [IntrusiveBook.add, if_neg hqty, hf]
    rw [← hf]
    rfl
  | cons oi free =>
    obtain ⟨hx, hl⟩ := hroom.resolve_left fun h0 => by
      rw [hsame, h0] at hf
      cases hf
    have hrel := ht.findOrCreate hr.toCore s p
    rw [hr.grid.find_full hx hl] at hrel
    obtain ⟨⟨i1, li⟩, hfind, -, hli⟩ := rel_right hrel
    dsimp only at hli
    subst hli
    rcases findOrCreateLevel_cases hfind with rfl | ⟨hneg, -⟩
    · simp only [IntrusiveBook.add, if_neg hqty, hf, hfind, Option.bind_eq_bind,
        Option.bind_some]
      rw [if_pos (by omega), ← hf]
      rfl
    · omega

theorem Twin.add_linked (ht : Twin h i) (hr : Rep h Q) (hqty : qty ≠ 0)
    (hroom : ¬HybridBook.NoRoom h s p) (ha : i.add ref s p qty = some i') :
    LevelCounts.counts i' ≠ LevelCounts.counts i := by
  have hsame : i.freeOrders = h.freeOrders ∧ i.levels = h.levels ∧
      i.freeLevels = h.freeLevels := by
    rw [ht.same]
    exact ⟨rfl, rfl, rfl⟩
  have hcount := ht.count
  cases hf : i.freeOrders with
  | nil => exact absurd (Or.inl (hsame.1.symm.trans hf)) hroom
  | cons oi free =>
    simp only [IntrusiveBook.add, if_neg hqty, hf, Option.bind_eq_bind,
      Option.bind_eq_some_iff] at ha
    obtain ⟨⟨i1, li⟩, hfind, ha⟩ := ha
    have hli : 0 ≤ li := by
      have hrel := ht.findOrCreate hr.toCore s p
      rw [hfind] at hrel
      obtain ⟨⟨h1, li'⟩, hfind', -, heq⟩ := rel_left hrel
      dsimp only at heq
      subst heq
      rcases hr.level_for s p with ⟨-, hn⟩ | ⟨hx, hfull, -⟩ | ⟨n, h1', hn, -⟩
      · rw [hn] at hfind'
        cases hfind'
      · exact absurd (Or.inr ⟨hx, hfull⟩) hroom
      · rw [hn] at hfind'
        obtain ⟨-, rfl⟩ := Prod.mk.inj (Option.some.inj hfind')
        omega
    rw [if_neg (by omega)] at ha
    obtain ⟨hlen, hfl, level, hsub, horders⟩ := enqueue_orders ha
    intro he
    rcases findOrCreateLevel_cases hfind with rfl | ⟨-, hlen1, hfree1⟩
    · -- a level found: one order more in it
      have hsame := congrFun (congrArg (fun c => c.2.2.2) he) li
      simp only [LevelCounts.counts] at hsame
      rw [horders, show subscript i1.levels li = some level from hsub] at hsame
      have hsucc : level.orders + 1 = level.orders := Option.some.inj hsame
      have hsub1 := congrArg (· - level.orders) hsucc
      simp at hsub1
    · -- a level made: one free level fewer
      have huse : i'.levelsInUse = i.levelsInUse := congrArg Prod.fst he
      rw [levelsInUse, levelsInUse, hlen, hfl] at huse
      change i1.levels.length - i1.freeLevels.length = _ at huse
      rw [hlen1] at huse
      rw [← hsame.2.1, ← hsame.2.2] at hcount
      omega

theorem Twin.add_rejected (ht : Twin h i) (hr : Rep h Q) (ha : i.add ref s p qty = some i')
    (hrej : i'.rejected = i.rejected + 1) : AnswersAlike i i' ↔ NoRoom i s p := by
  have hqty : qty ≠ 0 := by
    rintro rfl
    obtain rfl : i = i' := Option.some.inj ha
    omega
  rw [ht.noRoom_iff (Core.priced hr.toCore)]
  constructor
  · intro halike
    by_contra hroom
    exact ht.add_linked hr hqty hroom ha halike.counts_eq
  · intro hroom
    rw [ht.add_noRoom hr ref hqty hroom] at ha
    obtain rfl := Option.some.inj ha
    exact answersAlike_bump i

theorem Twin.replace_rejected (ht : Twin h i) (hr : Rep h Q) (href : ref ≠ OpenHashMap.kEmpty)
    {new : OrderId} (hnew : new ≠ OpenHashMap.kEmpty) (ha : i.replace ref new p qty = some i')
    (hrej : i'.rejected = i.rejected + 1) :
    ∃ i1, i.remove ref = some i1 ∧ i' = i1.bump 1 := by
  have hrel := ht.replace hr href new p qty
  rw [ha] at hrel
  obtain ⟨h', hh', ht'⟩ := rel_left hrel
  have hrej' : h'.rejected = h.rejected + 1 := by
    rw [← ht'.rejected_eq, hrej, ht.rejected_eq]
  obtain ⟨m, s, h1, Q1, hside, hl, ⟨p', hm⟩, -, hretire, hr1, hroom, hqty, -⟩ :=
    hr.replace_rejected href hnew hh' hrej'
  have hret := ht.retire hr hm ref
  rw [hretire] at hret
  obtain ⟨i1, hi1, ht1⟩ := rel_right hret
  have hfind : i.ids.find OpenHashMap.hash ref = some (some (m : ℤ)) := by
    rw [ht.ids_eq, hr.table.find_spec href, hl]
  have hat : subscript i.orders (m : ℤ) = some (strip (h.ord m)) :=
    ht.order_at (subscript_cast (hr.order _ _ m hm).inPool _)
  refine ⟨i1, ?_, ?_⟩
  · simp only [IntrusiveBook.remove, hfind, Option.bind_eq_bind, Option.bind_some]
    exact hi1
  · simp only [IntrusiveBook.replace, hfind, hat, Option.bind_eq_bind, Option.bind_some, hi1,
      strip_side, hside, ht1.add_noRoom hr1 new hqty hroom] at ha
    exact (Option.some.inj ha).symm

end IntrusiveBook

/-! ### Reachable books -/

/-- An addition that is turned away leaves every answer as it was exactly when a pool
turns it away; a replacement that is turned away leaves its removal. -/
theorem rejects_cleanly (lo hi : Price) (maxOrders maxLevels : ℕ) (ops : List Op)
    (hrefs : ∀ op ∈ ops, ∀ ref ∈ op.refs, ref ≠ 0) :
    (∀ b0 b, HybridBook.make lo hi maxOrders maxLevels = some b0 → Design.run b0 ops = some b →
      RejectsCleanly (HybridBook.bump 1) b.NoRoom b) ∧
    (∀ i0 i, IntrusiveBook.make maxOrders maxLevels = some i0 → Design.run i0 ops = some i →
      RejectsCleanly (IntrusiveBook.bump 1) i.NoRoom i) := by
  constructor
  · intro b0 b hmake hrun
    obtain ⟨-, Q, hr⟩ := (HybridBook.Rep.make hmake).1.run_rep ops hrefs hrun
    constructor
    case add =>
      intro ref s p qty b' href hadd hrej
      exact hr.add_rejected href hadd hrej
    case replace =>
      intro old new p qty b' hold hnew hreplace hrej
      obtain ⟨m, s, b1, Q1, -, -, -, hremove, -, -, -, -, hb'⟩ :=
        hr.replace_rejected hold hnew hreplace hrej
      exact ⟨b1, hremove, hb'⟩
  · intro i0 i hmake hrun
    obtain ⟨h0, hmk, ht0⟩ := IntrusiveBook.Twin.make hmake
    have hr0 := (HybridBook.Rep.make hmk).1
    have htwin := ht0.run hr0 ops hrefs
    rw [hrun] at htwin
    obtain ⟨h, hh, ht⟩ := rel_left htwin
    obtain ⟨-, Q, hr⟩ := hr0.run_rep ops hrefs hh
    constructor
    case add =>
      intro ref s p qty i' href hadd hrej
      exact ht.add_rejected hr hadd hrej
    case replace =>
      intro old new p qty i' hold hnew hreplace hrej
      exact ht.replace_rejected hr hold hnew hreplace hrej

/-- One level: an order at a second price is turned away by the level pool. -/
theorem rejects_cleanly_levels :
    (∃ b b' : HybridBook, (HybridBook.make 100 300 4 1).bind (fun b0 =>
        Design.run b0 [.add 1 .buy 100 5]) = some b ∧
      Design.step b (.add 2 .buy 200 5) = some b' ∧ AnswersAlike b b') ∧
    (∃ i i' : IntrusiveBook, (IntrusiveBook.make 4 1).bind (fun i0 =>
        Design.run i0 [.add 1 .buy 100 5]) = some i ∧
      Design.step i (.add 2 .buy 200 5) = some i' ∧ AnswersAlike i i') := by
  have hops : ∀ op ∈ [Op.add 1 .buy 100 5], ∀ ref ∈ op.refs, ref ≠ 0 := by
    simp [Op.refs]
  constructor
  · have hrun : ((HybridBook.make 100 300 4 1).bind fun b0 =>
        (Design.run b0 [.add 1 .buy 100 5]).bind fun b =>
          (Design.step b (.add 2 .buy 200 5)).map fun b' =>
            (b.rejected, b'.rejected, b.levelIx .buy 200, b.freeLevels)) =
        some (0, 1, -1, []) := by decide +kernel
    obtain ⟨b0, hmake, hrun⟩ := Option.bind_eq_some_iff.mp hrun
    obtain ⟨b, hb, hrun⟩ := Option.bind_eq_some_iff.mp hrun
    obtain ⟨b', hb', hvals⟩ := Option.map_eq_some_iff.mp hrun
    simp only [Prod.mk.injEq] at hvals
    obtain ⟨hrej, hrej', hix, hfree⟩ := hvals
    refine ⟨b, b', by rw [hmake]; exact hb, hb', ?_⟩
    have hclean := (rejects_cleanly 100 300 4 1 _ hops).1 b0 b hmake hb
    refine (hclean.add 2 .buy 200 5 b' (by decide) hb' ?_).mpr (Or.inr ⟨?_, hfree⟩)
    · show b'.rejected = b.rejected + 1
      omega
    · omega
  · have hrun : ((IntrusiveBook.make 4 1).bind fun i0 =>
        (Design.run i0 [.add 1 .buy 100 5]).bind fun i =>
          (Design.step i (.add 2 .buy 200 5)).map fun i' =>
            (i.rejected, i'.rejected, i.idx .buy, i.levels.map HybridBook.Level.price,
              i.freeLevels)) = some (0, 1, [0], [100], []) := by decide +kernel
    obtain ⟨i0, hmake, hrun⟩ := Option.bind_eq_some_iff.mp hrun
    obtain ⟨i, hi, hrun⟩ := Option.bind_eq_some_iff.mp hrun
    obtain ⟨i', hi', hvals⟩ := Option.map_eq_some_iff.mp hrun
    simp only [Prod.mk.injEq] at hvals
    obtain ⟨hrej, hrej', hidx, hprices, hfree⟩ := hvals
    refine ⟨i, i', by rw [hmake]; exact hi, hi', ?_⟩
    have hclean := (rejects_cleanly 100 300 4 1 _ hops).2 i0 i hmake hi
    refine (hclean.add 2 .buy 200 5 i' (by decide) hi' ?_).mpr (Or.inr ⟨?_, hfree⟩)
    · show i'.rejected = i.rejected + 1
      omega
    · rintro ⟨li, hli, level, hsub, hprice⟩
      rw [hidx] at hli
      obtain rfl := List.mem_singleton.mp hli
      have hmap := subscript_map HybridBook.Level.price i.levels 0
      rw [hprices, hsub, Option.map_some, hprice] at hmap
      exact absurd hmap (by decide)

/-- A table of four slots holds two entries. -/
theorem rejection_leaves_order :
    (∃ b b' : HybridBook, (HybridBook.make 100 300 4 4).bind (fun b0 =>
        Design.run b0 [.add 1 .buy 100 5, .add 2 .buy 100 5]) = some b ∧
      Design.step b (.add 3 .buy 100 5) = some b' ∧ b'.rejected = b.rejected + 1 ∧
      b.snapshot = some ⟨[⟨100, 10, 2⟩], []⟩ ∧ b'.snapshot = some ⟨[⟨100, 15, 3⟩], []⟩) ∧
    (∃ i i' : IntrusiveBook, (IntrusiveBook.make 4 4).bind (fun i0 =>
        Design.run i0 [.add 1 .buy 100 5, .add 2 .buy 100 5]) = some i ∧
      Design.step i (.add 3 .buy 100 5) = some i' ∧ i'.rejected = i.rejected + 1 ∧
      i.snapshot = some ⟨[⟨100, 10, 2⟩], []⟩ ∧ i'.snapshot = some ⟨[⟨100, 15, 3⟩], []⟩) := by
  constructor
  · have hrun : ((HybridBook.make 100 300 4 4).bind fun b0 =>
        (Design.run b0 [.add 1 .buy 100 5, .add 2 .buy 100 5]).bind fun b =>
          (Design.step b (.add 3 .buy 100 5)).map fun b' =>
            (b.rejected, b'.rejected, b.snapshot, b'.snapshot)) =
        some (0, 1, some ⟨[⟨100, 10, 2⟩], []⟩, some ⟨[⟨100, 15, 3⟩], []⟩) := by decide +kernel
    obtain ⟨b0, hmake, hrun⟩ := Option.bind_eq_some_iff.mp hrun
    obtain ⟨b, hb, hrun⟩ := Option.bind_eq_some_iff.mp hrun
    obtain ⟨b', hb', hvals⟩ := Option.map_eq_some_iff.mp hrun
    simp only [Prod.mk.injEq] at hvals
    obtain ⟨hrej, hrej', hsnap, hsnap'⟩ := hvals
    exact ⟨b, b', by rw [hmake]; exact hb, hb', by omega, hsnap, hsnap'⟩
  · have hrun : ((IntrusiveBook.make 4 4).bind fun i0 =>
        (Design.run i0 [.add 1 .buy 100 5, .add 2 .buy 100 5]).bind fun i =>
          (Design.step i (.add 3 .buy 100 5)).map fun i' =>
            (i.rejected, i'.rejected, i.snapshot, i'.snapshot)) =
        some (0, 1, some ⟨[⟨100, 10, 2⟩], []⟩, some ⟨[⟨100, 15, 3⟩], []⟩) := by decide +kernel
    obtain ⟨i0, hmake, hrun⟩ := Option.bind_eq_some_iff.mp hrun
    obtain ⟨i, hi, hrun⟩ := Option.bind_eq_some_iff.mp hrun
    obtain ⟨i', hi', hvals⟩ := Option.map_eq_some_iff.mp hrun
    simp only [Prod.mk.injEq] at hvals
    obtain ⟨hrej, hrej', hsnap, hsnap'⟩ := hvals
    exact ⟨i, i', by rw [hmake]; exact hi, hi', by omega, hsnap, hsnap'⟩

end Hotpath.Book
