import Hotpath.Book.CrossVal
import Hotpath.Book.MapLevels

/-!
# The book fuzz target (tests/fuzz_core.hpp)

Any bytes are read as a script of book operations on refs of its own, replayed into the
four designs, compared after each operation and asked at the end whether a pool ran out.
A book that few orders were put into holds few, so the target's pools never run out, and
no bytes make it throw.
-/

namespace Hotpath.Book
open Hotpath.Support

/-! ### What few operations can fill -/

namespace MapBook

section Levels
variable {cmp : Price → Price → Ordering} [Std.TransCmp cmp] [Std.LawfulEqCmp cmp]
  {levels : Std.TreeMap Price Agg cmp} {p : Price} {qty : Qty}

/-- The orders at the levels of a side. -/
def filled (levels : Std.TreeMap Price Agg cmp) : ℕ := weigh (fun _ agg => agg.orders.toNat) levels

/-- No level is empty. -/
def Used (levels : Std.TreeMap Price Agg cmp) : Prop :=
  ∀ (p : Price) (agg : Agg), levels[p]? = some agg → agg.orders ≠ 0

theorem Used.insert (h : Used levels) {agg : Agg} (hne : agg.orders ≠ 0) :
    Used (levels.insert p agg) := by
  intro p' agg' h'
  rw [getElem?_insert_if] at h'
  split at h'
  · rw [← Option.some.inj h']
    exact hne
  · exact h p' agg' h'

theorem Used.erase (h : Used levels) : Used (levels.erase p) := by
  intro p' agg' h'
  rw [getElem?_erase_if] at h'
  split at h'
  · cases h'
  · exact h p' agg' h'

theorem Used.deposit (h : Used levels) (hroom : filled levels + 1 < 2 ^ 32) :
    Used (deposit levels p qty) ∧ filled (deposit levels p qty) ≤ filled levels + 1 ∧
      (deposit levels p qty).size ≤ levels.size + 1 := by
  have hadd : ∀ n : UInt32, n.toNat ≤ filled levels → (n + 1).toNat = n.toNat + 1 := by
    intro n hn
    rw [UInt32.toNat_add, UInt32.toNat_one, Nat.mod_eq_of_lt (by omega)]
  cases hagg : levels[p]? with
  | none =>
    have hnew := weigh_insert_new (w := fun _ agg => agg.orders.toNat) (v := ⟨0 + qty, 0 + 1⟩) hagg
    have hone := hadd 0 (Nat.zero_le _)
    simp only [MapBook.deposit, hagg, Option.getD_none]
    have hne : (0 : UInt32) + 1 ≠ 0 := by decide
    refine ⟨h.insert hne, ?_, Std.TreeMap.size_insert_le⟩
    rw [filled, hnew, hone, filled]
    exact (Nat.add_comm ..).le
  | some agg =>
    have hold := weigh_insert_old (w := fun _ agg => agg.orders.toNat)
      (v := ⟨agg.qty + qty, agg.orders + 1⟩) hagg
    have hin := weigh_erase (w := fun _ agg => agg.orders.toNat) hagg
    have hone := hadd agg.orders (by rw [filled]; omega)
    dsimp only at hold
    simp only [MapBook.deposit, hagg, Option.getD_some]
    refine ⟨h.insert ?_, ?_, Std.TreeMap.size_insert_le⟩
    · intro hzero
      have hzero' := congrArg UInt32.toNat hzero
      rw [hone, UInt32.toNat_zero] at hzero'
      omega
    · rw [filled, filled]
      omega

theorem Used.reduceLevel (h : Used levels) :
    Used (reduceLevel levels p qty) ∧ filled (reduceLevel levels p qty) ≤ filled levels ∧
      (reduceLevel levels p qty).size ≤ levels.size := by
  cases hagg : levels[p]? with
  | none =>
    simp only [MapBook.reduceLevel, hagg]
    exact ⟨h, le_rfl, le_rfl⟩
  | some agg =>
    have hold := weigh_insert_old (w := fun _ agg => agg.orders.toNat)
      (v := { agg with qty := agg.qty - qty }) hagg
    simp only [MapBook.reduceLevel, hagg]
    refine ⟨h.insert (h p agg hagg), ?_, ?_⟩
    · rw [filled, filled]
      dsimp only at hold ⊢
      omega
    · rw [size_insert_if, hagg]
      exact le_rfl

theorem Used.detachFrom (h : Used levels) :
    Used (detachFrom levels p qty) ∧ filled (detachFrom levels p qty) ≤ filled levels ∧
      (detachFrom levels p qty).size ≤ levels.size := by
  cases hagg : levels[p]? with
  | none =>
    simp only [MapBook.detachFrom, hagg]
    exact ⟨h, le_rfl, le_rfl⟩
  | some agg =>
    simp only [MapBook.detachFrom, hagg]
    have hpos : agg.orders.toNat ≠ 0 := fun hzero => h p agg hagg (UInt32.toNat_inj.mp hzero)
    by_cases hlast : agg.orders - 1 = 0
    · have hin := weigh_erase (w := fun _ agg => agg.orders.toNat) hagg
      rw [if_pos hlast]
      refine ⟨h.erase, ?_, Std.TreeMap.size_erase_le⟩
      rw [filled, filled]
      omega
    · have hold := weigh_insert_old (w := fun _ agg => agg.orders.toNat)
        (v := ⟨agg.qty - qty, agg.orders - 1⟩) hagg
      have hsub : (agg.orders - 1).toNat = agg.orders.toNat - 1 := by
        apply UInt32.toNat_sub_of_le
        rw [UInt32.le_iff_toNat_le, UInt32.toNat_one]
        omega
      dsimp only at hold
      rw [if_neg hlast]
      refine ⟨h.insert hlast, ?_, ?_⟩
      · rw [filled, filled]
        omega
      · rw [size_insert_if, hagg]
        exact le_rfl

end Levels

/-- At most `n` orders were put in. -/
structure Few (n : ℕ) (m : MapBook) : Prop where
  bids : Used m.bids
  asks : Used m.asks
  slots : m.slotsInUse ≤ n
  levels : m.levelsInUse ≤ n
  ids : m.orders.size ≤ n

variable {n : ℕ} {m : MapBook} {ref : OrderId} {s : Side} {p : Price} {qty : Qty}

theorem Few.empty : Few 0 MapBook.empty where
  bids p agg h := by simp [MapBook.empty] at h
  asks p agg h := by simp [MapBook.empty] at h
  slots := le_rfl
  levels := le_rfl
  ids := le_rfl

theorem Few.mono (h : Few n m) {k : ℕ} (hk : n ≤ k) : Few k m where
  bids := h.bids
  asks := h.asks
  slots := h.slots.trans hk
  levels := h.levels.trans hk
  ids := h.ids.trans hk

/-- One side, and the ids, take in at most `k` orders more. -/
theorem Few.bid (h : Few n m) {k : ℕ} {orders : Std.TreeMap OrderId Rec}
    {bids : Std.TreeMap Price Agg greater} (hids : orders.size ≤ n + k)
    (hside : Used bids ∧ filled bids ≤ filled m.bids + k ∧ bids.size ≤ m.bids.size + k) :
    Few (n + k) { m with orders := orders, bids := bids } := by
  obtain ⟨hused, hle, hsize⟩ := hside
  have hslots : filled m.bids + filled m.asks ≤ n := h.slots
  have hlevels : m.bids.size + m.asks.size ≤ n := h.levels
  refine ⟨hused, h.asks, ?_, ?_, hids⟩
  · show filled bids + filled m.asks ≤ n + k
    omega
  · show bids.size + m.asks.size ≤ n + k
    omega

theorem Few.ask (h : Few n m) {k : ℕ} {orders : Std.TreeMap OrderId Rec}
    {asks : Std.TreeMap Price Agg} (hids : orders.size ≤ n + k)
    (hside : Used asks ∧ filled asks ≤ filled m.asks + k ∧ asks.size ≤ m.asks.size + k) :
    Few (n + k) { m with orders := orders, asks := asks } := by
  obtain ⟨hused, hle, hsize⟩ := hside
  have hslots : filled m.bids + filled m.asks ≤ n := h.slots
  have hlevels : m.bids.size + m.asks.size ≤ n := h.levels
  refine ⟨h.bids, hused, ?_, ?_, hids⟩
  · show filled m.bids + filled asks ≤ n + k
    omega
  · show m.bids.size + asks.size ≤ n + k
    omega

theorem Few.add (h : Few n m) (hn : n + 1 < 2 ^ 32) : Few (n + 1) (m.add ref s p qty) := by
  have hslots : filled m.bids + filled m.asks ≤ n := h.slots
  have hids := (size_add m ref s p qty).trans (Nat.add_le_add_right h.ids 1)
  by_cases hqty : qty = 0
  · rw [MapBook.add, if_pos hqty]
    exact h.mono (Nat.le_succ n)
  · rw [MapBook.add, if_neg hqty] at hids ⊢
    cases s with
    | buy => exact h.bid hids (h.bids.deposit (by omega))
    | sell => exact h.ask hids (h.asks.deposit (by omega))

theorem Few.detach (h : Few n m) (r : Rec) (qty : Qty) : Few n (m.detach r qty) := by
  rw [MapBook.detach]
  cases r.side with
  | buy => exact h.bid (k := 0) h.ids h.bids.detachFrom
  | sell => exact h.ask (k := 0) h.ids h.asks.detachFrom

/-- A book keeps few orders when some ids leave it. -/
theorem Few.erase (h : Few n m) (ref : OrderId) :
    Few n { m with orders := m.orders.erase ref } :=
  ⟨h.bids, h.asks, h.slots, h.levels, Std.TreeMap.size_erase_le.trans h.ids⟩

theorem Few.reduce (h : Few n m) (ref : OrderId) (qty : Qty) : Few n (m.reduce ref qty) := by
  cases hr : m.orders[ref]? with
  | none =>
    rw [MapBook.reduce, hr]
    exact h
  | some r =>
    by_cases hlt : qty < r.qty
    · have hne : ¬qty = r.qty := by
        rintro rfl
        exact UInt32.lt_irrefl _ hlt
      have hids : ∀ r', (m.orders.insert ref r').size ≤ n := by
        intro r'
        rw [size_insert_if, hr]
        exact h.ids
      simp only [MapBook.reduce, hr, if_pos hlt, if_neg hne]
      cases r.side with
      | buy => exact h.bid (k := 0) (hids _) h.bids.reduceLevel
      | sell => exact h.ask (k := 0) (hids _) h.asks.reduceLevel
    · simp only [MapBook.reduce, hr, if_neg hlt, if_true]
      exact (h.detach r r.qty).erase ref

theorem Few.remove (h : Few n m) (ref : OrderId) : Few n (m.remove ref) := by
  cases hr : m.orders[ref]? with
  | none =>
    rw [MapBook.remove, hr]
    exact h
  | some r =>
    simp only [MapBook.remove, hr]
    exact (h.detach r r.qty).erase ref

/-- The operations that can put an order in. -/
def inserts : Op → Bool
  | .add .. => true
  | .replace .. => true
  | _ => false

/-- An operation puts in at most the one order it names. -/
theorem Few.step (h : Few n m) (op : Op) (hn : n + (inserts op).toNat < 2 ^ 32) :
    Few (n + (inserts op).toNat) (m.step op) := by
  cases op with
  | add ref s p qty => exact h.add hn
  | execute ref qty => exact h.reduce ref qty
  | cancel ref qty => exact h.reduce ref qty
  | remove ref => exact h.remove ref
  | replace old new p qty =>
    cases hr : m.orders[old]? with
    | none =>
      simp only [MapBook.step, MapBook.replace, hr]
      exact h.mono (Nat.le_add_right ..)
    | some r =>
      simp only [MapBook.step, MapBook.replace, hr]
      exact ((h.detach r r.qty).erase old).add hn
  | clear => exact Few.empty.mono (Nat.zero_le _)

variable {maxOrders maxLevels : ℕ}

theorem Few.poolRoom (h : Few n m) (hl : n + 1 ≤ maxLevels) (ht : n + 1 ≤ maxOrders * 7 / 10) :
    poolRoom maxOrders maxLevels m ref s p = true := by
  have hslots := h.slots
  have hlevels := h.levels
  have hids := h.ids
  simp only [MapBook.poolRoom, MapBook.tableRoom, Bool.and_eq_true, Bool.or_eq_true,
    decide_eq_true_eq]
  exact ⟨⟨by omega, Or.inr (by omega)⟩, Or.inr (by omega)⟩

/-- An operation on a book that few orders were put into fits pools of more. -/
theorem Few.fits (h : Few n m) (op : Op) (hl : n + (inserts op).toNat ≤ maxLevels)
    (ht : n + (inserts op).toNat ≤ maxOrders * 7 / 10) :
    m.fits (MapBook.poolRoom maxOrders maxLevels) op = true := by
  cases op with
  | add ref s p qty =>
    rw [MapBook.fits, h.poolRoom hl ht, Bool.or_true]
  | replace old new p qty =>
    rw [MapBook.fits]
    cases hr : m.orders[old]? with
    | none => rfl
    | some r =>
      dsimp only
      rw [(h.remove old).poolRoom hl ht, Bool.or_true]
  | execute ref qty => rfl
  | cancel ref qty => rfl
  | remove ref => rfl
  | clear => rfl

end MapBook

/-! ### The target -/

namespace Fuzz

/-- A narrow grid, so that short inputs reach the overflow. -/
def kLo : Price := 1000000
def kHi : Price := 1020000
def kMaxEvents : ℕ := 4096

/-- The next `n` bytes, the first one on top; past the end they are zeros. -/
def take (v : UInt64) : ℕ → List UInt8 → UInt64 × List UInt8
  | 0, bytes => (v, bytes)
  | n + 1, [] => take (v <<< 8) n []
  | n + 1, b :: bytes => take (v <<< 8 ||| b.toUInt64) n bytes

structure Draw where
  op : UInt8
  raw : UInt16
  sel : UInt8

def draw (bytes : List UInt8) : Draw × List UInt8 :=
  let (op, bytes) := take 0 1 bytes
  let (raw, bytes) := take 0 2 bytes
  let (sel, bytes) := take 0 1 bytes
  (⟨op.toUInt8 % 5, raw.toUInt16, sel.toUInt8⟩, bytes)

/-- Inside the grid, off the penny, far below, far above, near the top edge. -/
def Draw.px (d : Draw) : Price :=
  let raw : Price := d.raw.toUInt32
  match (d.sel % 8).toNat with
  | 0 | 1 | 2 | 3 => kLo + raw % 200 * 100
  | 4 => kLo + raw % 200 * 100 + raw % 99 + 1
  | 5 => 1 + raw % 500
  | 6 => 5000000 + raw
  | _ => kHi - raw % 300 * 100

def Draw.qty (d : Draw) : Qty := 1 + d.raw.toUInt32 % 500

/-- The refs the script holds live, those executed away among them. -/
structure Script where
  live : List OrderId := []
  nextId : OrderId := 1

/-- The operation of an event; `none` is a subscript outside `live`. -/
def Script.op (t : Script) (d : Draw) : Option (Op × Script) :=
  if d.op = 0 ∨ t.live.length < 3 then
    some (.add t.nextId (if d.sel &&& 1 ≠ 0 then .buy else .sell) d.px d.qty,
      ⟨t.live ++ [t.nextId], t.nextId + 1⟩)
  else do
    let idx := d.raw.toNat % t.live.length
    let id ← t.live[idx]?
    match d.op.toNat with
    | 1 => return (.execute id d.qty, t)
    | 2 => return (.cancel id d.qty, t)
    | 3 =>
      let back ← t.live.getLast?
      return (.remove id, { t with live := (t.live.set idx back).dropLast })
    | _ => return (.replace id t.nextId d.px d.qty, ⟨t.live.set idx t.nextId, t.nextId + 1⟩)

/-- What the target throws: the event at which the designs diverged, with which of them
agree with the reference, or pools that were too small. -/
inductive Thrown where
  | diverged (ev : ℕ) (op : UInt8) (px : Price) (qty : Qty) (intrusive flat hybrid : Bool)
  | rejected

end Fuzz

structure Fuzz where
  bytes : List UInt8
  script : Fuzz.Script := {}
  books : Books

namespace Fuzz

def event (ev : ℕ) (f : Fuzz) : Option (Except Thrown Fuzz) := do
  let (d, bytes) := draw f.bytes
  let (op, script) ← f.script.op d
  let books ← f.books.step op
  let s ← books.snapshots
  if s.map = s.intrusive ∧ s.map = s.flat ∧ s.map = s.hybrid then return .ok ⟨bytes, script, books⟩
  else
    return .error (.diverged ev d.op d.px d.qty (s.map = s.intrusive) (s.map = s.flat)
      (s.map = s.hybrid))

/-- `n` events are left of the budget. -/
def loop : ℕ → ℕ → Fuzz → Option (Except Thrown Fuzz)
  | 0, _, f => some (.ok f)
  | n + 1, ev, f =>
    if f.bytes.length < 4 then some (.ok f)
    else (f.event (ev + 1)).bind fun
      | .error e => some (.error e)
      | .ok f => loop n (ev + 1) f

def fuzzBookDifferential (data : List UInt8) : Option (Except Thrown Unit) :=
  if data.length < 8 then some (.ok ())
  else do
    let books ← Books.make kLo kHi (2 ^ 14) (2 ^ 14)
    match ← loop kMaxEvents 0 { bytes := data, books := books } with
    | .error e => return .error e
    | .ok f => if f.books.rejectedNone then return .ok () else return .error .rejected

/-! ### Its runs -/

/-- The refs in the script are its own, and after `ev` events it has not used more. -/
structure Script.Own (ev : ℕ) (t : Script) : Prop where
  live : ∀ id ∈ t.live, id ≠ OpenHashMap.kEmpty
  next : t.nextId.toNat ≤ ev + 1 ∧ t.nextId ≠ OpenHashMap.kEmpty

theorem Script.Own.mono {t : Script} {ev : ℕ} (h : t.Own ev) : t.Own (ev + 1) :=
  ⟨h.live, h.next.1.trans (Nat.le_succ _), h.next.2⟩

theorem Script.Own.fresh {t : Script} {ev : ℕ} (h : t.Own ev) (hev : ev + 2 < 2 ^ 64)
    {live : List OrderId} (hlive : ∀ id ∈ live, id ∈ t.live ∨ id = t.nextId) :
    Script.Own (ev + 1) ⟨live, t.nextId + 1⟩ := by
  have hsucc : (t.nextId + 1).toNat = t.nextId.toNat + 1 := by
    have hle := h.next.1
    rw [UInt64.toNat_add, UInt64.toNat_one, Nat.mod_eq_of_lt (by omega)]
  refine ⟨fun id hid => ?_, ?_, ?_⟩
  · rcases hlive id hid with hid | rfl
    · exact h.live id hid
    · exact h.next.2
  · rw [hsucc]
    exact Nat.succ_le_succ h.next.1
  · intro hzero
    have hzero' := congrArg UInt64.toNat hzero
    rw [hsucc] at hzero'
    exact Nat.succ_ne_zero _ hzero'

/-- Any event stands for an operation, on refs that are not the empty key. -/
theorem Script.Own.op {t : Script} {ev : ℕ} (h : t.Own ev) (hev : ev + 2 < 2 ^ 64) (d : Draw) :
    ∃ op t', t.op d = some (op, t') ∧ (∀ ref ∈ op.refs, ref ≠ OpenHashMap.kEmpty) ∧
      t'.Own (ev + 1) := by
  by_cases hadd : d.op = 0 ∨ t.live.length < 3
  · refine ⟨_, _, if_pos hadd, ?_, ?_⟩
    · intro ref href
      rw [List.mem_singleton.mp href]
      exact h.next.2
    · apply h.fresh hev
      intro id hid
      rw [List.mem_append, List.mem_singleton] at hid
      exact hid
  · have hpos : 0 < t.live.length := by omega
    have hlt : d.raw.toNat % t.live.length < t.live.length := Nat.mod_lt _ hpos
    have hid := List.getElem?_eq_getElem hlt
    have hmem := h.live _ (List.getElem_mem hlt)
    have hop : t.op d = _ := if_neg hadd
    simp only [hid, Option.bind_eq_bind, Option.bind_some] at hop
    have hset : ∀ x, ∀ id ∈ t.live.set (d.raw.toNat % t.live.length) x, id ∈ t.live ∨ id = x :=
      fun x id => List.mem_or_eq_of_mem_set
    split at hop
    · refine ⟨_, _, hop, fun ref href => ?_, h.mono⟩
      rw [List.mem_singleton.mp href]
      exact hmem
    · refine ⟨_, _, hop, fun ref href => ?_, h.mono⟩
      rw [List.mem_singleton.mp href]
      exact hmem
    · have hne : t.live ≠ [] := List.ne_nil_of_length_pos hpos
      rw [List.getLast?_eq_some_getLast hne, Option.bind_some] at hop
      refine ⟨_, _, hop, fun ref href => ?_, ⟨fun id hid => ?_, h.mono.next⟩⟩
      · rw [List.mem_singleton.mp href]
        exact hmem
      · rcases hset _ id (List.dropLast_subset _ hid) with hid | rfl
        · exact h.live id hid
        · exact h.live _ (List.getLast_mem hne)
    · refine ⟨_, _, hop, fun ref href => ?_, h.fresh hev (hset _)⟩
      rcases List.mem_cons.mp href with rfl | href
      · exact hmem
      · rw [List.mem_singleton.mp href]
        exact h.next.2

/-- The state after `ev` events. -/
structure Ok (ev : ℕ) (f : Fuzz) (Q : HybridBook.Queues) : Prop where
  script : f.script.Own ev
  books : f.books.InStep (2 ^ 14) (2 ^ 14) Q
  few : f.books.map.Few ev
  rejected : f.books.hybrid.rejected = 0 ∧ f.books.flat.rejected = 0

theorem Ok.event {ev : ℕ} {f : Fuzz} {Q : HybridBook.Queues} (h : f.Ok ev Q)
    (hev : ev < kMaxEvents) : ∃ f' Q', f.event (ev + 1) = some (.ok f') ∧ f'.Ok (ev + 1) Q' := by
  have hmax : kMaxEvents = 4096 := rfl
  obtain ⟨op, t', hop, hrefs, hown⟩ := h.script.op (by omega) (draw f.bytes).1
  have hone : (MapBook.inserts op).toNat ≤ 1 := Bool.toNat_le _
  have hfits : f.books.map.fits (MapBook.poolRoom (2 ^ 14) (2 ^ 14)) op = true :=
    h.few.fits op (by omega) (by omega)
  obtain ⟨b', Q', hstep, -, hmap, htaken, -, hkeep⟩ := h.books.step op hrefs
  have hrej := htaken.mpr hfits
  obtain ⟨hrejf, hin⟩ := hkeep hrej
  refine ⟨⟨(draw f.bytes).2, t', b'⟩, Q', ?_, hown, hin, ?_, hrej.trans h.rejected.1,
    hrejf.trans h.rejected.2⟩
  · have hstep' : f.books.step op = some b' := hstep
    simp only [Fuzz.event, hop, hstep', hin.snapshots_eq, Option.bind_eq_bind, Option.bind_some,
      true_and, if_true]
    rfl
  · rw [hmap]
    exact (h.few.step op (by omega)).mono (by omega)

theorem Ok.loop {n ev : ℕ} {f : Fuzz} {Q : HybridBook.Queues} (h : f.Ok ev Q)
    (hev : n + ev = kMaxEvents) :
    ∃ f' ev' Q', loop n ev f = some (.ok f') ∧ f'.Ok ev' Q' := by
  induction n generalizing ev f Q with
  | zero => exact ⟨f, ev, Q, rfl, h⟩
  | succ n ih =>
    rw [Fuzz.loop]
    by_cases hend : f.bytes.length < 4
    · rw [if_pos hend]
      exact ⟨f, ev, Q, rfl, h⟩
    · obtain ⟨f', Q', hevent, h'⟩ := h.event (by omega)
      rw [if_neg hend, hevent]
      exact ih h' (by omega)

/-- No bytes make the target throw, or subscript outside anything: on each, the four
designs agree after every event and no pool runs out. -/
theorem fuzz_never_throws (data : List UInt8) : fuzzBookDifferential data = some (.ok ()) := by
  rw [fuzzBookDifferential]
  by_cases hshort : data.length < 8
  · rw [if_pos hshort]
  · obtain ⟨b, hmake⟩ := Books.make_isSome (2 ^ 14) (by decide : kLo ≤ kHi)
      (by decide : 2 ^ 14 ≤ OpenHashMap.maxSize) ⟨14, rfl⟩
    obtain ⟨hin, hmap, hrejh, hrejf⟩ := Books.make_some hmake (by decide) (by decide)
    have hone : (1 : OrderId).toNat ≤ 0 + 1 ∧ (1 : OrderId) ≠ OpenHashMap.kEmpty := by decide
    have hok : Ok 0 { bytes := data, books := b } HybridBook.noQueues := by
      refine ⟨⟨fun id hid => absurd hid List.not_mem_nil, hone⟩, hin, ?_, hrejh, hrejf⟩
      show b.map.Few 0
      rw [hmap]
      exact MapBook.Few.empty
    obtain ⟨f', ev', Q', hloop, h'⟩ := hok.loop (n := kMaxEvents) rfl
    have hnone : f'.books.rejectedNone = true := by
      simp only [Books.rejectedNone, h'.books.intrusive.rejected_eq, h'.rejected, decide_true,
        Bool.and_self]
    rw [if_neg hshort, hmake]
    simp only [Option.bind_eq_bind, Option.bind_some, hloop, hnone, if_true]
    rfl

end Fuzz

end Hotpath.Book
