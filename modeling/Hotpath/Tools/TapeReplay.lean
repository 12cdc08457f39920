import Hotpath.Core.OpenHashSpec
import Hotpath.Tools.ExtractTape
import Hotpath.Tools.TapeStream

/-!
# The tapes hold the orders of their symbols

The routing index mirrors the orders of all symbols, so every event of an order reaches
the tape that its Add went to, and no other.
-/

namespace Hotpath.Tools.ExtractTape
open Hotpath.Itch (StockLocate Message)
open Hotpath.Book Hotpath.OpenHashMap

variable {want : List Itch.Symbol} {e e' : ExtractTape} {t : Stream} {o : StreamOrder}
variable {orders orders' : OrderId → Option StreamOrder} {slot : UInt16} {ref : OrderId}
variable {shares : Qty}

/-! ### What is kept in step -/

/-- The slot of the target whose symbol lists the order. -/
structure SlotOf (want : List Itch.Symbol) (slot : UInt16) (o : StreamOrder) : Prop where
  le : slot.toNat ≤ want.length
  iff : ∀ (i : ℕ) s, want[i]? = some s → (slot.toNat = i + 1 ↔ o.listed s = true)

/-- An entry of the index for an order of the stream. -/
def Routed (want : List Itch.Symbol) : Option Route → Option StreamOrder → Prop
  | none, none => True
  | some r, some o => r.shares = o.shares ∧ SlotOf want r.slot o
  | _, _ => False

def replayed (events : List BookEvent) : MapBook :=
  MapBook.replay .empty (events.map BookEvent.op)

def Tapes (want : List Itch.Symbol) (targets : List Target)
    (orders : OrderId → Option StreamOrder) : Prop :=
  ∀ (i : ℕ) s, want[i]? = some s →
    ∃ tg, targets[i]? = some tg ∧ tg.symbol = s ∧ Holds s orders (replayed tg.events)

structure Tracks (want : List Itch.Symbol) (e : ExtractTape) (t : Stream) : Prop where
  symbols : ∀ (s : Itch.Symbol) (i : ℕ), e.symbolToTarget[s.raw]? = some i ↔ want[i]? = some s
  length : e.targets.length = want.length
  locates : ∀ (l : StockLocate) (i : ℕ), e.locateToTarget[l]? = some i ↔
    ∃ s, want[i]? = some s ∧ t.locates s = some l
  table : WF OpenHashMap.hash e.route
  routed : ∀ ref ≠ kEmpty, Routed want (lookup e.route ref) (t.orders ref)
  real : t.orders kEmpty = none
  tapes : Tapes want e.targets t.orders

/-! ### One event -/

theorem replayed_snoc (events : List BookEvent) (event : BookEvent) :
    replayed (events ++ [event]) = (replayed events).step event.op := by
  rw [replayed, replayed, MapBook.replay, List.map_append, List.foldl_append]
  rfl

/-- An event goes to the tape of its order's symbol only. -/
theorem emit_tapes (ht : Tapes want e.targets orders) (hlen : e.targets.length = want.length)
    (hs : SlotOf want slot o) (event : BookEvent)
    (hon : ∀ s b, o.listed s = true → Holds s orders b → Holds s orders' (b.step event.op))
    (hoff : ∀ s b, o.listed s = false → Holds s orders b → Holds s orders' b) :
    ∃ targets n, e.emit slot event = some { e with targets := targets, routed := n } ∧
      targets.length = want.length ∧ Tapes want targets orders' := by
  have hlisted : ∀ (i : ℕ) s, want[i]? = some s → slot.toNat ≠ i + 1 → o.listed s = false :=
    fun i s hi hne => Bool.eq_false_iff.mpr fun hl => hne ((hs.iff i s hi).mpr hl)
  unfold emit
  by_cases hzero : slot = 0
  · rw [if_pos hzero]
    refine ⟨e.targets, e.routed, rfl, hlen, ?_⟩
    intro i s hi
    obtain ⟨tg, htg, hsym, hb⟩ := ht i s hi
    have hne : slot.toNat ≠ i + 1 := by
      rw [hzero]
      exact (Nat.succ_ne_zero i).symm
    exact ⟨tg, htg, hsym, hoff s _ (hlisted i s hi hne) hb⟩
  · have hpos : slot.toNat ≠ 0 := fun h => hzero (UInt16.toNat_inj.mp h)
    have hle := hs.le
    have hlt : slot.toNat - 1 < want.length := by omega
    obtain ⟨tg, htg, hsym, hb⟩ := ht (slot.toNat - 1) _ (List.getElem?_eq_getElem hlt)
    rw [if_neg hzero, htg]
    refine ⟨_, _, rfl, List.length_set.trans hlen, ?_⟩
    intro i s hi
    by_cases heq : slot.toNat = i + 1
    · obtain rfl : i = slot.toNat - 1 := by omega
      obtain rfl := Option.some.inj ((List.getElem?_eq_getElem hlt).symm.trans hi)
      refine ⟨_, List.getElem?_set_self (hlen.symm ▸ hlt), hsym, ?_⟩
      show Holds _ orders' (replayed (tg.events ++ [event]))
      rw [replayed_snoc]
      exact hon _ _ ((hs.iff _ _ hi).mp heq) hb
    · have hne : slot.toNat - 1 ≠ i := by omega
      obtain ⟨tg', htg', hsym', hb'⟩ := ht i s hi
      exact ⟨tg', (List.getElem?_set_ne hne).trans htg', hsym', hoff s _ (hlisted i s hi heq) hb'⟩

/-! ### The index -/

theorem Routed.none_iff {r : Option Route} {x : Option StreamOrder} (h : Routed want r x) :
    r = none ↔ x = none := by
  cases r <;> cases x <;> simp_all [Routed]

/-- The entry of an order of the stream. -/
theorem Routed.entry {r : Option Route} (h : Routed want r (some o)) :
    ∃ slot, r = some ⟨o.shares, slot⟩ ∧ SlotOf want slot o := by
  cases r with
  | none => exact h.elim
  | some r =>
    obtain ⟨shares, slot⟩ := r
    obtain ⟨rfl, hs⟩ := h
    exact ⟨slot, rfl, hs⟩

/-- One entry of the index changes with its order. -/
theorem routed_update {m m' : OpenHashMap Route} {r : Option Route} {x : Option StreamOrder}
    (h : ∀ ref ≠ kEmpty, Routed want (lookup m ref) (orders ref)) (hx : Routed want r x)
    (hm : ∀ k ≠ kEmpty, lookup m' k = if k = ref then r else lookup m k) :
    ∀ k ≠ kEmpty, Routed want (lookup m' k) (Function.update orders ref x k) := by
  intro k hk
  rw [hm k hk]
  by_cases heq : k = ref
  · obtain rfl := heq
    rw [if_pos rfl, Function.update_self]
    exact hx
  · rw [if_neg heq, Function.update_of_ne heq]
    exact h k hk

theorem real_update (h : orders kEmpty = none) (href : ref ≠ 0) (x : Option StreamOrder) :
    Function.update orders ref x kEmpty = none :=
  (Function.update_of_ne (Ne.symm href) ..).trans h

theorem SlotOf.congr {o' : StreamOrder} (h : SlotOf want slot o) (hl : o'.listed = o.listed) :
    SlotOf want slot o' :=
  ⟨h.le, fun i s hi => hl ▸ h.iff i s hi⟩

/-! ### Messages -/

namespace Tracks

/-- A message about orders leaves what is known of the symbols. -/
theorem of_orders {targets : List Target} {route : OpenHashMap Route} (h : Tracks want e t)
    (hlen : targets.length = want.length) (hwf : WF OpenHashMap.hash route)
    (hrouted : ∀ ref ≠ kEmpty, Routed want (lookup route ref) (orders ref))
    (hreal : orders kEmpty = none) (htapes : Tapes want targets orders)
    (routed unroutable insertFailed : ℕ) :
    Tracks want (.mk e.locateToTarget e.symbolToTarget targets route routed unroutable
      insertFailed) { t with orders := orders } :=
  ⟨h.symbols, hlen, h.locates, hwf, hrouted, hreal, htapes⟩

theorem directory (h : Tracks want e t) (hnodup : want.Nodup) (locate : StockLocate)
    (stock : Itch.Symbol) (ha : t.Admits want (.directory locate stock)) :
    ∃ e', e.step (.directory locate stock) = some e' ∧
      Tracks want e' (t.step (.directory locate stock)) := by
  cases hsym : e.symbolToTarget[stock.raw]? with
  | none =>
    have hnot : ∀ (i : ℕ) s, want[i]? = some s → s ≠ stock := by
      intro i s hi heq
      rw [heq] at hi
      exact nomatch hsym.symm.trans ((h.symbols stock i).mpr hi)
    refine ⟨e, by rw [step, hsym], { h with locates := fun l i => ?_ }⟩
    rw [h.locates l i]
    apply exists_congr
    intro s
    apply and_congr_right
    intro hi
    exact (Function.update_of_ne (hnot i s hi) _ t.locates).symm ▸ Iff.rfl
  | some i =>
    have hi := (h.symbols stock i).mp hsym
    have hmem := List.mem_of_getElem? hi
    obtain ⟨tg, htg, htgsym, hb⟩ := h.tapes i stock hi
    obtain ⟨hlt, -⟩ := List.getElem?_eq_some_iff.mp htg
    refine ⟨{ e with
      targets := e.targets.set i { tg with locate := locate }
      locateToTarget := e.locateToTarget.insert locate i }, ?_, ?_⟩
    · rw [step, hsym]
      show (e.targets[i]?.bind _) = _
      rw [htg]
      rfl
    constructor
    case symbols => exact h.symbols
    case length => exact List.length_set.trans h.length
    case locates =>
      intro l j
      show (e.locateToTarget.insert locate i)[l]? = some j ↔
        ∃ s, want[j]? = some s ∧ Function.update t.locates stock (some locate) s = some l
      rw [Support.getElem?_insert_if]
      by_cases hl : l = locate
      · obtain rfl := hl
        rw [if_pos rfl]
        constructor
        · intro hj
          obtain rfl := Option.some.inj hj
          exact ⟨stock, hi, Function.update_self ..⟩
        · rintro ⟨s, hj, hs⟩
          have heq : s = stock := by
            by_contra hne
            rw [Function.update_of_ne hne] at hs
            exact hne ((ha hmem s (List.mem_of_getElem? hj) l hs).mp rfl)
          rw [heq, ← hi] at hj
          obtain ⟨hlt, -⟩ := List.getElem?_eq_some_iff.mp hi
          exact congrArg some ((List.getElem?_inj hlt hnodup).mp hj.symm)
      · rw [if_neg hl, h.locates l j]
        apply exists_congr
        intro s
        apply and_congr_right
        intro hj
        by_cases heq : s = stock
        · obtain rfl := heq
          rw [Function.update_self]
          constructor
          · intro hs
            exact absurd ((ha hmem s hmem l hs).mpr rfl) hl
          · intro hs
            exact absurd (Option.some.inj hs).symm hl
        · rw [Function.update_of_ne heq]
    case table => exact h.table
    case routed => exact h.routed
    case real => exact h.real
    case tapes =>
      intro j s hj
      by_cases heq : i = j
      · obtain rfl := heq
        obtain rfl := Option.some.inj (hi.symm.trans hj)
        exact ⟨_, List.getElem?_set_self hlt, htgsym, hb⟩
      · obtain ⟨tg', htg', hrest⟩ := h.tapes j s hj
        exact ⟨tg', (List.getElem?_set_ne heq).trans htg', hrest⟩

/-- The slot of an order that is added. -/
theorem slotOf_add (h : Tracks want e t) (hfew : want.length < 65535)
    (locate : StockLocate) (side : Side) (price : Price) (shares : Qty) :
    SlotOf want (e.slotFor locate) ⟨side, price, shares, fun s => t.locates s = some locate⟩ := by
  unfold slotFor
  cases hat : e.locateToTarget[locate]? with
  | none =>
    constructor
    case le => exact Nat.zero_le _
    case iff =>
      intro i s hi
      constructor
      · exact fun heq => absurd heq (Nat.succ_ne_zero i).symm
      · intro hs
        have hat' := (h.locates locate i).mpr ⟨s, hi, of_decide_eq_true hs⟩
        exact nomatch hat.symm.trans hat'
  | some i =>
    obtain ⟨s, hi, hs⟩ := (h.locates locate i).mp hat
    obtain ⟨hlt, -⟩ := List.getElem?_eq_some_iff.mp hi
    have hslot : (UInt16.ofNat (i + 1)).toNat = i + 1 := by
      rw [UInt16.toNat_ofNat']
      exact Nat.mod_eq_of_lt (by omega)
    constructor
    case le => exact hslot.trans_le hlt
    case iff =>
      intro j s' hj
      rw [hslot]
      constructor
      · intro heq
        obtain rfl := Nat.succ.inj heq
        obtain rfl := Option.some.inj (hi.symm.trans hj)
        exact decide_eq_true hs
      · intro hs'
        have hat' := (h.locates locate j).mpr ⟨s', hj, of_decide_eq_true hs'⟩
        exact congrArg Nat.succ (Option.some.inj (hat.symm.trans hat'))

/-- A reference that names no order is counted, and that is all. -/
theorem unroutable (h : Tracks want e t) :
    Tracks want { e with unroutable := e.unroutable + 1 } t :=
  { h with }

/-- What the index says of a reference. -/
theorem find_eq (h : Tracks want e t) (href : ref ≠ 0) :
    (t.orders ref = none ∧ e.route.find OpenHashMap.hash ref = some none) ∨
    ∃ o slot, t.orders ref = some o ∧ lookup e.route ref = some ⟨o.shares, slot⟩ ∧
      SlotOf want slot o ∧
      e.route.find OpenHashMap.hash ref = some (some ⟨o.shares, slot⟩) := by
  have hfind := h.table.find_spec href
  have hrouted := h.routed ref href
  cases hx : t.orders ref with
  | none =>
    rw [hx] at hrouted
    rw [hrouted.none_iff.mpr rfl] at hfind
    exact .inl ⟨rfl, hfind⟩
  | some o =>
    rw [hx] at hrouted
    obtain ⟨slot, hlk, hslot⟩ := hrouted.entry
    exact .inr ⟨o, slot, rfl, hlk, hslot, hlk ▸ hfind⟩

theorem reduce (h : Tracks want e t) (href : ref ≠ 0) (type : EventType) (ts : Ts) (shares : Qty)
    (hop : ∀ b : MapBook, b.step (BookEvent.op ⟨ts, ref, 0, 0, shares, type, .buy⟩) =
      b.reduce ref shares) :
    ∃ e', e.reduce type ts ref shares = some e' ∧ Tracks want e' (t.reduce ref shares) := by
  rcases h.find_eq href with ⟨hx, hfind⟩ | ⟨o, slot, hx, hlk, hslot, hfind⟩
  · refine ⟨{ e with unroutable := e.unroutable + 1 }, ?_, ?_⟩
    · rw [ExtractTape.reduce, hfind]
      rfl
    · rw [Stream.reduce, hx]
      exact h.unroutable
  · have hhad : lookup e.route ref ≠ none := hlk ▸ Option.some_ne_none _
    let left := o.shares - if shares < o.shares then shares else o.shares
    let x : Option StreamOrder := if left = 0 then none else some { o with shares := left }
    have hreduce : t.reduce ref shares = { t with orders := Function.update t.orders ref x } := by
      rw [Stream.reduce, hx]
    have hreal := real_update h.real href x
    obtain ⟨targets, n, hemit, hlen, htapes⟩ := emit_tapes h.tapes h.length hslot
      ⟨ts, ref, 0, 0, shares, type, .buy⟩
      (fun s b hl hb => hop b ▸ hb.reduce hx hl)
      (fun s b hl hb => hb.skip_other hx hl (by
        intro o' ho'
        obtain rfl := Option.some.inj (Option.ite_none_left_eq_some.mp ho').2
        exact hl))
    obtain ⟨m1, hw, hwf1, -, -, hlk1⟩ := h.table.write_spec href hhad ⟨left, slot⟩
    have hstep : e.reduce type ts ref shares =
        if left = 0 then (m1.erase OpenHashMap.hash ref).bind fun m =>
          some { e with targets := targets, routed := n, route := m.1 }
        else some { e with targets := targets, routed := n, route := m1 } := by
      rw [ExtractTape.reduce, hfind]
      show ((e.emit slot _).bind _) = _
      rw [hemit]
      show ((e.route.write _ _ _).bind _) = _
      rw [hw]
      rfl
    rw [hstep, hreduce]
    by_cases hleft : left = 0
    · have hx : x = none := if_pos hleft
      have hhad1 : lookup m1 ref ≠ none := by
        rw [hlk1 ref href, if_pos rfl]
        exact Option.some_ne_none _
      obtain ⟨-, m2, herase, hwf2, -, -, hlk2⟩ := (hwf1.erase_spec href).resolve_left
        fun hnone => hhad1 hnone.1
      rw [if_pos hleft, herase]
      refine ⟨_, rfl, h.of_orders hlen hwf2 ?_ hreal htapes _ _ _⟩
      rw [hx]
      have hgone : Routed want none none := trivial
      apply routed_update h.routed hgone
      intro k hk
      rw [hlk2 k hk, hlk1 k hk]
      split <;> rfl
    · have hx : x = some { o with shares := left } := if_neg hleft
      rw [if_neg hleft]
      refine ⟨_, rfl, h.of_orders hlen hwf1 ?_ hreal htapes _ _ _⟩
      rw [hx]
      have hentry : Routed want (some ⟨left, slot⟩) (some { o with shares := left }) :=
        ⟨rfl, hslot.congr rfl⟩
      exact routed_update h.routed hentry hlk1

theorem add (h : Tracks want e t) (hfew : want.length < 65535) (ts : Ts) (locate : StockLocate)
    (side : Side) (price : Price)
    (ha : t.Admits want (.add ts locate ref side shares price)) :
    ∃ e', e.step (.add ts locate ref side shares price) = some e' ∧
      (e'.insertFailed = 0 → Tracks want e' (t.step (.add ts locate ref side shares price))) := by
  obtain ⟨href, hshares, hnew⟩ := ha
  have hslot := h.slotOf_add hfew locate side price shares
  have hemit (route : OpenHashMap Route) (failed : ℕ) :=
    @emit_tapes want { e with route := route, insertFailed := failed } _ t.orders _ _ h.tapes
      h.length hslot ⟨ts, ref, 0, price, shares, .add, side⟩
      (fun s b hl hb => hb.add hshares hl)
      (fun s b hl hb => hb.skip (by rw [hnew]; rfl) (recordOf_other hl))
  rcases h.table.insert_spec href ⟨shares, e.slotFor locate⟩ with ⟨-, -, hins⟩ | ⟨m, hins, hwf, -, hlk, -⟩
  · obtain ⟨targets, n, hemit, -, -⟩ := hemit e.route (e.insertFailed + 1)
    refine ⟨{ e with targets := targets, routed := n, insertFailed := e.insertFailed + 1 }, ?_,
      fun hzero => absurd hzero (Nat.succ_ne_zero e.insertFailed)⟩
    rw [step, store, hins]
    exact hemit
  · obtain ⟨targets, n, hemit, hlen, htapes⟩ := hemit m e.insertFailed
    refine ⟨{ e with targets := targets, routed := n, route := m }, ?_, fun _ => ?_⟩
    · rw [step, store, hins]
      exact hemit
    · have hentry : Routed want (some ⟨shares, e.slotFor locate⟩)
          (some ⟨side, price, shares, fun s => t.locates s = some locate⟩) := ⟨rfl, hslot⟩
      exact h.of_orders hlen hwf (routed_update h.routed hentry hlk)
        (real_update h.real href _) htapes _ _ _

theorem delete (h : Tracks want e t) (href : ref ≠ 0) (ts : Ts) :
    ∃ e', e.step (.delete ts ref) = some e' ∧ Tracks want e' (t.step (.delete ts ref)) := by
  rcases h.find_eq href with ⟨hx, hfind⟩ | ⟨o, slot, hx, hlk, hslot, hfind⟩
  · refine ⟨{ e with unroutable := e.unroutable + 1 }, ?_, ?_⟩
    · rw [step, hfind]
      rfl
    · have hsame : t.step (.delete ts ref) = t := by
        rw [Stream.step, ← hx, Function.update_eq_self]
      exact hsame.symm ▸ h.unroutable
  · obtain ⟨targets, n, hemit, hlen, htapes⟩ := emit_tapes h.tapes h.length hslot
      ⟨ts, ref, 0, 0, 0, .delete, .buy⟩
      (fun s b hl hb => hb.remove hx hl) (fun s b hl hb => hb.skip_other (x := none) hx hl fun _ h => absurd h.symm (Option.some_ne_none _))
    have hhad : lookup e.route ref ≠ none := hlk ▸ Option.some_ne_none _
    obtain ⟨-, m, herase, hwf, -, -, hlk'⟩ := (h.table.erase_spec href).resolve_left
      fun hnone => hhad hnone.1
    refine ⟨{ e with targets := targets, routed := n, route := m }, ?_, ?_⟩
    · rw [step, hfind]
      show ((e.emit slot _).bind _) = _
      rw [hemit]
      show ((e.route.erase _ _).bind _) = _
      rw [herase]
      rfl
    · have hgone : Routed want none none := trivial
      exact h.of_orders hlen hwf (routed_update h.routed hgone hlk') (real_update h.real href _) htapes
        _ _ _

theorem replace {original new : OrderId} (h : Tracks want e t) (ts : Ts) (price : Price)
    (ha : t.Admits want (.replace ts original new shares price)) :
    ∃ e', e.step (.replace ts original new shares price) = some e' ∧
      (e'.insertFailed = 0 → Tracks want e' (t.step (.replace ts original new shares price))) := by
  obtain ⟨href, hnew, hshares, hfree⟩ := ha
  rcases h.find_eq href with ⟨hx, hfind⟩ | ⟨o, slot, hx, hlk, hslot, hfind⟩
  · refine ⟨{ e with unroutable := e.unroutable + 1 }, ?_, fun _ => ?_⟩
    · rw [step, hfind]
      rfl
    · rw [Stream.step, hx]
      exact h.unroutable
  · have hnone : Function.update t.orders original none new = none := by
      by_cases heq : new = original
      · rw [heq, Function.update_self]
      · rw [Function.update_of_ne heq, hfree]
    obtain ⟨targets, n, hemit, hlen, htapes⟩ := emit_tapes h.tapes h.length hslot
      ⟨ts, original, new, price, shares, .replace, .buy⟩
      (fun s b hl hb => hb.replace hx hl hshares)
      (fun s b hl hb => (hb.skip_other (x := none) hx hl fun _ h => absurd h.symm (Option.some_ne_none _)).skip (by rw [hnone]; rfl) (recordOf_other hl))
    have hhad : lookup e.route original ≠ none := hlk ▸ Option.some_ne_none _
    obtain ⟨-, m, herase, hwf, -, -, hlk'⟩ := (h.table.erase_spec href).resolve_left
      fun hnone => hhad hnone.1
    have hgone : Routed want none none := trivial
    have hrouted := routed_update h.routed hgone hlk'
    have hstep : e.step (.replace ts original new shares price) =
        store { e with targets := targets, routed := n, route := m } new ⟨shares, slot⟩ := by
      rw [step, hfind]
      show ((e.emit slot _).bind _) = _
      rw [hemit]
      show ((e.route.erase _ _).bind _) = _
      rw [herase]
      rfl
    have hstream : t.step (.replace ts original new shares price) = { t with
        orders := Function.update (Function.update t.orders original none) new
          (some { o with price := price, shares := shares }) } := by
      rw [Stream.step, hx]
    rw [hstep, hstream]
    rcases hwf.insert_spec hnew ⟨shares, slot⟩ with ⟨-, -, hins⟩ | ⟨m2, hins, hwf2, -, hlk2, -⟩
    · refine ⟨{ e with
        targets := targets, routed := n, route := m, insertFailed := e.insertFailed + 1 }, ?_,
        fun hzero => absurd hzero (Nat.succ_ne_zero e.insertFailed)⟩
      show ((m.insert _ _ _).bind _) = _
      rw [hins]
      rfl
    · refine ⟨{ e with targets := targets, routed := n, route := m2 }, ?_, fun _ => ?_⟩
      · show ((m.insert _ _ _).bind _) = _
        rw [hins]
        rfl
      · have hentry : Routed want (some ⟨shares, slot⟩)
            (some { o with price := price, shares := shares }) := ⟨rfl, hslot.congr rfl⟩
        exact h.of_orders hlen hwf2 (routed_update hrouted hentry hlk2)
          (real_update (real_update h.real href none) hnew _) htapes _ _ _

theorem step (h : Tracks want e t) (hnodup : want.Nodup) (hfew : want.length < 65535)
    {x : Message} (ha : t.Admits want x) :
    ∃ e', e.step x = some e' ∧ (e'.insertFailed = 0 → Tracks want e' (t.step x)) := by
  cases x with
  | directory locate stock =>
    obtain ⟨e', hs, h'⟩ := h.directory hnodup locate stock ha
    exact ⟨e', hs, fun _ => h'⟩
  | add ts locate ref side shares price => exact h.add hfew ts locate side price ha
  | execute ts ref shares =>
    obtain ⟨e', hs, h'⟩ := h.reduce ha .execute ts shares fun _ => rfl
    exact ⟨e', hs, fun _ => h'⟩
  | cancel ts ref shares =>
    obtain ⟨e', hs, h'⟩ := h.reduce ha .cancel ts shares fun _ => rfl
    exact ⟨e', hs, fun _ => h'⟩
  | delete ts ref =>
    obtain ⟨e', hs, h'⟩ := h.delete ha ts
    exact ⟨e', hs, fun _ => h'⟩
  | replace ts original new shares price => exact h.replace ts price ha
  | other => exact ⟨e, rfl, fun _ => h⟩

/-! ### Runs -/

theorem raw_injective : Function.Injective Itch.Symbol.raw := by
  intro s w heq
  cases s
  cases w
  exact congrArg _ heq

/-- The map of the symbols is the list of them. -/
theorem symbols_iff (hnodup : want.Nodup) (n : ℕ) (m : Std.TreeMap UInt64 ℕ)
    (hm : ∀ s ∈ want, m[s.raw]? = none) (s : Itch.Symbol) (i : ℕ) :
    ((want.zipIdx n).foldl (fun m x => m.insert x.1.raw x.2) m)[s.raw]? = some i ↔
      m[s.raw]? = some i ∨ n ≤ i ∧ want[i - n]? = some s := by
  induction want generalizing n m with
  | nil =>
    constructor
    · exact fun h => .inl h
    · exact fun h => h.resolve_right fun h => nomatch h.2
  | cons w want ih =>
    obtain ⟨hw, hnodup⟩ := List.nodup_cons.mp hnodup
    have hm' : ∀ s ∈ want, (m.insert w.raw n)[s.raw]? = none := by
      intro s hs
      have hne : s.raw ≠ w.raw := fun heq => hw (raw_injective heq ▸ hs)
      rw [Support.getElem?_insert_if, if_neg hne]
      exact hm s (List.mem_cons_of_mem _ hs)
    have hfirst := hm w List.mem_cons_self
    rw [List.zipIdx_cons, List.foldl_cons, ih hnodup (n + 1) _ hm',
      Support.getElem?_insert_if]
    by_cases heq : s = w
    · obtain rfl := heq
      rw [if_pos rfl, hfirst]
      constructor
      · rintro (h | ⟨-, h⟩)
        · obtain rfl := Option.some.inj h
          exact .inr ⟨le_rfl, by rw [Nat.sub_self]; rfl⟩
        · exact absurd (List.mem_of_getElem? h) hw
      · rintro (h | ⟨hle, h⟩)
        · exact nomatch h
        · cases hk : i - n with
          | zero => exact .inl (congrArg some (by omega))
          | succ k =>
            rw [hk, List.getElem?_cons_succ] at h
            exact absurd (List.mem_of_getElem? h) hw
    · rw [if_neg fun hraw => heq (raw_injective hraw)]
      apply or_congr_right
      constructor
      · rintro ⟨hle, h⟩
        have hk : i - n = i - (n + 1) + 1 := by omega
        exact ⟨by omega, by rw [hk, List.getElem?_cons_succ, h]⟩
      · rintro ⟨hle, h⟩
        cases hk : i - n with
        | zero =>
          rw [hk] at h
          exact absurd (Option.some.inj h).symm heq
        | succ k =>
          rw [hk, List.getElem?_cons_succ] at h
          have hk : i - (n + 1) = k := by omega
          exact ⟨by omega, hk ▸ h⟩

theorem start (hnodup : want.Nodup) {tablePow2 : ℕ} {route : OpenHashMap Route}
    (hmake : make tablePow2 = some route) : Tracks want (.start want route) {} := by
  obtain ⟨hwf, -, -, hnone⟩ := WF.make hmake
  constructor
  case symbols =>
    intro s i
    have h := symbols_iff hnodup 0 ∅ (fun _ _ => Std.TreeMap.getElem?_emptyc) s i
    rw [Std.TreeMap.getElem?_emptyc] at h
    exact h.trans ⟨fun h => (h.resolve_left nofun).2, fun h => .inr ⟨Nat.zero_le i, h⟩⟩
  case length => exact List.length_map _
  case locates =>
    intro l i
    constructor
    · intro h
      rw [ExtractTape.start, Std.TreeMap.getElem?_emptyc] at h
      exact nomatch h
    · rintro ⟨s, -, hs⟩
      exact nomatch hs
  case table => exact hwf
  case routed =>
    intro ref href
    show Routed want (lookup route ref) none
    rw [hnone ref href]
    trivial
  case real => rfl
  case tapes =>
    intro i s hi
    refine ⟨{ symbol := s }, ?_, rfl, fun ref => Std.TreeMap.getElem?_emptyc⟩
    show (want.map _)[i]? = _
    rw [List.getElem?_map, hi]
    rfl

end Tracks

theorem run_snoc (e : ExtractTape) (xs : List Message) (x : Message) :
    e.run (xs ++ [x]) = (e.run xs).bind fun e => e.step x := by
  rw [run, List.foldlM_append]
  apply congrArg
  funext e
  exact Option.bind_fun_some _

theorem tracks_run (hnodup : want.Nodup) (hfew : want.length < 65535) {tablePow2 : ℕ}
    {route : OpenHashMap Route} (hmake : make tablePow2 = some route) {xs : List Message}
    (hadm : Stream.Admissible want xs)
    (hins : ∀ pre e, pre <+: xs → (start want route).run pre = some e → e.insertFailed = 0)
    (pre : List Message) (hpre : pre <+: xs) :
    ∃ e, (start want route).run pre = some e ∧ Tracks want e (Stream.run pre) := by
  induction pre using List.reverseRecOn with
  | nil => exact ⟨_, rfl, Tracks.start hnodup hmake⟩
  | append_singleton pre x ih =>
    obtain ⟨e, hrun, h⟩ := ih ((List.prefix_append ..).trans hpre)
    obtain ⟨post, rfl⟩ := hpre
    have hx := hadm pre x post (List.append_assoc ..)
    obtain ⟨e', hs, h'⟩ := h.step hnodup hfew hx
    have hrun' : (ExtractTape.start want route).run (pre ++ [x]) = some e' := by
      rw [run_snoc, hrun]
      exact hs
    refine ⟨e', hrun', ?_⟩
    rw [Stream.run, List.foldl_append]
    exact h' (hins _ e' (List.prefix_append ..) hrun')

/-- What the tool has written agrees with the orders of the stream: the book that a tape
replays to, and the keys of the index with their shares. -/
structure Agrees (want : List Itch.Symbol) (e : ExtractTape) (t : Stream) : Prop where
  tapes : ∀ (i : ℕ) s, want[i]? = some s → ∃ tg b, e.targets[i]? = some tg ∧ tg.symbol = s ∧
    tg.events.foldlM Book.apply MapBook.empty = some b ∧ Holds s t.orders b
  keys : ∀ ref ≠ 0, ∀ shares, (∃ slot, ⟨ref, ⟨shares, slot⟩⟩ ∈ e.route.slots) ↔
    ∃ o, t.orders ref = some o ∧ o.shares = shares
  real : t.orders 0 = none

theorem apply_replayed (b : MapBook) (events : List BookEvent) :
    events.foldlM Book.apply b = some (MapBook.replay b (events.map BookEvent.op)) := by
  induction events generalizing b with
  | nil => rfl
  | cons event events ih => exact ih (b.step event.op)

theorem Tracks.agrees (h : Tracks want e t) : Agrees want e t := by
  constructor
  case tapes =>
    intro i s hi
    obtain ⟨tg, htg, hsym, hb⟩ := h.tapes i s hi
    exact ⟨tg, _, htg, hsym, apply_replayed .empty tg.events, hb⟩
  case keys =>
    intro ref href shares
    constructor
    · rintro ⟨slot, hmem⟩
      obtain ⟨p, hp⟩ := List.mem_iff_getElem?.mp hmem
      have hlk := (h.table.lookup_eq_some href).mpr ⟨p, hp⟩
      have hrouted := h.routed ref href
      rw [hlk] at hrouted
      cases ho : t.orders ref with
      | none =>
        rw [ho] at hrouted
        exact hrouted.elim
      | some o =>
        rw [ho] at hrouted
        exact ⟨o, rfl, hrouted.1.symm⟩
    · rintro ⟨o, ho, rfl⟩
      have hrouted := h.routed ref href
      rw [ho] at hrouted
      obtain ⟨slot, hlk, -⟩ := hrouted.entry
      obtain ⟨p, hp⟩ := (h.table.lookup_eq_some href).mp hlk
      exact ⟨slot, List.mem_of_getElem? hp⟩
  case real => exact h.real

/-- After every message of a stream without insert failures, each tape replays to the
orders of its symbol, and the index holds exactly the live orders. -/
theorem tapes_replay (want : List Itch.Symbol) (hnodup : want.Nodup) (hfew : want.length < 65535)
    (tablePow2 : ℕ) {route : OpenHashMap Route} (hmake : make tablePow2 = some route)
    (xs : List Message) (hadm : Stream.Admissible want xs)
    (hins : ∀ pre e, pre <+: xs → (start want route).run pre = some e → e.insertFailed = 0)
    (pre : List Message) (hpre : pre <+: xs) :
    ∃ e, (start want route).run pre = some e ∧ Agrees want e (Stream.run pre) := by
  obtain ⟨e, hrun, h⟩ := tracks_run hnodup hfew hmake hadm hins pre hpre
  exact ⟨e, hrun, h.agrees⟩

/-- One symbol, one order of it, executed in part. -/
theorem tapes_replay_two :
    let xs : List Message := [.directory 7 ⟨1⟩, .add 5 7 3 .buy 10 100, .execute 6 3 4]
    ∃ route e, make 16 = some route ∧ (start [⟨1⟩] route).run xs = some e ∧
      Agrees [⟨1⟩] e (Stream.run xs) := by
  intro xs
  let route : OpenHashMap Route := ⟨List.replicate 16 ⟨kEmpty, default⟩, 15, 0⟩
  have hadm : Stream.Admissible [⟨1⟩] xs := by
    intro pre x post h
    match pre, h with
    | [], h =>
      obtain ⟨rfl, -⟩ := List.cons.inj h
      exact fun _ s _ l hs => nomatch hs
    | [a], h =>
      obtain ⟨ha, h⟩ := List.cons.inj h
      obtain ⟨rfl, -⟩ := List.cons.inj h
      subst ha
      exact ⟨by decide, by decide, rfl⟩
    | [_, _], h =>
      obtain ⟨-, h⟩ := List.cons.inj h
      obtain ⟨-, h⟩ := List.cons.inj h
      obtain ⟨rfl, -⟩ := List.cons.inj h
      exact (by decide : (3 : OrderId) ≠ 0)
    | _ :: _ :: _ :: pre, h => exact absurd (congrArg List.length h) (by simp [xs])
  have hall : ∀ pre ∈ xs.inits,
      ((start [⟨1⟩] route).run pre).all (fun e => e.insertFailed == 0) = true := by
    decide +kernel
  have hins : ∀ pre e, pre <+: xs → (start [⟨1⟩] route).run pre = some e → e.insertFailed = 0 := by
    intro pre e hpre hrun
    have h := hall pre ((List.mem_inits pre xs).mpr hpre)
    rw [hrun] at h
    exact beq_iff_eq.mp h
  obtain ⟨e, hrun, h⟩ := tapes_replay [⟨1⟩] (List.nodup_singleton _) (by decide) 16
    (rfl : make 16 = some route) xs hadm hins xs List.prefix_rfl
  exact ⟨route, e, rfl, hrun, h⟩

end Hotpath.Tools.ExtractTape
