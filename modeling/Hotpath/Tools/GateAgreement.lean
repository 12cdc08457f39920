import Hotpath.Tools.ItchStat
import Hotpath.Tools.TapeSlots

/-!
# What the gate says about the extractor (itch_stat.cpp, extract_tape.cpp)

Both programs keep a table of the live orders of a stream. On a stream that
passes the gate the two tables are one, message by message, as long as no execute
or cancel asks for more shares than its order has left: there the gate's pass
keeps the order and the extractor retires it.
-/

namespace Hotpath.Tools
open Hotpath.Itch OpenHashMap

/-- The order an execute or a cancel takes shares from, and how many. -/
def reduction : Message → Option (OrderId × Qty)
  | .execute _ ref shares => some (ref, shares)
  | .cancel _ ref shares => some (ref, shares)
  | _ => none

/-- The message takes no more shares than its order has left in the table. -/
def Fits (live : OpenHashMap LiveOrder) (x : Message) : Prop :=
  ∀ ref shares o, reduction x = some (ref, shares) →
    live.find OpenHashMap.hash ref = some (some o) → shares ≤ o.shares

def liveOrder (r : Route) : LiveOrder := ⟨r.shares⟩

/-- The two tables hold the same orders, with the same shares. -/
structure SameLive (live : OpenHashMap LiveOrder) (route : OpenHashMap Route) : Prop where
  size : live.size = route.size
  find : ∀ ref, live.find OpenHashMap.hash ref =
    (route.find OpenHashMap.hash ref).map (Option.map liveOrder)

/-! ### One message of a stream that passes -/

/-- The counters of the gate. -/
structure Clean (i : Integrity) : Prop where
  execute : i.orphanExecute = 0
  cancel : i.orphanCancel = 0
  delete : i.orphanDelete = 0
  replace : i.orphanReplace = 0
  stored : i.tableFull = 0

section Settle
variable {V W : Type}

/-- Write what is left of an order, and retire it where that is nothing. -/
def settle (done : V → Bool) (m : OpenHashMap V) (ref : OrderId) (v : V) :
    Option (OpenHashMap V) := do
  let m ← m.write OpenHashMap.hash ref v
  if done v then
    let (m, _) ← m.erase OpenHashMap.hash ref
    return m
  else return m

theorem settle_mapValues (f : V → W) (done : W → Bool) (m : OpenHashMap V) (ref : OrderId)
    (v : V) : settle done (m.mapValues f) ref (f v) =
      (settle (fun x => done (f x)) m ref v).map (mapValues f) := by
  simp only [settle, write_mapValues, Option.bind_eq_bind]
  cases m.write OpenHashMap.hash ref v with
  | none => rfl
  | some m1 =>
    simp only [Option.map_some, Option.bind_some, erase_mapValues]
    split
    · cases m1.erase OpenHashMap.hash ref <;> rfl
    · rfl

theorem settle_all {P : V → Prop} {done : V → Bool} {m m' : OpenHashMap V} {ref : OrderId} {v : V}
    (ha : All P m) (hp : P v) (hs : settle done m ref v = some m') : All P m' := by
  obtain ⟨m1, hw, hm⟩ := Option.bind_eq_some_iff.mp hs
  have ha1 := ha.write hp hw
  split at hm
  · obtain ⟨x, he, hm⟩ := Option.bind_eq_some_iff.mp hm
    cases hm
    exact ha1.erase he
  · cases hm
    exact ha1

theorem settle_lt {done : V → Bool} {m m' : OpenHashMap V} {ref : OrderId} {v : V}
    (hlt : m.size < 2 ^ 64) (hs : settle done m ref v = some m') : m'.size < 2 ^ 64 := by
  obtain ⟨m1, hw, hm⟩ := Option.bind_eq_some_iff.mp hs
  have hsize := (find_write hw ref).1
  split at hm
  · obtain ⟨x, he, hm⟩ := Option.bind_eq_some_iff.mp hm
    cases hm
    exact erase_size_lt (hsize ▸ hlt) he
  · cases hm
    exact hsize ▸ hlt

/-- A retired order leaves a smaller table. -/
theorem settle_size {done : V → Bool} {m m' : OpenHashMap V} {ref : OrderId} {v w : V}
    (hf : m.find OpenHashMap.hash ref = some (some w)) (hd : done v = true)
    (hs : settle done m ref v = some m') : m'.size = (m.size + (2 ^ 64 - 1)) % 2 ^ 64 := by
  obtain ⟨m1, hw, hm⟩ := Option.bind_eq_some_iff.mp hs
  obtain ⟨hsize, hfound⟩ := find_write hw ref
  rw [hf] at hfound
  rw [if_pos hd] at hm
  obtain ⟨x, he, hm⟩ := Option.bind_eq_some_iff.mp hm
  cases hm
  rw [← hsize]
  exact erase_size hfound he

end Settle

/-- What a message does to the gate's table where it raises none of its counters. -/
inductive Tracked : OpenHashMap LiveOrder → Message → OpenHashMap LiveOrder → Prop where
  | add {live live' ts locate ref side shares price}
      (h : live.insert OpenHashMap.hash ref ⟨shares⟩ = some (live', true)) :
      Tracked live (.add ts locate ref side shares price) live'
  | reduced {live live' x ref shares o} (hx : reduction x = some (ref, shares))
      (hf : live.find OpenHashMap.hash ref = some (some o)) (hle : ¬o.shares < shares)
      (h : settle (fun o => o.shares = 0) live ref ⟨o.shares - shares⟩ = some live') :
      Tracked live x live'
  | oversized {live x ref shares o} (hx : reduction x = some (ref, shares))
      (hf : live.find OpenHashMap.hash ref = some (some o)) (hlt : o.shares < shares) :
      Tracked live x live
  | delete {live live' ts ref} (h : live.erase OpenHashMap.hash ref = some (live', true)) :
      Tracked live (.delete ts ref) live'
  | replace {live live' live1 ts original new shares price}
      (he : live.erase OpenHashMap.hash original = some (live1, true))
      (hi : live1.insert OpenHashMap.hash new ⟨shares⟩ = some (live', true)) :
      Tracked live (.replace ts original new shares price) live'
  | directory {live locate stock} : Tracked live (.directory locate stock) live
  | other {live} : Tracked live .other live

namespace ItchStat
variable {s s' : ItchStat} {x : Message} {ref : OrderId} {shares : Qty}

theorem store_tracked (hs : s.store ref shares = some s') (hc : Clean s'.integ) :
    Clean s.integ ∧ s.live.insert OpenHashMap.hash ref ⟨shares⟩ = some (s'.live, true) := by
  obtain ⟨⟨live, ok⟩, hi, hm⟩ := Option.bind_eq_some_iff.mp hs
  cases hm
  cases ok with
  | true => exact ⟨⟨hc.execute, hc.cancel, hc.delete, hc.replace, hc.stored⟩, hi⟩
  | false => exact absurd hc.stored (Nat.succ_ne_zero _)

theorem reduce_tracked {oversized orphan : Integrity → Integrity}
    (hover : ∀ i, Clean (oversized i) → Clean i) (horphan : ∀ i, ¬Clean (orphan i))
    (hx : reduction x = some (ref, shares)) (hs : s.reduce ref shares oversized orphan = some s')
    (hc : Clean s'.integ) : Clean s.integ ∧ Tracked s.live x s'.live := by
  obtain ⟨o, hf, hm⟩ := Option.bind_eq_some_iff.mp hs
  cases o with
  | none =>
    cases hm
    exact absurd hc (horphan _)
  | some o =>
    dsimp only at hm
    split at hm
    · rename_i hlt
      cases hm
      exact ⟨hover _ hc, .oversized hx hf hlt⟩
    · rename_i hle
      obtain ⟨live, hw, hm⟩ := Option.bind_eq_some_iff.mp hm
      have hsettle : settle (fun o => o.shares = 0) s.live ref ⟨o.shares - shares⟩ = some s'.live ∧
          s'.integ = s.integ := by
        simp only [settle, hw, Option.bind_eq_bind, Option.bind_some, decide_eq_true_eq]
        split at hm
        · rename_i hz
          obtain ⟨y, he, hm⟩ := Option.bind_eq_some_iff.mp hm
          cases hm
          rw [if_pos hz, he]
          exact ⟨rfl, rfl⟩
        · rename_i hz
          cases hm
          rw [if_neg hz]
          exact ⟨rfl, rfl⟩
      exact ⟨hsettle.2 ▸ hc, .reduced hx hf hle hsettle.1⟩

theorem step_tracked (hs : s.step x = some s') (hc : Clean s'.integ) :
    Clean s.integ ∧ Tracked s.live x s'.live := by
  cases x with
  | directory locate stock =>
    cases hs
    exact ⟨hc, .directory⟩
  | other =>
    cases hs
    exact ⟨hc, .other⟩
  | add ts locate ref side shares price =>
    obtain ⟨o, -, hs⟩ := Option.bind_eq_some_iff.mp hs
    obtain ⟨hc', hi⟩ := store_tracked hs hc
    refine ⟨?_, .add hi⟩
    cases o with
    | none => exact hc'
    | some o => exact ⟨hc'.execute, hc'.cancel, hc'.delete, hc'.replace, hc'.stored⟩
  | execute ts ref shares =>
    simp only [step] at hs
    refine reduce_tracked (fun i h => ?_) (fun i h => ?_) rfl hs hc
    · exact ⟨h.execute, h.cancel, h.delete, h.replace, h.stored⟩
    · exact Nat.succ_ne_zero _ h.execute
  | cancel ts ref shares =>
    simp only [step] at hs
    refine reduce_tracked (fun i h => ?_) (fun i h => ?_) rfl hs hc
    · exact ⟨h.execute, h.cancel, h.delete, h.replace, h.stored⟩
    · exact Nat.succ_ne_zero _ h.cancel
  | delete ts ref =>
    obtain ⟨⟨live, ok⟩, he, hm⟩ := Option.bind_eq_some_iff.mp hs
    cases hm
    cases ok with
    | true => exact ⟨hc, .delete he⟩
    | false => exact absurd hc.delete (Nat.succ_ne_zero _)
  | replace ts original new shares price =>
    obtain ⟨⟨live, ok⟩, he, hs⟩ := Option.bind_eq_some_iff.mp hs
    obtain ⟨hc', hi⟩ := store_tracked hs hc
    cases ok with
    | true => exact ⟨hc', .replace he hi⟩
    | false => exact absurd hc'.replace (Nat.succ_ne_zero _)

theorem run_clean {xs : List Message} (hs : s.run xs = some s') (hc : Clean s'.integ) :
    Clean s.integ := by
  induction xs generalizing s with
  | nil =>
    cases hs
    exact hc
  | cons x xs ih =>
    obtain ⟨s1, h1, hrest⟩ := Option.bind_eq_some_iff.mp hs
    exact (step_tracked h1 (ih hrest)).1

end ItchStat

/-! ### The two tables in step -/

/-- The extractor's table is the gate's, with a slot beside each order's shares. -/
structure Lock (live : OpenHashMap LiveOrder) (e : ExtractTape) : Prop where
  live : live = e.route.mapValues liveOrder
  valid : e.Valid
  routable : e.unroutable = 0
  stored : e.insertFailed = 0
  small : e.route.size < 2 ^ 64

namespace Lock
variable {live live' : OpenHashMap LiveOrder} {e e' : ExtractTape} {x : Message} {ref : OrderId}
  {shares : Qty} {o : LiveOrder}

theorem same (hl : Lock live e) : SameLive live e.route := by
  constructor
  case size => rw [hl.live, mapValues_size]
  case find =>
    intro ref
    rw [hl.live, find_mapValues]

theorem found (hl : Lock live e) (hf : live.find OpenHashMap.hash ref = some (some o)) :
    ∃ r, e.route.find OpenHashMap.hash ref = some (some r) ∧ r.shares = o.shares ∧
      r.slot.toNat ≤ e.targets.length := by
  rw [hl.live, find_mapValues, Option.map_eq_some_iff] at hf
  obtain ⟨r?, hf, hr⟩ := hf
  obtain ⟨r, rfl, ho⟩ := Option.map_eq_some_iff.mp hr
  exact ⟨r, hf, congrArg LiveOrder.shares ho, hl.valid.slots.find hf⟩

/-- An execute or a cancel of the extractor, up to the event it emits. -/
theorem reduce_settle (type : Book.EventType) (ts : Ts) (shares : Qty) {r : Route}
    (hf : e.route.find OpenHashMap.hash ref = some (some r))
    (hslot : r.slot.toNat ≤ e.targets.length) :
    ∃ targets n, targets.length = e.targets.length ∧
      e.reduce type ts ref shares =
        (settle (fun r => r.shares = 0) e.route ref
          { r with shares := r.shares - if shares < r.shares then shares else r.shares }).map
        fun route => { e with route := route, targets := targets, routed := n } := by
  obtain ⟨targets, n, hemit, hlen⟩ := ExtractTape.emit_some hslot
    ⟨ts, ref, 0, 0, shares, type, .buy⟩
  refine ⟨targets, n, hlen, ?_⟩
  simp only [ExtractTape.reduce, hf, hemit, Option.bind_eq_bind, Option.bind_some, settle,
    decide_eq_true_eq]
  generalize (if shares < r.shares then shares else r.shares) = take
  cases e.route.write OpenHashMap.hash ref { r with shares := r.shares - take } with
  | none => rfl
  | some m =>
    simp only [Option.bind_some]
    split
    · cases m.erase OpenHashMap.hash ref <;> rfl
    · rfl

/-- Both keep the same when the order has the shares. -/
theorem reduced {type : Book.EventType} {ts : Ts} (hl : Lock live e)
    (hf : live.find OpenHashMap.hash ref = some (some o)) (hle : ¬o.shares < shares)
    (hs : settle (fun o => o.shares = 0) live ref ⟨o.shares - shares⟩ = some live') :
    ∃ e', e.reduce type ts ref shares = some e' ∧ Lock live' e' := by
  obtain ⟨r, hr, hsh, hslot⟩ := hl.found hf
  obtain ⟨targets, n, hlen, hred⟩ := reduce_settle type ts shares hr hslot
  have htake : (if shares < r.shares then shares else r.shares) = shares := by
    rw [hsh]
    split
    · rfl
    · rename_i hge
      exact UInt32.le_antisymm (UInt32.not_lt.mp hge) (UInt32.not_lt.mp hle)
  rw [htake] at hred
  have hset := settle_mapValues liveOrder (fun o => o.shares = 0) e.route ref
    { r with shares := r.shares - shares }
  have hval : liveOrder { r with shares := r.shares - shares } = ⟨o.shares - shares⟩ :=
    congrArg (fun q => LiveOrder.mk (q - shares)) hsh
  rw [hval, ← hl.live, hs] at hset
  obtain ⟨route, hroute, hlive⟩ := Option.map_eq_some_iff.mp hset.symm
  refine ⟨{ e with route := route, targets := targets, routed := n }, ?_, ?_⟩
  · rw [hred]
    exact congrArg (Option.map _) hroute
  · constructor
    case live => exact hlive.symm
    case valid => exact hl.valid.of_length hlen (settle_all
        (P := fun r => r.slot.toNat ≤ e.targets.length) hl.valid.slots hslot hroute)
    case routable => exact hl.routable
    case stored => exact hl.stored
    case small => exact settle_lt hl.small hroute

/-- Where the order has too few, the extractor retires it and the gate does not. -/
theorem oversized {type : Book.EventType} {ts : Ts} (hl : Lock live e)
    (hf : live.find OpenHashMap.hash ref = some (some o)) (hlt : o.shares < shares)
    (he : e.reduce type ts ref shares = some e') : e'.route.size ≠ live.size := by
  obtain ⟨r, hr, hsh, hslot⟩ := hl.found hf
  obtain ⟨targets, n, -, hred⟩ := reduce_settle type ts shares hr hslot
  have htake : (if shares < r.shares then shares else r.shares) = r.shares := by
    rw [hsh]
    exact if_neg (fun h => absurd (UInt32.lt_trans hlt h) (UInt32.lt_irrefl _))
  rw [htake] at hred
  rw [hred] at he
  obtain ⟨route, hroute, rfl⟩ := Option.map_eq_some_iff.mp he
  have hsize := settle_size hr (decide_eq_true (UInt32.sub_self (a := r.shares))) hroute
  have hsmall := hl.small
  have hlive : live.size = e.route.size := hl.same.size
  show route.size ≠ live.size
  omega

theorem store (hl : Lock live e) {slot : UInt16} (hslot : slot.toNat ≤ e.targets.length)
    (hi : live.insert OpenHashMap.hash ref ⟨shares⟩ = some (live', true)) :
    ∃ e', e.store ref ⟨shares, slot⟩ = some e' ∧ e'.targets = e.targets ∧ Lock live' e' := by
  have hins := insert_mapValues (h := OpenHashMap.hash) liveOrder e.route ref ⟨shares, slot⟩
  rw [← hl.live] at hins
  have hval : liveOrder ⟨shares, slot⟩ = ⟨shares⟩ := rfl
  rw [hval, hi] at hins
  obtain ⟨⟨route, ok⟩, hroute, heq⟩ := Option.map_eq_some_iff.mp hins.symm
  obtain ⟨hlive, rfl⟩ := Prod.mk.inj heq
  refine ⟨{ e with route := route }, ?_, rfl, ?_⟩
  · simp only [ExtractTape.store, hroute, Option.bind_eq_bind, Option.bind_some]
    rfl
  · constructor
    case live => exact hlive.symm
    case valid => exact hl.valid.of_length rfl (hl.valid.slots.insert hslot hroute)
    case routable => exact hl.routable
    case stored => exact hl.stored
    case small => exact insert_size hl.small hroute

theorem emit (hl : Lock live e) {slot : UInt16} (hslot : slot.toNat ≤ e.targets.length)
    (event : Book.BookEvent) : ∃ e', e.emit slot event = some e' ∧ e'.route = e.route ∧
      e'.targets.length = e.targets.length ∧ Lock live e' := by
  obtain ⟨targets, n, hemit, hlen⟩ := ExtractTape.emit_some hslot event
  refine ⟨_, hemit, rfl, hlen, ?_⟩
  constructor
  case live => exact hl.live
  case valid => exact hl.valid.of_length hlen hl.valid.slots
  case routable => exact hl.routable
  case stored => exact hl.stored
  case small => exact hl.small

theorem erase (hl : Lock live e) (he : live.erase OpenHashMap.hash ref = some (live', true)) :
    ∃ r route, e.route.find OpenHashMap.hash ref = some (some r) ∧
      r.slot.toNat ≤ e.targets.length ∧
      e.route.erase OpenHashMap.hash ref = some (route, true) ∧
      Lock live' { e with route := route } := by
  have hers := erase_mapValues (h := OpenHashMap.hash) liveOrder e.route ref
  rw [← hl.live, he] at hers
  obtain ⟨⟨route, ok⟩, hroute, heq⟩ := Option.map_eq_some_iff.mp hers.symm
  obtain ⟨hlive, rfl⟩ := Prod.mk.inj heq
  obtain ⟨r, hr⟩ := find_of_erase hroute
  refine ⟨r, route, hr, hl.valid.slots.find hr, hroute, ?_⟩
  constructor
  case live => exact hlive.symm
  case valid => exact hl.valid.of_length rfl (hl.valid.slots.erase hroute)
  case routable => exact hl.routable
  case stored => exact hl.stored
  case small => exact erase_size_lt hl.small hroute

theorem directory (hl : Lock live e) (locate : StockLocate) (stock : Symbol) :
    ∃ e', e.step (.directory locate stock) = some e' ∧ Lock live e' := by
  cases hs : e.symbolToTarget[stock.raw]? with
  | none => exact ⟨e, by simp only [ExtractTape.step, hs], hl⟩
  | some i =>
    have hi := hl.valid.symbols _ _ hs
    have ht := List.getElem?_eq_getElem hi
    refine ⟨_, by simp only [ExtractTape.step, hs, ht, Option.bind_eq_bind, Option.bind_some]; rfl,
      ?_⟩
    constructor
    case live => exact hl.live
    case valid =>
      constructor
      case slots =>
        show All (fun r => r.slot.toNat ≤ (e.targets.set i _).length) e.route
        rw [List.length_set]
        exact hl.valid.slots
      case locates =>
        intro l j hj
        rw [List.length_set]
        rw [Std.TreeMap.getElem?_insert] at hj
        split at hj
        · cases hj
          exact hi
        · exact hl.valid.locates l j hj
      case symbols =>
        intro s j hj
        rw [List.length_set]
        exact hl.valid.symbols s j hj
    case routable => exact hl.routable
    case stored => exact hl.stored
    case small => exact hl.small

/-- The extractor's step on a message that fits. -/
theorem step (hl : Lock live e) (ht : Tracked live x live') (hf : Fits live x) :
    ∃ e', e.step x = some e' ∧ Lock live' e' := by
  cases ht with
  | @add live' ts locate ref side shares price h =>
    have hslot := hl.valid.slotFor locate
    obtain ⟨e1, h1, htargets, hl1⟩ := hl.store hslot h
    obtain ⟨e2, h2, -, -, hl2⟩ := hl1.emit (htargets ▸ hslot)
      ⟨ts, ref, 0, price, shares, .add, side⟩
    refine ⟨e2, ?_, hl2⟩
    simp only [ExtractTape.step, h1, Option.bind_eq_bind, Option.bind_some]
    exact h2
  | reduced hx hfind hle h =>
    cases x with
    | execute ts ref shares =>
      cases hx
      exact hl.reduced hfind hle h
    | cancel ts ref shares =>
      cases hx
      exact hl.reduced hfind hle h
    | _ => cases hx
  | oversized hx hfind hlt =>
    exact absurd hlt (UInt32.not_lt.mpr (hf _ _ _ hx hfind))
  | @delete live' ts ref h =>
    obtain ⟨r, route, hr, hslot, herase, -⟩ := hl.erase h
    obtain ⟨e1, h1, hroute, hlen, hl1⟩ := hl.emit hslot ⟨ts, ref, 0, 0, 0, .delete, .buy⟩
    obtain ⟨-, route1, -, -, herase1, hl2⟩ := hl1.erase h
    refine ⟨_, ?_, hl2⟩
    simp only [ExtractTape.step, hr, h1, herase1, Option.bind_eq_bind, Option.bind_some]
    rfl
  | @replace live' live1 ts original new shares price he hi =>
    obtain ⟨r, route, hr, hslot, herase, -⟩ := hl.erase he
    obtain ⟨e1, h1, hroute, hlen, hl1⟩ := hl.emit hslot
      ⟨ts, original, new, price, shares, .replace, .buy⟩
    obtain ⟨-, route1, -, -, herase1, hl2⟩ := hl1.erase he
    have hslot2 : r.slot.toNat ≤ e1.targets.length := hlen ▸ hslot
    obtain ⟨e3, h3, -, hl3⟩ := hl2.store hslot2 hi
    refine ⟨e3, ?_, hl3⟩
    simp only [ExtractTape.step, hr, h1, herase1, Option.bind_eq_bind, Option.bind_some]
    exact h3
  | @directory locate stock => exact hl.directory locate stock
  | other => exact ⟨e, rfl, hl⟩

theorem start {tablePow2 : ℕ} {l : OpenHashMap LiveOrder} (want : List Symbol)
    (hm : make tablePow2 = some l) :
    ∃ route, make tablePow2 = some route ∧ Lock l (.start want route) := by
  have hmake := make_mapValues (V := Route) (W := LiveOrder) (f := liveOrder) rfl tablePow2
  rw [hm] at hmake
  obtain ⟨route, hroute, hlive⟩ := Option.map_eq_some_iff.mp hmake.symm
  refine ⟨route, hroute, ?_⟩
  constructor
  case live => exact hlive.symm
  case valid => exact .start want hroute
  case routable => rfl
  case stored => rfl
  case small =>
    obtain ⟨-, -, rfl⟩ := make_eq_some.mp hroute
    exact Nat.two_pow_pos 64

end Lock

/-! ### Runs -/

section Runs
variable {s s' : ItchStat} {e : ExtractTape} {xs : List Message}

/-- While every message fits, the extractor keeps step over the whole stream. -/
theorem Lock.run (hl : Lock s.live e) (hr : s.run xs = some s') (hc : Clean s'.integ)
    (hf : ∀ n x t, xs[n]? = some x → s.run (xs.take n) = some t → Fits t.live x) :
    ∃ e', e.run xs = some e' ∧ Lock s'.live e' := by
  induction xs generalizing s e with
  | nil =>
    cases hr
    exact ⟨e, rfl, hl⟩
  | cons x xs ih =>
    obtain ⟨s1, h1, hrest⟩ := Option.bind_eq_some_iff.mp hr
    have ht := (ItchStat.step_tracked h1 (ItchStat.run_clean hrest hc)).2
    obtain ⟨e1, he1, hl1⟩ := hl.step ht (hf 0 x s rfl rfl)
    have hf1 : ∀ n y t, xs[n]? = some y → s1.run (xs.take n) = some t → Fits t.live y := by
      intro n y t hy hrun
      apply hf (n + 1) y t hy
      rw [List.take_succ_cons]
      exact Option.bind_eq_some_iff.mpr ⟨s1, h1, hrun⟩
    obtain ⟨e2, he2, hl2⟩ := ih hl1 hrest hf1
    exact ⟨e2, Option.bind_eq_some_iff.mpr ⟨e1, he1, he2⟩, hl2⟩

/-- A run that ends has run through each of its prefixes. -/
theorem ItchStat.run_take (hr : s.run xs = some s') (n : ℕ) :
    ∃ t, s.run (xs.take n) = some t ∧ t.run (xs.drop n) = some s' := by
  have happend := hr
  rw [← List.take_append_drop n xs, ItchStat.run, List.foldlM_append] at happend
  exact Option.bind_eq_some_iff.mp happend

/-- The first message that does not fit sets the sizes of the two tables apart. -/
theorem Lock.fits (hl : Lock s.live e) (hr : s.run xs = some s') (hc : Clean s'.integ)
    (hsame : ∀ n, ∃ t u, s.run (xs.take n) = some t ∧ e.run (xs.take n) = some u ∧
      SameLive t.live u.route) :
    ∀ n x t, xs[n]? = some x → s.run (xs.take n) = some t → Fits t.live x := by
  induction xs generalizing s e with
  | nil =>
    intro n x t hx
    cases hx
  | cons x xs ih =>
    obtain ⟨s1, h1, hrest⟩ := Option.bind_eq_some_iff.mp hr
    have ht := (ItchStat.step_tracked h1 (ItchStat.run_clean hrest hc)).2
    have hstep : ∃ u, e.step x = some u ∧ SameLive s1.live u.route := by
      obtain ⟨t, u, hst, heu, hs⟩ := hsame 1
      obtain ⟨t1, ht1, htt⟩ := Option.bind_eq_some_iff.mp hst
      obtain ⟨u1, hu1, huu⟩ := Option.bind_eq_some_iff.mp heu
      cases htt
      cases huu
      rw [h1] at ht1
      cases ht1
      exact ⟨u, hu1, hs⟩
    have hfits : Fits s.live x := by
      intro ref shares o hx hfind
      by_contra hgt
      have hlt := UInt32.not_le.mp hgt
      obtain ⟨u, hu, hs⟩ := hstep
      have hkept : ∀ l, Tracked s.live x l → l = s.live := by
        intro l ht
        cases ht with
        | oversized => rfl
        | reduced hx' hfind' hle =>
          rw [hx] at hx'
          cases hx'
          rw [hfind] at hfind'
          cases hfind'
          exact absurd hlt hle
        | _ => cases hx
      rw [hkept _ ht] at hs
      cases x with
      | execute ts ref shares =>
        cases hx
        exact hl.oversized hfind hlt hu hs.size.symm
      | cancel ts ref shares =>
        cases hx
        exact hl.oversized hfind hlt hu hs.size.symm
      | _ => cases hx
    obtain ⟨e1, he1, hl1⟩ := hl.step ht hfits
    have hsame1 : ∀ n, ∃ t u, s1.run (xs.take n) = some t ∧ e1.run (xs.take n) = some u ∧
        SameLive t.live u.route := by
      intro n
      obtain ⟨t, u, hst, heu, hs⟩ := hsame (n + 1)
      rw [List.take_succ_cons] at hst heu
      obtain ⟨t1, ht1, htt⟩ := Option.bind_eq_some_iff.mp hst
      obtain ⟨u1, hu1, huu⟩ := Option.bind_eq_some_iff.mp heu
      rw [h1] at ht1
      cases ht1
      rw [he1] at hu1
      cases hu1
      exact ⟨t, u, htt, huu, hs⟩
    have hrec := ih hl1 hrest hsame1
    intro n y t hy hrun
    cases n with
    | zero =>
      cases hy
      cases hrun
      exact hfits
    | succ n =>
      rw [List.take_succ_cons] at hrun
      obtain ⟨t1, ht1, htt⟩ := Option.bind_eq_some_iff.mp hrun
      rw [h1] at ht1
      cases ht1
      exact hrec n y t hy htt

end Runs

/-- The two programs after the first `n` messages. -/
def statAfter (tablePow2 : ℕ) (xs : List Message) (n : ℕ) : Option ItchStat := do
  let live ← make tablePow2
  ItchStat.run { live := live } (xs.take n)

def tapeAfter (tablePow2 : ℕ) (want : List Symbol) (xs : List Message) (n : ℕ) :
    Option ExtractTape := do
  let route ← make tablePow2
  ExtractTape.run (.start want route) (xs.take n)

/-- The extractor loses nothing of the file and holds the gate's live orders after
each of its messages. -/
def Agree (data : List UInt8) (tablePow2 : ℕ) (want : List Symbol) (xs : List Message) : Prop :=
  (∃ e, extractTape data tablePow2 want = some e ∧ e.unroutable = 0 ∧ e.insertFailed = 0) ∧
  ∀ n, ∃ t u, statAfter tablePow2 xs n = some t ∧ tapeAfter tablePow2 want xs n = some u ∧
    SameLive t.live u.route

theorem clean_of_gate {data : List UInt8} {st : ReaderStats} {i : Integrity}
    (hg : gate data st i = true) : Clean i := by
  simp only [gate, decide_eq_true_eq] at hg
  obtain ⟨-, -, -, -, h1, h2, h3, h4, h5⟩ := hg
  exact ⟨h1, h2, h3, h4, h5⟩

/-- On a file that passes the gate the two programs agree exactly when every
execute and cancel fits its order in the gate's table. -/
theorem gate_agreement (data : List UInt8) (tablePow2 : ℕ) (want : List Symbol)
    (xs : List Message) (r : Reader) (s : ItchStat) (hxs : messages data = some (xs, r))
    (hs : itchStat data tablePow2 = some (r.stats, s)) (hg : gate data r.stats s.integ = true) :
    Agree data tablePow2 want xs ↔
      ∀ n x t, xs[n]? = some x → statAfter tablePow2 xs n = some t → Fits t.live x := by
  have hc := clean_of_gate hg
  obtain ⟨live, hlive, hs⟩ := Option.bind_eq_some_iff.mp hs
  simp only [hxs, Option.bind_eq_bind, Option.bind_some] at hs
  obtain ⟨s', hrun, heq⟩ := Option.bind_eq_some_iff.mp hs
  cases heq
  obtain ⟨route, hroute, hl⟩ := Lock.start want hlive
  have hstat : ∀ n, statAfter tablePow2 xs n =
      ItchStat.run { live := live } (xs.take n) := fun n => by
    rw [statAfter, hlive]
    rfl
  have htape : ∀ n, tapeAfter tablePow2 want xs n =
      ExtractTape.run (.start want route) (xs.take n) := fun n => by
    rw [tapeAfter, hroute]
    rfl
  have hall : extractTape data tablePow2 want = ExtractTape.run (.start want route) xs := by
    rw [extractTape, hroute, hxs]
    rfl
  simp only [Agree, hstat, htape, hall]
  constructor
  · rintro ⟨-, hsame⟩
    exact Lock.fits (s := { live := live }) hl hrun hc hsame
  · intro hfits
    constructor
    · obtain ⟨e, he, hle⟩ := Lock.run (s := { live := live }) hl hrun hc hfits
      exact ⟨e, he, hle.routable, hle.stored⟩
    · intro n
      obtain ⟨t, ht, hrest⟩ := ItchStat.run_take hrun n
      have hfitsn : ∀ k x u, (xs.take n)[k]? = some x →
          ItchStat.run { live := live } ((xs.take n).take k) = some u → Fits u.live x := by
        intro k x u hx hu
        have hkn : k < n := by
          by_contra hge
          rw [List.getElem?_take, if_neg hge] at hx
          cases hx
        rw [List.getElem?_take_of_lt hkn] at hx
        rw [List.take_take, Nat.min_eq_left (Nat.le_of_lt hkn)] at hu
        exact hfits k x u hx hu
      obtain ⟨e, he, hle⟩ := Lock.run (s := { live := live }) hl ht
        (ItchStat.run_clean hrest hc) hfitsn
      exact ⟨t, e, ht, he, hle.same⟩

/-- An order of five shares, an execute of ten of them, and the order's delete. -/
def overExecuted : List UInt8 :=
  [0, 36, 65, 0, 1, 0, 0, 0, 0, 0, 0, 0, 0, 0, 0, 0, 0, 0, 0, 0, 1, 66, 0, 0, 0, 5,
   32, 32, 32, 32, 32, 32, 32, 32, 0, 0, 0, 10,
   0, 31, 69, 0, 1, 0, 0, 0, 0, 0, 0, 0, 0, 0, 0, 0, 0, 0, 0, 0, 1, 0, 0, 0, 10,
   0, 0, 0, 0, 0, 0, 0, 0,
   0, 19, 68, 0, 1, 0, 0, 0, 0, 0, 0, 0, 0, 0, 0, 0, 0, 0, 0, 0, 1]

/-- The gate passes it. -/
theorem overExecuted_passes : ∃ xs r s, messages overExecuted = some (xs, r) ∧
    itchStat overExecuted 4 = some (r.stats, s) ∧ gate overExecuted r.stats s.integ = true := by
  have heval : ((messages overExecuted).bind fun x => (make 4).bind fun live =>
      (ItchStat.run { live := live } x.1).map fun s => gate overExecuted x.2.stats s.integ) =
      some true := by
    decide +kernel
  obtain ⟨⟨xs, r⟩, hxs, heval⟩ := Option.bind_eq_some_iff.mp heval
  obtain ⟨live, hlive, heval⟩ := Option.bind_eq_some_iff.mp heval
  obtain ⟨s, hs, hg⟩ := Option.map_eq_some_iff.mp heval
  refine ⟨xs, r, s, hxs, ?_, hg⟩
  simp only [itchStat, hlive, hxs, Option.bind_eq_bind, Option.bind_some, hs]
  rfl

theorem gate_agreement_overExecuted : ∃ xs r s, messages overExecuted = some (xs, r) ∧
    itchStat overExecuted 4 = some (r.stats, s) ∧
    (Agree overExecuted 4 [⟨0⟩] xs ↔
      ∀ n x t, xs[n]? = some x → statAfter 4 xs n = some t → Fits t.live x) := by
  obtain ⟨xs, r, s, hxs, hs, hg⟩ := overExecuted_passes
  exact ⟨xs, r, s, hxs, hs, gate_agreement overExecuted 4 [⟨0⟩] xs r s hxs hs hg⟩

/-- The extractor cannot route its last message. -/
theorem gate_misses_oversized : ∃ xs r s, messages overExecuted = some (xs, r) ∧
    itchStat overExecuted 4 = some (r.stats, s) ∧ gate overExecuted r.stats s.integ = true ∧
    ¬Agree overExecuted 4 [⟨0⟩] xs := by
  obtain ⟨xs, r, s, hxs, hs, hg⟩ := overExecuted_passes
  refine ⟨xs, r, s, hxs, hs, hg, ?_⟩
  rintro ⟨⟨e, he, hunroutable, -⟩, -⟩
  have heval : (extractTape overExecuted 4 [⟨0⟩]).map ExtractTape.unroutable = some 1 := by
    decide +kernel
  rw [he, Option.map_some, hunroutable] at heval
  cases heval

end Hotpath.Tools
