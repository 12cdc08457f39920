import Hotpath.Book.Book
import Hotpath.Core.OpenHash
import Hotpath.Itch.Decode

/-!
# The tape extractor (extract_tape.cpp)

One pass over a file that cuts a tape of book events for each requested symbol.
An execute, cancel, delete or replace names no symbol: an index from every live
order to its symbol routes it. `none` is a subscript outside `targets`, or a
probe of the index that never ends.
-/

namespace Hotpath.Tools
open Hotpath.Itch Hotpath.Book

structure Target where
  symbol : Symbol
  locate : StockLocate := 0
  events : List BookEvent := []
  deriving DecidableEq, Repr

/-- `slot` is the index of the target plus one; zero is a symbol not requested. -/
structure Route where
  shares : Qty
  slot : UInt16
  deriving DecidableEq, Repr, Inhabited

structure ExtractTape where
  locateToTarget : Std.TreeMap StockLocate ℕ
  symbolToTarget : Std.TreeMap UInt64 ℕ
  targets : List Target
  route : OpenHashMap Route
  routed : ℕ := 0
  unroutable : ℕ := 0
  insertFailed : ℕ := 0

namespace ExtractTape

/-- A symbol requested twice maps to the last of its targets. -/
def start (want : List Symbol) (route : OpenHashMap Route) : ExtractTape where
  locateToTarget := ∅
  symbolToTarget := want.zipIdx.foldl (fun m (s, i) => m.insert s.raw i) ∅
  targets := want.map fun s => { symbol := s }
  route := route

/-- The slot of an added order; the cast wraps. -/
def slotFor (e : ExtractTape) (locate : StockLocate) : UInt16 :=
  match e.locateToTarget[locate]? with
  | none => 0
  | some i => UInt16.ofNat (i + 1)

/-- `targets[slot - 1].events.push_back(e)`, for a slot that is not zero. -/
def emit (e : ExtractTape) (slot : UInt16) (event : BookEvent) : Option ExtractTape :=
  if slot = 0 then some e
  else do
    let t ← e.targets[slot.toNat - 1]?
    return { e with
      targets := e.targets.set (slot.toNat - 1) { t with events := t.events ++ [event] }
      routed := e.routed + 1 }

def store (e : ExtractTape) (ref : OrderId) (r : Route) : Option ExtractTape := do
  let (route, ok) ← e.route.insert OpenHashMap.hash ref r
  return { e with route := route, insertFailed := e.insertFailed + if ok then 0 else 1 }

/-- The cases of an execute and of a cancel, which differ in the type of the event. -/
def reduce (e : ExtractTape) (type : EventType) (ts : Ts) (ref : OrderId) (shares : Qty) :
    Option ExtractTape := do
  match ← e.route.find OpenHashMap.hash ref with
  | none => return { e with unroutable := e.unroutable + 1 }
  | some r =>
    let e ← e.emit r.slot ⟨ts, ref, 0, 0, shares, type, .buy⟩
    let take := if shares < r.shares then shares else r.shares
    let route ← e.route.write OpenHashMap.hash ref { r with shares := r.shares - take }
    if r.shares - take = 0 then
      let (route, _) ← route.erase OpenHashMap.hash ref
      return { e with route := route }
    else return { e with route := route }

def step (e : ExtractTape) : Message → Option ExtractTape
  | .directory locate stock =>
    match e.symbolToTarget[stock.raw]? with
    | none => some e
    | some i => do
      let t ← e.targets[i]?
      return { e with
        targets := e.targets.set i { t with locate := locate }
        locateToTarget := e.locateToTarget.insert locate i }
  | .add ts locate ref side shares price => do
    let slot := e.slotFor locate
    let e ← e.store ref ⟨shares, slot⟩
    e.emit slot ⟨ts, ref, 0, price, shares, .add, side⟩
  | .execute ts ref shares => e.reduce .execute ts ref shares
  | .cancel ts ref shares => e.reduce .cancel ts ref shares
  | .delete ts ref => do
    match ← e.route.find OpenHashMap.hash ref with
    | none => return { e with unroutable := e.unroutable + 1 }
    | some r =>
      let e ← e.emit r.slot ⟨ts, ref, 0, 0, 0, .delete, .buy⟩
      let (route, _) ← e.route.erase OpenHashMap.hash ref
      return { e with route := route }
  | .replace ts original new shares price => do
    match ← e.route.find OpenHashMap.hash original with
    | none => return { e with unroutable := e.unroutable + 1 }
    | some r =>
      let e ← e.emit r.slot ⟨ts, original, new, price, shares, .replace, .buy⟩
      let (route, _) ← e.route.erase OpenHashMap.hash original
      store { e with route := route } new ⟨shares, r.slot⟩
  | .other => some e

def run (e : ExtractTape) (xs : List Message) : Option ExtractTape := xs.foldlM step e

end ExtractTape

/-- The loop over a file, for the symbols in `want`. -/
def extractTape (data : List UInt8) (tablePow2 : ℕ) (want : List Symbol) : Option ExtractTape := do
  let route ← OpenHashMap.make tablePow2
  let (xs, _) ← messages data
  ExtractTape.run (.start want route) xs

end Hotpath.Tools
