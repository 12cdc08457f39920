import Hotpath.Core.OpenHash
import Hotpath.Itch.Decode

/-!
# The soundness gate (itch_stat.cpp)

One pass over a file that checks its framing and that every execute, cancel,
delete and replace names a live order. The counters of a pass do not wrap: a file
has fewer than `2^64` messages.
-/

namespace Hotpath.Tools
open Hotpath.Itch

structure LiveOrder where
  shares : Qty
  deriving DecidableEq, Repr, Inhabited

structure Integrity where
  orphanExecute : ℕ := 0
  orphanCancel : ℕ := 0
  orphanDelete : ℕ := 0
  orphanReplace : ℕ := 0
  oversizedExecute : ℕ := 0
  oversizedCancel : ℕ := 0
  duplicateAdd : ℕ := 0
  tableFull : ℕ := 0
  peakLive : ℕ := 0
  deriving DecidableEq, Repr

structure ItchStat where
  live : OpenHashMap LiveOrder
  integ : Integrity := {}
  deriving DecidableEq, Repr

namespace ItchStat

/-- `live.insert` with what follows it, the same for an add and a replace. -/
def store (s : ItchStat) (ref : OrderId) (shares : Qty) : Option ItchStat := do
  let (live, ok) ← s.live.insert OpenHashMap.hash ref ⟨shares⟩
  let integ := if ok then s.integ else { s.integ with tableFull := s.integ.tableFull + 1 }
  return ⟨live, { integ with peakLive := max integ.peakLive live.size }⟩

/-- The cases of an execute and of a cancel, each with its own two counters. -/
def reduce (s : ItchStat) (ref : OrderId) (shares : Qty) (oversized orphan : Integrity → Integrity) :
    Option ItchStat := do
  match ← s.live.find OpenHashMap.hash ref with
  | some o =>
    if o.shares < shares then return { s with integ := oversized s.integ }
    else
      let live ← s.live.write OpenHashMap.hash ref ⟨o.shares - shares⟩
      if o.shares - shares = 0 then
        let (live, _) ← live.erase OpenHashMap.hash ref
        return { s with live := live }
      else return { s with live := live }
  | none => return { s with integ := orphan s.integ }

def step (s : ItchStat) : Message → Option ItchStat
  | .add _ _ ref _ shares _ => do
    let o ← s.live.find OpenHashMap.hash ref
    let integ := if o.isSome then { s.integ with duplicateAdd := s.integ.duplicateAdd + 1 }
      else s.integ
    store { s with integ := integ } ref shares
  | .execute _ ref shares =>
    s.reduce ref shares
      (fun i => { i with oversizedExecute := i.oversizedExecute + 1 })
      (fun i => { i with orphanExecute := i.orphanExecute + 1 })
  | .cancel _ ref shares =>
    s.reduce ref shares
      (fun i => { i with oversizedCancel := i.oversizedCancel + 1 })
      (fun i => { i with orphanCancel := i.orphanCancel + 1 })
  | .delete _ ref => do
    let (live, ok) ← s.live.erase OpenHashMap.hash ref
    return ⟨live, if ok then s.integ else { s.integ with orphanDelete := s.integ.orphanDelete + 1 }⟩
  | .replace _ original new shares _ => do
    let (live, ok) ← s.live.erase OpenHashMap.hash original
    let integ := if ok then s.integ
      else { s.integ with orphanReplace := s.integ.orphanReplace + 1 }
    store ⟨live, integ⟩ new shares
  | .directory _ _ => some s
  | .other => some s

def run (s : ItchStat) (xs : List Message) : Option ItchStat := xs.foldlM step s

end ItchStat

/-- The loop over a file; `tablePow2` is the size of the table of live orders. -/
def itchStat (data : List UInt8) (tablePow2 : ℕ) : Option (ReaderStats × ItchStat) := do
  let live ← OpenHashMap.make tablePow2
  let (xs, r) ← messages data
  let s ← ItchStat.run { live := live } xs
  return (r.stats, s)

/-- What `pass` asks of the stream: allocations and system calls are left out. -/
def gate (data : List UInt8) (st : ReaderStats) (integ : Integrity) : Bool :=
  UInt64.ofNat data.length - UInt64.ofNat st.bytes = 0 ∧ st.zeroLength = 0 ∧
    st.lengthMismatch = 0 ∧ st.truncated = 0 ∧
    integ.orphanExecute = 0 ∧ integ.orphanCancel = 0 ∧
    integ.orphanDelete = 0 ∧ integ.orphanReplace = 0 ∧
    integ.tableFull = 0

end Hotpath.Tools
