import Hotpath.Book.HybridBook
import Hotpath.Sim.QueueModel

/-!
# The market maker (sim/market_maker.hpp)

Joins the touch on both sides and re-quotes when the touch moves. A quote
change is decided, is in flight for the latency, and lands; the old quote rests
in the meantime. The members kept twice in the source, one for each side, are
functions of the side.

A step is `none` where the book subscripts a vector outside its range.
-/

namespace Hotpath.Sim
open Hotpath.Book

structure Fill where
  ts : Ts
  price : Price
  qty : Qty
  side : Side
  queueAheadAtJoin : Qty
  stale : Bool
  swept : Bool
  deriving DecidableEq, Repr

inductive FillModel where
  | queueAware
  | naive
  deriving DecidableEq, Repr

namespace MarketMaker

structure Quote where
  active : Bool := false
  px : Price := 0
  remaining : Qty := 0
  aheadAtJoin : Qty := 0
  inFlight : Bool := false
  landsAt : Ts := 0
  wantActive : Bool := true
  deriving DecidableEq, Repr

/-- What is read of the affected order before the event is applied. -/
structure Pre where
  side : Side
  px : Price
  seq : UInt32
  qty : Qty
  deriving DecidableEq, Repr

end MarketMaker

/-- `mid` is exact: the prices are below `2^32`. -/
structure MarketMaker where
  book : HybridBook
  quoteSize : Qty
  latency : Ts := 0
  fillModel : FillModel := .queueAware
  allow : Side → Bool := fun _ => true
  quote : Side → MarketMaker.Quote := fun _ => {}
  pos : Side → QueuePosition := fun _ => {}
  mid : ℚ := 0
  haveMid : Bool := false
  requotes : ℕ := 0

namespace MarketMaker

def make (lo hi : Price) (quoteSize : Qty) (latency : Ts) (fillModel : FillModel)
    (maxOrdersPow2 maxLevels : ℕ) : Option MarketMaker := do
  let book ← HybridBook.make lo hi maxOrdersPow2 maxLevels
  return { book := book, quoteSize := quoteSize, latency := latency, fillModel := fillModel }

def setQuoting (mm : MarketMaker) (allowBid allowAsk : Bool) : MarketMaker :=
  { mm with allow := fun side => match side with | .buy => allowBid | .sell => allowAsk }

def strictlyBetter (side : Side) (ours traded : Price) : Bool :=
  match side with
  | .buy => ours > traded
  | .sell => ours < traded

/-- Shares taken from a quote; one that is used up is gone. -/
def take (q : Quote) (pos : QueuePosition) (f : Qty) : Quote × QueuePosition :=
  let q := { q with remaining := q.remaining - f }
  if q.remaining = 0 then ({ q with active := false }, pos.leave) else (q, pos)

def filled (ts : Ts) (side : Side) (q : Quote) (pos : QueuePosition) (f : Qty) (swept : Bool) :
    Quote × QueuePosition × List Fill :=
  if f = 0 then (q, pos, [])
  else
    let (q', pos) := take q pos f
    (q', pos, [⟨ts, q.px, f, side, q.aheadAtJoin, q.inFlight, swept⟩])

/-- The part of `step_side` past its guards, for a quote at the event's price. -/
def stepAtPrice (model : FillModel) (q : Quote) (pos : QueuePosition) (side : Side) (pre : Pre)
    (e : BookEvent) : Quote × QueuePosition × List Fill :=
  match e.type with
  | .execute =>
    match model with
    | .naive =>
      filled e.ts side q pos (if e.shares < q.remaining then e.shares else q.remaining) false
    | .queueAware =>
      let (f, pos) := pos.onExecution pre.seq e.shares q.remaining
      filled e.ts side q pos f false
  | .cancel => (q, pos.onCancel pre.seq e.shares, [])
  | .delete => (q, pos.onDelete pre.seq pre.qty, [])
  | .replace => (q, pos.onDelete pre.seq pre.qty, [])
  | .add => (q, pos, [])

def stepSide (model : FillModel) (q : Quote) (pos : QueuePosition) (side : Side) (pre : Pre)
    (e : BookEvent) : Quote × QueuePosition × List Fill :=
  if ¬q.active ∨ pre.side ≠ side then (q, pos, [])
  else if e.type = .execute ∧ strictlyBetter side q.px pre.px then
    filled e.ts side q pos (if e.shares < q.remaining then e.shares else q.remaining) true
  else if pre.px ≠ q.px then (q, pos, [])
  else stepAtPrice model q pos side pre e

def decide (latency : Ts) (q : Quote) (target : Price) (now : Ts) (allow : Bool) : Quote :=
  if q.inFlight then q
  else if q.active = allow ∧ (¬q.active ∨ q.px = target) then q
  else { q with inFlight := true, wantActive := allow, landsAt := now + latency }

def setSide (mm : MarketMaker) (side : Side) (q : Quote) (pos : QueuePosition) : MarketMaker :=
  { mm with quote := Function.update mm.quote side q, pos := Function.update mm.pos side pos }

def join (mm : MarketMaker) (side : Side) (target : Price) : Option MarketMaker := do
  let level ← mm.book.levelFor side target
  let resting := match level with
    | some level => level.qty
    | none => 0
  let pos := (mm.pos side).join resting mm.book.nextSeq
  let q := { mm.quote side with
    active := true, px := target, remaining := mm.quoteSize, aheadAtJoin := resting }
  let mm := mm.setSide side q pos
  return { mm with requotes := mm.requotes + 1 }

def landIfDue (mm : MarketMaker) (side : Side) (target : Price) (now : Ts) : Option MarketMaker :=
  let q := mm.quote side
  if ¬q.inFlight ∨ now < q.landsAt then some mm
  else
    let q := { q with inFlight := false }
    if ¬q.wantActive then some (mm.setSide side { q with active := false } (mm.pos side).leave)
    else (mm.setSide side q (mm.pos side)).join side target

/-- Both best prices; the queries may move the cached ticks. -/
def queryTouch (mm : MarketMaker) : Option (Price × Price × MarketMaker) := do
  let (bb, book) ← mm.book.bestBid
  let (ba, book) ← book.bestAsk
  return (bb, ba, { mm with book := book })

def usable (bb ba : Price) : Bool := bb ≠ kInvalidPrice ∧ ba ≠ kInvalidPrice ∧ bb < ba

/-- The affected order, resolved before the book changes. -/
def resolve (mm : MarketMaker) (e : BookEvent) : Option (Option Pre) :=
  if e.type = .add then some none
  else do
    match ← mm.book.findOrder e.order_ref with
    | none => return none
    | some o =>
      if o.level < 0 then return none
      let level ← mm.book.levelByIndex o.level
      return some ⟨o.side, level.price, o.seq, o.qty⟩

/-- `step_side` for the bid, then for the ask. -/
def stepSides (mm : MarketMaker) (pre : Option Pre) (e : BookEvent) : MarketMaker × List Fill :=
  match pre with
  | none => (mm, [])
  | some pre =>
    let (q, pos, bidFills) := stepSide mm.fillModel (mm.quote .buy) (mm.pos .buy) .buy pre e
    let mm := mm.setSide .buy q pos
    let (q, pos, askFills) := stepSide mm.fillModel (mm.quote .sell) (mm.pos .sell) .sell pre e
    (mm.setSide .sell q pos, bidFills ++ askFills)

/-- Replacements that landed between the last event and this one. -/
def landEarlier (mm : MarketMaker) (now : Ts) : Option MarketMaker := do
  let (bb, ba, mm) ← mm.queryTouch
  if usable bb ba then
    let mm ← mm.landIfDue .buy bb now
    mm.landIfDue .sell ba now
  else return mm

/-- The quoting decisions after the event. -/
def requote (mm : MarketMaker) (now : Ts) : Option MarketMaker := do
  let (bb, ba, mm) ← mm.queryTouch
  if usable bb ba then
    let mm := { mm with quote := fun side => match side with
      | .buy => decide mm.latency (mm.quote .buy) bb now (mm.allow .buy)
      | .sell => decide mm.latency (mm.quote .sell) ba now (mm.allow .sell) }
    let mm ← mm.landIfDue .buy bb now
    let mm ← mm.landIfDue .sell ba now
    return { mm with mid := ((bb.toNat : ℚ) + ba.toNat) / 2, haveMid := true }
  else return mm

def onEvent (mm : MarketMaker) (e : BookEvent) : Option (MarketMaker × List Fill) := do
  let mm ← mm.landEarlier e.ts
  let pre ← mm.resolve e
  let book ← Book.apply mm.book e
  let (mm, fills) := { mm with book := book }.stepSides pre e
  let mm ← mm.requote e.ts
  return (mm, fills)

def behindWhileQueued (mm : MarketMaker) : ℕ :=
  (mm.pos .buy).behindWhileQueued + (mm.pos .sell).behindWhileQueued

/-- What a driver does to a market maker. -/
inductive Input where
  | quoting (allowBid allowAsk : Bool)
  | event (e : BookEvent)
  deriving DecidableEq, Repr

def input (mm : MarketMaker) : Input → Option (MarketMaker × List Fill)
  | .quoting allowBid allowAsk => some (mm.setQuoting allowBid allowAsk, [])
  | .event e => mm.onEvent e

def run : MarketMaker → List Input → Option (MarketMaker × List Fill)
  | mm, [] => some (mm, [])
  | mm, x :: xs => do
    let (mm, fills) ← mm.input x
    let (mm, rest) ← run mm xs
    return (mm, fills ++ rest)

end MarketMaker

end Hotpath.Sim
