import Hotpath.Support.Subscript
import Hotpath.Core.OpenHash
import Hotpath.Book.Book
import Hotpath.Book.TickBitmap

/-!
# The hybrid book (book/hybrid_book.hpp)

Design (d): grid indexing for price lookup and bitmap best price, intrusive
per-level FIFO lists for queue position, orders and levels in two pools with
free lists. Levels outside the dense window live in an ordered map.

The free lists are stacks with the top first. Pool indices are the `int32` of
the source, `-1` for none; a step is `none` where the source subscripts a
vector outside its range.
-/

namespace Hotpath.Book
open Hotpath.Support

namespace HybridBook

def kTick : Price := 100

structure Order where
  id : OrderId := 0
  seq : UInt32 := 0
  qty : Qty := 0
  prev : ℤ := -1
  next : ℤ := -1
  level : ℤ := -1
  side : Side := .buy
  deriving DecidableEq, Repr

structure Level where
  price : Price := 0
  qty : Qty := 0
  orders : UInt32 := 0
  head : ℤ := -1
  tail : ℤ := -1
  deriving DecidableEq, Repr

/-- `hint` caches the best tick; `-1` is unknown. -/
structure SideGrid where
  slot : List ℤ
  bits : List Word
  hint : ℤ := -1

end HybridBook

structure HybridBook where
  lo : Price
  ticks : ℕ
  grid : Side → HybridBook.SideGrid
  over_ : Side → Std.TreeMap Price ℤ
  orders : List HybridBook.Order
  levels : List HybridBook.Level
  freeOrders : List ℤ
  freeLevels : List ℤ
  ids : OpenHashMap ℤ
  rejected : ℕ
  overflowOps : ℕ
  nextSeq : UInt32

namespace HybridBook

def freshGrid (ticks : ℕ) : SideGrid :=
  ⟨List.replicate ticks (-1), List.replicate ((ticks + 63) / 64) 0, -1⟩

/-- `none` is the `invalid_argument` of an inverted window or of the id table. -/
def make (lo hi : Price) (maxOrdersPow2 maxLevels : ℕ) : Option HybridBook := do
  let lo' := lo - lo % kTick
  if hi < lo' then none
  let ids ← OpenHashMap.make maxOrdersPow2
  let ticks := ((hi - lo') / kTick).toNat + 1
  return {
    lo := lo'
    ticks := ticks
    grid := fun _ => freshGrid ticks
    over_ := fun _ => ∅
    orders := List.replicate maxOrdersPow2 {}
    levels := List.replicate maxLevels {}
    freeOrders := (List.range maxOrdersPow2).map int32
    freeLevels := (List.range maxLevels).map int32
    ids := ids
    rejected := 0
    overflowOps := 0
    nextSeq := 1 }

/-! ### Levels -/

def inGrid (b : HybridBook) (px : Price) : Bool :=
  b.lo ≤ px ∧ px % kTick = 0 ∧ ((px - b.lo) / kTick).toNat < b.ticks

def tickOf (b : HybridBook) (px : Price) : ℕ := ((px - b.lo) / kTick).toNat

def priceOf (b : HybridBook) (t : ℕ) : Price := b.lo + UInt32.ofNat t * kTick

def lookupLevel (b : HybridBook) (side : Side) (px : Price) : Option ℤ :=
  if b.inGrid px then subscript (b.grid side).slot (b.tickOf px)
  else some ((b.over_ side)[px]?.getD (-1))

/-- The cached best tick when a level is created at tick `t`. -/
def raiseHint (side : Side) (h : ℤ) (t : ℕ) : ℤ :=
  if h < 0 then t
  else match side with
    | .buy => if (t : ℤ) > h then t else h
    | .sell => if (t : ℤ) < h then t else h

def findOrCreateLevel (b : HybridBook) (side : Side) (px : Price) : Option (HybridBook × ℤ) := do
  let existing ← b.lookupLevel side px
  if 0 ≤ existing then return (b, existing)
  match b.freeLevels with
  | [] => return (b, -1)
  | li :: free =>
    let levels ← modifyAt b.levels li fun _ => { price := px }
    let b := { b with freeLevels := free, levels := levels }
    if b.inGrid px then
      let t := b.tickOf px
      let g := b.grid side
      let slot ← modifyAt g.slot t fun _ => li
      let bits ← setBit g.bits t
      let g := { slot := slot, bits := bits, hint := raiseHint side g.hint t }
      return ({ b with grid := Function.update b.grid side g }, li)
    else
      return ({ b with overflowOps := b.overflowOps + 1,
                       over_ := Function.update b.over_ side ((b.over_ side).insert px li) }, li)

def dropLevel (b : HybridBook) (side : Side) (li : ℤ) : Option HybridBook := do
  let level ← subscript b.levels li
  let px := level.price
  let b ← if b.inGrid px then do
      let t := b.tickOf px
      let g := b.grid side
      let slot ← modifyAt g.slot t fun _ => -1
      let bits ← clearBit g.bits t
      let g := { slot := slot, bits := bits, hint := if g.hint = t then -1 else g.hint }
      some { b with grid := Function.update b.grid side g }
    else some { b with over_ := Function.update b.over_ side ((b.over_ side).erase px) }
  return { b with freeLevels := li :: b.freeLevels }

/-! ### Orders -/

/-- The part of `add` that links order slot `oi` at the tail of level `li`. -/
def enqueue (b : HybridBook) (oi li : ℤ) (ref : OrderId) (side : Side) (qty : Qty) :
    Option HybridBook := do
  let level ← subscript b.levels li
  let orders ← modifyAt b.orders oi fun _ =>
    { id := ref, qty := qty, level := li, side := side, seq := b.nextSeq,
      prev := level.tail, next := -1 }
  let orders ← modifyLink orders level.tail fun o => { o with next := oi }
  let levels ← modifyAt b.levels li fun l =>
    { l with head := if 0 ≤ level.tail then l.head else oi, tail := oi,
             qty := l.qty + qty, orders := l.orders + 1 }
  let b := { b with orders := orders, levels := levels, nextSeq := b.nextSeq + 1 }
  let (ids, ok) ← b.ids.insert OpenHashMap.hash ref oi
  return { b with ids := ids, rejected := if ok then b.rejected else b.rejected + 1 }

def add (b : HybridBook) (ref : OrderId) (side : Side) (px : Price) (qty : Qty) :
    Option HybridBook := do
  if qty = 0 then return b
  match b.freeOrders with
  | [] => return { b with rejected := b.rejected + 1 }
  | oi :: free =>
    let (b, li) ← b.findOrCreateLevel side px
    if li < 0 then return { b with rejected := b.rejected + 1 }
    enqueue { b with freeOrders := free } oi li ref side qty

def unlink (b : HybridBook) (oi : ℤ) : Option HybridBook := do
  let o ← subscript b.orders oi
  let level ← subscript b.levels o.level
  let orders ← modifyLink b.orders o.prev fun p => { p with next := o.next }
  let orders ← modifyLink orders o.next fun n => { n with prev := o.prev }
  let orders ← modifyAt orders oi fun o => { o with prev := -1, next := -1, level := -1 }
  let level := { level with
    head := if 0 ≤ o.prev then level.head else o.next
    tail := if 0 ≤ o.next then level.tail else o.prev
    qty := level.qty - o.qty
    orders := level.orders - 1 }
  let levels ← modifyAt b.levels o.level fun _ => level
  let b := { b with orders := orders, levels := levels }
  if level.orders = 0 then b.dropLevel o.side o.level else return b

/-- The three statements that end an order's life in `remove`, `replace` and
`reduce`: unlink it, return its slot, forget its id. -/
def retire (b : HybridBook) (ref : OrderId) (oi : ℤ) : Option HybridBook := do
  let b ← b.unlink oi
  let b := { b with freeOrders := oi :: b.freeOrders }
  let (ids, _) ← b.ids.erase OpenHashMap.hash ref
  return { b with ids := ids }

def reduce (b : HybridBook) (ref : OrderId) (qty : Qty) : Option HybridBook := do
  match ← b.ids.find OpenHashMap.hash ref with
  | none => return b
  | some oi =>
    let o ← subscript b.orders oi
    let take := if qty < o.qty then qty else o.qty
    if take = o.qty then b.retire ref oi
    else do
      let orders ← modifyAt b.orders oi fun o => { o with qty := o.qty - take }
      let levels ← modifyAt b.levels o.level fun l => { l with qty := l.qty - take }
      return { b with orders := orders, levels := levels }

def execute (b : HybridBook) (ref : OrderId) (qty : Qty) : Option HybridBook := b.reduce ref qty
def cancel (b : HybridBook) (ref : OrderId) (qty : Qty) : Option HybridBook := b.reduce ref qty

def remove (b : HybridBook) (ref : OrderId) : Option HybridBook := do
  match ← b.ids.find OpenHashMap.hash ref with
  | none => return b
  | some oi => b.retire ref oi

def replace (b : HybridBook) (oldRef newRef : OrderId) (px : Price) (qty : Qty) :
    Option HybridBook := do
  match ← b.ids.find OpenHashMap.hash oldRef with
  | none => return b
  | some oi =>
    let o ← subscript b.orders oi
    let b ← b.retire oldRef oi
    b.add newRef o.side px qty

def clear (b : HybridBook) : HybridBook :=
  { b with
    ids := b.ids.clear
    freeOrders := (List.range b.orders.length).map int32
    freeLevels := (List.range b.levels.length).map int32
    grid := fun s =>
      { slot := (b.grid s).slot.map fun _ => -1, bits := (b.grid s).bits.map fun _ => 0, hint := -1 }
    over_ := fun _ => ∅ }

def step (b : HybridBook) : Op → Option HybridBook
  | .add ref side px qty => b.add ref side px qty
  | .execute ref qty => b.execute ref qty
  | .cancel ref qty => b.cancel ref qty
  | .remove ref => b.remove ref
  | .replace oldRef newRef px qty => b.replace oldRef newRef px qty
  | .clear => some b.clear

instance : Design HybridBook := ⟨step⟩

/-! ### Queries -/

def scanDownGrid (g : SideGrid) (from_ : ℤ) : Option ℤ := scanDown g.bits from_
def scanUpGrid (b : HybridBook) (g : SideGrid) (from_ : ℤ) : Option ℤ :=
  scanUp g.bits b.ticks from_

/-- The next set tick of a side: downwards for bids, upwards for asks. -/
def scan (b : HybridBook) (side : Side) (g : SideGrid) (from_ : ℤ) : Option ℤ :=
  match side with
  | .buy => scanDownGrid g from_
  | .sell => b.scanUpGrid g from_

/-- Where a scan for the best tick of a side starts. -/
def scanStart (b : HybridBook) (side : Side) : ℤ :=
  match side with
  | .buy => b.ticks - 1
  | .sell => 0

def scanNext (side : Side) (t : ℤ) : ℤ :=
  match side with
  | .buy => t - 1
  | .sell => t + 1

/-- The query writes the cached hint through a `const_cast`. -/
def gridBest (b : HybridBook) (side : Side) : Option (Price × HybridBook) := do
  let g := b.grid side
  let hint ← if g.hint < 0 then b.scan side g (b.scanStart side)
    else do
      let li ← subscript g.slot g.hint
      if li < 0 then b.scan side g g.hint else some g.hint
  let px := if hint < 0 then kInvalidPrice else b.priceOf hint.toNat
  return (px, { b with grid := Function.update b.grid side { g with hint := hint } })

/-- `rbegin()->first` and `begin()->first` of the overflow map. -/
def overBest (b : HybridBook) (side : Side) : Price :=
  match side with
  | .buy => ((b.over_ side).keys.getLast?).getD kInvalidPrice
  | .sell => ((b.over_ side).keys.head?).getD kInvalidPrice

def better (side : Side) (p q : Price) : Bool :=
  match side with
  | .buy => p > q
  | .sell => p < q

def best (b : HybridBook) (side : Side) : Option (Price × HybridBook) := do
  let (g, b) ← b.gridBest side
  let o := b.overBest side
  if g = kInvalidPrice then return (o, b)
  if o = kInvalidPrice then return (g, b)
  return (if better side g o then g else o, b)

def bestBid (b : HybridBook) : Option (Price × HybridBook) := b.best .buy
def bestAsk (b : HybridBook) : Option (Price × HybridBook) := b.best .sell

def viewOf (b : HybridBook) (li : ℤ) : Option LevelView := do
  let level ← subscript b.levels li
  return ⟨level.price, level.qty, level.orders⟩

/-- One iteration for each entry written; `t` is the grid cursor, the list the
overflow iterator. -/
def collectLoop (b : HybridBook) (side : Side) : ℕ → ℤ → List (Price × ℤ) → Option (List LevelView)
  | 0, _, _ => some []
  | n + 1, t, oit =>
    if t < 0 then
      match oit with
      | [] => some []
      | (_, li) :: oit => do
        let view ← b.viewOf li
        let rest ← b.collectLoop side n t oit
        return view :: rest
    else
      let takeGrid := match oit with
        | [] => true
        | (p, _) :: _ => better side (b.priceOf t.toNat) p
      if takeGrid then do
        let li ← subscript (b.grid side).slot t
        let view ← b.viewOf li
        let t ← b.scan side (b.grid side) (scanNext side t)
        let rest ← b.collectLoop side n t oit
        return view :: rest
      else match oit with
        | [] => some []
        | (_, li) :: oit => do
          let view ← b.viewOf li
          let rest ← b.collectLoop side n t oit
          return view :: rest

def collect (b : HybridBook) (side : Side) (oit : List (Price × ℤ)) : Option (List LevelView) := do
  let t ← b.scan side (b.grid side) (b.scanStart side)
  b.collectLoop side kSnapshotDepth t oit

/-- The overflow maps are ascending, so bids walk theirs backwards. -/
def snapshot (b : HybridBook) : Option Snapshot := do
  let bid ← b.collect .buy (b.over_ .buy).toList.reverse
  let ask ← b.collect .sell (b.over_ .sell).toList
  return ⟨bid, ask⟩

def orderCount (b : HybridBook) : ℕ := b.ids.size

/-- The inner `none` is the null pointer of the source. -/
def findOrder (b : HybridBook) (ref : OrderId) : Option (Option Order) := do
  match ← b.ids.find OpenHashMap.hash ref with
  | none => return none
  | some oi =>
    let o ← subscript b.orders oi
    return some o

def levelFor (b : HybridBook) (side : Side) (px : Price) : Option (Option Level) := do
  let li ← b.lookupLevel side px
  if li < 0 then return none
  let level ← subscript b.levels li
  return some level

def levelByIndex (b : HybridBook) (i : ℤ) : Option Level := subscript b.levels i

/-- The walk of `shares_ahead_of` from slot `i`; it passes each slot once. -/
def aheadLoop (b : HybridBook) (slot : ℤ) : ℕ → ℤ → Qty → Option Qty
  | 0, _, _ => none
  | fuel + 1, i, ahead =>
    if 0 ≤ i ∧ i ≠ slot then do
      let o ← subscript b.orders i
      b.aheadLoop slot fuel o.next (ahead + o.qty)
    else some ahead

def sharesAheadOf (b : HybridBook) (ref : OrderId) : Option Qty := do
  match ← b.ids.find OpenHashMap.hash ref with
  | none => return 0
  | some slot =>
    let target ← subscript b.orders slot
    if target.level < 0 then return 0
    let level ← subscript b.levels target.level
    b.aheadLoop slot (b.orders.length + 1) level.head 0

end HybridBook

end Hotpath.Book
