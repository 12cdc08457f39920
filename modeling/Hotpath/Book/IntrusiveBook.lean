import Hotpath.Support.LowerBound
import Hotpath.Book.HybridBook

/-!
# The intrusive book (book/intrusive_book.hpp)

Design (b): orders in one pool with a free list, each level an intrusive list of
its orders, and for each side a sorted vector of level indices. A level has the
hybrid book's fields; an order has no stamp.
-/

namespace Hotpath.Book
open Hotpath.Support

namespace IntrusiveBook

abbrev Level := HybridBook.Level

structure Order where
  id : OrderId := 0
  qty : Qty := 0
  prev : ℤ := -1
  next : ℤ := -1
  level : ℤ := -1
  side : Side := .buy
  deriving DecidableEq, Repr

end IntrusiveBook

structure IntrusiveBook where
  orders : List IntrusiveBook.Order
  levels : List IntrusiveBook.Level
  freeOrders : List ℤ
  freeLevels : List ℤ
  idx : Side → List ℤ
  ids : OpenHashMap ℤ
  rejected : ℕ
  levelCreates : ℕ
  levelDestroys : ℕ
  shifted : ℕ

namespace IntrusiveBook

/-- `none` is the `invalid_argument` of the id table. -/
def make (maxOrdersPow2 maxLevels : ℕ) : Option IntrusiveBook := do
  let ids ← OpenHashMap.make maxOrdersPow2
  return {
    orders := List.replicate maxOrdersPow2 {}
    levels := List.replicate maxLevels {}
    freeOrders := (List.range maxOrdersPow2).map int32
    freeLevels := (List.range maxLevels).map int32
    idx := fun _ => []
    ids := ids
    rejected := 0
    levelCreates := 0
    levelDestroys := 0
    shifted := 0 }

/-! ### Levels -/

/-- Bids sort descending, asks ascending. -/
def before (side : Side) (mp px : Price) : Bool :=
  match side with
  | .buy => mp > px
  | .sell => mp < px

/-- Where `px` belongs in the side's sorted index vector. The interval halves, so
its length is fuel enough. -/
def lowerBoundPos (b : IntrusiveBook) (side : Side) (px : Price) : Option ℕ :=
  lowerBound (fun mid => do
    let li ← (b.idx side)[mid]?
    let level ← subscript b.levels li
    return before side level.price px) (b.idx side).length 0 (b.idx side).length

/-- The level the search stopped at, when it is the level of `px`. -/
def existingAt (b : IntrusiveBook) (side : Side) (pos : ℕ) (px : Price) : Option (Option ℤ) :=
  match (b.idx side)[pos]? with
  | none => some none
  | some li => (subscript b.levels li).map fun l => if l.price = px then some li else none

def findOrCreateLevel (b : IntrusiveBook) (side : Side) (px : Price) :
    Option (IntrusiveBook × ℤ) := do
  let v := b.idx side
  let pos ← b.lowerBoundPos side px
  match ← b.existingAt side pos px with
  | some li => return (b, li)
  | none =>
    match b.freeLevels with
    | [] => return (b, -1)
    | li :: free =>
      let levels ← modifyAt b.levels li fun _ => { price := px }
      return ({ b with
        freeLevels := free
        levels := levels
        levelCreates := b.levelCreates + 1
        shifted := b.shifted + (v.length - pos)
        idx := Function.update b.idx side (v.insertIdx pos li) }, li)

/-- The level goes only if the search lands on it. -/
def dropLevel (b : IntrusiveBook) (side : Side) (li : ℤ) : Option IntrusiveBook := do
  let v := b.idx side
  let level ← subscript b.levels li
  let pos ← b.lowerBoundPos side level.price
  if v[pos]? = some li then
    return { b with
      levelDestroys := b.levelDestroys + 1
      shifted := b.shifted + (v.length - pos - 1)
      idx := Function.update b.idx side (v.eraseIdx pos)
      freeLevels := li :: b.freeLevels }
  else return b

/-! ### Orders -/

/-- The part of `add` that links order slot `oi` at the tail of level `li`. -/
def enqueue (b : IntrusiveBook) (oi li : ℤ) (ref : OrderId) (side : Side) (qty : Qty) :
    Option IntrusiveBook := do
  let level ← subscript b.levels li
  let orders ← modifyAt b.orders oi fun _ =>
    { id := ref, qty := qty, level := li, side := side, prev := level.tail, next := -1 }
  let orders ← modifyLink orders level.tail fun o => { o with next := oi }
  let levels ← modifyAt b.levels li fun l =>
    { l with head := if 0 ≤ level.tail then l.head else oi, tail := oi,
             qty := l.qty + qty, orders := l.orders + 1 }
  let (ids, ok) ← b.ids.insert OpenHashMap.hash ref oi
  return { b with
    orders := orders
    levels := levels
    ids := ids
    rejected := if ok then b.rejected else b.rejected + 1 }

def add (b : IntrusiveBook) (ref : OrderId) (side : Side) (px : Price) (qty : Qty) :
    Option IntrusiveBook := do
  if qty = 0 then return b
  match b.freeOrders with
  | [] => return { b with rejected := b.rejected + 1 }
  | oi :: free =>
    let (b, li) ← b.findOrCreateLevel side px
    if li < 0 then return { b with rejected := b.rejected + 1 }
    enqueue { b with freeOrders := free } oi li ref side qty

def unlink (b : IntrusiveBook) (oi : ℤ) : Option IntrusiveBook := do
  let o ← subscript b.orders oi
  let level ← subscript b.levels o.level
  let orders ← modifyLink b.orders o.prev fun p => { p with next := o.next }
  let orders ← modifyLink orders o.next fun n => { n with prev := o.prev }
  let orders ← modifyAt orders oi fun o => { o with prev := -1, next := -1, level := -1 }
  let level := { level with
    head := if 0 ≤ o.prev then level.head else o.next
    tail := if 0 ≤ o.next then level.tail else o.prev
    qty := level.qty - o.qty
    orders := level.orders - 1 }
  let levels ← modifyAt b.levels o.level fun _ => level
  let b := { b with orders := orders, levels := levels }
  if level.orders = 0 then b.dropLevel o.side o.level else return b

/-- The three statements that end an order's life in `remove`, `replace` and
`reduce`: unlink it, return its slot, forget its id. -/
def retire (b : IntrusiveBook) (ref : OrderId) (oi : ℤ) : Option IntrusiveBook := do
  let b ← b.unlink oi
  let b := { b with freeOrders := oi :: b.freeOrders }
  let (ids, _) ← b.ids.erase OpenHashMap.hash ref
  return { b with ids := ids }

def reduce (b : IntrusiveBook) (ref : OrderId) (qty : Qty) : Option IntrusiveBook := do
  match ← b.ids.find OpenHashMap.hash ref with
  | none => return b
  | some oi =>
    let o ← subscript b.orders oi
    let take := if qty < o.qty then qty else o.qty
    if take = o.qty then b.retire ref oi
    else do
      let orders ← modifyAt b.orders oi fun o => { o with qty := o.qty - take }
      let levels ← modifyAt b.levels o.level fun l => { l with qty := l.qty - take }
      return { b with orders := orders, levels := levels }

def execute (b : IntrusiveBook) (ref : OrderId) (qty : Qty) : Option IntrusiveBook :=
  b.reduce ref qty
def cancel (b : IntrusiveBook) (ref : OrderId) (qty : Qty) : Option IntrusiveBook :=
  b.reduce ref qty

def remove (b : IntrusiveBook) (ref : OrderId) : Option IntrusiveBook := do
  match ← b.ids.find OpenHashMap.hash ref with
  | none => return b
  | some oi => b.retire ref oi

def replace (b : IntrusiveBook) (oldRef newRef : OrderId) (px : Price) (qty : Qty) :
    Option IntrusiveBook := do
  match ← b.ids.find OpenHashMap.hash oldRef with
  | none => return b
  | some oi =>
    let o ← subscript b.orders oi
    let b ← b.retire oldRef oi
    b.add newRef o.side px qty

def clear (b : IntrusiveBook) : IntrusiveBook :=
  { b with
    ids := b.ids.clear
    idx := fun _ => []
    freeOrders := (List.range b.orders.length).map int32
    freeLevels := (List.range b.levels.length).map int32 }

def step (b : IntrusiveBook) : Op → Option IntrusiveBook
  | .add ref side px qty => b.add ref side px qty
  | .execute ref qty => b.execute ref qty
  | .cancel ref qty => b.cancel ref qty
  | .remove ref => b.remove ref
  | .replace oldRef newRef px qty => b.replace oldRef newRef px qty
  | .clear => some b.clear

instance : Design IntrusiveBook := ⟨step⟩

/-! ### Queries -/

def best (b : IntrusiveBook) (side : Side) : Option Price :=
  match b.idx side with
  | [] => some kInvalidPrice
  | li :: _ => (subscript b.levels li).map HybridBook.Level.price

def bestBid (b : IntrusiveBook) : Option Price := b.best .buy
def bestAsk (b : IntrusiveBook) : Option Price := b.best .sell

def collect (b : IntrusiveBook) (side : Side) : Option (List LevelView) :=
  ((b.idx side).take kSnapshotDepth).mapM fun li =>
    (subscript b.levels li).map fun l => ⟨l.price, l.qty, l.orders⟩

def snapshot (b : IntrusiveBook) : Option Snapshot := do
  let bid ← b.collect .buy
  let ask ← b.collect .sell
  return ⟨bid, ask⟩

def orderCount (b : IntrusiveBook) : ℕ := b.ids.size
def levelsInUse (b : IntrusiveBook) : ℕ := b.levels.length - b.freeLevels.length
def bidLevels (b : IntrusiveBook) : ℕ := (b.idx .buy).length
def askLevels (b : IntrusiveBook) : ℕ := (b.idx .sell).length

/-- The prices a side's vector lists, in its order. -/
def prices (b : IntrusiveBook) (side : Side) : Option (List Price) :=
  (b.idx side).mapM fun li => (subscript b.levels li).map HybridBook.Level.price

end IntrusiveBook

end Hotpath.Book
