import Hotpath.Support.Subscript
import Hotpath.Core.OpenHash
import Hotpath.Book.MapBook
import Hotpath.Book.HybridBook

/-!
# The flat book (book/flat_book.hpp)

Design (c): a price grid addressed by tick, with a bitmap index, that keeps only
the aggregate of each level. Prices outside the dense window live in an ordered
map. Records and aggregates have the map book's fields.
-/

namespace Hotpath.Book
open Hotpath.Support

namespace FlatBook

abbrev Rec := MapBook.Rec
abbrev Agg := MapBook.Agg

instance : Inhabited Rec := ⟨⟨0, 0, .buy⟩⟩

def kTick : Price := 100

/-- `hint` caches the best tick; `-1` is unknown. -/
structure Grid where
  qty : List Qty
  cnt : List UInt32
  bits : List Word
  hint : ℤ := -1

end FlatBook

structure FlatBook where
  lo : Price
  ticks : ℕ
  grid : Side → FlatBook.Grid
  over_ : Side → Std.TreeMap Price FlatBook.Agg
  ids : OpenHashMap FlatBook.Rec
  overflowOps : ℕ
  gridOps : ℕ
  rejected : ℕ

namespace FlatBook

def freshGrid (ticks : ℕ) : Grid :=
  ⟨List.replicate ticks 0, List.replicate ticks 0, List.replicate ((ticks + 63) / 64) 0, -1⟩

/-- `none` is the `invalid_argument` of an inverted window or of the id table. -/
def make (lo hi : Price) (maxOrdersPow2 : ℕ) : Option FlatBook := do
  let lo' := lo - lo % kTick
  if hi < lo' then none
  let ids ← OpenHashMap.make maxOrdersPow2
  let ticks := ((hi - lo') / kTick).toNat + 1
  return {
    lo := lo'
    ticks := ticks
    grid := fun _ => freshGrid ticks
    over_ := fun _ => ∅
    ids := ids
    overflowOps := 0
    gridOps := 0
    rejected := 0 }

def inGrid (b : FlatBook) (px : Price) : Bool :=
  b.lo ≤ px ∧ px % kTick = 0 ∧ ((px - b.lo) / kTick).toNat < b.ticks

def tickOf (b : FlatBook) (px : Price) : ℕ := ((px - b.lo) / kTick).toNat

def priceOf (b : FlatBook) (t : ℕ) : Price := b.lo + UInt32.ofNat t * kTick

/-! ### Operations -/

/-- The cached best tick after an arrival at tick `t`. -/
def raiseHint (side : Side) (h : ℤ) (t : ℕ) : ℤ :=
  if h < 0 then t
  else match side with
    | .buy => if (t : ℤ) > h then t else h
    | .sell => if (t : ℤ) < h then t else h

/-- `delta` is positive for an arriving order, negative for a departing one. -/
def deposit (b : FlatBook) (side : Side) (px : Price) (qty : Qty) (delta : ℤ) :
    Option FlatBook := do
  if ¬b.inGrid px then
    let m := b.over_ side
    let m := if 0 < delta then
        let a := m[px]?.getD {}
        m.insert px ⟨a.qty + qty, a.orders + 1⟩
      else match m[px]? with
        | none => m
        | some a =>
          if a.orders - 1 = 0 then m.erase px
          else m.insert px ⟨a.qty - qty, a.orders - 1⟩
    return { b with overflowOps := b.overflowOps + 1, over_ := Function.update b.over_ side m }
  else
    let g := b.grid side
    let t := b.tickOf px
    let n ← subscript g.cnt t
    let g ← if 0 < delta then do
        let cnt ← modifyAt g.cnt t fun n => n + 1
        let bits ← if n = 0 then setBit g.bits t else some g.bits
        let q ← modifyAt g.qty t fun q => q + qty
        some { qty := q, cnt := cnt, bits := bits, hint := raiseHint side g.hint t }
      else do
        let q ← modifyAt g.qty t fun q => q - qty
        let cnt ← modifyAt g.cnt t fun n => n - 1
        if n - 1 = 0 then do
          let bits ← clearBit g.bits t
          some { qty := q, cnt := cnt, bits := bits, hint := if g.hint = t then -1 else g.hint }
        else some { g with qty := q, cnt := cnt }
    return { b with gridOps := b.gridOps + 1, grid := Function.update b.grid side g }

def add (b : FlatBook) (ref : OrderId) (side : Side) (px : Price) (qty : Qty) :
    Option FlatBook := do
  if qty = 0 then return b
  let (ids, ok) ← b.ids.insert OpenHashMap.hash ref ⟨px, qty, side⟩
  if ¬ok then return { b with rejected := b.rejected + 1 }
  deposit { b with ids := ids } side px qty 1

/-- The two statements that end an order's life in `remove`, `replace` and
`reduce`: withdraw what it deposited, forget its id. -/
def retire (b : FlatBook) (ref : OrderId) (r : Rec) : Option FlatBook := do
  let b ← b.deposit r.side r.px r.qty (-1)
  let (ids, _) ← b.ids.erase OpenHashMap.hash ref
  return { b with ids := ids }

/-- The part of `reduce` that takes shares of an order that stays. -/
def shrink (b : FlatBook) (side : Side) (px : Price) (take : Qty) : Option FlatBook := do
  if b.inGrid px then
    let g := b.grid side
    let q ← modifyAt g.qty (b.tickOf px) fun q => q - take
    return { b with grid := Function.update b.grid side { g with qty := q } }
  else match (b.over_ side)[px]? with
    | none => return b
    | some a =>
      let m := (b.over_ side).insert px { a with qty := a.qty - take }
      return { b with over_ := Function.update b.over_ side m }

def reduce (b : FlatBook) (ref : OrderId) (qty : Qty) : Option FlatBook := do
  match ← b.ids.find OpenHashMap.hash ref with
  | none => return b
  | some r =>
    let take := if qty < r.qty then qty else r.qty
    if take = r.qty then b.retire ref r
    else do
      let ids ← b.ids.write OpenHashMap.hash ref { r with qty := r.qty - take }
      shrink { b with ids := ids } r.side r.px take

def execute (b : FlatBook) (ref : OrderId) (qty : Qty) : Option FlatBook := b.reduce ref qty
def cancel (b : FlatBook) (ref : OrderId) (qty : Qty) : Option FlatBook := b.reduce ref qty

def remove (b : FlatBook) (ref : OrderId) : Option FlatBook := do
  match ← b.ids.find OpenHashMap.hash ref with
  | none => return b
  | some r => b.retire ref r

def replace (b : FlatBook) (oldRef newRef : OrderId) (px : Price) (qty : Qty) :
    Option FlatBook := do
  match ← b.ids.find OpenHashMap.hash oldRef with
  | none => return b
  | some r =>
    let b ← b.retire oldRef r
    b.add newRef r.side px qty

def clear (b : FlatBook) : FlatBook :=
  { b with
    ids := b.ids.clear
    grid := fun s =>
      { qty := (b.grid s).qty.map fun _ => 0, cnt := (b.grid s).cnt.map fun _ => 0,
        bits := (b.grid s).bits.map fun _ => 0, hint := -1 }
    over_ := fun _ => ∅ }

def step (b : FlatBook) : Op → Option FlatBook
  | .add ref side px qty => b.add ref side px qty
  | .execute ref qty => b.execute ref qty
  | .cancel ref qty => b.cancel ref qty
  | .remove ref => b.remove ref
  | .replace oldRef newRef px qty => b.replace oldRef newRef px qty
  | .clear => some b.clear

instance : Design FlatBook := ⟨step⟩

/-! ### Queries -/

def scan (b : FlatBook) (side : Side) (g : Grid) (from_ : ℤ) : Option ℤ :=
  match side with
  | .buy => scanDown g.bits from_
  | .sell => scanUp g.bits b.ticks from_

/-- Where a scan for the best tick of a side starts. -/
def scanStart (b : FlatBook) (side : Side) : ℤ :=
  match side with
  | .buy => b.ticks - 1
  | .sell => 0

def scanNext (side : Side) (t : ℤ) : ℤ :=
  match side with
  | .buy => t - 1
  | .sell => t + 1

def testBit (g : Grid) (t : ℕ) : Option Bool := do
  let word ← g.bits[t >>> 6]?
  return word.getLsbD (t &&& 63)

/-- The query writes the cached hint through a `const_cast`. -/
def gridBest (b : FlatBook) (side : Side) : Option (Price × FlatBook) := do
  let g := b.grid side
  let hint ← if g.hint < 0 then b.scan side g (b.scanStart side)
    else do
      let set ← testBit g g.hint.toNat
      if ¬set then b.scan side g g.hint else some g.hint
  let px := if hint < 0 then kInvalidPrice else b.priceOf hint.toNat
  return (px, { b with grid := Function.update b.grid side { g with hint := hint } })

/-- `rbegin()->first` and `begin()->first` of the overflow map. -/
def overBest (b : FlatBook) (side : Side) : Price :=
  match side with
  | .buy => ((b.over_ side).keys.getLast?).getD kInvalidPrice
  | .sell => ((b.over_ side).keys.head?).getD kInvalidPrice

def better (side : Side) (p q : Price) : Bool :=
  match side with
  | .buy => p > q
  | .sell => p < q

def best (b : FlatBook) (side : Side) : Option (Price × FlatBook) := do
  let (g, b) ← b.gridBest side
  let o := b.overBest side
  if g = kInvalidPrice then return (o, b)
  if o = kInvalidPrice then return (g, b)
  return (if better side g o then g else o, b)

def bestBid (b : FlatBook) : Option (Price × FlatBook) := b.best .buy
def bestAsk (b : FlatBook) : Option (Price × FlatBook) := b.best .sell

/-- One iteration for each entry written; `t` is the grid cursor, the list the
overflow iterator. -/
def collectLoop (b : FlatBook) (side : Side) : ℕ → ℤ → List (Price × Agg) → Option (List LevelView)
  | 0, _, _ => some []
  | n + 1, t, oit =>
    if t < 0 then
      match oit with
      | [] => some []
      | (p, a) :: oit => do
        let rest ← b.collectLoop side n t oit
        return ⟨p, a.qty, a.orders⟩ :: rest
    else
      let takeGrid := match oit with
        | [] => true
        | (p, _) :: _ => better side (b.priceOf t.toNat) p
      if takeGrid then do
        let q ← subscript (b.grid side).qty t
        let cnt ← subscript (b.grid side).cnt t
        let next ← b.scan side (b.grid side) (scanNext side t)
        let rest ← b.collectLoop side n next oit
        return ⟨b.priceOf t.toNat, q, cnt⟩ :: rest
      else match oit with
        | [] => some []
        | (p, a) :: oit => do
          let rest ← b.collectLoop side n t oit
          return ⟨p, a.qty, a.orders⟩ :: rest

def collect (b : FlatBook) (side : Side) (oit : List (Price × Agg)) : Option (List LevelView) := do
  let t ← b.scan side (b.grid side) (b.scanStart side)
  b.collectLoop side kSnapshotDepth t oit

/-- The overflow maps are ascending, so bids walk theirs backwards. -/
def snapshot (b : FlatBook) : Option Snapshot := do
  let bid ← b.collect .buy (b.over_ .buy).toList.reverse
  let ask ← b.collect .sell (b.over_ .sell).toList
  return ⟨bid, ask⟩

def orderCount (b : FlatBook) : ℕ := b.ids.size

end FlatBook

end Hotpath.Book
