import Hotpath.Book.Book

/-!
# The map book (book/map_book.hpp)

Design (a): an ordered map of price to aggregate for each side, and a map of
order id to record. The reference the other designs are validated against.
-/

namespace Hotpath.Book

/-- `std::greater<Price>`: the bids are kept descending. -/
def greater (a b : Price) : Ordering := compare b a

instance : Std.TransCmp greater where
  eq_swap {a b} := @Std.OrientedCmp.eq_swap Price compare _ b a
  isLE_trans {a b c} h h' := @Std.TransCmp.isLE_trans Price compare _ c b a h' h

instance : Std.LawfulEqCmp greater where
  eq_of_compare {a b} h := (@Std.LawfulEqCmp.eq_of_compare Price compare _ b a h).symm

namespace MapBook

structure Rec where
  px : Price
  qty : Qty
  side : Side
  deriving DecidableEq, Repr

structure Agg where
  qty : Qty := 0
  orders : UInt32 := 0
  deriving DecidableEq, Repr

end MapBook

structure MapBook where
  orders : Std.TreeMap OrderId MapBook.Rec
  bids : Std.TreeMap Price MapBook.Agg greater
  asks : Std.TreeMap Price MapBook.Agg

namespace MapBook

def empty : MapBook := ⟨∅, ∅, ∅⟩

section Levels
variable {cmp : Price → Price → Ordering}

def deposit (m : Std.TreeMap Price Agg cmp) (px : Price) (qty : Qty) : Std.TreeMap Price Agg cmp :=
  let agg := m[px]?.getD {}
  m.insert px ⟨agg.qty + qty, agg.orders + 1⟩

def reduceLevel (m : Std.TreeMap Price Agg cmp) (px : Price) (qty : Qty) :
    Std.TreeMap Price Agg cmp :=
  match m[px]? with
  | none => m
  | some agg => m.insert px { agg with qty := agg.qty - qty }

def detachFrom (m : Std.TreeMap Price Agg cmp) (px : Price) (qty : Qty) :
    Std.TreeMap Price Agg cmp :=
  match m[px]? with
  | none => m
  | some agg =>
    if agg.orders - 1 = 0 then m.erase px
    else m.insert px ⟨agg.qty - qty, agg.orders - 1⟩

end Levels

def add (m : MapBook) (ref : OrderId) (side : Side) (px : Price) (qty : Qty) : MapBook :=
  if qty = 0 then m
  else
    let m := { m with orders := m.orders.insert ref ⟨px, qty, side⟩ }
    match side with
    | .buy => { m with bids := deposit m.bids px qty }
    | .sell => { m with asks := deposit m.asks px qty }

def detach (m : MapBook) (r : Rec) (qty : Qty) : MapBook :=
  match r.side with
  | .buy => { m with bids := detachFrom m.bids r.px qty }
  | .sell => { m with asks := detachFrom m.asks r.px qty }

def reduce (m : MapBook) (ref : OrderId) (qty : Qty) : MapBook :=
  match m.orders[ref]? with
  | none => m
  | some r =>
    let take := if qty < r.qty then qty else r.qty
    if take = r.qty then
      let m := m.detach r take
      { m with orders := m.orders.erase ref }
    else
      let m := { m with orders := m.orders.insert ref { r with qty := r.qty - take } }
      match r.side with
      | .buy => { m with bids := reduceLevel m.bids r.px take }
      | .sell => { m with asks := reduceLevel m.asks r.px take }

def execute (m : MapBook) (ref : OrderId) (qty : Qty) : MapBook := m.reduce ref qty
def cancel (m : MapBook) (ref : OrderId) (qty : Qty) : MapBook := m.reduce ref qty

def remove (m : MapBook) (ref : OrderId) : MapBook :=
  match m.orders[ref]? with
  | none => m
  | some r =>
    let m := m.detach r r.qty
    { m with orders := m.orders.erase ref }

def replace (m : MapBook) (oldRef newRef : OrderId) (px : Price) (qty : Qty) : MapBook :=
  match m.orders[oldRef]? with
  | none => m
  | some r =>
    let m := m.detach r r.qty
    let m := { m with orders := m.orders.erase oldRef }
    m.add newRef r.side px qty

def bestBid (m : MapBook) : Price := m.bids.keys.head?.getD kInvalidPrice
def bestAsk (m : MapBook) : Price := m.asks.keys.head?.getD kInvalidPrice

def view (level : Price × Agg) : LevelView := ⟨level.1, level.2.qty, level.2.orders⟩

def snapshot (m : MapBook) : Snapshot where
  bid := (m.bids.toList.take kSnapshotDepth).map view
  ask := (m.asks.toList.take kSnapshotDepth).map view

def clear (_ : MapBook) : MapBook := empty

def orderCount (m : MapBook) : ℕ := m.orders.size

def step (m : MapBook) : Op → MapBook
  | .add ref side px qty => m.add ref side px qty
  | .execute ref qty => m.execute ref qty
  | .cancel ref qty => m.cancel ref qty
  | .remove ref => m.remove ref
  | .replace oldRef newRef px qty => m.replace oldRef newRef px qty
  | .clear => m.clear

/-- No operation of this design subscripts a vector. -/
instance : Design MapBook := ⟨fun m op => some (m.step op)⟩

def replay (m : MapBook) (ops : List Op) : MapBook := ops.foldl step m

end MapBook

end Hotpath.Book
