import Hotpath.Core.Types

/-!
# What a book design is (book/book.hpp, book/events.hpp)

The operation set shared by the designs, the fixed-depth snapshot they are
compared by, and the tape events replayed into them.
-/

namespace Hotpath.Book

structure LevelView where
  price : Price
  qty : Qty
  orders : UInt32
  deriving DecidableEq, Repr

def kSnapshotDepth : ℕ := 10

/-- The first `nbid` and `nask` entries of the source's arrays: `operator==`
compares no others. -/
structure Snapshot where
  bid : List LevelView
  ask : List LevelView
  deriving DecidableEq, Repr

inductive Op where
  | add (ref : OrderId) (side : Side) (px : Price) (qty : Qty)
  | execute (ref : OrderId) (qty : Qty)
  | cancel (ref : OrderId) (qty : Qty)
  | remove (ref : OrderId)
  | replace (oldRef newRef : OrderId) (px : Price) (qty : Qty)
  | clear
  deriving DecidableEq, Repr

def Op.refs : Op → List OrderId
  | .add ref _ _ _ => [ref]
  | .execute ref _ => [ref]
  | .cancel ref _ => [ref]
  | .remove ref => [ref]
  | .replace oldRef newRef _ _ => [oldRef, newRef]
  | .clear => []

def Op.prices : Op → List Price
  | .add _ _ px _ => [px]
  | .replace _ _ px _ => [px]
  | _ => []

/-- The designs are duck-typed in the source: each is a type with one step for
each operation. `none` is a subscript outside a vector. -/
class Design (B : Type) where
  step : B → Op → Option B

def Design.run {B : Type} [Design B] : B → List Op → Option B
  | b, [] => some b
  | b, op :: ops => (Design.step b op).bind fun b => Design.run b ops

theorem Design.run_append {B : Type} [Design B] (b : B) (xs ys : List Op) :
    Design.run b (xs ++ ys) = (Design.run b xs).bind fun b => Design.run b ys := by
  induction xs generalizing b with
  | nil => rfl
  | cons x xs ih =>
    simp only [List.cons_append, Design.run, Option.bind_assoc, ih]

inductive EventType where
  | add
  | execute
  | cancel
  | delete
  | replace
  deriving DecidableEq, Repr

structure BookEvent where
  ts : Ts
  order_ref : OrderId
  new_ref : OrderId
  price : Price
  shares : Qty
  type : EventType
  side : Side
  deriving DecidableEq, Repr

def BookEvent.op (e : BookEvent) : Op :=
  match e.type with
  | .add => .add e.order_ref e.side e.price e.shares
  | .execute => .execute e.order_ref e.shares
  | .cancel => .cancel e.order_ref e.shares
  | .delete => .remove e.order_ref
  | .replace => .replace e.order_ref e.new_ref e.price e.shares

/-- Apply one tape event to any book design. -/
def apply {B : Type} [Design B] (b : B) (e : BookEvent) : Option B := Design.step b e.op

end Hotpath.Book
