import Hotpath.Book.Book

/-!
# The line of live orders

What a book is for, prices and pools apart: the orders that live, in the order
of their insertion. A replaced order goes to the back of the line; a partial
execution or cancellation keeps its place.
-/

namespace Hotpath.Book

structure Entry where
  ref : OrderId
  side : Side
  px : Price
  qty : Qty
  deriving DecidableEq, Repr

def Entry.take (ref : OrderId) (qty : Qty) (e : Entry) : Entry :=
  if e.ref = ref then { e with qty := e.qty - qty } else e

abbrev Line := List Entry

namespace Line

def refs (L : Line) : List OrderId := L.map Entry.ref

/-- The part of the line at one side and price. -/
def at_ (L : Line) (s : Side) (p : Price) : Line := L.filter fun e => e.side = s ∧ e.px = p

/-- Who came before `ref`. -/
def ahead (L : Line) (ref : OrderId) : Line := L.takeWhile fun e => e.ref ≠ ref

def shares (L : Line) : ℕ := (L.map fun e => e.qty.toNat).sum

def add (L : Line) (ref : OrderId) (s : Side) (p : Price) (qty : Qty) : Line :=
  if qty = 0 then L else L ++ [⟨ref, s, p, qty⟩]

def drop (L : Line) (ref : OrderId) : Line := L.filter fun e => e.ref ≠ ref

def find (L : Line) (ref : OrderId) : Option Entry := L.find? fun e => e.ref = ref

def reduce (L : Line) (ref : OrderId) (qty : Qty) : Line :=
  match L.find ref with
  | none => L
  | some e => if qty < e.qty then L.map (Entry.take ref qty) else L.drop ref

def replace (L : Line) (oldRef newRef : OrderId) (p : Price) (qty : Qty) : Line :=
  match L.find oldRef with
  | none => L
  | some e => (L.drop oldRef).add newRef e.side p qty

def step (L : Line) : Op → Line
  | .add ref s p qty => L.add ref s p qty
  | .execute ref qty => L.reduce ref qty
  | .cancel ref qty => L.reduce ref qty
  | .remove ref => L.drop ref
  | .replace oldRef newRef p qty => L.replace oldRef newRef p qty
  | .clear => []

def replay (L : Line) (ops : List Op) : Line := ops.foldl step L

/-- The ref an operation brings in is not in use. -/
def fresh (L : Line) : Op → Prop
  | .add ref _ _ _ => ref ∉ L.refs
  | .replace oldRef newRef _ _ => newRef ∉ (L.drop oldRef).refs
  | _ => True

def freshRun : Line → List Op → Prop
  | _, [] => True
  | L, op :: ops => L.fresh op ∧ freshRun (L.step op) ops

instance decFresh (L : Line) : (op : Op) → Decidable (L.fresh op)
  | .add ref _ _ _ => inferInstanceAs (Decidable (ref ∉ L.refs))
  | .execute _ _ => isTrue trivial
  | .cancel _ _ => isTrue trivial
  | .remove _ => isTrue trivial
  | .replace oldRef newRef _ _ => inferInstanceAs (Decidable (newRef ∉ (L.drop oldRef).refs))
  | .clear => isTrue trivial

instance decFreshRun : (L : Line) → (ops : List Op) → Decidable (L.freshRun ops)
  | _, [] => isTrue trivial
  | L, op :: ops => @instDecidableAnd _ _ (decFresh L op) (decFreshRun (L.step op) ops)

end Line

/-- Operations that may take a stamp. -/
def Op.inserts : Op → Bool
  | .add .. => true
  | .replace .. => true
  | _ => false

end Hotpath.Book
