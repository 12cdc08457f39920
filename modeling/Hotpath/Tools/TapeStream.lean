import Hotpath.Book.MapLevels
import Hotpath.Itch.Decode

/-!
# The stream that the tapes are cut from

A direct simulation of the orders of all symbols, and the map book that holds those of
one symbol. What an event does to such a book is stated for its orders alone.
-/

namespace Hotpath.Tools
open Hotpath.Itch Hotpath.Book Hotpath.Support

/-- `listed` says of which symbols the Add carried the locate, after their Stock
Directory message. -/
structure StreamOrder where
  side : Side
  price : Price
  shares : Qty
  listed : Symbol → Bool

structure Stream where
  locates : Symbol → Option StockLocate := fun _ => none
  orders : OrderId → Option StreamOrder := fun _ => none

namespace Stream

/-- An order loses up to `shares`, and is gone when none are left. -/
def reduce (t : Stream) (ref : OrderId) (shares : Qty) : Stream :=
  match t.orders ref with
  | none => t
  | some o =>
    let left := o.shares - if shares < o.shares then shares else o.shares
    let o := if left = 0 then none else some { o with shares := left }
    { t with orders := Function.update t.orders ref o }

def step (t : Stream) : Message → Stream
  | .directory locate stock =>
    { t with locates := Function.update t.locates stock (some locate) }
  | .add _ locate ref side shares price =>
    let listed := fun s => t.locates s = some locate
    { t with orders := Function.update t.orders ref (some ⟨side, price, shares, listed⟩) }
  | .execute _ ref shares => t.reduce ref shares
  | .cancel _ ref shares => t.reduce ref shares
  | .delete _ ref => { t with orders := Function.update t.orders ref none }
  | .replace _ original new shares price =>
    match t.orders original with
    | none => t
    | some o =>
      let orders := Function.update t.orders original none
      let o := { o with price := price, shares := shares }
      { t with orders := Function.update orders new (some o) }
  | .other => t

def run (xs : List Message) : Stream := xs.foldl step {}

/-- What is expected of a message after the stream `t`, when `want` are requested. -/
def Admits (want : List Symbol) (t : Stream) : Message → Prop
  | .directory locate stock => stock ∈ want →
    ∀ s ∈ want, ∀ l, t.locates s = some l → (l = locate ↔ s = stock)
  | .add _ _ ref _ shares _ => ref ≠ 0 ∧ shares ≠ 0 ∧ t.orders ref = none
  | .execute _ ref _ => ref ≠ 0
  | .cancel _ ref _ => ref ≠ 0
  | .delete _ ref => ref ≠ 0
  | .replace _ original new shares _ =>
    original ≠ 0 ∧ new ≠ 0 ∧ shares ≠ 0 ∧ t.orders new = none
  | .other => True

def Admissible (want : List Symbol) (xs : List Message) : Prop :=
  ∀ pre x post, xs = pre ++ x :: post → Admits want (run pre) x

end Stream

/-! ### The book of one symbol -/

/-- An order of `s`, as a map book records it. -/
def StreamOrder.recordOf (s : Symbol) (o : StreamOrder) : Option MapBook.Rec :=
  if o.listed s then some ⟨o.price, o.shares, o.side⟩ else none

/-- The map book `b` holds the orders of `s`. -/
def Holds (s : Symbol) (orders : OrderId → Option StreamOrder) (b : MapBook) : Prop :=
  ∀ ref, b.orders[ref]? = (orders ref).bind (StreamOrder.recordOf s)

variable {s : Symbol} {orders : OrderId → Option StreamOrder} {b : MapBook} {o o' : StreamOrder}
variable {ref new : OrderId} {x : Option StreamOrder} {qty : Qty} {px : Price}

theorem recordOf_listed (hl : o.listed s = true) :
    o.recordOf s = some ⟨o.price, o.shares, o.side⟩ :=
  if_pos hl

theorem recordOf_other (hl : o.listed s = false) : o.recordOf s = none :=
  if_neg (Bool.eq_false_iff.mp hl)

theorem Holds.order (h : Holds s orders b) (ho : orders ref = some o) :
    b.orders[ref]? = o.recordOf s := by
  rw [h, ho]
  rfl

/-- What a change of one order asks of the book. -/
theorem Holds.update {b' : MapBook} (h : Holds s orders b)
    (hb : ∀ ref', b'.orders[ref']? = if ref' = ref then x.bind (StreamOrder.recordOf s)
      else b.orders[ref']?) :
    Holds s (Function.update orders ref x) b' := by
  intro ref'
  rw [hb]
  by_cases heq : ref' = ref
  · obtain rfl := heq
    rw [if_pos rfl, Function.update_self]
  · rw [if_neg heq, Function.update_of_ne heq, h]

/-- A change of an order of another symbol. -/
theorem Holds.skip (h : Holds s orders b) (hold : (orders ref).bind (StreamOrder.recordOf s) = none)
    (hnew : x.bind (StreamOrder.recordOf s) = none) : Holds s (Function.update orders ref x) b := by
  apply h.update
  intro ref'
  split
  · rename_i heq
    rw [heq, h, hold, hnew]
  · rfl

theorem Holds.skip_other (h : Holds s orders b) (ho : orders ref = some o)
    (hl : o.listed s = false) (hx : ∀ o', x = some o' → o'.listed s = false) :
    Holds s (Function.update orders ref x) b := by
  apply h.skip
  · rw [ho]
    exact recordOf_other hl
  · cases x with
    | none => rfl
    | some o' => exact recordOf_other (hx o' rfl)

theorem Holds.add (h : Holds s orders b) (hqty : o.shares ≠ 0) (hl : o.listed s = true) :
    Holds s (Function.update orders ref (some o)) (b.add ref o.side o.price o.shares) := by
  apply h.update
  intro ref'
  rw [MapBook.orders_add b ref o.side o.price hqty, getElem?_insert_if, Option.bind_some,
    recordOf_listed hl]

theorem Holds.remove (h : Holds s orders b) (ho : orders ref = some o) (hl : o.listed s = true) :
    Holds s (Function.update orders ref none) (b.remove ref) := by
  have hrec := (h.order ho).trans (recordOf_listed hl)
  apply h.update
  intro ref'
  rw [MapBook.remove, hrec]
  show ((b.detach _ _).orders.erase ref)[ref']? = _
  rw [MapBook.orders_detach, getElem?_erase_if]
  rfl

theorem Holds.reduce (h : Holds s orders b) (ho : orders ref = some o) (hl : o.listed s = true) :
    let left := o.shares - if qty < o.shares then qty else o.shares
    Holds s (Function.update orders ref (if left = 0 then none else some { o with shares := left }))
      (b.reduce ref qty) := by
  intro left
  have hrec := (h.order ho).trans (recordOf_listed hl)
  apply h.update
  intro ref'
  by_cases hlt : qty < o.shares
  · obtain ⟨horders, -⟩ := HybridBook.level_reduce hrec hlt
    have hleft : left = o.shares - qty := congrArg (o.shares - ·) (if_pos hlt)
    have hsome : left ≠ 0 := by
      rw [hleft]
      intro hzero
      have hsub := UInt32.toNat_sub_of_le _ _ (UInt32.le_of_lt hlt)
      have hnat := UInt32.lt_iff_toNat_lt.mp hlt
      rw [hzero, UInt32.toNat_zero] at hsub
      omega
    rw [horders, getElem?_insert_if, if_neg hsome, Option.bind_some, ← hleft]
    exact congrArg (if ref' = ref then · else _)
      (recordOf_listed (o := { o with shares := left }) hl).symm
  · have hleft : left = 0 :=
      (congrArg (o.shares - ·) (if_neg hlt)).trans (UInt32.sub_self _)
    rw [MapBook.reduce_all hrec hlt, MapBook.orders_pull, getElem?_erase_if, if_pos hleft]
    rfl

theorem Holds.replace (h : Holds s orders b) (ho : orders ref = some o) (hl : o.listed s = true)
    (hqty : qty ≠ 0) :
    Holds s (Function.update (Function.update orders ref none) new
      (some { o with price := px, shares := qty })) (b.replace ref new px qty) := by
  have hrec := (h.order ho).trans (recordOf_listed hl)
  have hremove := h.remove ho hl
  rw [MapBook.remove, hrec] at hremove
  rw [MapBook.replace, hrec]
  exact hremove.add hqty hl

end Hotpath.Tools
