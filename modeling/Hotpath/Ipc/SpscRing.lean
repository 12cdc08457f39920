import Hotpath.Support.Machine
import Hotpath.Support.ReleaseAcquire

/-!
# The single-producer single-consumer ring (ipc/spsc_ring.hpp)

`try_push` and `try_pop` as a machine whose actions are the calls, their returns and
the single accesses to `tail_`, `head_`, the cached indices and `buf_`.
-/

namespace Hotpath.Ipc

open Hotpath.Support

namespace SpscRing

inductive Ordering where
  | acqRel
  | relaxed
  deriving DecidableEq

inductive Caching where
  | cached
  | uncached
  deriving DecidableEq

/-- The memory that the two sides share. -/
inductive Cell where
  | tail
  | head
  | slot (i : ℕ)
  deriving DecidableEq

abbrev Cell.Value (T : Type) : Cell → Type
  | .tail => ℕ
  | .head => ℕ
  | .slot _ => T

/-- Where the producer stands in `try_push(v)`. -/
inductive PushAt (T : Type) where
  | idle
  | loadTail (v : T)
  | readCached (v : T) (tail : ℕ)
  | loadHead (v : T) (tail : ℕ)
  | writeCached (v : T) (tail head : ℕ)
  | readAgain (v : T) (tail : ℕ)
  | storeSlot (v : T) (tail : ℕ)
  | storeTail (v : T) (tail : ℕ)
  | returning (ok : Bool)
  deriving DecidableEq

/-- Where the consumer stands in `try_pop(out)`: it returns what it put in `out`. -/
inductive PopAt (T : Type) where
  | idle
  | loadHead
  | readCached (head : ℕ)
  | loadTail (head : ℕ)
  | writeCached (head tail : ℕ)
  | readAgain (head : ℕ)
  | loadSlot (head : ℕ)
  | storeHead (out : T) (head : ℕ)
  | returning (out : Option T)
  deriving DecidableEq

/-- One side: its cached index of the other, and the values that were unread when it
last loaded the index itself. -/
structure Side (At : Type) where
  at_ : At
  view : View Cell
  cached : ℕ := 0
  unread : ℕ := 0

end SpscRing

/-- `pushed` and `popped` are the values published and released so far. -/
structure SpscRing (T : Type) where
  mask : ℕ
  mem : Memory (SpscRing.Cell.Value T)
  producer : SpscRing.Side (SpscRing.PushAt T)
  consumer : SpscRing.Side (SpscRing.PopAt T)
  pushed : List T := []
  popped : List T := []

namespace SpscRing

variable {T : Type}

/-- `none` is the `invalid_argument` of the source; `zero` is `T{}`. -/
def create (zero : T) (capacityPow2 : ℕ) : Option (SpscRing T) :=
  if capacityPow2 = 0 ∨ capacityPow2 &&& (capacityPow2 - 1) ≠ 0 then none
  else some {
    mask := capacityPow2 - 1
    mem := Memory.initial fun
      | .tail => 0
      | .head => 0
      | .slot _ => zero
    producer := { at_ := .idle, view := View.initial }
    consumer := { at_ := .idle, view := View.initial } }

/-- The load at `kObs`. -/
def Ordering.load (o : Ordering) (m : Memory (Cell.Value T)) (v : View Cell) (x : Cell)
    (k : ℕ) : Option (x.Value T × View Cell) :=
  match o with
  | .acqRel => m.loadAcquire v x k
  | .relaxed => m.loadRelaxed v x k

/-- The store at `kPub`. -/
def Ordering.store (o : Ordering) (m : Memory (Cell.Value T)) (v : View Cell) (x : Cell)
    (a : x.Value T) : View Cell × Memory (Cell.Value T) :=
  match o with
  | .acqRel => m.storeRelease v x a
  | .relaxed => m.storeRelaxed v x a

variable (o : Ordering) (c : Caching) (r : SpscRing T)

def unread : ℕ := r.pushed.length - r.popped.length

/-- What the comparison of `next` with an index of the other side decides. -/
def compareFull (v : T) (tail head : ℕ) : PushAt T :=
  if (tail + 1) &&& r.mask = head then .returning false else .storeSlot v tail

def compareEmpty (head tail : ℕ) : PopAt T :=
  if head = tail then .returning none else .loadSlot head

/-- The next access of `try_push`; a load takes the `k`th store of its place. -/
def pushStep (k : ℕ) : Option (SpscRing T) :=
  let p := r.producer
  match p.at_ with
  | .idle => none
  | .loadTail v => do
    let (tail, view) ← r.mem.loadRelaxed p.view .tail k
    let next := match c with
      | .cached => .readCached v tail
      | .uncached => .loadHead v tail
    return { r with producer := { p with at_ := next, view := view } }
  | .readCached v tail =>
    let next := if (tail + 1) &&& r.mask = p.cached then .loadHead v tail
      else .storeSlot v tail
    some { r with producer := { p with at_ := next } }
  | .loadHead v tail => do
    let (head, view) ← o.load r.mem p.view .head k
    let next := match c with
      | .cached => .writeCached v tail head
      | .uncached => r.compareFull v tail head
    return { r with producer := { p with at_ := next, view := view, unread := r.unread } }
  | .writeCached v tail head =>
    some { r with producer := { p with at_ := .readAgain v tail, cached := head } }
  | .readAgain v tail =>
    some { r with producer := { p with at_ := r.compareFull v tail p.cached } }
  | .storeSlot v tail =>
    let (view, mem) := r.mem.storeRelaxed p.view (.slot tail) v
    some { r with mem := mem, producer := { p with at_ := .storeTail v tail, view := view } }
  | .storeTail v tail =>
    let (view, mem) := o.store r.mem p.view .tail ((tail + 1) &&& r.mask)
    some { r with
      mem := mem
      producer := { p with at_ := .returning true, view := view }
      pushed := r.pushed ++ [v] }
  | .returning _ => some { r with producer := { p with at_ := .idle } }

/-- The next access of `try_pop`. -/
def popStep (k : ℕ) : Option (SpscRing T) :=
  let q := r.consumer
  match q.at_ with
  | .idle => none
  | .loadHead => do
    let (head, view) ← r.mem.loadRelaxed q.view .head k
    let next := match c with
      | .cached => .readCached head
      | .uncached => .loadTail head
    return { r with consumer := { q with at_ := next, view := view } }
  | .readCached head =>
    let next := if head = q.cached then .loadTail head else .loadSlot head
    some { r with consumer := { q with at_ := next } }
  | .loadTail head => do
    let (tail, view) ← o.load r.mem q.view .tail k
    let next := match c with
      | .cached => .writeCached head tail
      | .uncached => compareEmpty head tail
    return { r with consumer := { q with at_ := next, view := view, unread := r.unread } }
  | .writeCached head tail =>
    some { r with consumer := { q with at_ := .readAgain head, cached := tail } }
  | .readAgain head =>
    some { r with consumer := { q with at_ := compareEmpty head q.cached } }
  | .loadSlot head => do
    let a ← r.mem.loadPlain q.view (.slot head) k
    return { r with
      mem := a.mem, consumer := { q with at_ := .storeHead a.value head, view := a.view } }
  | .storeHead out head =>
    let (view, mem) := o.store r.mem q.view .head ((head + 1) &&& r.mask)
    some { r with
      mem := mem
      consumer := { q with at_ := .returning (some out), view := view }
      popped := r.popped ++ [out] }
  | .returning _ => some { r with consumer := { q with at_ := .idle } }

/-- What a side loads next. -/
def PushAt.loads : PushAt T → Option Cell
  | .loadTail _ => some .tail
  | .loadHead _ _ => some .head
  | _ => none

def PopAt.loads : PopAt T → Option Cell
  | .loadHead => some .head
  | .loadTail _ => some .tail
  | .loadSlot head => some (.slot head)
  | _ => none

/-- What a side does next. -/
inductive Action (T : Type) where
  | push (v : T)
  | producer (k : ℕ)
  | pop
  | consumer (k : ℕ)

def step : Action T → Option (SpscRing T)
  | .push v =>
    match r.producer.at_ with
    | .idle => some { r with producer := { r.producer with at_ := .loadTail v } }
    | _ => none
  | .producer k => r.pushStep o c k
  | .pop =>
    match r.consumer.at_ with
    | .idle => some { r with consumer := { r.consumer with at_ := .loadHead } }
    | _ => none
  | .consumer k => r.popStep o c k

/-- The `k`th store is the latest of the place that is loaded. -/
def latest (k : ℕ) : Option Cell → Bool
  | none => true
  | some x => k + 1 = (r.mem.stores x).length

/-- A step whose load returns the latest value. -/
def latestStep (a : Action T) : Option (SpscRing T) :=
  match a with
  | .producer k => if r.latest k r.producer.at_.loads then r.step o c a else none
  | .consumer k => if r.latest k r.consumer.at_.loads then r.step o c a else none
  | _ => r.step o c a

end SpscRing

end Hotpath.Ipc
