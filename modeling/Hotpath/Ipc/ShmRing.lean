import Hotpath.Support.Machine

/-!
# The ring in shared memory (ipc/shm_ring.hpp, src/shm_sub.cpp)

One publisher and any number of readers, each access to the mapping a step of its
own: a machine whose actions are the calls and the single loads and stores. The
counters are unbounded, and `memcpy` takes its words in any order.
-/

namespace Hotpath.Ipc

/-- `SlotHeader` and the words of the payload. -/
structure Slot (Word : Type) where
  version : ℕ := 0
  seq : ℕ := 0
  payload : List Word
  deriving DecidableEq

/-- The mapping: `slotWords` is `slot_bytes` in words. -/
structure ShmRing (Word : Type) where
  capacity : ℕ
  slotWords : ℕ
  slots : List (Slot Word)
  writeSeq : ℕ := 0
  eofSeq : ℕ := 0

namespace ShmRing

variable {Word : Type}

/-- `none` is the `invalid_argument` of the source; `zero` is a word of the zeroed
mapping. -/
def create (zero : Word) (capacityPow2 slotWords : ℕ) : Option (ShmRing Word) :=
  if capacityPow2 = 0 ∨ capacityPow2 &&& (capacityPow2 - 1) ≠ 0 then none
  else some {
    capacity := capacityPow2
    slotWords := slotWords
    slots := List.replicate capacityPow2 { payload := List.replicate slotWords zero } }

def mask (r : ShmRing Word) : ℕ := r.capacity - 1

/-- `slot(seq & mask_)`; `none` is outside the mapping. -/
def slot (r : ShmRing Word) (seq : ℕ) : Option (Slot Word) := r.slots[seq &&& r.mask]?

def setSlot (r : ShmRing Word) (seq : ℕ) (f : Slot Word → Slot Word) : Option (ShmRing Word) :=
  if seq &&& r.mask < r.slots.length then
    some { r with slots := r.slots.modify (seq &&& r.mask) f }
  else none

/-- The words that `memcpy` moves for a message of `n` words. -/
def copied (r : ShmRing Word) (n : ℕ) : List ℕ :=
  List.range (if n < r.slotWords then n else r.slotWords)

end ShmRing

/-- Where the publisher stands: `left` are the words not yet copied. -/
inductive Publisher (Word : Type) where
  | idle
  | begun (data : List Word)
  | loadVersion (data : List Word) (seq : ℕ)
  | storeOdd (data : List Word) (seq v : ℕ)
  | storeSeq (data : List Word) (seq v : ℕ)
  | copy (data : List Word) (seq v : ℕ) (left : List ℕ)
  | storeCount (seq : ℕ)
  | markEof
  | storeEof (published : ℕ)
  | done
  deriving DecidableEq

/-- What shows a reader that it was lapped. -/
inductive Cause where
  | count
  | slot
  | torn
  deriving DecidableEq, Repr

/-- What `try_read` returns: on a gap also how many were missed and the new `next`. -/
inductive Status where
  | ok
  | empty
  | gap (missed next : ℕ) (cause : Cause)
  deriving DecidableEq, Repr

/-- Where a reader stands: outside a call, in it, or after it returned `Empty`. -/
inductive ReaderAt where
  | idle
  | loadCount
  | loadVersion (attempt : ℕ)
  | loadSeq (attempt v1 : ℕ)
  | copy (attempt v1 seq : ℕ) (left : List ℕ)
  | returning (status : Status)
  | checkEof
  | exited
  deriving DecidableEq, Repr

/-- A reader's variables, with the messages delivered so far and the numbers it was
told they were published under. -/
structure Reader (Word : Type) where
  at_ : ReaderAt := .idle
  next : ℕ := 0
  out : List Word
  received : ℕ := 0
  missed : ℕ := 0
  delivered : List (ℕ × List Word) := []

/-- `msgs` records what `publish` was called with. -/
structure Bus (ι Word : Type) where
  ring : ShmRing Word
  pub : Publisher Word := .idle
  readers : ι → Reader Word
  msgs : List (List Word) := []

inductive Action (ι Word : Type) where
  | publish (data : List Word)
  | markEof
  | advance
  | copyIn (w : ℕ)
  | tryRead (r : ι)
  | read (r : ι)
  | copyOut (r : ι) (w : ℕ)
  | pollEof (r : ι)
  deriving DecidableEq

namespace Bus

variable {ι Word : Type}

def start (ring : ShmRing Word) (buffers : ι → List Word) : Bus ι Word :=
  { ring := ring, readers := fun r => { out := buffers r } }

/-! ### The publisher -/

/-- The next load or store of `publish` and `mark_eof`, but for those of `memcpy`; a
message has `n` words. -/
def advance (n : ℕ) (b : Bus ι Word) : Option (Bus ι Word) :=
  match b.pub with
  | .idle => none
  | .begun data => some { b with pub := .loadVersion data b.ring.writeSeq }
  | .loadVersion data seq => do
    let s ← b.ring.slot seq
    return { b with pub := .storeOdd data seq s.version }
  | .storeOdd data seq v => do
    let ring ← b.ring.setSlot seq fun s => { s with version := v + 1 }
    return { b with ring := ring, pub := .storeSeq data seq v }
  | .storeSeq data seq v => do
    let ring ← b.ring.setSlot seq fun s => { s with seq := seq }
    return { b with ring := ring, pub := .copy data seq v (ring.copied n) }
  | .copy _ seq v [] => do
    let ring ← b.ring.setSlot seq fun s => { s with version := v + 2 }
    return { b with ring := ring, pub := .storeCount seq }
  | .copy _ _ _ (_ :: _) => none
  | .storeCount seq =>
    some { b with ring := { b.ring with writeSeq := seq + 1 }, pub := .idle }
  | .markEof => some { b with pub := .storeEof b.ring.writeSeq }
  | .storeEof published =>
    some { b with ring := { b.ring with eofSeq := published + 1 }, pub := .done }
  | .done => none

/-- One word of the publisher's `memcpy`. -/
def copyIn (b : Bus ι Word) (w : ℕ) : Option (Bus ι Word) :=
  match b.pub with
  | .copy data seq v left =>
    if w ∈ left then do
      let x ← data[w]?
      let ring ← b.ring.setSlot seq fun s => { s with payload := s.payload.set w x }
      return { b with ring := ring, pub := .copy data seq v (left.erase w) }
    else none
  | _ => none

/-! ### A reader -/

/-- The end of an attempt that failed: the next one, or the gap after the last. -/
def retry (next attempt : ℕ) : ReaderAt :=
  if attempt + 1 < 64 then .loadVersion (attempt + 1) else .returning (.gap 1 (next + 1) .torn)

/-- The comparisons after the first load of `try_read`. -/
def compareCount (capacity next published : ℕ) : ReaderAt :=
  if published ≤ next then .returning .empty
  else if capacity < published ∧ next < published - capacity then
    .returning (.gap (published - capacity - next) (published - capacity) .count)
  else .loadVersion 0

/-- Those after its last load. -/
def compareSeq (next attempt v1 v2 seq : ℕ) : ReaderAt :=
  if v1 ≠ v2 then retry next attempt
  else if seq = next then .returning .ok
  else if next < seq then .returning (.gap (seq - next) seq .slot)
  else .returning .empty

/-- What the loop does with the result. -/
def settle (r : Reader Word) : Status → Reader Word
  | .ok =>
    { r with
      at_ := .idle, next := r.next + 1, received := r.received + 1,
      delivered := r.delivered ++ [(r.next, r.out)] }
  | .gap missed next _ => { r with at_ := .idle, next := next, missed := r.missed + missed }
  | .empty => { r with at_ := .checkEof }

/-- The reader's next load, but for those of `memcpy`, or its return. -/
def readStep (n : ℕ) (ring : ShmRing Word) (r : Reader Word) : Option (Reader Word) :=
  match r.at_ with
  | .loadCount => some { r with at_ := compareCount ring.capacity r.next ring.writeSeq }
  | .loadVersion attempt => do
    let s ← ring.slot r.next
    let busy := s.version &&& 1 ≠ 0
    return { r with at_ := if busy then retry r.next attempt else .loadSeq attempt s.version }
  | .loadSeq attempt v1 => do
    let s ← ring.slot r.next
    return { r with at_ := .copy attempt v1 s.seq (ring.copied n) }
  | .copy attempt v1 seq [] => do
    let s ← ring.slot r.next
    return { r with at_ := compareSeq r.next attempt v1 s.version seq }
  | .returning status => some (settle r status)
  | _ => none

/-- One word of the reader's `memcpy`. -/
def copyOut (ring : ShmRing Word) (r : Reader Word) (w : ℕ) : Option (Reader Word) :=
  match r.at_ with
  | .copy attempt v1 seq left =>
    if w ∈ left then do
      let s ← ring.slot r.next
      let x ← s.payload[w]?
      return { r with at_ := .copy attempt v1 seq (left.erase w), out := r.out.set w x }
    else none
  | _ => none

/-- A call, from outside a call or right after one that returned `Empty`. -/
def tryRead (r : Reader Word) : Option (Reader Word) :=
  match r.at_ with
  | .idle | .checkEof => some { r with at_ := .loadCount }
  | _ => none

/-- The subscriber's look at `eof` after an `Empty`. -/
def pollEof (ring : ShmRing Word) (r : Reader Word) : Option (Reader Word) :=
  match r.at_ with
  | .checkEof =>
    let last := ring.eofSeq ≠ 0 ∧ ring.eofSeq ≤ r.next + 1
    some { r with at_ := if last then .exited else .idle }
  | _ => none

variable [DecidableEq ι]

def onReader (b : Bus ι Word) (r : ι) (f : Reader Word → Option (Reader Word)) :
    Option (Bus ι Word) :=
  (f (b.readers r)).map fun reader => { b with readers := Function.update b.readers r reader }

def step (n : ℕ) (b : Bus ι Word) : Action ι Word → Option (Bus ι Word)
  | .publish data =>
    if b.pub matches .idle then
      if data.length = n then some { b with pub := .begun data, msgs := b.msgs ++ [data] }
      else none
    else none
  | .markEof => if b.pub matches .idle then some { b with pub := .markEof } else none
  | .advance => b.advance n
  | .copyIn w => b.copyIn w
  | .tryRead r => b.onReader r tryRead
  | .read r => b.onReader r (readStep n b.ring)
  | .copyOut r w => b.onReader r fun reader => copyOut b.ring reader w
  | .pollEof r => b.onReader r (pollEof b.ring)

end Bus

end Hotpath.Ipc
