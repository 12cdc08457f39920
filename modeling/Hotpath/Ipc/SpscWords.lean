import Hotpath.Ipc.SpscSpin
import Hotpath.Support.Places

/-!
# The ring word by word (ipc/spsc_ring.hpp)

`buf_[tail] = v` and `out = buf_[head]` copy a payload of `n` words, one access a word and in
any order, with the caching policy that is the default. The words `j` of the payloads go through
a ring of their own, which is `SpscRing`; what holds of that for every `j` holds of whole payloads.
-/

namespace Hotpath.Ipc

open Hotpath.Support

namespace WordRing

variable {n : ℕ} {V : Type}

/-- The memory that the two sides share. -/
inductive Cell (n : ℕ) where
  | tail
  | head
  | word (i : ℕ) (j : Fin n)
  deriving DecidableEq

abbrev Cell.Value (V : Type) : Cell n → Type
  | .tail => ℕ
  | .head => ℕ
  | .word _ _ => V

/-- Where the producer stands in `try_push(v)`; at `storeWords` the words `left` are not yet
stored, and the index comes after them. -/
inductive PushAt (n : ℕ) (V : Type) where
  | idle
  | loadTail (v : Fin n → V)
  | readCached (v : Fin n → V) (tail : ℕ)
  | loadHead (v : Fin n → V) (tail : ℕ)
  | writeCached (v : Fin n → V) (tail head : ℕ)
  | readAgain (v : Fin n → V) (tail : ℕ)
  | storeWords (v : Fin n → V) (tail : ℕ) (left : Finset (Fin n))
  | returning (ok : Bool)

/-- Where the consumer stands in `try_pop(out)`; at `loadWords` all but the words `left` are in
`out`, and the index comes after them. -/
inductive PopAt (n : ℕ) (V : Type) where
  | idle
  | loadHead
  | readCached (head : ℕ)
  | loadTail (head : ℕ)
  | writeCached (head tail : ℕ)
  | readAgain (head : ℕ)
  | loadWords (head : ℕ) (left : Finset (Fin n)) (out : Fin n → V)
  | returning (out : Option (Fin n → V))

/-- One side: its cached index of the other, and the values that were unread when it last loaded
the index itself. -/
structure Side (n : ℕ) (At : Type) where
  at_ : At
  view : View (Cell n)
  cached : ℕ := 0
  unread : ℕ := 0

end WordRing

/-- `pushed` and `popped` are the payloads published and released so far. -/
structure WordRing (n : ℕ) (V : Type) where
  mask : ℕ
  mem : Memory (WordRing.Cell.Value V : WordRing.Cell n → Type)
  producer : WordRing.Side n (WordRing.PushAt n V)
  consumer : WordRing.Side n (WordRing.PopAt n V)
  pushed : List (Fin n → V) := []
  popped : List (Fin n → V) := []

namespace WordRing

variable {n : ℕ} {V : Type}

/-- `none` is the `invalid_argument` of the source; `zero` is `T{}`. -/
def create (zero : Fin n → V) (capacityPow2 : ℕ) : Option (WordRing n V) :=
  if capacityPow2 = 0 ∨ capacityPow2 &&& (capacityPow2 - 1) ≠ 0 then none
  else some {
    mask := capacityPow2 - 1
    mem := Memory.initial fun
      | .tail => 0
      | .head => 0
      | .word _ j => zero j
    producer := { at_ := .idle, view := View.initial }
    consumer := { at_ := .idle, view := View.initial } }

/-- The load at `kObs`. -/
def load (o : SpscRing.Ordering) (m : Memory (Cell.Value V : Cell n → Type)) (v : View (Cell n))
    (x : Cell n) (k : ℕ) : Option (x.Value V × View (Cell n)) :=
  match o with
  | .acqRel => m.loadAcquire v x k
  | .relaxed => m.loadRelaxed v x k

/-- The store at `kPub`. -/
def store (o : SpscRing.Ordering) (m : Memory (Cell.Value V : Cell n → Type)) (v : View (Cell n))
    (x : Cell n) (a : x.Value V) : View (Cell n) × Memory (Cell.Value V : Cell n → Type) :=
  match o with
  | .acqRel => m.storeRelease v x a
  | .relaxed => m.storeRelaxed v x a

def unread (r : WordRing n V) : ℕ := r.pushed.length - r.popped.length

section Machine
variable [Inhabited V] (o : SpscRing.Ordering) (r : WordRing n V)

/-- One word of the copy. -/
def storeWord (v : Fin n → V) (tail : ℕ) (left : Finset (Fin n)) (j : Fin n) : WordRing n V :=
  let p := r.producer
  let (view, mem) := r.mem.storeRelaxed p.view (.word tail j) (v j)
  { r with
    mem := mem
    producer := { p with at_ := .storeWords v tail (left.erase j), view := view } }

def storeTail (v : Fin n → V) (tail : ℕ) : WordRing n V :=
  let p := r.producer
  let (view, mem) := store o r.mem p.view .tail ((tail + 1) &&& r.mask)
  { r with
    mem := mem
    producer := { p with at_ := .returning true, view := view }
    pushed := r.pushed ++ [v] }

def loadWord (head : ℕ) (left : Finset (Fin n)) (out : Fin n → V) (j : Fin n) (k : ℕ) :
    Option (WordRing n V) := do
  let q := r.consumer
  let a ← r.mem.loadPlain q.view (.word head j) k
  let next := .loadWords head (left.erase j) (Function.update out j a.value)
  return { r with mem := a.mem, consumer := { q with at_ := next, view := a.view } }

def storeHead (out : Fin n → V) (head : ℕ) : WordRing n V :=
  let q := r.consumer
  let (view, mem) := store o r.mem q.view .head ((head + 1) &&& r.mask)
  { r with
    mem := mem
    consumer := { q with at_ := .returning (some out), view := view }
    popped := r.popped ++ [out] }

/-- The next access of `try_push`: a copy goes on with word `j`, and a load takes the `k`th store
of its place. -/
def pushStep (j : Fin n) (k : ℕ) : Option (WordRing n V) :=
  let p := r.producer
  match p.at_ with
  | .idle => none
  | .loadTail v => do
    let (tail, view) ← r.mem.loadRelaxed p.view .tail k
    return { r with producer := { p with at_ := .readCached v tail, view := view } }
  | .readCached v tail =>
    let next := if (tail + 1) &&& r.mask = p.cached then .loadHead v tail
      else .storeWords v tail Finset.univ
    some { r with producer := { p with at_ := next } }
  | .loadHead v tail => do
    let (head, view) ← load o r.mem p.view .head k
    return { r with
      producer := { p with at_ := .writeCached v tail head, view := view, unread := r.unread } }
  | .writeCached v tail head =>
    some { r with producer := { p with at_ := .readAgain v tail, cached := head } }
  | .readAgain v tail =>
    let next := if (tail + 1) &&& r.mask = p.cached then .returning false
      else .storeWords v tail Finset.univ
    some { r with producer := { p with at_ := next } }
  | .storeWords v tail left =>
    if left = ∅ then some (r.storeTail o v tail)
    else if j ∈ left then some (r.storeWord v tail left j)
    else none
  | .returning _ => some { r with producer := { p with at_ := .idle } }

/-- The next access of `try_pop`. -/
def popStep (j : Fin n) (k : ℕ) : Option (WordRing n V) :=
  let q := r.consumer
  match q.at_ with
  | .idle => none
  | .loadHead => do
    let (head, view) ← r.mem.loadRelaxed q.view .head k
    return { r with consumer := { q with at_ := .readCached head, view := view } }
  | .readCached head =>
    let next := if head = q.cached then .loadTail head else .loadWords head Finset.univ default
    some { r with consumer := { q with at_ := next } }
  | .loadTail head => do
    let (tail, view) ← load o r.mem q.view .tail k
    return { r with
      consumer := { q with at_ := .writeCached head tail, view := view, unread := r.unread } }
  | .writeCached head tail =>
    some { r with consumer := { q with at_ := .readAgain head, cached := tail } }
  | .readAgain head =>
    let next := if head = q.cached then .returning none else .loadWords head Finset.univ default
    some { r with consumer := { q with at_ := next } }
  | .loadWords head left out =>
    if left = ∅ then some (r.storeHead o out head)
    else if j ∈ left then r.loadWord head left out j k
    else none
  | .returning _ => some { r with consumer := { q with at_ := .idle } }

/-- A step of `while (!ring.try_push(v)) {}`; `true` when it is left. -/
def pushLoop (v : Fin n → V) (j : Fin n) (k : ℕ) : Option (WordRing n V × Bool) :=
  match r.producer.at_ with
  | .idle => some ({ r with producer := { r.producer with at_ := .loadTail v } }, false)
  | .returning ok => (r.pushStep o j k).map fun r => (r, ok)
  | _ => (r.pushStep o j k).map fun r => (r, false)

/-- A step of `while (!ring.try_pop(out)) {}`; it is left with what was popped. -/
def popLoop (j : Fin n) (k : ℕ) : Option (WordRing n V × Option (Fin n → V)) :=
  match r.consumer.at_ with
  | .idle => some ({ r with consumer := { r.consumer with at_ := .loadHead } }, none)
  | .returning out => (r.popStep o j k).map fun r => (r, out)
  | _ => (r.popStep o j k).map fun r => (r, none)

end Machine

/-! ### One word of every payload -/

def Cell.ofSlot (j : Fin n) : SpscRing.Cell → Cell n
  | .tail => .tail
  | .head => .head
  | .slot i => .word i j

def Cell.same (V : Type) (j : Fin n) :
    ∀ x : SpscRing.Cell, (ofSlot j x).Value V → SpscRing.Cell.Value V x
  | .tail, a => a
  | .head, a => a
  | .slot _, a => a

def PushAt.word (j : Fin n) : PushAt n V → SpscRing.PushAt V
  | .idle => .idle
  | .loadTail v => .loadTail (v j)
  | .readCached v tail => .readCached (v j) tail
  | .loadHead v tail => .loadHead (v j) tail
  | .writeCached v tail head => .writeCached (v j) tail head
  | .readAgain v tail => .readAgain (v j) tail
  | .storeWords v tail left => if j ∈ left then .storeSlot (v j) tail else .storeTail (v j) tail
  | .returning ok => .returning ok

def PopAt.word (j : Fin n) : PopAt n V → SpscRing.PopAt V
  | .idle => .idle
  | .loadHead => .loadHead
  | .readCached head => .readCached head
  | .loadTail head => .loadTail head
  | .writeCached head tail => .writeCached head tail
  | .readAgain head => .readAgain head
  | .loadWords head left out => if j ∈ left then .loadSlot head else .storeHead (out j) head
  | .returning out => .returning (out.map fun v => v j)

/-- The ring of the words `j`. -/
def word (r : WordRing n V) (j : Fin n) : SpscRing V where
  mask := r.mask
  mem := r.mem.part (Cell.ofSlot j) (Cell.same V j)
  producer := ⟨r.producer.at_.word j, r.producer.view.part (Cell.ofSlot j), r.producer.cached,
    r.producer.unread⟩
  consumer := ⟨r.consumer.at_.word j, r.consumer.view.part (Cell.ofSlot j), r.consumer.cached,
    r.consumer.unread⟩
  pushed := r.pushed.map fun v => v j
  popped := r.popped.map fun v => v j

variable {r r' : WordRing n V} {v : Fin n → V} {i j : Fin n} {k : ℕ} {done : Bool}
variable {out : Option (Fin n → V)}

theorem Cell.ofSlot_injective (j : Fin n) : (ofSlot j).Injective := by
  intro x y h
  cases x <;> cases y <;> first | rfl | cases h
  rfl

theorem Cell.ofSlot_ne (hij : i ≠ j) (slot : ℕ) (x : SpscRing.Cell) :
    ofSlot j x ≠ .word slot i := by
  intro h
  cases x with
  | tail => cases h
  | head => cases h
  | slot _ => exact hij (Cell.word.inj h).2.symm

theorem word_unread (r : WordRing n V) (j : Fin n) : (r.word j).unread = r.unread := by
  rw [SpscRing.unread, unread, word, List.length_map, List.length_map]

theorem pushLoop_storeWord {o : SpscRing.Ordering} {w : Fin n → V} {tail : ℕ}
    {left : Finset (Fin n)} (hat : r.producer.at_ = .storeWords w tail left) (hmem : i ∈ left) :
    r.pushLoop o v i k = some (r.storeWord w tail left i, false) := by
  simp only [pushLoop, pushStep, hat, if_neg (Finset.ne_empty_of_mem hmem), if_pos hmem]
  rfl

theorem popLoop_loadWord [Inhabited V] {o : SpscRing.Ordering} {w : Fin n → V} {head : ℕ}
    {left : Finset (Fin n)} (hat : r.consumer.at_ = .loadWords head left w) (hmem : i ∈ left) :
    r.popLoop o i k = (r.loadWord head left w i k).map fun r => (r, none) := by
  simp only [popLoop, popStep, hat, if_neg (Finset.ne_empty_of_mem hmem), if_pos hmem]

/-- After word `j` the producer has nothing to do for it but the release. -/
theorem PushAt.word_next (v : Fin n → V) (tail : ℕ) (left : Finset (Fin n)) (j : Fin n) :
    PushAt.word j (.storeWords v tail (left.erase j)) = .storeTail (v j) tail :=
  if_neg (Finset.notMem_erase j left)

/-- Another word changes nothing. -/
theorem PushAt.word_other (v : Fin n → V) (tail : ℕ) (left : Finset (Fin n)) (hij : i ≠ j) :
    PushAt.word j (.storeWords v tail (left.erase i)) = PushAt.word j (.storeWords v tail left) :=
  if_congr (Finset.mem_erase.trans (and_iff_right (Ne.symm hij))) rfl rfl

theorem PopAt.word_next (head : ℕ) (left : Finset (Fin n)) (out : Fin n → V) (x : V) (j : Fin n) :
    PopAt.word j (.loadWords head (left.erase j) (Function.update out j x)) =
      .storeHead x head := by
  rw [word, if_neg (Finset.notMem_erase j left), Function.update_self]

theorem PopAt.word_other (head : ℕ) (left : Finset (Fin n)) (out : Fin n → V) (x : V)
    (hij : i ≠ j) : PopAt.word j (.loadWords head (left.erase i) (Function.update out i x)) =
      PopAt.word j (.loadWords head left out) := by
  rw [word, word, Function.update_of_ne (Ne.symm hij)]
  exact if_congr (Finset.mem_erase.trans (and_iff_right (Ne.symm hij))) rfl rfl

theorem PushAt.word_start (v : Fin n → V) (tail : ℕ) (j : Fin n) :
    PushAt.word j (.storeWords v tail Finset.univ) = .storeSlot (v j) tail :=
  if_pos (Finset.mem_univ j)

theorem PushAt.word_end (v : Fin n → V) (tail : ℕ) (j : Fin n) :
    PushAt.word j (.storeWords v tail ∅) = .storeTail (v j) tail := by
  rw [word, if_neg (Finset.notMem_empty j)]

theorem PopAt.word_end (head : ℕ) (out : Fin n → V) (j : Fin n) :
    PopAt.word j (.loadWords head ∅ out) = .storeHead (out j) head := by
  rw [word, if_neg (Finset.notMem_empty j)]

theorem PopAt.word_start (head : ℕ) (out : Fin n → V) (j : Fin n) :
    PopAt.word j (.loadWords head Finset.univ out) = .loadSlot head :=
  if_pos (Finset.mem_univ j)

/-- The store of word `j` is the copy of the ring of the words `j`. -/
theorem storeWord_word {w : Fin n → V} {tail : ℕ} {left : Finset (Fin n)}
    (hat : r.producer.at_ = .storeWords w tail left) (hmem : j ∈ left) (x : V) :
    (r.word j).spinPush x k = some ((r.storeWord w tail left j).word j, false) := by
  obtain ⟨mask, mem, ⟨at_, view, cached, unread⟩, q, pushed, popped⟩ := r
  obtain rfl : at_ = .storeWords w tail left := hat
  have hslot : PushAt.word j (.storeWords w tail left) = .storeSlot (w j) tail := if_pos hmem
  let words := mem.part (Cell.ofSlot j) (Cell.same V j)
  let seen := view.part (Cell.ofSlot j)
  let ring words p : SpscRing V := ⟨mask, words, p, ⟨q.at_.word j, q.view.part (Cell.ofSlot j),
    q.cached, q.unread⟩, pushed.map fun v => v j, popped.map fun v => v j⟩
  have hs : words.storeRelaxed seen (.slot tail) (w j) =
      ((mem.storeRelaxed view (.word tail j) (w j)).1.part (Cell.ofSlot j),
        (mem.storeRelaxed view (.word tail j) (w j)).2.part (Cell.ofSlot j) (Cell.same V j)) :=
    Memory.storeRelaxed_part (x := SpscRing.Cell.slot tail) (g := Cell.same V j)
      (Cell.ofSlot_injective j) (w j)
  show (ring words ⟨PushAt.word j (.storeWords w tail left), seen, cached, unread⟩).spinPush x k = _
  rw [hslot]
  show some (ring (words.storeRelaxed seen (.slot tail) (w j)).2 ⟨.storeTail (w j) tail,
      (words.storeRelaxed seen (.slot tail) (w j)).1, cached, unread⟩, false) =
    some (ring _ ⟨PushAt.word j (.storeWords w tail (left.erase j)), _, cached, unread⟩, false)
  rw [hs, PushAt.word_next]
  rfl

/-- After all the words the index is stored for each of them. -/
theorem storeTail_word {w : Fin n → V} {tail : ℕ} (hat : r.producer.at_ = .storeWords w tail ∅)
    (x : V) : (r.word j).spinPush x k = some ((r.storeTail .acqRel w tail).word j, false) := by
  obtain ⟨mask, mem, ⟨at_, view, cached, unread⟩, q, pushed, popped⟩ := r
  obtain rfl : at_ = .storeWords w tail ∅ := hat
  let words := mem.part (Cell.ofSlot j) (Cell.same V j)
  let seen := view.part (Cell.ofSlot j)
  let ring words p : SpscRing V := ⟨mask, words, p, ⟨q.at_.word j, q.view.part (Cell.ofSlot j),
    q.cached, q.unread⟩, pushed.map fun v => v j, popped.map fun v => v j⟩
  have hs : words.storeRelease seen .tail ((tail + 1) &&& mask) =
      ((mem.storeRelease view .tail ((tail + 1) &&& mask)).1.part (Cell.ofSlot j),
        (mem.storeRelease view .tail ((tail + 1) &&& mask)).2.part (Cell.ofSlot j)
          (Cell.same V j)) :=
    Memory.storeRelease_part (x := SpscRing.Cell.tail) (g := Cell.same V j)
      (Cell.ofSlot_injective j) _
  have hpushed : (pushed ++ [w]).map (fun v => v j) = pushed.map (fun v => v j) ++ [w j] :=
    List.map_append
  show (ring words ⟨PushAt.word j (.storeWords w tail ∅), seen, cached, unread⟩).spinPush x k = _
  rw [PushAt.word_end]
  show some ({ ring (words.storeRelease seen .tail ((tail + 1) &&& mask)).2 ⟨.returning true,
      (words.storeRelease seen .tail ((tail + 1) &&& mask)).1, cached, unread⟩ with
        pushed := pushed.map (fun v => v j) ++ [w j] }, false) =
    some (({ ring _ ⟨.returning true, _, cached, unread⟩ with
      pushed := (pushed ++ [w]).map fun v => v j } : SpscRing V), false)
  rw [hs, hpushed]
  rfl

/-- Where no word but `j` is being stored, a step of the loop is one for the words `j`. -/
theorem pushLoop_word
    (hat : ∀ w tail left, r.producer.at_ = .storeWords w tail left → left = ∅ ∨ i ∈ left ∧ i = j) :
    (r.pushLoop .acqRel v i k).map (fun x => (x.1.word j, x.2)) =
      (r.word j).spinPush (v j) k := by
  have hunread := r.word_unread j
  have hf := Cell.ofSlot_injective j
  obtain ⟨mask, mem, ⟨at_, view, cached, unread⟩, q, pushed, popped⟩ := r
  let words := mem.part (Cell.ofSlot j) (Cell.same V j)
  let seen := view.part (Cell.ofSlot j)
  let ring words p : SpscRing V := ⟨mask, words, p, ⟨q.at_.word j, q.view.part (Cell.ofSlot j),
    q.cached, q.unread⟩, pushed.map fun v => v j, popped.map fun v => v j⟩
  cases at_ with
  | idle => rfl
  | loadTail w =>
    have hl : words.loadRelaxed seen .tail k =
        (mem.loadRelaxed view .tail k).map fun a => (a.1, a.2.part (Cell.ofSlot j)) :=
      Memory.loadRelaxed_part hf
    show _ = Option.map _ (Option.bind (words.loadRelaxed seen .tail k) _)
    rw [hl]
    show Option.map _ (Option.map _ (Option.bind (mem.loadRelaxed view .tail k) _)) = _
    cases mem.loadRelaxed view .tail k <;> rfl
  | readCached w tail =>
    have hnext : PushAt.word j (if (tail + 1) &&& mask = cached then .loadHead w tail
        else .storeWords w tail Finset.univ) =
          if (tail + 1) &&& mask = cached then .loadHead (w j) tail
          else .storeSlot (w j) tail := by
      rw [apply_ite (PushAt.word j), PushAt.word_start]
      rfl
    exact congrArg (fun at_ => some (ring words ⟨at_, seen, cached, unread⟩, false)) hnext
  | loadHead w tail =>
    have hl : words.loadAcquire seen .head k =
        (mem.loadAcquire view .head k).map fun a => (a.1, a.2.part (Cell.ofSlot j)) :=
      Memory.loadAcquire_part hf
    show _ = Option.map _ (Option.bind (words.loadAcquire seen .head k) _)
    rw [hl]
    show Option.map _ (Option.map _ (Option.bind (mem.loadAcquire view .head k) _)) = _
    cases mem.loadAcquire view .head k with
    | none => rfl
    | some a =>
      exact congrArg (fun n => some (ring words
        ⟨.writeCached (w j) tail a.1, a.2.part _, cached, n⟩, false)) hunread.symm
  | writeCached w tail head => rfl
  | readAgain w tail =>
    have hnext : PushAt.word j (if (tail + 1) &&& mask = cached then .returning false
        else .storeWords w tail Finset.univ) =
          if (tail + 1) &&& mask = cached then .returning false
          else .storeSlot (w j) tail := by
      rw [apply_ite (PushAt.word j), PushAt.word_start]
      rfl
    exact congrArg (fun at_ => some (ring words ⟨at_, seen, cached, unread⟩, false)) hnext
  | storeWords w tail left =>
    rcases hat w tail left rfl with rfl | ⟨hmem, rfl⟩
    · exact (storeTail_word rfl (v j)).symm
    · rw [pushLoop_storeWord rfl hmem, storeWord_word rfl hmem]
      rfl
  | returning ok => rfl

/-- The store of another word is not a step for the words `j`. -/
theorem storeWord_other {w : Fin n → V} {tail : ℕ} {left : Finset (Fin n)}
    (hat : r.producer.at_ = .storeWords w tail left) (hij : i ≠ j) :
    (r.storeWord w tail left i).word j = r.word j := by
  obtain ⟨mask, mem, ⟨at_, view, cached, unread⟩, q, pushed, popped⟩ := r
  obtain rfl : at_ = .storeWords w tail left := hat
  have helse := Cell.ofSlot_ne hij tail
  show SpscRing.mk mask ((mem.put (.word tail i) _).part _ _) ⟨PushAt.word j (.storeWords w tail _),
    (view.saw (.word tail i) _).part _, cached, unread⟩ _ _ _ = _
  rw [Memory.put_elsewhere helse, View.saw_elsewhere helse, PushAt.word_other w tail left hij]
  rfl

/-- The load of word `j` is the copy of the ring of the words `j`. -/
theorem loadWord_word {w : Fin n → V} {head : ℕ} {left : Finset (Fin n)}
    (hat : r.consumer.at_ = .loadWords head left w) (hmem : j ∈ left) :
    (r.word j).spinPop k = (r.loadWord head left w j k).map fun r' => (r'.word j, none) := by
  obtain ⟨mask, mem, p, ⟨at_, view, cached, unread⟩, pushed, popped⟩ := r
  obtain rfl : at_ = .loadWords head left w := hat
  have hslot : PopAt.word j (.loadWords head left w) = .loadSlot head := if_pos hmem
  let words := mem.part (Cell.ofSlot j) (Cell.same V j)
  let seen := view.part (Cell.ofSlot j)
  let ring words q : SpscRing V := ⟨mask, words, ⟨p.at_.word j, p.view.part (Cell.ofSlot j),
    p.cached, p.unread⟩, q, pushed.map fun v => v j, popped.map fun v => v j⟩
  have hl : words.loadPlain seen (.slot head) k = (mem.loadPlain view (.word head j) k).map
      fun a => ⟨a.value, a.view.part (Cell.ofSlot j), a.mem.part (Cell.ofSlot j) (Cell.same V j)⟩ :=
    Memory.loadPlain_part (x := SpscRing.Cell.slot head) (Cell.ofSlot_injective j)
  show (ring words ⟨PopAt.word j (.loadWords head left w), seen, cached, unread⟩).spinPop k = _
  rw [hslot]
  show Option.map _ (Option.bind (words.loadPlain seen (.slot head) k) _) =
    Option.map _ (Option.bind (mem.loadPlain view (.word head j) k) _)
  rw [hl]
  cases mem.loadPlain view (.word head j) k with
  | none => rfl
  | some a =>
    exact congrArg (fun at_ => some (ring (a.mem.part _ _) ⟨at_, a.view.part _, cached, unread⟩,
      none)) (PopAt.word_next head left w a.value j).symm

/-- After all the words the index is stored for each of them. -/
theorem storeHead_word {w : Fin n → V} {head : ℕ} (hat : r.consumer.at_ = .loadWords head ∅ w) :
    (r.word j).spinPop k = some ((r.storeHead .acqRel w head).word j, none) := by
  obtain ⟨mask, mem, p, ⟨at_, view, cached, unread⟩, pushed, popped⟩ := r
  obtain rfl : at_ = .loadWords head ∅ w := hat
  let words := mem.part (Cell.ofSlot j) (Cell.same V j)
  let seen := view.part (Cell.ofSlot j)
  let ring words q : SpscRing V := ⟨mask, words, ⟨p.at_.word j, p.view.part (Cell.ofSlot j),
    p.cached, p.unread⟩, q, pushed.map fun v => v j, popped.map fun v => v j⟩
  have hs : words.storeRelease seen .head ((head + 1) &&& mask) =
      ((mem.storeRelease view .head ((head + 1) &&& mask)).1.part (Cell.ofSlot j),
        (mem.storeRelease view .head ((head + 1) &&& mask)).2.part (Cell.ofSlot j)
          (Cell.same V j)) :=
    Memory.storeRelease_part (x := SpscRing.Cell.head) (g := Cell.same V j)
      (Cell.ofSlot_injective j) _
  have hpopped : (popped ++ [w]).map (fun v => v j) = popped.map (fun v => v j) ++ [w j] :=
    List.map_append
  show (ring words ⟨PopAt.word j (.loadWords head ∅ w), seen, cached, unread⟩).spinPop k = _
  rw [PopAt.word_end]
  show some ({ ring (words.storeRelease seen .head ((head + 1) &&& mask)).2
      ⟨.returning (some (w j)),
        (words.storeRelease seen .head ((head + 1) &&& mask)).1, cached, unread⟩ with
          popped := popped.map (fun v => v j) ++ [w j] }, none) =
    some (({ ring _ ⟨.returning (some (w j)), _, cached, unread⟩ with
      popped := (popped ++ [w]).map fun v => v j } : SpscRing V), none)
  rw [hs, hpopped]
  rfl

/-- The load of another word is not a step for the words `j`. -/
theorem loadWord_other {w : Fin n → V} {head : ℕ} {left : Finset (Fin n)}
    (hat : r.consumer.at_ = .loadWords head left w) (hij : i ≠ j)
    (hs : r.loadWord head left w i k = some r') : r'.word j = r.word j := by
  obtain ⟨mask, mem, p, ⟨at_, view, cached, unread⟩, pushed, popped⟩ := r
  obtain rfl : at_ = .loadWords head left w := hat
  obtain ⟨a, hl, hs⟩ := Option.bind_eq_some_iff.mp hs
  obtain rfl := Option.some.inj hs
  obtain ⟨hview, hmem⟩ := Memory.loadPlain_elsewhere (g := Cell.same V j)
    (Cell.ofSlot_ne hij head) hl
  show SpscRing.mk mask (a.mem.part (Cell.ofSlot j) (Cell.same V j)) _
    ⟨PopAt.word j (.loadWords head (left.erase i) (Function.update w i a.value)),
      a.view.part (Cell.ofSlot j), cached, unread⟩ _ _ = _
  rw [hview, hmem, PopAt.word_other head left w a.value hij]
  rfl

variable [Inhabited V]

/-- Where no word but `j` is being loaded, a step of the loop is one for the words `j`. -/
theorem popLoop_word
    (hat : ∀ head left w, r.consumer.at_ = .loadWords head left w → left = ∅ ∨ i ∈ left ∧ i = j) :
    (r.popLoop .acqRel i k).map (fun x => (x.1.word j, x.2.map fun v => v j)) =
      (r.word j).spinPop k := by
  have hunread := r.word_unread j
  have hf := Cell.ofSlot_injective j
  obtain ⟨mask, mem, p, ⟨at_, view, cached, unread⟩, pushed, popped⟩ := r
  let words := mem.part (Cell.ofSlot j) (Cell.same V j)
  let seen := view.part (Cell.ofSlot j)
  let ring words q : SpscRing V := ⟨mask, words, ⟨p.at_.word j, p.view.part (Cell.ofSlot j),
    p.cached, p.unread⟩, q, pushed.map fun v => v j, popped.map fun v => v j⟩
  cases at_ with
  | idle => rfl
  | loadHead =>
    have hl : words.loadRelaxed seen .head k =
        (mem.loadRelaxed view .head k).map fun a => (a.1, a.2.part (Cell.ofSlot j)) :=
      Memory.loadRelaxed_part hf
    show _ = Option.map _ (Option.bind (words.loadRelaxed seen .head k) _)
    rw [hl]
    show Option.map _ (Option.map _ (Option.bind (mem.loadRelaxed view .head k) _)) = _
    cases mem.loadRelaxed view .head k <;> rfl
  | readCached head =>
    have hnext : PopAt.word j (if head = cached then .loadTail head
        else .loadWords head Finset.univ (default : Fin n → V)) =
          if head = cached then .loadTail head else .loadSlot head := by
      rw [apply_ite (PopAt.word j), PopAt.word_start]
      rfl
    exact congrArg (fun at_ => some (ring words ⟨at_, seen, cached, unread⟩, none)) hnext
  | loadTail head =>
    have hl : words.loadAcquire seen .tail k =
        (mem.loadAcquire view .tail k).map fun a => (a.1, a.2.part (Cell.ofSlot j)) :=
      Memory.loadAcquire_part hf
    show _ = Option.map _ (Option.bind (words.loadAcquire seen .tail k) _)
    rw [hl]
    show Option.map _ (Option.map _ (Option.bind (mem.loadAcquire view .tail k) _)) = _
    cases mem.loadAcquire view .tail k with
    | none => rfl
    | some a =>
      exact congrArg (fun n => some (ring words ⟨.writeCached head a.1, a.2.part _, cached, n⟩,
        none)) hunread.symm
  | writeCached head tail => rfl
  | readAgain head =>
    have hnext : PopAt.word j (if head = cached then .returning none
        else .loadWords head Finset.univ (default : Fin n → V)) =
          if head = cached then .returning none else .loadSlot head := by
      rw [apply_ite (PopAt.word j), PopAt.word_start]
      rfl
    exact congrArg (fun at_ => some (ring words ⟨at_, seen, cached, unread⟩, none)) hnext
  | loadWords head left w =>
    rcases hat head left w rfl with rfl | ⟨hmem, rfl⟩
    · exact storeHead_word rfl |>.symm
    · rw [popLoop_loadWord rfl hmem, loadWord_word rfl hmem, Option.map_map]
      rfl
  | returning out => rfl

end WordRing

end Hotpath.Ipc
