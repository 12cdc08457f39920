import Hotpath.Book.Tape
import Hotpath.Ipc.ShmLossless
import Hotpath.Ipc.ShmProgress
import Hotpath.Sim.Total
import Hotpath.Support.Rising
import Hotpath.Tools.PipelineRun

/-!
# The feed across processes (shm_pub.cpp, shm_sub.cpp)

A publisher copies a tape into the ring, event after event, and any number of
subscribers each run a market maker on what they read of it. Whatever the processes do
in between, a subscriber does what one thread does on the events it was given, and one
that missed none ends with the fills of the whole tape.
-/

namespace Hotpath.Tools
open Hotpath.Book Hotpath.Sim Hotpath.Ipc Hotpath.Support

/-- The variables of the subscriber's loop that are not of its reader. -/
structure Subscriber where
  mm : MarketMaker
  sink : Sink := {}
  gaps : ℕ := 0

/-- What the loop does with a result of `try_read`. -/
def Subscriber.receive (sub : Subscriber) (out : List UInt8) : Status → Option Subscriber
  | .ok => do
    let e ← bookEvent.get out
    let (mm, fills) ← sub.mm.onEvent e
    return { sub with mm := mm, sink := fills.foldl Sink.feed sub.sink }
  | .gap _ _ _ => some { sub with gaps := sub.gaps + 1 }
  | .empty => some sub

structure Session (ι : Type) where
  bus : Bus ι UInt8
  subs : ι → Subscriber

/-- What a process does next: `call` is the next call of the publisher's loop, or
`mark_eof` after it. -/
inductive Access (ι : Type) where
  | call
  | advance
  | copyIn (w : ℕ)
  | tryRead (r : ι)
  | read (r : ι)
  | copyOut (r : ι) (w : ℕ)
  | pollEof (r : ι)
  deriving DecidableEq

/-- The subscriber whose access it is. -/
def Access.reader {ι : Type} : Access ι → Option ι
  | .tryRead r | .read r | .copyOut r _ | .pollEof r => some r
  | _ => none

namespace Session

variable {ι : Type}

/-- A ring whose slots are as long as an event, and subscribers with these market makers
and an event of zeros. -/
def start (capacityPow2 : ℕ) (makers : ι → MarketMaker) : Option (Session ι) := do
  let ring ← ShmRing.create 0 capacityPow2 bookEvent.width
  return {
    bus := Bus.start ring fun _ => List.replicate bookEvent.width 0
    subs := fun r => { mm := makers r } }

def action (tape : List BookEvent) (s : Session ι) : Access ι → Action ι UInt8
  | .call =>
    match tape[s.bus.msgs.length]? with
    | some e => .publish (bookEvent.put e)
    | none => .markEof
  | .advance => .advance
  | .copyIn w => .copyIn w
  | .tryRead r => .tryRead r
  | .read r => .read r
  | .copyOut r w => .copyOut r w
  | .pollEof r => .pollEof r

variable [DecidableEq ι]

def step (tape : List BookEvent) (s : Session ι) (a : Access ι) : Option (Session ι) := do
  let bus ← s.bus.step bookEvent.width (s.action tape a)
  match a with
  | .read r =>
    match (s.bus.readers r).at_ with
    | .returning status =>
      let sub ← (s.subs r).receive (s.bus.readers r).out status
      return { bus := bus, subs := Function.update s.subs r sub }
    | _ => return { s with bus := bus }
  | _ => return { s with bus := bus }

end Session

/-! ### What a subscriber was given -/

/-- The events of the tape under the numbers of the messages delivered. -/
def heard (tape : List BookEvent) (r : Reader UInt8) : List BookEvent :=
  r.delivered.filterMap fun d => tape[d.1]?

/-- A run over events is a run over the first of them and then over the others. -/
theorem runEvents_append (mm : MarketMaker) (d : Sink) (xs ys : List BookEvent) :
    runEvents mm d (xs ++ ys) =
      (runEvents mm d xs).bind fun (mm, d) => runEvents mm d ys := by
  induction xs generalizing mm d with
  | nil => rfl
  | cons x xs ih =>
    rw [List.cons_append, runEvents, runEvents]
    cases mm.onEvent x with
    | none => rfl
    | some out =>
      obtain ⟨mm1, fills⟩ := out
      exact ih mm1 (fills.foldl Sink.feed d)

theorem heard_push {tape : List BookEvent} {r r' : Reader UInt8} {e : BookEvent}
    (hr : r'.delivered = r.delivered ++ [(r.next, r.out)]) (he : tape[r.next]? = some e) :
    heard tape r' = heard tape r ++ [e] := by
  rw [heard, hr, List.filterMap_append, List.filterMap_cons, he, List.filterMap_nil]
  rfl

/-- What a reader was given it was given in order, and once. -/
theorem heard_sublist {tape : List BookEvent} {r : Reader UInt8}
    (hup : (r.delivered.map Prod.fst).Pairwise (· < ·))
    (hlt : ∀ d ∈ r.delivered, d.1 < tape.length) :
    (heard tape r).Sublist tape ∧ (r.delivered.length = tape.length → heard tape r = tape) := by
  have hnumbers : heard tape r = (r.delivered.map Prod.fst).filterMap fun i => tape[i]? := by
    rw [heard, List.filterMap_map]
    rfl
  have hbelow : ∀ x ∈ r.delivered.map Prod.fst, x < tape.length := by
    intro x hx
    obtain ⟨d, hd, rfl⟩ := List.mem_map.mp hx
    exact hlt d hd
  rw [hnumbers, ← List.length_map (f := Prod.fst)]
  exact picked_sublist hup hbelow

/-! ### What the ring's steps leave -/

/-- The publisher has called `mark_eof`. -/
def closing : Publisher UInt8 → Bool
  | .markEof | .storeEof _ | .done => true
  | _ => false

section Frame
variable {ι : Type} {n : ℕ} {b b' : Bus ι UInt8}

theorem advance_frame (h : b.advance n = some b') :
    b'.msgs = b.msgs ∧ b'.readers = b.readers ∧ closing b'.pub = closing b.pub := by
  unfold Bus.advance at h
  split at h
  case h_1 => cases h
  case h_2 hpub =>
    obtain rfl := Option.some.inj h
    exact ⟨rfl, rfl, by rw [hpub]; rfl⟩
  case h_3 hpub =>
    obtain ⟨s, -, h⟩ := Option.bind_eq_some_iff.mp h
    obtain rfl := Option.some.inj h
    exact ⟨rfl, rfl, by rw [hpub]; rfl⟩
  case h_4 hpub =>
    obtain ⟨ring, -, h⟩ := Option.bind_eq_some_iff.mp h
    obtain rfl := Option.some.inj h
    exact ⟨rfl, rfl, by rw [hpub]; rfl⟩
  case h_5 hpub =>
    obtain ⟨ring, -, h⟩ := Option.bind_eq_some_iff.mp h
    obtain rfl := Option.some.inj h
    exact ⟨rfl, rfl, by rw [hpub]; rfl⟩
  case h_6 hpub =>
    obtain ⟨ring, -, h⟩ := Option.bind_eq_some_iff.mp h
    obtain rfl := Option.some.inj h
    exact ⟨rfl, rfl, by rw [hpub]; rfl⟩
  case h_7 => cases h
  case h_8 hpub =>
    obtain rfl := Option.some.inj h
    exact ⟨rfl, rfl, by rw [hpub]; rfl⟩
  case h_9 hpub =>
    obtain rfl := Option.some.inj h
    exact ⟨rfl, rfl, by rw [hpub]; rfl⟩
  case h_10 hpub =>
    obtain rfl := Option.some.inj h
    exact ⟨rfl, rfl, by rw [hpub]; rfl⟩
  case h_11 => cases h

theorem copyIn_frame {w : ℕ} (h : b.copyIn w = some b') :
    b'.msgs = b.msgs ∧ b'.readers = b.readers ∧ closing b'.pub = closing b.pub := by
  unfold Bus.copyIn at h
  split at h
  case h_1 hpub =>
    obtain ⟨-, h⟩ := Option.ite_none_right_eq_some.mp h
    obtain ⟨x, -, h⟩ := Option.bind_eq_some_iff.mp h
    obtain ⟨ring, -, h⟩ := Option.bind_eq_some_iff.mp h
    obtain rfl := Option.some.inj h
    exact ⟨rfl, rfl, by rw [hpub]; rfl⟩
  case h_2 => cases h

/-- The steps of a reader that deliver nothing and count nothing. -/
def Quiet (r r' : Reader UInt8) : Prop := r'.delivered = r.delivered ∧ r'.missed = r.missed

variable {ring : ShmRing UInt8} {r r' : Reader UInt8}

theorem readStep_quiet (hat : ∀ status, r.at_ ≠ .returning status)
    (h : Bus.readStep n ring r = some r') : Quiet r r' := by
  unfold Bus.readStep at h
  split at h
  case h_1 =>
    obtain rfl := Option.some.inj h
    exact ⟨rfl, rfl⟩
  case h_2 =>
    obtain ⟨s, -, h⟩ := Option.bind_eq_some_iff.mp h
    obtain rfl := Option.some.inj h
    exact ⟨rfl, rfl⟩
  case h_3 =>
    obtain ⟨s, -, h⟩ := Option.bind_eq_some_iff.mp h
    obtain rfl := Option.some.inj h
    exact ⟨rfl, rfl⟩
  case h_4 =>
    obtain ⟨s, -, h⟩ := Option.bind_eq_some_iff.mp h
    obtain rfl := Option.some.inj h
    exact ⟨rfl, rfl⟩
  case h_5 status heq => exact absurd heq (hat status)
  case h_6 => cases h

theorem copyOut_quiet {w : ℕ} (h : Bus.copyOut ring r w = some r') : Quiet r r' := by
  unfold Bus.copyOut at h
  split at h
  case h_1 =>
    obtain ⟨-, h⟩ := Option.ite_none_right_eq_some.mp h
    obtain ⟨s, -, h⟩ := Option.bind_eq_some_iff.mp h
    obtain ⟨x, -, h⟩ := Option.bind_eq_some_iff.mp h
    obtain rfl := Option.some.inj h
    exact ⟨rfl, rfl⟩
  case h_2 => cases h

theorem tryRead_quiet (h : Bus.tryRead r = some r') : Quiet r r' := by
  unfold Bus.tryRead at h
  split at h
  case h_1 =>
    obtain rfl := Option.some.inj h
    exact ⟨rfl, rfl⟩
  case h_2 =>
    obtain rfl := Option.some.inj h
    exact ⟨rfl, rfl⟩
  case h_3 => cases h

theorem pollEof_quiet (h : Bus.pollEof ring r = some r') : Quiet r r' := by
  unfold Bus.pollEof at h
  split at h
  case h_1 =>
    obtain rfl := Option.some.inj h
    exact ⟨rfl, rfl⟩
  case h_2 => cases h

theorem onReader_frame [DecidableEq ι] {i : ι} {f : Reader UInt8 → Option (Reader UInt8)}
    (h : b.onReader i f = some b') : b'.msgs = b.msgs ∧ b'.pub = b.pub ∧
      ∃ r', f (b.readers i) = some r' ∧ b'.readers = Function.update b.readers i r' := by
  obtain ⟨r', hr', rfl⟩ := Option.map_eq_some_iff.mp h
  exact ⟨rfl, rfl, r', hr', rfl⟩

end Frame

namespace Session

variable {ι : Type} {tape : List BookEvent} {makers : ι → MarketMaker} {s s' : Session ι}

/-- The invariant of a session: the messages are the tape's first events, and each
subscriber has run over what it was given. -/
structure Ok (tape : List BookEvent) (makers : ι → MarketMaker) (s : Session ι) : Prop where
  bus : s.bus.Sound bookEvent.width
  msgs : s.bus.msgs = (tape.take s.bus.msgs.length).map bookEvent.put
  ended : closing s.bus.pub = true → s.bus.msgs.length = tape.length
  ran : ∀ r, runEvents (makers r) {} (heard tape (s.bus.readers r)) =
    some ((s.subs r).mm, (s.subs r).sink)
  gaps : ∀ r, (s.subs r).gaps = 0 ↔ (s.bus.readers r).missed = 0

theorem Ok.length_le (h : Ok tape makers s) : s.bus.msgs.length ≤ tape.length := by
  have hlen := congrArg List.length h.msgs
  rw [List.length_map, List.length_take] at hlen
  omega

/-- A message in the ring is an event of the tape. -/
theorem Ok.event (h : Ok tape makers s) {i : ℕ} {out : List UInt8}
    (hout : s.bus.msgs[i]? = some out) : ∃ e, tape[i]? = some e ∧ out = bookEvent.put e := by
  rw [h.msgs, List.getElem?_map] at hout
  obtain ⟨e, he, rfl⟩ := Option.map_eq_some_iff.mp hout
  rw [List.getElem?_take] at he
  obtain ⟨-, he⟩ := Option.ite_none_right_eq_some.mp he
  exact ⟨e, he, rfl⟩

/-- A step that delivers nothing, misses nothing and calls nothing. -/
theorem Ok.quiet (h : Ok tape makers s) {b' : Bus ι UInt8} (hb : b'.Sound bookEvent.width)
    (hmsgs : b'.msgs = s.bus.msgs) (hclosing : closing b'.pub = closing s.bus.pub)
    (hreaders : ∀ r, Quiet (s.bus.readers r) (b'.readers r)) :
    Ok tape makers { s with bus := b' } := by
  constructor
  case bus => exact hb
  case msgs =>
    show b'.msgs = (tape.take b'.msgs.length).map bookEvent.put
    rw [hmsgs]
    exact h.msgs
  case ended =>
    intro hend
    show b'.msgs.length = tape.length
    rw [hmsgs]
    exact h.ended (hclosing ▸ hend)
  case ran =>
    intro r
    have hheard : heard tape (b'.readers r) = heard tape (s.bus.readers r) := by
      rw [heard, heard, (hreaders r).1]
    show runEvents (makers r) {} (heard tape (b'.readers r)) = _
    rw [hheard]
    exact h.ran r
  case gaps =>
    intro r
    show (s.subs r).gaps = 0 ↔ (b'.readers r).missed = 0
    rw [(hreaders r).2]
    exact h.gaps r

/-- Bytes that spell the next event go through the market maker as the event does. -/
theorem Ok.receive_ok (h : Ok tape makers s) {r : ι}
    (hat : (s.bus.readers r).at_ = .returning .ok) :
    ∃ e, tape[(s.bus.readers r).next]? = some e ∧
      (s.subs r).receive (s.bus.readers r).out .ok = ((s.subs r).mm.onEvent e).map fun out =>
        { s.subs r with mm := out.1, sink := out.2.foldl Sink.feed (s.subs r).sink } := by
  have hplace := (h.bus.reads r).place
  rw [hat] at hplace
  obtain ⟨e, he, hout⟩ := h.event hplace.2
  refine ⟨e, he, ?_⟩
  rw [hout, Subscriber.receive, bookEvent.get_put, Option.bind_eq_bind, Option.bind_some]
  cases (s.subs r).mm.onEvent e with
  | none => rfl
  | some out => rfl

variable [DecidableEq ι]

/-- The next call of the publisher's loop. -/
theorem Ok.call (h : Ok tape makers s) {b' : Bus ι UInt8}
    (hs : s.bus.step bookEvent.width (s.action tape .call) = some b') :
    Ok tape makers { s with bus := b' } := by
  have hsound := (Bus.step_keeps h.bus hs).1
  rw [action] at hs
  cases he : tape[s.bus.msgs.length]? with
  | some e =>
    rw [he] at hs
    obtain ⟨hidle, hs⟩ := Option.ite_none_right_eq_some.mp hs
    obtain ⟨-, hs⟩ := Option.ite_none_right_eq_some.mp hs
    obtain rfl := Option.some.inj hs
    constructor
    case bus => exact hsound
    case msgs =>
      have hmsgs := h.msgs
      show s.bus.msgs ++ [bookEvent.put e] = _
      rw [List.length_append, List.length_singleton, List.take_add_one, he, List.map_append, ←
        hmsgs]
      rfl
    case ended => exact fun hend => absurd hend Bool.false_ne_true
    case ran => exact h.ran
    case gaps => exact h.gaps
  | none =>
    rw [he] at hs
    obtain ⟨hidle, hs⟩ := Option.ite_none_right_eq_some.mp hs
    obtain rfl := Option.some.inj hs
    constructor
    case bus => exact hsound
    case msgs => exact h.msgs
    case ended =>
      intro _
      exact Nat.le_antisymm h.length_le (List.getElem?_eq_none_iff.mp he)
    case ran => exact h.ran
    case gaps => exact h.gaps

/-- A step of a reader that delivers nothing and counts nothing. -/
theorem Ok.reader_quiet (h : Ok tape makers s) {r : ι} {a : Action ι UInt8}
    {f : Reader UInt8 → Option (Reader UInt8)} {b' : Bus ι UInt8}
    (hs : s.bus.step bookEvent.width a = some b') (hf : s.bus.onReader r f = some b')
    (hquiet : ∀ r', f (s.bus.readers r) = some r' → Quiet (s.bus.readers r) r') :
    Ok tape makers { s with bus := b' } := by
  obtain ⟨hmsgs, hpub, r', hr', hreaders⟩ := onReader_frame hf
  apply h.quiet (Bus.step_keeps h.bus hs).1 hmsgs (by rw [hpub])
  intro i
  rw [hreaders]
  by_cases hi : i = r
  case pos =>
    rw [hi, Function.update_self]
    exact hquiet r' hr'
  case neg =>
    rw [Function.update_of_ne hi]
    exact ⟨rfl, rfl⟩

/-- A reader's return, and what its process makes of it. -/
theorem Ok.settle (h : Ok tape makers s) {r : ι} {status : Status} {sub : Subscriber}
    {b' : Bus ι UInt8} (hat : (s.bus.readers r).at_ = .returning status)
    (hs : s.bus.step bookEvent.width (.read r) = some b')
    (hsub : (s.subs r).receive (s.bus.readers r).out status = some sub) :
    Ok tape makers { bus := b', subs := Function.update s.subs r sub } := by
  have hsound := (Bus.step_keeps h.bus hs).1
  obtain ⟨hmsgs, hpub, r', hr', hreaders⟩ := onReader_frame hs
  have hreads := h.bus.reads r
  have hplace := hreads.place
  have hsettled : r' = Bus.settle (s.bus.readers r) status := by
    rw [Bus.readStep, hat] at hr'
    exact (Option.some.inj hr').symm
  have hnew : runEvents (makers r) {} (heard tape r') = some (sub.mm, sub.sink) ∧
      (sub.gaps = 0 ↔ r'.missed = 0) := by
    rw [hsettled]
    cases status with
    | ok =>
      obtain ⟨e, he, hrec⟩ := h.receive_ok hat
      rw [hrec] at hsub
      obtain ⟨⟨mm, fills⟩, hevent, rfl⟩ := Option.map_eq_some_iff.mp hsub
      refine ⟨?_, h.gaps r⟩
      rw [heard_push (r := s.bus.readers r) rfl he, runEvents_append, h.ran r]
      show runEvents (s.subs r).mm (s.subs r).sink [e] = _
      rw [runEvents, hevent]
      rfl
    | gap missed skipTo cause =>
      rw [hat] at hplace
      obtain rfl := Option.some.inj hsub
      refine ⟨h.ran r, ?_⟩
      have hone : 1 ≤ missed := hplace.1
      show (s.subs r).gaps + 1 = 0 ↔ (s.bus.readers r).missed + missed = 0
      omega
    | empty =>
      obtain rfl := Option.some.inj hsub
      exact ⟨h.ran r, h.gaps r⟩
  constructor
  case bus => exact hsound
  case msgs =>
    show b'.msgs = (tape.take b'.msgs.length).map bookEvent.put
    rw [hmsgs]
    exact h.msgs
  case ended =>
    intro hend
    show b'.msgs.length = tape.length
    rw [hmsgs]
    exact h.ended (hpub ▸ hend)
  case ran =>
    intro i
    show runEvents (makers i) {} (heard tape (b'.readers i)) =
      some ((Function.update s.subs r sub i).mm, (Function.update s.subs r sub i).sink)
    rw [hreaders]
    by_cases hi : i = r
    case pos =>
      rw [hi, Function.update_self, Function.update_self]
      exact hnew.1
    case neg =>
      rw [Function.update_of_ne hi, Function.update_of_ne hi]
      exact h.ran i
  case gaps =>
    intro i
    show (Function.update s.subs r sub i).gaps = 0 ↔ (b'.readers i).missed = 0
    rw [hreaders]
    by_cases hi : i = r
    case pos =>
      rw [hi, Function.update_self, Function.update_self]
      exact hnew.2
    case neg =>
      rw [Function.update_of_ne hi, Function.update_of_ne hi]
      exact h.gaps i

theorem step_bus {a : Access ι} (hs : step tape s a = some s') :
    s.bus.step bookEvent.width (s.action tape a) = some s'.bus := by
  obtain ⟨b', hb, hs⟩ := Option.bind_eq_some_iff.mp hs
  rw [hb]
  cases a with
  | read r =>
    dsimp only at hs
    split at hs
    case h_1 =>
      obtain ⟨sub, -, hs⟩ := Option.bind_eq_some_iff.mp hs
      obtain rfl := Option.some.inj hs
      rfl
    case h_2 =>
      obtain rfl := Option.some.inj hs
      rfl
  | _ =>
    obtain rfl := Option.some.inj hs
    rfl

theorem Ok.step (h : Ok tape makers s) {a : Access ι} (hs : step tape s a = some s') :
    Ok tape makers s' := by
  obtain ⟨b', hb, hs⟩ := Option.bind_eq_some_iff.mp hs
  have hsound := (Bus.step_keeps h.bus hb).1
  cases a with
  | call =>
    obtain rfl := Option.some.inj hs
    exact h.call hb
  | advance =>
    obtain rfl := Option.some.inj hs
    obtain ⟨hmsgs, hreaders, hclosing⟩ := advance_frame hb
    exact h.quiet hsound hmsgs hclosing fun r => by rw [hreaders]; exact ⟨rfl, rfl⟩
  | copyIn w =>
    obtain rfl := Option.some.inj hs
    obtain ⟨hmsgs, hreaders, hclosing⟩ := copyIn_frame hb
    exact h.quiet hsound hmsgs hclosing fun r => by rw [hreaders]; exact ⟨rfl, rfl⟩
  | tryRead r =>
    obtain rfl := Option.some.inj hs
    exact h.reader_quiet hb hb fun _ hr => tryRead_quiet hr
  | copyOut r w =>
    obtain rfl := Option.some.inj hs
    have hcopy : s.bus.onReader r (fun reader => Bus.copyOut s.bus.ring reader w) = some b' := hb
    exact h.reader_quiet hb hcopy fun _ hr => copyOut_quiet hr
  | pollEof r =>
    obtain rfl := Option.some.inj hs
    exact h.reader_quiet hb hb fun _ hr => pollEof_quiet hr
  | read r =>
    dsimp only at hs
    split at hs
    case h_1 status hat =>
      obtain ⟨sub, hsub, hs⟩ := Option.bind_eq_some_iff.mp hs
      obtain rfl := Option.some.inj hs
      exact h.settle hat hb hsub
    case h_2 hat =>
      obtain rfl := Option.some.inj hs
      exact h.reader_quiet hb hb fun _ hr => readStep_quiet hat hr

omit [DecidableEq ι] in
theorem Ok.start {k : ℕ} (h : start (2 ^ k) makers = some s) : Ok tape makers s := by
  obtain ⟨ring, hring, h⟩ := Option.bind_eq_some_iff.mp h
  obtain rfl := Option.some.inj h
  constructor
  case bus => exact Bus.start_sound hring le_rfl fun r => List.length_replicate
  case msgs => rfl
  case ended => exact fun hend => absurd hend Bool.false_ne_true
  case ran => exact fun r => rfl
  case gaps => exact fun r => iff_of_true rfl rfl

/-- On real orders a subscriber is never stuck with an event it was given. -/
theorem Ok.read_some (h : Ok tape makers s) {r : ι} {lo hi : Price} {size : Qty}
    (hmm : maker lo hi size = some (makers r)) (hreal : ∀ e ∈ tape, ∀ ref ∈ e.op.refs, ref ≠ 0)
    {b' : Bus ι UInt8} (hb : s.bus.step bookEvent.width (.read r) = some b') :
    ∃ s', Session.step tape s (.read r) = some s' := by
  have hstep : Session.step tape s (.read r) = _ := congrArg (Option.bind · _) hb
  rw [hstep, Option.bind_some]
  dsimp only
  split
  case h_1 status hat =>
    cases status with
    | gap missed skipTo cause => exact ⟨_, rfl⟩
    | empty => exact ⟨_, rfl⟩
    | ok =>
      obtain ⟨e, he, hrec⟩ := h.receive_ok hat
      have hheard : ∀ x ∈ heard tape (s.bus.readers r) ++ [e], x ∈ tape := by
        intro x hx
        rcases List.mem_append.mp hx with hx | hx
        · obtain ⟨d, -, hd⟩ := List.mem_filterMap.mp hx
          exact List.mem_of_getElem? hd
        · rw [List.mem_singleton.mp hx]
          exact List.mem_of_getElem? he
      obtain ⟨last, fills, hrun⟩ := MarketMaker.run_total lo hi size 0 .queueAware (2 ^ 21)
        (2 ^ 20) (by decide) (by decide) (makers r) hmm
        ((heard tape (s.bus.readers r) ++ [e]).map .event) fun x hx => by
          obtain ⟨y, hy, rfl⟩ := List.mem_map.mp hx
          exact hreal y (hheard y hy)
      have hevents := runEvents_eq (makers r) {} (heard tape (s.bus.readers r) ++ [e])
      rw [hrun, runEvents_append, h.ran r] at hevents
      have hlast : runEvents (s.subs r).mm (s.subs r).sink [e] = _ := hevents
      obtain ⟨out, hout, -⟩ := Option.bind_eq_some_iff.mp hlast
      rw [hrec, hout]
      exact ⟨_, rfl⟩
  case h_2 => exact ⟨_, rfl⟩

/-- What the processes do to the ring is a run of the ring. -/
theorem runs_bus {as : List (Access ι)} (hrun : runs (Session.step tape) s as = some s') :
    ∃ acts, runs (Bus.step bookEvent.width) s.bus acts = some s'.bus := by
  induction as generalizing s with
  | nil =>
    obtain rfl := Option.some.inj hrun
    exact ⟨[], rfl⟩
  | cons a as ih =>
    obtain ⟨s1, hs, hrun⟩ := Option.bind_eq_some_iff.mp hrun
    obtain ⟨acts, hacts⟩ := ih hrun
    refine ⟨s.action tape a :: acts, ?_⟩
    rw [runs, step_bus hs]
    exact hacts

/-- A subscriber that has not left its loop has a next access. -/
theorem Ok.goes_on (h : Ok tape makers s) {r : ι} {lo hi : Price} {size : Qty}
    (hmm : maker lo hi size = some (makers r)) (hreal : ∀ e ∈ tape, ∀ ref ∈ e.op.refs, ref ≠ 0)
    (hcopies : Copies bookEvent.width (s.bus.readers r).at_)
    (hat : (s.bus.readers r).at_ ≠ .exited) :
    ∃ a s', a.reader = some r ∧ Session.step tape s a = some s' := by
  obtain ⟨act, b', hreader, hb⟩ := Bus.reader_goes_on h.bus hcopies hat
  cases act with
  | tryRead i =>
    obtain rfl := Option.some.inj hreader
    exact ⟨.tryRead i, { s with bus := b' }, rfl, congrArg (Option.bind · _) hb⟩
  | read i =>
    obtain rfl := Option.some.inj hreader
    obtain ⟨s', hs'⟩ := h.read_some hmm hreal hb
    exact ⟨.read i, s', rfl, hs'⟩
  | copyOut i w =>
    obtain rfl := Option.some.inj hreader
    exact ⟨.copyOut i w, { s with bus := b' }, rfl, congrArg (Option.bind · _) hb⟩
  | pollEof i =>
    obtain rfl := Option.some.inj hreader
    exact ⟨.pollEof i, { s with bus := b' }, rfl, congrArg (Option.bind · _) hb⟩
  | _ => cases hreader

/-- In every session, whatever the processes do in between: each subscriber has run its
market maker over some of the tape's events, each once and in their order, its gaps are
what it missed, none where the ring has a slot for every event, and on real orders it
has a next access until it leaves its loop. One that has left it has accounted for the
whole tape; where it missed nothing, its fills and their digest are those of one thread. -/
theorem subscribers_follow_tape {k : ℕ} {s₀ : Session ι}
    (h₀ : start (2 ^ k) makers = some s₀) {as : List (Access ι)}
    (hrun : runs (Session.step tape) s₀ as = some s) (r : ι) {lo hi : Price} {size : Qty}
    (hmm : maker lo hi size = some (makers r)) :
    (heard tape (s.bus.readers r)).Sublist tape ∧
    runEvents (makers r) {} (heard tape (s.bus.readers r)) =
      some ((s.subs r).mm, (s.subs r).sink) ∧
    ((s.subs r).gaps = 0 ↔ (s.bus.readers r).missed = 0) ∧
    (tape.length ≤ 2 ^ k → (s.bus.readers r).missed = 0) ∧
    ((∀ e ∈ tape, ∀ ref ∈ e.op.refs, ref ≠ 0) → (s.bus.readers r).at_ ≠ .exited →
      ∃ a s', a.reader = some r ∧ Session.step tape s a = some s') ∧
    ((s.bus.readers r).at_ = .exited →
      (s.bus.readers r).received + (s.bus.readers r).missed = tape.length ∧
      ((s.bus.readers r).missed = 0 → heard tape (s.bus.readers r) = tape ∧
        runSingle tape lo hi size =
          some ⟨(s.subs r).sink, (s.subs r).mm.book.overflowOps⟩)) := by
  have h : Ok tape makers s := runs_keeps (fun _ _ _ h hs => h.step hs) (Ok.start h₀) hrun
  have hreads := h.bus.reads r
  have hlt : ∀ d ∈ (s.bus.readers r).delivered, d.1 < tape.length := by
    intro d hd
    obtain ⟨hlt, -⟩ := List.getElem?_eq_some_iff.mp (hreads.exact_ d hd)
    exact hlt.trans_le h.length_le
  obtain ⟨hsub, hall⟩ := heard_sublist hreads.order hlt
  obtain ⟨acts, hacts⟩ := runs_bus hrun
  obtain ⟨ring, hring, h₀⟩ := Option.bind_eq_some_iff.mp h₀
  obtain rfl := Option.some.inj h₀
  have hbuffers (i : ι) : (List.replicate bookEvent.width (0 : UInt8)).length = bookEvent.width :=
    List.length_replicate
  have hroomy : tape.length ≤ 2 ^ k → (s.bus.readers r).missed = 0 := by
    intro hle
    have hlossless := Bus.runs_lossless hring le_rfl hbuffers hacts (h.length_le.trans hle)
    exact (hlossless.given r).missed
  have hcopies : Copies bookEvent.width (s.bus.readers r).at_ :=
    Bus.runs_copies (Bus.start_sound hring le_rfl hbuffers) (fun _ => trivial) hacts r
  refine ⟨hsub, h.ran r, h.gaps r, hroomy, fun hreal => h.goes_on hmm hreal hcopies,
    fun hat => ?_⟩
  have hplace := hreads.place
  rw [hat] at hplace
  obtain ⟨hnext, hdone⟩ := hplace
  have hplaced := h.bus.publishes.placed
  have hended := h.ended (by rw [hdone]; rfl)
  rw [hdone] at hplaced
  have htotal : (s.bus.readers r).received + (s.bus.readers r).missed = tape.length := by
    rw [hreads.total, hnext, ← hplaced.1, hended]
  refine ⟨htotal, fun hmissed => ?_⟩
  have heard_all := hall (by rw [hreads.count]; omega)
  have hran := h.ran r
  rw [heard_all] at hran
  refine ⟨heard_all, ?_⟩
  simp only [runSingle, hmm, hran, Option.bind_eq_bind, Option.bind_some]
  rfl

/-! A session: the publisher copies the event in and counts it, and the subscriber copies
it out. -/

def oneEvent : BookEvent := ⟨1, 5, 0, 100, 10, .add, .buy⟩

def oneRead : List (Access Unit) :=
  [.call, .advance, .advance, .advance, .advance] ++ (List.range 40).map .copyIn ++
    [.advance, .advance, .tryRead (), .read (), .read (), .read ()] ++
    (List.range 40).map (.copyOut ()) ++ [.read ()]

theorem subscribers_follow_tape_one : ∃ s₀ s,
    start (2 ^ 1) (fun _ : Unit => (maker 0 100 10).get maker_isSome) = some s₀ ∧
      runs (Session.step [oneEvent]) s₀ oneRead = some s ∧
      ∃ a s', a.reader = some () ∧ Session.step [oneEvent] s a = some s' := by
  have hat : ((start (2 ^ 1) fun _ : Unit => (maker 0 100 10).get maker_isSome).bind fun s₀ =>
      (runs (Session.step [oneEvent]) s₀ oneRead).map fun s => (s.bus.readers ()).at_) =
        some (.returning .ok) := by
    decide +kernel
  obtain ⟨s₀, h₀, hat⟩ := Option.bind_eq_some_iff.mp hat
  obtain ⟨s, hrun, hat⟩ := Option.map_eq_some_iff.mp hat
  obtain ⟨-, -, -, -, hgoes, -⟩ :=
    subscribers_follow_tape h₀ hrun () (Option.some_get maker_isSome).symm
  have hreal : ∀ e ∈ [oneEvent], ∀ ref ∈ e.op.refs, ref ≠ 0 := by
    intro e he ref href
    obtain rfl := List.mem_singleton.mp he
    obtain rfl := List.mem_singleton.mp href
    decide
  obtain ⟨a, s', hreader, hs'⟩ := hgoes hreal (by rw [hat]; simp)
  exact ⟨s₀, s, h₀, hrun, a, s', hreader, hs'⟩

end Session

end Hotpath.Tools
