import Hotpath.Ipc.SpscSpin
import Hotpath.Sim.MarketMaker

/-!
# The threaded pipeline (pipeline.cpp)

The feed, strategy and gateway threads over two rings, against the same market maker
in one thread. A step of the machine is one access of one thread to its ring; the
threads have left the wait for `go`.
-/

namespace Hotpath.Tools
open Hotpath.Book Hotpath.Sim Hotpath.Ipc

structure FeedMsg where
  ev : BookEvent
  eof : UInt32
  deriving DecidableEq

structure FillMsg where
  fill : Fill
  eof : UInt32
  deriving DecidableEq

/-- `FeedMsg{}` and `FillMsg{}`. -/
def FeedMsg.zero : FeedMsg := ⟨⟨0, 0, 0, 0, 0, .add, .buy⟩, 0⟩

def FillMsg.zero : FillMsg := ⟨⟨0, 0, 0, .buy, 0, false, false⟩, 0⟩

structure Digest where
  h : UInt64 := 1469598103934665603
  deriving DecidableEq

namespace Digest

def mix (d : Digest) (v : UInt64) : Digest :=
  (List.range 8).foldl (fun d i =>
    { d with h := (d.h ^^^ ((v >>> UInt64.ofNat (8 * i)) &&& 0xff)) * 1099511628211 }) d

def feed (d : Digest) (f : Fill) : Digest :=
  let d := d.mix f.ts
  let d := d.mix f.price.toUInt64
  let d := d.mix f.qty.toUInt64
  let d := d.mix (match f.side with | .buy => 0 | .sell => 1)
  let d := d.mix f.queueAheadAtJoin.toUInt64
  let d := d.mix (if f.stale then 1 else 0)
  d.mix (if f.swept then 1 else 0)

end Digest

/-- `digest` and `fills`, with the fills themselves in their order. -/
structure Sink where
  digest : Digest := {}
  fills : ℕ := 0
  log : List Fill := []

def Sink.feed (s : Sink) (f : Fill) : Sink :=
  { digest := s.digest.feed f, fills := s.fills + 1, log := s.log ++ [f] }

structure Run where
  sink : Sink
  overflowLevels : ℕ

/-- The constructor arguments that both runs leave to their defaults. -/
def maker (lo hi : Price) (size : Qty) : Option MarketMaker :=
  MarketMaker.make lo hi size 0 .queueAware (2 ^ 21) (2 ^ 20)

def runEvents : MarketMaker → Sink → List BookEvent → Option (MarketMaker × Sink)
  | mm, d, [] => some (mm, d)
  | mm, d, e :: es => do
    let (mm, fills) ← mm.onEvent e
    runEvents mm (fills.foldl Sink.feed d) es

/-- `none` is the `invalid_argument` of an inverted window. -/
def runSingle (tape : List BookEvent) (lo hi : Price) (size : Qty) : Option Run := do
  let mm ← maker lo hi size
  let (mm, d) ← runEvents mm {} tape
  return { sink := d, overflowLevels := mm.book.overflowOps }

/-- Where the strategy thread spins: on `ring1`, on `ring2` with a fill of the event it is
in and those after it, or with the end marker. -/
inductive StrategyAt where
  | popping
  | pushing (f : Fill) (rest : List Fill)
  | pushingEof
  | done

structure Strategy where
  at_ : StrategyAt := .popping
  mm : MarketMaker
  overflowStrategy : ℕ := 0

structure Gateway where
  done : Bool := false
  sink : Sink := {}

/-- `sent` is the loop variable of the feed thread, past the tape at its end marker;
`calls` counts the calls of `try_push` and `try_pop` that have succeeded. -/
structure Pipeline where
  ring1 : SpscRing FeedMsg
  ring2 : SpscRing FillMsg
  sent : ℕ := 0
  strategy : Strategy
  gateway : Gateway := {}
  calls : ℕ := 0

inductive Thread where
  | feed
  | strategy
  | gateway
  deriving DecidableEq

def feedMsg (tape : List BookEvent) (i : ℕ) : FeedMsg :=
  match tape[i]? with
  | some e => ⟨e, 0⟩
  | none => { FeedMsg.zero with eof := 1 }

def fillMsg (f : Fill) : FillMsg := ⟨f, 0⟩

def fillEof : FillMsg := { FillMsg.zero with eof := 1 }

namespace Strategy

def emit : List Fill → StrategyAt
  | [] => .popping
  | f :: rest => .pushing f rest

/-- After `try_pop` has returned `m`. -/
def receive (st : Strategy) (m : FeedMsg) : Option Strategy :=
  if m.eof ≠ 0 then
    some { st with at_ := .pushingEof, overflowStrategy := st.mm.book.overflowOps }
  else do
    let (mm, fills) ← st.mm.onEvent m.ev
    return { st with at_ := emit fills, mm := mm }

end Strategy

def Gateway.receive (g : Gateway) (m : FillMsg) : Gateway :=
  if m.eof ≠ 0 then { g with done := true } else { g with sink := g.sink.feed m.fill }

namespace Pipeline

def start (lo hi : Price) (size : Qty) (ringPow2 : ℕ) : Option Pipeline := do
  let ring1 ← SpscRing.create FeedMsg.zero ringPow2
  let ring2 ← SpscRing.create FillMsg.zero ringPow2
  let mm ← maker lo hi size
  return { ring1 := ring1, ring2 := ring2, strategy := { mm := mm } }

def stepFeed (tape : List BookEvent) (s : Pipeline) (k : ℕ) : Option Pipeline :=
  if s.sent ≤ tape.length then do
    let (ring1, ok) ← s.ring1.spinPush (feedMsg tape s.sent) k
    return if ok then { s with ring1 := ring1, sent := s.sent + 1, calls := s.calls + 1 }
      else { s with ring1 := ring1 }
  else none

/-- The strategy spins on `ring2` with `m` and goes on to `next`. -/
def stepEmit (s : Pipeline) (m : FillMsg) (next : StrategyAt) (k : ℕ) : Option Pipeline := do
  let (ring2, ok) ← s.ring2.spinPush m k
  return if ok then
      { s with ring2 := ring2, strategy := { s.strategy with at_ := next }, calls := s.calls + 1 }
    else { s with ring2 := ring2 }

def stepStrategy (s : Pipeline) (k : ℕ) : Option Pipeline :=
  match s.strategy.at_ with
  | .popping => do
    let (ring1, out) ← s.ring1.spinPop k
    match out with
    | none => return { s with ring1 := ring1 }
    | some m =>
      let strategy ← s.strategy.receive m
      return { s with ring1 := ring1, strategy := strategy, calls := s.calls + 1 }
  | .pushing f rest => s.stepEmit (fillMsg f) (Strategy.emit rest) k
  | .pushingEof => s.stepEmit fillEof .done k
  | .done => none

def stepGateway (s : Pipeline) (k : ℕ) : Option Pipeline :=
  if s.gateway.done then none
  else do
    let (ring2, out) ← s.ring2.spinPop k
    return match out with
      | none => { s with ring2 := ring2 }
      | some m =>
        { s with ring2 := ring2, gateway := s.gateway.receive m, calls := s.calls + 1 }

/-- One step of a thread; a load of it takes the `k`th store of its place. -/
def stepThread (tape : List BookEvent) (t : Thread) (s : Pipeline) (k : ℕ) : Option Pipeline :=
  match t with
  | .feed => s.stepFeed tape k
  | .strategy => s.stepStrategy k
  | .gateway => s.stepGateway k

def step (tape : List BookEvent) (s : Pipeline) (a : Thread × ℕ) : Option Pipeline :=
  s.stepThread tape a.1 a.2

def finished (tape : List BookEvent) (s : Pipeline) : Thread → Bool
  | .feed => tape.length < s.sent
  | .strategy => match s.strategy.at_ with
    | .done => true
    | _ => false
  | .gateway => s.gateway.done

/-- What `run_pipelined` returns after the joins. -/
def result (s : Pipeline) : Run :=
  { sink := s.gateway.sink, overflowLevels := s.strategy.overflowStrategy }

end Pipeline

end Hotpath.Tools
