import Hotpath.Itch.Messages

/-!
# The BinaryFILE reader (itch/reader.hpp)

Each message is preceded by a 2-byte big-endian length. The reader's pointers
are offsets into the input; a step is `none` where the source reads outside it,
or, for the two loops, where the fuel is out.
-/

namespace Hotpath.Itch

structure RawMessage where
  body : ℕ
  length : UInt16
  deriving DecidableEq, Repr

/-- The counters of a pass; an input is shorter than `2^64` bytes, so they do not
wrap. -/
structure ReaderStats where
  messages : ℕ := 0
  bytes : ℕ := 0
  unknownType : ℕ := 0
  lengthMismatch : ℕ := 0
  truncated : ℕ := 0
  zeroLength : ℕ := 0
  shortMessage : ℕ := 0
  perType : Fin 256 → ℕ := fun _ => 0

structure Reader where
  data : List UInt8
  cur : ℕ := 0
  stats : ReaderStats := {}

namespace Reader

/-- `++stats_.messages` and `++stats_.per_type[t]`. -/
def count (r : Reader) (t : UInt8) : Reader :=
  { r with stats := { r.stats with
      messages := r.stats.messages + 1
      perType := Function.update r.stats.perType t.toFin (r.stats.perType t.toFin + 1) } }

/-- The two statements that count a message that is not handed out. -/
def countShort (r : Reader) (t : UInt8) : Reader :=
  { r with stats := { r.stats with shortMessage := r.stats.shortMessage + 1 } }.count t

/-- How one pass through the body of `next` ends: it returns false, it calls
itself on the rest, or it hands out a message. -/
inductive Attempt where
  | stop (r : Reader)
  | skip (r : Reader)
  | out (m : RawMessage) (r : Reader)

def attempt (r : Reader) : Option Attempt :=
  if r.data.length < r.cur + 2 then some (.stop r)
  else do
    let len ← rdU16 r.data r.cur
    if len = 0 then
      -- as the last two bytes it is the end-of-file marker
      if r.cur + 2 = r.data.length then
        return .stop { r with cur := r.data.length,
                              stats := { r.stats with bytes := r.stats.bytes + 2 } }
      else
        return .stop { r with stats := { r.stats with zeroLength := r.stats.zeroLength + 1 } }
    else if r.data.length < r.cur + 2 + len.toNat then
      return .stop { r with cur := r.data.length,
                            stats := { r.stats with truncated := r.stats.truncated + 1 } }
    else
      let body := r.cur + 2
      let r := { r with cur := r.cur + (2 + len.toNat),
                        stats := { r.stats with bytes := r.stats.bytes + (2 + len.toNat) } }
      let t ← r.data[body]?
      if len < kHeaderLength then return .skip (r.countShort t)
      else
        let expect := specLength t
        if expect = 0 then
          let r := { r with stats := { r.stats with unknownType := r.stats.unknownType + 1 } }
          return .out ⟨body, len⟩ (r.count t)
        else if expect ≠ len then
          let r := { r with stats := { r.stats with lengthMismatch := r.stats.lengthMismatch + 1 } }
          if len < expect then return .skip (r.countShort t)
          else return .out ⟨body, len⟩ (r.count t)
        else return .out ⟨body, len⟩ (r.count t)

/-- `next` with a bound on the messages it skips; the inner `none` is its false. -/
def nextLoop : ℕ → Reader → Option (Option RawMessage × Reader)
  | 0, _ => none
  | fuel + 1, r => do
    match ← r.attempt with
    | .stop r => return (none, r)
    | .skip r => nextLoop fuel r
    | .out m r => return (some m, r)

def next (r : Reader) : Option (Option RawMessage × Reader) := nextLoop (r.data.length + 1) r

/-- The loop `while (r.next(m))`, with a bound on its rounds. -/
def readLoop : ℕ → Reader → Option (List RawMessage × Reader)
  | 0, _ => none
  | fuel + 1, r => do
    match ← r.next with
    | (none, r) => return ([], r)
    | (some m, r) =>
      let (ms, r) ← readLoop fuel r
      return (m :: ms, r)

def readAll (data : List UInt8) : Option (List RawMessage × Reader) :=
  readLoop (data.length + 1) { data := data }

end Reader

end Hotpath.Itch
