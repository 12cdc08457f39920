import Hotpath.Itch.Messages
import Hotpath.Support.ShiftRegister

/-!
# The hardware parser (rtl/itch_parse.sv)

One byte for each clock on which `s_valid` is high. `step` is one clock edge:
every right-hand side reads the registers as they were (`r`), and of two
assignments to one register the later one stands (`n` carries them).
-/

namespace Hotpath.Rtl
open Hotpath.Itch Hotpath.Support

/-- `state_t`. -/
inductive State where
  | lenHi
  | lenLo
  | body
  deriving DecidableEq, Repr, Inhabited

/-- Every flop of the module, its outputs included. -/
structure Regs where
  state : State
  len : BitVec 16
  cnt : BitVec 16
  emit : Bool
  emitLen : BitVec 16
  emitShort : Bool
  accTs : BitVec 48
  accLocate : BitVec 16
  accRef : BitVec 64
  accRef2 : BitVec 64
  accQ19 : BitVec 32
  accQ20 : BitVec 32
  accQ27 : BitVec 32
  accP31 : BitVec 32
  accP32 : BitVec 32
  accSide : Bool
  mValid : Bool
  mType : BitVec 8
  mLength : BitVec 16
  mTimestamp : BitVec 48
  mLocate : BitVec 16
  mOrderRef : BitVec 64
  mNewRef : BitVec 64
  mShares : BitVec 32
  mPrice : BitVec 32
  mSideBuy : Bool
  mBookEvent : Bool
  eShort : Bool
  eZeroLen : Bool
  deriving Inhabited

/-- The inputs at one clock edge. -/
structure Cycle where
  rst : Bool := false
  valid : Bool
  byte : UInt8
  deriving DecidableEq, Repr

def headerLen : BitVec 16 := 11

/-- A character literal. -/
def lit (c : Char) : BitVec 8 := (ch c).toBitVec

/-- Zero for a type this build does not know. -/
def specLength (t : BitVec 8) : BitVec 16 :=
  if t = lit 'S' then 12 else if t = lit 'R' then 39
  else if t = lit 'H' then 25 else if t = lit 'Y' then 20
  else if t = lit 'L' then 26 else if t = lit 'V' then 35
  else if t = lit 'W' then 12 else if t = lit 'K' then 28
  else if t = lit 'J' then 35 else if t = lit 'h' then 21
  else if t = lit 'A' then 36 else if t = lit 'F' then 40
  else if t = lit 'E' then 31 else if t = lit 'C' then 36
  else if t = lit 'X' then 23 else if t = lit 'D' then 19
  else if t = lit 'U' then 35 else if t = lit 'P' then 44
  else if t = lit 'Q' then 40 else if t = lit 'B' then 19
  else if t = lit 'I' then 50 else if t = lit 'N' then 20
  else 0

namespace Regs

def isAdd (r : Regs) : Bool := r.mType = lit 'A' ∨ r.mType = lit 'F'
def isExec (r : Regs) : Bool := r.mType = lit 'E' ∨ r.mType = lit 'C'
def isCancel (r : Regs) : Bool := r.mType = lit 'X'
def isDelete (r : Regs) : Bool := r.mType = lit 'D'
def isReplace (r : Regs) : Bool := r.mType = lit 'U'
def isBook (r : Regs) : Bool :=
  r.isAdd ∨ r.isExec ∨ r.isCancel ∨ r.isDelete ∨ r.isReplace

/-- The reset branch. -/
def reset (r : Regs) : Regs :=
  { r with
    state := .lenHi
    mValid := false
    eShort := false
    eZeroLen := false
    cnt := 0
    len := 0
    emit := false }

/-- The strobes fall unless something raises them again. -/
def clearStrobes (r : Regs) : Regs := { r with mValid := false, eShort := false, eZeroLen := false }

/-- `S_LEN_HI`: the upper half of `len`. -/
def acceptLenHi (r n : Regs) (b : UInt8) : Regs :=
  { n with len := b.toBitVec ++ r.len.extractLsb' 0 8, state := .lenLo }

/-- `S_LEN_LO`: the lower half; a zero length is reported and the next frame
awaited. -/
def acceptLenLo (r n : Regs) (b : UInt8) : Regs :=
  let len := r.len.extractLsb' 8 8 ++ b.toBitVec
  let n := { n with len := len, cnt := 0 }
  if len = 0 then { n with eZeroLen := true, state := .lenHi } else { n with state := .body }

/-- The accumulator enables of `S_BODY`. -/
def capture (r n : Regs) (b : UInt8) : Regs :=
  { n with
    mType := if r.cnt = 0 then b.toBitVec else r.mType
    accLocate := if 1 ≤ r.cnt ∧ r.cnt ≤ 2 then shiftIn r.accLocate b else r.accLocate
    accTs := if 5 ≤ r.cnt ∧ r.cnt ≤ 10 then shiftIn r.accTs b else r.accTs
    accRef := if 11 ≤ r.cnt ∧ r.cnt ≤ 18 then shiftIn r.accRef b else r.accRef
    accRef2 := if 19 ≤ r.cnt ∧ r.cnt ≤ 26 then shiftIn r.accRef2 b else r.accRef2
    accQ19 := if 19 ≤ r.cnt ∧ r.cnt ≤ 22 then shiftIn r.accQ19 b else r.accQ19
    accQ20 := if 20 ≤ r.cnt ∧ r.cnt ≤ 23 then shiftIn r.accQ20 b else r.accQ20
    accQ27 := if 27 ≤ r.cnt ∧ r.cnt ≤ 30 then shiftIn r.accQ27 b else r.accQ27
    accP31 := if 31 ≤ r.cnt ∧ r.cnt ≤ 34 then shiftIn r.accP31 b else r.accP31
    accP32 := if 32 ≤ r.cnt ∧ r.cnt ≤ 35 then shiftIn r.accP32 b else r.accP32
    accSide := if r.cnt = 19 then b = ch 'B' else r.accSide }

/-- The condition under which a body is rejected, from the type register as it
stands before the edge. -/
def tooShort (r : Regs) : Bool :=
  r.len < headerLen ∨ (specLength r.mType ≠ 0 ∧ r.len < specLength r.mType)

/-- `S_BODY`: capture, and arm the emit on the last byte. -/
def acceptBody (r n : Regs) (b : UInt8) : Regs :=
  let n := capture r n b
  let n := if r.cnt = r.len - 1
    then { n with state := .lenHi, emit := true, emitLen := r.len, emitShort := r.tooShort } else n
  { n with cnt := r.cnt + 1 }

def accept (r n : Regs) (b : UInt8) : Regs :=
  match r.state with
  | .lenHi => acceptLenHi r n b
  | .lenLo => acceptLenLo r n b
  | .body => acceptBody r n b

/-- The armed emit: reject, or put the message on the outputs. -/
def strobe (r n : Regs) : Regs :=
  let n := { n with emit := false }
  if r.emitShort then { n with eShort := true }
  else { n with
    mValid := true
    mLength := r.emitLen
    mTimestamp := r.accTs
    mLocate := r.accLocate
    mOrderRef := if r.isBook then r.accRef else 0
    mNewRef := if r.isReplace then r.accRef2 else 0
    mSideBuy := if r.isAdd then r.accSide else false
    mBookEvent := r.isBook
    mShares := if r.isAdd then r.accQ20
      else if r.isExec ∨ r.isCancel then r.accQ19
      else if r.isReplace then r.accQ27
      else 0
    mPrice := if r.isAdd then r.accP32
      else if r.isReplace then r.accP31
      else 0 }

/-- One clock edge. -/
def step (c : Cycle) (r : Regs) : Regs :=
  if c.rst then r.reset
  else
    let n := r.clearStrobes
    let n := if c.valid then accept r n c.byte else n
    if r.emit then strobe r n else n

/-- The registers after each edge. -/
def trace (r : Regs) : List Cycle → List Regs
  | [] => []
  | c :: cs => step c r :: trace (step c r) cs

end Regs

end Hotpath.Rtl
