import Hotpath.Itch.Reader
import Hotpath.Rtl.ItchParse

/-!
# What the co-simulation compares (rtl/tb_itch_parse.cpp)

The messages of the software parser and those the hardware strobes, in one
shape.
-/

namespace Hotpath.Rtl
open Hotpath.Itch Hotpath.Support

structure Decoded where
  type : UInt8
  length : UInt16
  locate : UInt16
  timestamp : UInt64
  order_ref : UInt64 := 0
  new_ref : UInt64 := 0
  shares : UInt32 := 0
  price : UInt32 := 0
  side_buy : Bool := false
  book_event : Bool := false
  deriving DecidableEq, Repr

/-- The body of the loop of `run_cpp`; `none` is a view that reads past the body. -/
def decode (length : UInt16) (p : List UInt8) : Option Decoded := do
  let t ← Header.type p
  let locate ← Header.locate p
  let timestamp ← Header.timestamp p
  let d : Decoded := { type := t, length := length, locate := locate, timestamp := timestamp }
  if t = ch 'A' ∨ t = ch 'F' then
    let ref ← AddOrderView.orderRef p
    let shares ← AddOrderView.shares p
    let price ← AddOrderView.price p
    let side ← AddOrderView.side p
    return { d with order_ref := ref, shares := shares, price := price, side_buy := side = .buy,
                    book_event := true }
  else if t = ch 'E' ∨ t = ch 'C' then
    let ref ← OrderExecutedView.orderRef p
    let shares ← OrderExecutedView.executedShares p
    return { d with order_ref := ref, shares := shares, book_event := true }
  else if t = ch 'X' then
    let ref ← OrderCancelView.orderRef p
    let shares ← OrderCancelView.cancelledShares p
    return { d with order_ref := ref, shares := shares, book_event := true }
  else if t = ch 'D' then
    let ref ← OrderDeleteView.orderRef p
    return { d with order_ref := ref, book_event := true }
  else if t = ch 'U' then
    let ref ← OrderReplaceView.originalRef p
    let new ← OrderReplaceView.newRef p
    let shares ← OrderReplaceView.shares p
    let price ← OrderReplaceView.price p
    return { d with order_ref := ref, new_ref := new, shares := shares, price := price,
                    book_event := true }
  else return d

/-- The stream through the C++ parser. The loop's body does not touch the reader,
so the messages are decoded after the last call of `next`. -/
def runCpp (bytes : List UInt8) : Option (List Decoded × ReaderStats) := do
  let (msgs, rd) ← Reader.readAll bytes
  let out ← msgs.mapM fun m => do
    let body ← bytesAt bytes m.body m.length.toNat
    decode m.length body
  return (out, rd.stats)

/-- What `run_rtl` reads off the outputs when `m_valid` is high. -/
def Regs.observed (r : Regs) : Decoded where
  type := UInt8.ofBitVec r.mType
  length := UInt16.ofBitVec r.mLength
  locate := UInt16.ofBitVec r.mLocate
  timestamp := UInt64.ofBitVec (r.mTimestamp.setWidth 64)
  order_ref := UInt64.ofBitVec r.mOrderRef
  new_ref := UInt64.ofBitVec r.mNewRef
  shares := UInt32.ofBitVec r.mShares
  price := UInt32.ofBitVec r.mPrice
  side_buy := r.mSideBuy
  book_event := r.mBookEvent

/-- The messages strobed over some edges. -/
def strobed (t : List Regs) : List Decoded := (t.filter Regs.mValid).map Regs.observed

/-- The bytes a schedule presents. -/
def accepted (cs : List Cycle) : List UInt8 := (cs.filter Cycle.valid).map Cycle.byte

end Hotpath.Rtl
