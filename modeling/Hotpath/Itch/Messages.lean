import Hotpath.Itch.ByteOrder

/-!
# ITCH 5.0 messages (itch/messages.hpp, itch/symbol.hpp)

The spec lengths and the typed views. A view reads at fixed offsets of the body
it is given, and is `none` where that lies past the body's end.
-/

namespace Hotpath.Itch
open Hotpath.Support

/-- The byte of a 7-bit character. -/
def ch (c : Char) : UInt8 := UInt8.ofNat c.toNat

/-- The writes that fill the spec length table. -/
def specLengthTable : List (Char × UInt16) :=
  [('S', 12), ('R', 39), ('H', 25), ('Y', 20), ('L', 26),
   ('V', 35), ('W', 12), ('K', 28), ('J', 35), ('h', 21),
   ('A', 36), ('F', 40), ('E', 31), ('C', 36), ('X', 23),
   ('D', 19), ('U', 35), ('P', 44), ('Q', 40), ('B', 19),
   ('I', 50), ('N', 20)]

/-- Zero for a type that is not in the table. -/
def specLength (t : UInt8) : UInt16 :=
  match specLengthTable.find? fun e => ch e.1 = t with
  | some e => e.2
  | none => 0

def kHeaderLength : UInt16 := 11

/-- The 8 bytes of a stock symbol, copied as they lie. -/
structure Symbol where
  raw : UInt64
  deriving DecidableEq, Repr

def Symbol.fromBytes (p : List UInt8) (off : ℕ) : Option Symbol :=
  (bytesAt p off 8).map fun v => ⟨UInt64.ofNat (bigEndian v.reverse)⟩

@[simp] theorem Symbol.fromBytes_isSome {p : List UInt8} {off : ℕ} :
    (Symbol.fromBytes p off).isSome = true ↔ off + 8 ≤ p.length := by
  rw [fromBytes, Option.isSome_map, bytesAt_isSome]

def sideOf (c : UInt8) : Side := if c = ch 'B' then .buy else .sell

namespace Header

def type (p : List UInt8) : Option UInt8 := p[0]?
def locate (p : List UInt8) : Option UInt16 := rdU16 p 1
def tracking (p : List UInt8) : Option UInt16 := rdU16 p 3
def timestamp (p : List UInt8) : Option Ts := rdU48 p 5

end Header

namespace AddOrderView

def orderRef (p : List UInt8) : Option OrderId := rdU64 p 11
def side (p : List UInt8) : Option Side := p[19]?.map sideOf
def shares (p : List UInt8) : Option Qty := rdU32 p 20
def stock (p : List UInt8) : Option Symbol := Symbol.fromBytes p 24
def price (p : List UInt8) : Option Price := rdU32 p 32
/-- Only valid for type `F`. -/
def attribution (p : List UInt8) : Option UInt32 := rdU32 p 36

end AddOrderView

namespace OrderExecutedView

def orderRef (p : List UInt8) : Option OrderId := rdU64 p 11
def executedShares (p : List UInt8) : Option Qty := rdU32 p 19
def matchNumber (p : List UInt8) : Option UInt64 := rdU64 p 23
/-- Only valid for type `C`. -/
def printable (p : List UInt8) : Option Bool := p[31]?.map fun c => c = ch 'Y'
/-- Only valid for type `C`. -/
def executionPrice (p : List UInt8) : Option Price := rdU32 p 32

end OrderExecutedView

namespace OrderCancelView

def orderRef (p : List UInt8) : Option OrderId := rdU64 p 11
def cancelledShares (p : List UInt8) : Option Qty := rdU32 p 19

end OrderCancelView

namespace OrderDeleteView

def orderRef (p : List UInt8) : Option OrderId := rdU64 p 11

end OrderDeleteView

namespace OrderReplaceView

def originalRef (p : List UInt8) : Option OrderId := rdU64 p 11
def newRef (p : List UInt8) : Option OrderId := rdU64 p 19
def shares (p : List UInt8) : Option Qty := rdU32 p 27
def price (p : List UInt8) : Option Price := rdU32 p 31

end OrderReplaceView

/- Type `P`, non-cross. -/
namespace TradeView

def orderRef (p : List UInt8) : Option OrderId := rdU64 p 11
def side (p : List UInt8) : Option Side := p[19]?.map sideOf
def shares (p : List UInt8) : Option Qty := rdU32 p 20
def stock (p : List UInt8) : Option Symbol := Symbol.fromBytes p 24
def price (p : List UInt8) : Option Price := rdU32 p 32
def matchNumber (p : List UInt8) : Option UInt64 := rdU64 p 36

end TradeView

/- Type `Q`. -/
namespace CrossTradeView

def shares (p : List UInt8) : Option UInt64 := rdU64 p 11
def stock (p : List UInt8) : Option Symbol := Symbol.fromBytes p 19
def crossPrice (p : List UInt8) : Option Price := rdU32 p 27
def matchNumber (p : List UInt8) : Option UInt64 := rdU64 p 31
def crossType (p : List UInt8) : Option UInt8 := p[39]?

end CrossTradeView

/- Type `R`. -/
namespace StockDirectoryView

def stock (p : List UInt8) : Option Symbol := Symbol.fromBytes p 11
def marketCategory (p : List UInt8) : Option UInt8 := p[19]?
def roundLotSize (p : List UInt8) : Option Qty := rdU32 p 21

end StockDirectoryView

/- Type `H`. -/
namespace StockTradingActionView

def stock (p : List UInt8) : Option Symbol := Symbol.fromBytes p 11
def tradingState (p : List UInt8) : Option UInt8 := p[19]?

end StockTradingActionView

/- Type `S`. -/
namespace SystemEventView

def eventCode (p : List UInt8) : Option UInt8 := p[11]?

end SystemEventView

/-! ### What a body must hold -/

/-- Every accessor of the common header reads inside the body. -/
structure HeaderReads (p : List UInt8) : Prop where
  type : (Header.type p).isSome
  locate : (Header.locate p).isSome
  tracking : (Header.tracking p).isSome
  timestamp : (Header.timestamp p).isSome

/-- Every accessor of the view of type `t` reads inside the body, those that one
of its types alone may use under that type. -/
def viewReads (t : UInt8) (p : List UInt8) : Prop :=
  (t = ch 'A' ∨ t = ch 'F' →
    (AddOrderView.orderRef p).isSome ∧ (AddOrderView.side p).isSome ∧
    (AddOrderView.shares p).isSome ∧ (AddOrderView.stock p).isSome ∧
    (AddOrderView.price p).isSome) ∧
  (t = ch 'F' → (AddOrderView.attribution p).isSome) ∧
  (t = ch 'E' ∨ t = ch 'C' →
    (OrderExecutedView.orderRef p).isSome ∧ (OrderExecutedView.executedShares p).isSome ∧
    (OrderExecutedView.matchNumber p).isSome) ∧
  (t = ch 'C' → (OrderExecutedView.printable p).isSome ∧
    (OrderExecutedView.executionPrice p).isSome) ∧
  (t = ch 'X' → (OrderCancelView.orderRef p).isSome ∧ (OrderCancelView.cancelledShares p).isSome) ∧
  (t = ch 'D' → (OrderDeleteView.orderRef p).isSome) ∧
  (t = ch 'U' →
    (OrderReplaceView.originalRef p).isSome ∧ (OrderReplaceView.newRef p).isSome ∧
    (OrderReplaceView.shares p).isSome ∧ (OrderReplaceView.price p).isSome) ∧
  (t = ch 'P' →
    (TradeView.orderRef p).isSome ∧ (TradeView.side p).isSome ∧ (TradeView.shares p).isSome ∧
    (TradeView.stock p).isSome ∧ (TradeView.price p).isSome ∧ (TradeView.matchNumber p).isSome) ∧
  (t = ch 'Q' →
    (CrossTradeView.shares p).isSome ∧ (CrossTradeView.stock p).isSome ∧
    (CrossTradeView.crossPrice p).isSome ∧ (CrossTradeView.matchNumber p).isSome ∧
    (CrossTradeView.crossType p).isSome) ∧
  (t = ch 'R' →
    (StockDirectoryView.stock p).isSome ∧ (StockDirectoryView.marketCategory p).isSome ∧
    (StockDirectoryView.roundLotSize p).isSome) ∧
  (t = ch 'H' →
    (StockTradingActionView.stock p).isSome ∧ (StockTradingActionView.tradingState p).isSome) ∧
  (t = ch 'S' → (SystemEventView.eventCode p).isSome)

theorem headerReads_of_le {p : List UInt8} (h : kHeaderLength.toNat ≤ p.length) :
    HeaderReads p := by
  have h' : 11 ≤ p.length := h
  constructor
  · rw [Header.type, isSome_getElem?]
    omega
  · rw [Header.locate, rdU16_isSome]
    omega
  · rw [Header.tracking, rdU16_isSome]
    omega
  · rw [Header.timestamp, rdU48_isSome]
    omega

/-- A body of its type's spec length holds every field of the type's view. -/
theorem viewReads_of_le {t : UInt8} {p : List UInt8} (h : (specLength t).toNat ≤ p.length) :
    viewReads t p := by
  have hspec : ∀ c n, specLength (ch c) = n → t = ch c → n.toNat ≤ p.length := by
    rintro c n hn rfl
    rwa [hn] at h
  refine ⟨fun ht => ?_, fun ht => ?_, fun ht => ?_, fun ht => ?_, fun ht => ?_, fun ht => ?_,
    fun ht => ?_, fun ht => ?_, fun ht => ?_, fun ht => ?_, fun ht => ?_, fun ht => ?_⟩
  · have hl : 36 ≤ p.length := by
      cases ht with
      | inl ht => exact hspec 'A' 36 (by decide) ht
      | inr ht => exact le_trans (by decide) (hspec 'F' 40 (by decide) ht)
    simp only [AddOrderView.orderRef, AddOrderView.side, AddOrderView.shares, AddOrderView.stock,
      AddOrderView.price, rdU64_isSome, rdU32_isSome, Symbol.fromBytes_isSome, Option.isSome_map,
      isSome_getElem?]
    omega
  · have hl : 40 ≤ p.length := hspec 'F' 40 (by decide) ht
    rw [AddOrderView.attribution, rdU32_isSome]
    omega
  · have hl : 31 ≤ p.length := by
      cases ht with
      | inl ht => exact hspec 'E' 31 (by decide) ht
      | inr ht => exact le_trans (by decide) (hspec 'C' 36 (by decide) ht)
    simp only [OrderExecutedView.orderRef, OrderExecutedView.executedShares,
      OrderExecutedView.matchNumber, rdU64_isSome, rdU32_isSome]
    omega
  · have hl : 36 ≤ p.length := hspec 'C' 36 (by decide) ht
    simp only [OrderExecutedView.printable, OrderExecutedView.executionPrice, rdU32_isSome,
      Option.isSome_map, isSome_getElem?]
    omega
  · have hl : 23 ≤ p.length := hspec 'X' 23 (by decide) ht
    simp only [OrderCancelView.orderRef, OrderCancelView.cancelledShares, rdU64_isSome,
      rdU32_isSome]
    omega
  · have hl : 19 ≤ p.length := hspec 'D' 19 (by decide) ht
    rw [OrderDeleteView.orderRef, rdU64_isSome]
    omega
  · have hl : 35 ≤ p.length := hspec 'U' 35 (by decide) ht
    simp only [OrderReplaceView.originalRef, OrderReplaceView.newRef, OrderReplaceView.shares,
      OrderReplaceView.price, rdU64_isSome, rdU32_isSome]
    omega
  · have hl : 44 ≤ p.length := hspec 'P' 44 (by decide) ht
    simp only [TradeView.orderRef, TradeView.side, TradeView.shares, TradeView.stock,
      TradeView.price, TradeView.matchNumber, rdU64_isSome, rdU32_isSome, Symbol.fromBytes_isSome,
      Option.isSome_map, isSome_getElem?]
    omega
  · have hl : 40 ≤ p.length := hspec 'Q' 40 (by decide) ht
    simp only [CrossTradeView.shares, CrossTradeView.stock, CrossTradeView.crossPrice,
      CrossTradeView.matchNumber, CrossTradeView.crossType, rdU64_isSome, rdU32_isSome,
      Symbol.fromBytes_isSome, isSome_getElem?]
    omega
  · have hl : 39 ≤ p.length := hspec 'R' 39 (by decide) ht
    simp only [StockDirectoryView.stock, StockDirectoryView.marketCategory,
      StockDirectoryView.roundLotSize, rdU32_isSome, Symbol.fromBytes_isSome, isSome_getElem?]
    omega
  · have hl : 25 ≤ p.length := hspec 'H' 25 (by decide) ht
    simp only [StockTradingActionView.stock, StockTradingActionView.tradingState,
      Symbol.fromBytes_isSome, isSome_getElem?]
    omega
  · have hl : 12 ≤ p.length := hspec 'S' 12 (by decide) ht
    rw [SystemEventView.eventCode, isSome_getElem?]
    omega

end Hotpath.Itch
