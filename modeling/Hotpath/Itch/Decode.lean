import Hotpath.Itch.Framing

/-!
# Messages as the tools read them (itch/messages.hpp)

The tools switch on a message's type and read the fields of its view. `Message`
holds what they read, whichever of them reads it.
-/

namespace Hotpath.Itch
open Reader

abbrev StockLocate := UInt16

inductive Message where
  | directory (locate : StockLocate) (stock : Symbol)
  | add (ts : Ts) (locate : StockLocate) (ref : OrderId) (side : Side) (shares : Qty)
      (price : Price)
  | execute (ts : Ts) (ref : OrderId) (shares : Qty)
  | cancel (ts : Ts) (ref : OrderId) (shares : Qty)
  | delete (ts : Ts) (ref : OrderId)
  | replace (ts : Ts) (original new : OrderId) (shares : Qty) (price : Price)
  | other
  deriving DecidableEq, Repr

namespace Message

/-- The switch of the tools' loops, up to what each case does with the fields. -/
def decode (p : List UInt8) : Option Message := do
  let t ← Header.type p
  if t = ch 'R' then
    return .directory (← Header.locate p) (← StockDirectoryView.stock p)
  else if t = ch 'A' ∨ t = ch 'F' then
    return .add (← Header.timestamp p) (← Header.locate p) (← AddOrderView.orderRef p)
      (← AddOrderView.side p) (← AddOrderView.shares p) (← AddOrderView.price p)
  else if t = ch 'E' ∨ t = ch 'C' then
    return .execute (← Header.timestamp p) (← OrderExecutedView.orderRef p)
      (← OrderExecutedView.executedShares p)
  else if t = ch 'X' then
    return .cancel (← Header.timestamp p) (← OrderCancelView.orderRef p)
      (← OrderCancelView.cancelledShares p)
  else if t = ch 'D' then
    return .delete (← Header.timestamp p) (← OrderDeleteView.orderRef p)
  else if t = ch 'U' then
    return .replace (← Header.timestamp p) (← OrderReplaceView.originalRef p)
      (← OrderReplaceView.newRef p) (← OrderReplaceView.shares p) (← OrderReplaceView.price p)
  else return .other

/-- Every body the reader hands out decodes. -/
theorem decode_isSome {body : List UInt8} (h : kept body = true) : (decode body).isSome := by
  obtain ⟨⟨-, hloc, -, hts⟩, t, ht, hadd, -, hexec, -, hcancel, hdel, hrep, -, -, hdir, -⟩ :=
    kept_reads h
  obtain ⟨loc, hloc⟩ := Option.isSome_iff_exists.mp hloc
  obtain ⟨ts, hts⟩ := Option.isSome_iff_exists.mp hts
  simp only [Option.isSome_iff_exists] at hadd hexec hcancel hdel hrep hdir
  simp only [decode, ht, hloc, hts, Option.bind_eq_bind, Option.bind_some]
  split_ifs with hR hA hE hX hD hU
  · obtain ⟨⟨s, hs⟩, -⟩ := hdir hR
    simp [hs]
  · obtain ⟨⟨r, hr⟩, ⟨sd, hsd⟩, ⟨q, hq⟩, -, px, hpx⟩ := hadd hA
    simp [hr, hsd, hq, hpx]
  · obtain ⟨⟨r, hr⟩, ⟨q, hq⟩, -⟩ := hexec hE
    simp [hr, hq]
  · obtain ⟨⟨r, hr⟩, q, hq⟩ := hcancel hX
    simp [hr, hq]
  · obtain ⟨r, hr⟩ := hdel hD
    simp [hr]
  · obtain ⟨⟨o, ho⟩, ⟨n, hn⟩, ⟨q, hq⟩, px, hpx⟩ := hrep hU
    simp [ho, hn, hq, hpx]
  · rfl

end Message

/-- What a tool's loop `while (reader.next(m))` sees, and the reader it leaves. -/
def messages (data : List UInt8) : Option (List Message × Reader) := do
  let (ms, r) ← Reader.readAll data
  let xs ← ms.mapM fun m => (bytesAt data m.body m.length.toNat).bind Message.decode
  return (xs, r)

/-- The decoded kept frames. -/
def decoded (data : List UInt8) : List Message :=
  ((frames data).filter kept).map fun body => (Message.decode body).getD .other

/-- On every input the loop sees each kept frame, and none is read out of bounds. -/
theorem messages_eq (data : List UInt8) : (messages data).map Prod.fst = some (decoded data) := by
  have hdecode := mapM_some (g := fun _ body => Message.decode body)
    (h := fun body => (Message.decode body).getD .other) (messagesAt_frames data)
    (fun m body _ hk => by
      obtain ⟨x, hx⟩ := Option.isSome_iff_exists.mp
        (Message.decode_isSome (List.mem_filter.mp hk).2)
      rw [hx, Option.getD_some])
  simp only [messages, readAll_eq, Option.bind_eq_bind, Option.bind_some] at hdecode ⊢
  rw [hdecode]
  rfl

end Hotpath.Itch
