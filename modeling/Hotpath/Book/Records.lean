import Hotpath.Book.FlatMap
import Hotpath.Book.IntrusiveTwin

/-!
# The record of a ref in each design

The reference book keeps side, price and quantity of an order under its ref, and so does
the flat book. The pooled designs keep a slot under it, which leads to the order and on
to its level. Books that agree give one record.
-/

namespace Hotpath.Book
open Hotpath.Support

/-- What the slot of `ref` leads to; `none` is a subscript outside a pool. -/
def HybridBook.record (b : HybridBook) (ref : OrderId) : Option (Option MapBook.Rec) := do
  match ← b.ids.find OpenHashMap.hash ref with
  | none => return none
  | some i =>
    let o ← subscript b.orders i
    let level ← subscript b.levels o.level
    return some ⟨level.price, o.qty, o.side⟩

def IntrusiveBook.record (b : IntrusiveBook) (ref : OrderId) : Option (Option MapBook.Rec) := do
  match ← b.ids.find OpenHashMap.hash ref with
  | none => return none
  | some i =>
    let o ← subscript b.orders i
    let level ← subscript b.levels o.level
    return some ⟨level.price, o.qty, o.side⟩

def FlatBook.record (b : FlatBook) (ref : OrderId) : Option (Option MapBook.Rec) :=
  b.ids.find OpenHashMap.hash ref

variable {m : MapBook} {ref : OrderId}

theorem HybridBook.Agrees.record_eq {b : HybridBook} {Q : HybridBook.Queues}
    (ha : HybridBook.Agrees b Q m) (hr : HybridBook.Rep b Q) (href : ref ≠ OpenHashMap.kEmpty) :
    b.record ref = some m.orders[ref]? := by
  have hfind := hr.table.find_spec href
  cases hlookup : OpenHashMap.lookup b.ids ref with
  | none =>
    rw [hlookup] at hfind
    simp only [HybridBook.record, hfind, Option.bind_eq_bind, Option.bind_some,
      ha.no_record href hlookup]
    rfl
  | some i =>
    rw [hlookup] at hfind
    obtain ⟨n, s, p, rfl, hn, -⟩ := hr.named ref href i hlookup
    have hok := hr.order s p n hn
    obtain ⟨li, hli, hin, -, hlevel⟩ := hr.level s p (hr.absent_of hn)
    have horder : subscript b.orders (n : ℤ) = some (b.ord n) := subscript_cast hok.inPool {}
    have hlev : subscript b.levels (b.ord n).level = some (b.lev li) := by
      rw [hok.level, hli]
      exact subscript_cast hin {}
    simp only [HybridBook.record, hfind, horder, hlev, hlevel.price, hok.side,
      Option.bind_eq_bind, Option.bind_some, ha.record href hlookup hn]
    rfl

/-- Without the stamps the pools lead to the same record. -/
theorem IntrusiveBook.Twin.record_eq {h : HybridBook} {i : IntrusiveBook}
    (ht : IntrusiveBook.Twin h i) (ref : OrderId) : i.record ref = h.record ref := by
  have hstrip (n : ℤ) : subscript i.orders n = (subscript h.orders n).map IntrusiveBook.strip := by
    rw [ht.orders_eq, subscript, subscript]
    split
    case isTrue => exact List.getElem?_map ..
    case isFalse => rfl
  rw [IntrusiveBook.record, HybridBook.record, ht.ids_eq, ht.levels_eq]
  simp only [hstrip]
  cases h.ids.find OpenHashMap.hash ref with
  | none => rfl
  | some found =>
    cases found with
    | none => rfl
    | some n =>
      simp only [Option.bind_eq_bind, Option.bind_some]
      cases subscript h.orders n with
      | none => rfl
      | some o => cases hl : subscript h.levels o.level <;> simp [IntrusiveBook.strip, hl]

theorem FlatBook.Agrees.record_eq {b : FlatBook} {W : FlatBook.Standing}
    (ha : FlatBook.Agrees b W m) (hs : FlatBook.Sound b) (href : ref ≠ OpenHashMap.kEmpty) :
    b.record ref = some m.orders[ref]? := by
  rw [FlatBook.record, hs.table.find_spec href, ha.records ref href]

end Hotpath.Book
