import Hotpath.Core.OpenHashSpec
import Hotpath.Book.FlatBook
import Hotpath.Book.HybridRep

/-!
# What a flat book holds

`Standing` gives for each side and price the orders deposited there and not yet
withdrawn. A cell is what the book stores about a level, in the grid or in the
overflow map, and `cellOf` is what it should be: the aggregate of what stands
there.
-/

namespace Hotpath.Book.FlatBook
open Hotpath.Support
open HybridBook (set2 set2_same set2_other set2_set2 IsTop beyond ofNat_pred)

variable {b b' : FlatBook} {s s' : Side} {p p' : Price} {q qty : Qty} {ref : OrderId}

abbrev Standing := Side → Price → List (OrderId × Qty)

def total (l : List (OrderId × Qty)) : ℕ := (l.map fun x => x.2.toNat).sum

/-- What is stored about a level. -/
structure Cell where
  used : Bool
  qty : Qty
  cnt : UInt32
  deriving DecidableEq

def cellOf (l : List (OrderId × Qty)) : Cell :=
  ⟨decide (l ≠ []), UInt32.ofNat (total l), UInt32.ofNat l.length⟩

def span (b : FlatBook) : Span := ⟨b.lo, b.ticks⟩

def mapCell : Option Agg → Cell
  | none => ⟨false, 0, 0⟩
  | some a => ⟨true, a.qty, a.orders⟩

def cell (b : FlatBook) (s : Side) (p : Price) : Cell :=
  if b.inGrid p then ⟨bitAt (b.grid s).bits (b.tickOf p), (b.grid s).qty.getD (b.tickOf p) 0,
    (b.grid s).cnt.getD (b.tickOf p) 0⟩
  else mapCell (b.over_ s)[p]?

/-- A cell after an arrival. -/
def Cell.arrive (c : Cell) (inside : Bool) (q : Qty) : Cell :=
  ⟨c.used || c.cnt = 0 || !inside, c.qty + q, c.cnt + 1⟩

/-- A cell after a departure; the overflow map has no cell to depart from when
the price is not in it. -/
def Cell.depart (c : Cell) (inside : Bool) (q : Qty) : Cell :=
  if inside then ⟨c.used && c.cnt - 1 ≠ 0, c.qty - q, c.cnt - 1⟩
  else if ¬c.used then c
  else if c.cnt - 1 = 0 then ⟨false, 0, 0⟩ else ⟨true, c.qty - q, c.cnt - 1⟩

/-- A cell some of whose shares are taken. -/
def Cell.shrink (c : Cell) (inside : Bool) (q : Qty) : Cell :=
  if inside || c.used then { c with qty := c.qty - q } else c

/-- A cached tick is none, or one of the window. -/
def Names (ticks : ℕ) (h : ℤ) : Prop := h = -1 ∨ ∃ t : ℕ, h = t ∧ t < ticks

/-- The sizes that the subscripts rely on. -/
structure Sized (b : FlatBook) : Prop where
  window : b.span.Ok
  qtys : ∀ s, (b.grid s).qty.length = b.ticks
  cnts : ∀ s, (b.grid s).cnt.length = b.ticks
  bits : ∀ s, TickSet b.span (b.grid s).bits
  outside : ∀ s p, p ∈ b.over_ s → b.inGrid p = false
  hints : ∀ s, Names b.ticks (b.grid s).hint

/-- The fields a change of the levels leaves alone. -/
structure Kept (b b' : FlatBook) : Prop where
  lo : b'.lo = b.lo
  ticks : b'.ticks = b.ticks
  ids : b'.ids = b.ids
  rejected : b'.rejected = b.rejected

theorem Kept.inGrid (h : Kept b b') (p : Price) : b'.inGrid p = b.inGrid p := by
  simp only [FlatBook.inGrid, h.lo, h.ticks]

theorem Kept.tickOf (h : Kept b b') (p : Price) : b'.tickOf p = b.tickOf p := by
  simp only [FlatBook.tickOf, h.lo]

theorem Kept.span (h : Kept b b') : b'.span = b.span := by
  simp only [FlatBook.span, h.lo, h.ticks]

theorem tick_lt (h : b.inGrid p = true) : b.tickOf p < b.ticks := Span.tickOf_lt (w := b.span) h

theorem raiseHint_names {ticks t : ℕ} {h : ℤ} (hh : Names ticks h) (ht : t < ticks) :
    Names ticks (raiseHint s h t) := by
  have hnew : Names ticks t := Or.inr ⟨t, rfl, ht⟩
  unfold raiseHint
  split
  · exact hnew
  · cases s with
    | buy =>
      dsimp only
      split
      · exact hnew
      · exact hh
    | sell =>
      dsimp only
      split
      · exact hnew
      · exact hh

theorem tick_word (hs : Sized b) (h : b.inGrid p = true) (s : Side) :
    b.tickOf p / 64 < (b.grid s).bits.length := by
  have ht := tick_lt h
  have hw : (b.grid s).bits.length = (b.ticks + 63) / 64 := (hs.bits s).words
  rw [hw]
  omega

/-! ### Changing one cell -/

/-- The grid of one side is replaced by one that differs at one tick. -/
theorem Sized.regrid (hs : Sized b) (hin : b.inGrid p = true) {g : Grid} (hk : Kept b b')
    (hgrid : b'.grid = Function.update b.grid s g) (hover : b'.over_ = b.over_)
    (hq : g.qty.length = b.ticks) (hc : g.cnt.length = b.ticks)
    (hb : g.bits.length = (b.grid s).bits.length) (hh : Names b.ticks g.hint) {c : Cell}
    (hqget : ∀ t, g.qty.getD t 0 = if t = b.tickOf p then c.qty else (b.grid s).qty.getD t 0)
    (hcget : ∀ t, g.cnt.getD t 0 = if t = b.tickOf p then c.cnt else (b.grid s).cnt.getD t 0)
    (hbget : ∀ t, bitAt g.bits t = if t = b.tickOf p then c.used else bitAt (b.grid s).bits t) :
    Sized b' ∧ b'.cell = set2 b.cell s p c := by
  have hsame : b'.grid s = g := by rw [hgrid, Function.update_self]
  have hother : ∀ s', s' ≠ s → b'.grid s' = b.grid s' := by
    intro s' hne
    rw [hgrid, Function.update_of_ne hne]
  constructor
  · refine ⟨by rw [hk.span]; exact hs.window, fun s' => ?_, fun s' => ?_, fun s' => ?_,
      fun s' p' hp => ?_, fun s' => ?_⟩
    · rw [hk.ticks]
      by_cases he : s' = s
      · rw [he, hsame, hq]
      · rw [hother s' he, hs.qtys]
    · rw [hk.ticks]
      by_cases he : s' = s
      · rw [he, hsame, hc]
      · rw [hother s' he, hs.cnts]
    · rw [hk.span]
      by_cases he : s' = s
      · rw [he, hsame]
        refine ⟨hs.window, hb.trans (hs.bits s).words, fun t ht => ?_⟩
        rw [hbget] at ht
        by_cases hte : t = b.tickOf p
        · rw [hte]
          exact tick_lt hin
        · rw [if_neg hte] at ht
          exact (hs.bits s).inside t ht
      · rw [hother s' he]
        exact hs.bits s'
    · rw [hover] at hp
      rw [hk.inGrid]
      exact hs.outside s' p' hp
    · rw [hk.ticks]
      by_cases he : s' = s
      · rw [he, hsame]
        exact hh
      · rw [hother s' he]
        exact hs.hints s'
  · funext s' p'
    unfold cell
    rw [hk.inGrid, hk.tickOf, hover]
    by_cases he : s' = s ∧ p' = p
    · obtain ⟨rfl, rfl⟩ := he
      rw [set2_same, if_pos hin, hsame, hqget, hcget, hbget, if_pos rfl, if_pos rfl, if_pos rfl]
    · rw [set2_other he]
      show _ = b.cell s' p'
      unfold cell
      by_cases hin' : b.inGrid p' = true
      · rw [if_pos hin', if_pos hin']
        by_cases hse : s' = s
        · have htick : b.tickOf p' ≠ b.tickOf p := by
            intro ht
            exact he ⟨hse, hs.window.tickOf_inj hin' hin ht⟩
          rw [hse, hsame, hqget, hcget, hbget, if_neg htick, if_neg htick, if_neg htick]
        · rw [hother s' hse]
      · rw [if_neg hin', if_neg hin']

/-- The overflow map of one side is replaced by one that differs at one price. -/
theorem Sized.remap (hs : Sized b) (hin : b.inGrid p = false)
    {m : Std.TreeMap Price Agg} (hk : Kept b b') (hgrid : b'.grid = b.grid)
    (hover : b'.over_ = Function.update b.over_ s m) {a : Option Agg}
    (hm : ∀ p', m[p']? = if p' = p then a else (b.over_ s)[p']?) :
    Sized b' ∧ b'.cell = set2 b.cell s p (mapCell a) := by
  have hget : ∀ s' p', (b'.over_ s')[p']? =
      if s' = s ∧ p' = p then a else (b.over_ s')[p']? := by
    intro s' p'
    rw [hover]
    by_cases he : s' = s
    · rw [he, Function.update_self, hm]
      by_cases hp : p' = p
      · rw [if_pos hp, if_pos ⟨rfl, hp⟩]
      · rw [if_neg hp, if_neg fun h => hp h.2]
    · rw [Function.update_of_ne he, if_neg fun h => he h.1]
  constructor
  · refine ⟨by rw [hk.span]; exact hs.window, fun s' => ?_, fun s' => ?_, fun s' => ?_,
      fun s' p' hp => ?_, fun s' => ?_⟩
    · rw [hk.ticks, hgrid]
      exact hs.qtys s'
    · rw [hk.ticks, hgrid]
      exact hs.cnts s'
    · rw [hk.span, hgrid]
      exact hs.bits s'
    · rw [hk.inGrid]
      rw [Std.TreeMap.mem_iff_isSome_getElem?, hget] at hp
      by_cases he : s' = s ∧ p' = p
      · rw [he.2]
        exact hin
      · rw [if_neg he, ← Std.TreeMap.mem_iff_isSome_getElem?] at hp
        exact hs.outside s' p' hp
    · rw [hk.ticks, hgrid]
      exact hs.hints s'
  · funext s' p'
    unfold cell
    rw [hk.inGrid, hk.tickOf, hgrid, hget]
    by_cases he : s' = s ∧ p' = p
    · obtain ⟨rfl, rfl⟩ := he
      have hin' : ¬b.inGrid p' = true := by rw [hin]; decide
      rw [set2_same, if_neg hin', if_pos ⟨rfl, rfl⟩]
    · rw [set2_other he, if_neg he]

/-! ### Arrivals and departures -/

theorem Sized.cnt_at (hs : Sized b) (hin : b.inGrid p = true) (s : Side) :
    subscript (b.grid s).cnt (b.tickOf p : ℤ) = some (b.cell s p).cnt := by
  rw [cell, if_pos hin]
  exact subscript_cast (by rw [hs.cnts]; exact tick_lt hin) _

theorem cell_over (hin : b.inGrid p = false) (s : Side) :
    b.cell s p = mapCell (b.over_ s)[p]? := by
  have hin' : ¬b.inGrid p = true := by rw [hin]; decide
  rw [cell, if_neg hin']

/-- What becomes of the cached ticks when only side `s` changes, at price `p`. -/
def HintsAt (b b' : FlatBook) (s : Side) (p : Price) (h : ℤ) : Prop :=
  ∀ s', (b'.grid s').hint = if s' = s ∧ b.inGrid p = true then h else (b.grid s').hint

theorem hintsAt_grid {g : Grid} (hin : b.inGrid p = true)
    (hgrid : b'.grid = Function.update b.grid s g) : HintsAt b b' s p g.hint := by
  intro s'
  rw [hgrid]
  by_cases he : s' = s
  · rw [he, Function.update_self, if_pos ⟨rfl, hin⟩]
  · rw [Function.update_of_ne he, if_neg fun h => he h.1]

theorem hintsAt_over {h : ℤ} (hin : b.inGrid p = false) (hgrid : b'.grid = b.grid) :
    HintsAt b b' s p h := by
  intro s'
  have hc : ¬(s' = s ∧ b.inGrid p = true) := by
    rw [hin]
    exact fun h => absurd h.2 (by decide)
  rw [hgrid, if_neg hc]

theorem Sized.arrive (hs : Sized b) (s : Side) (p : Price) (q : Qty) :
    ∃ b', b.deposit s p q 1 = some b' ∧ Sized b' ∧ Kept b b' ∧
      b'.cell = set2 b.cell s p ((b.cell s p).arrive (b.inGrid p) q) ∧
      HintsAt b b' s p (raiseHint s (b.grid s).hint (b.tickOf p)) := by
  have hpos : (0 : ℤ) < 1 := by decide
  by_cases hin : b.inGrid p = true
  · have ht := tick_lt hin
    obtain ⟨cnt, hcnt, hclen, hcget⟩ :=
      modifyAt_get (by rw [hs.cnts s]; exact ht) (fun n : UInt32 => n + 1) 0
    obtain ⟨qs, hq, hqlen, hqget⟩ :=
      modifyAt_get (by rw [hs.qtys s]; exact ht) (fun x : Qty => x + q) 0
    have hno : ¬¬b.inGrid p = true := not_not.mpr hin
    have hcell : b.cell s p = ⟨bitAt (b.grid s).bits (b.tickOf p),
        (b.grid s).qty.getD (b.tickOf p) 0, (b.grid s).cnt.getD (b.tickOf p) 0⟩ := by
      rw [cell, if_pos hin]
    -- the first order of a level sets its bit
    have hg : ∃ bits, b.deposit s p q 1 = some { b with
          gridOps := b.gridOps + 1
          grid := Function.update b.grid s
            ⟨qs, cnt, bits, raiseHint s (b.grid s).hint (b.tickOf p)⟩ } ∧
        bits.length = (b.grid s).bits.length ∧
        ∀ t, bitAt bits t = if t = b.tickOf p then ((b.cell s p).arrive true q).used
          else bitAt (b.grid s).bits t := by
      by_cases h0 : (b.cell s p).cnt = 0
      · obtain ⟨bits, hset, hlen, hget⟩ := setBit_spec (tick_word hs hin s)
        refine ⟨bits, ?_, hlen, fun t => ?_⟩
        · simp only [deposit, if_neg hno, hs.cnt_at hin, if_pos hpos, hcnt, if_pos h0, hset, hq,
            Option.bind_eq_bind, Option.bind_some]
          rfl
        · rw [hget, Cell.arrive, h0]
          simp
      · refine ⟨(b.grid s).bits, ?_, rfl, fun t => ?_⟩
        · simp only [deposit, if_neg hno, hs.cnt_at hin, if_pos hpos, hcnt, if_neg h0, hq,
            Option.bind_eq_bind, Option.bind_some]
          rfl
        · split
          · rename_i he
            rw [he, Cell.arrive, decide_eq_false h0, hcell]
            simp
          · rfl
    obtain ⟨bits, hrun, hblen, hbget⟩ := hg
    have hkept : Kept b { b with
        gridOps := b.gridOps + 1
        grid := Function.update b.grid s
          ⟨qs, cnt, bits, raiseHint s (b.grid s).hint (b.tickOf p)⟩ } := ⟨rfl, rfl, rfl, rfl⟩
    obtain ⟨hs', hc'⟩ := hs.regrid hin hkept rfl rfl (hqlen.trans (hs.qtys s))
      (hclen.trans (hs.cnts s)) hblen (raiseHint_names (hs.hints s) ht)
      (c := (b.cell s p).arrive true q)
      (fun t => by rw [hqget, Cell.arrive, hcell]) (fun t => by rw [hcget, Cell.arrive, hcell])
      hbget
    rw [hin]
    exact ⟨_, hrun, hs', hkept, hc', hintsAt_grid
      (g := ⟨qs, cnt, bits, raiseHint s (b.grid s).hint (b.tickOf p)⟩) hin rfl⟩
  · have hout : b.inGrid p = false := by simpa using hin
    have hrun : b.deposit s p q 1 = some { b with
        overflowOps := b.overflowOps + 1
        over_ := Function.update b.over_ s ((b.over_ s).insert p
          ⟨((b.over_ s)[p]?.getD {}).qty + q, ((b.over_ s)[p]?.getD {}).orders + 1⟩) } := by
      simp only [deposit, if_pos hin, if_pos hpos]
      rfl
    have hkept : Kept b { b with
        overflowOps := b.overflowOps + 1
        over_ := Function.update b.over_ s ((b.over_ s).insert p
          ⟨((b.over_ s)[p]?.getD {}).qty + q, ((b.over_ s)[p]?.getD {}).orders + 1⟩) } :=
      ⟨rfl, rfl, rfl, rfl⟩
    obtain ⟨hs', hc'⟩ := hs.remap hout hkept rfl rfl fun p' => getElem?_insert_if ..
    refine ⟨_, hrun, hs', hkept, ?_, hintsAt_over hout rfl⟩
    rw [hc', cell_over hout, hout]
    congr 1
    cases (b.over_ s)[p]? with
    | none => simp [mapCell, Cell.arrive]
    | some a => simp [mapCell, Cell.arrive]

theorem Sized.depart (hs : Sized b) (s : Side) (p : Price) (q : Qty) :
    ∃ b', b.deposit s p q (-1) = some b' ∧ Sized b' ∧ Kept b b' ∧
      b'.cell = set2 b.cell s p ((b.cell s p).depart (b.inGrid p) q) ∧
      HintsAt b b' s p (if (b.cell s p).cnt - 1 = 0 ∧ (b.grid s).hint = b.tickOf p then -1
        else (b.grid s).hint) := by
  have hneg : ¬(0 : ℤ) < -1 := by decide
  by_cases hin : b.inGrid p = true
  · have ht := tick_lt hin
    obtain ⟨cnt, hcnt, hclen, hcget⟩ :=
      modifyAt_get (by rw [hs.cnts s]; exact ht) (fun n : UInt32 => n - 1) 0
    obtain ⟨qs, hq, hqlen, hqget⟩ :=
      modifyAt_get (by rw [hs.qtys s]; exact ht) (fun x : Qty => x - q) 0
    have hno : ¬¬b.inGrid p = true := not_not.mpr hin
    have hcell : b.cell s p = ⟨bitAt (b.grid s).bits (b.tickOf p),
        (b.grid s).qty.getD (b.tickOf p) 0, (b.grid s).cnt.getD (b.tickOf p) 0⟩ := by
      rw [cell, if_pos hin]
    -- either way the new grid differs in this cell and in the cached tick
    have hg : ∃ bits h, b.deposit s p q (-1) = some { b with
          gridOps := b.gridOps + 1
          grid := Function.update b.grid s ⟨qs, cnt, bits, h⟩ } ∧
        bits.length = (b.grid s).bits.length ∧
        (∀ t, bitAt bits t = if t = b.tickOf p then ((b.cell s p).depart true q).used
          else bitAt (b.grid s).bits t) ∧
        h = if (b.cell s p).cnt - 1 = 0 ∧ (b.grid s).hint = b.tickOf p then -1
          else (b.grid s).hint := by
      by_cases h0 : (b.cell s p).cnt - 1 = 0
      · obtain ⟨bits, hclear, hlen, hget⟩ := clearBit_spec (tick_word hs hin s)
        refine ⟨bits, if (b.grid s).hint = b.tickOf p then -1 else (b.grid s).hint, ?_, hlen,
          fun t => ?_, ?_⟩
        · simp only [deposit, if_neg hno, hs.cnt_at hin, if_neg hneg, hcnt, hq, if_pos h0, hclear,
            Option.bind_eq_bind, Option.bind_some]
          rfl
        · rw [hget, Cell.depart, if_pos rfl, h0]
          simp
        · simp only [h0, true_and]
      · refine ⟨(b.grid s).bits, (b.grid s).hint, ?_, rfl, fun t => ?_, ?_⟩
        · simp only [deposit, if_neg hno, hs.cnt_at hin, if_neg hneg, hcnt, hq, if_neg h0,
            Option.bind_eq_bind, Option.bind_some]
          rfl
        · split
          · rename_i he
            rw [he, Cell.depart, if_pos rfl, decide_eq_true h0, Bool.and_true, hcell]
          · rfl
        · rw [if_neg fun h => h0 h.1]
    obtain ⟨bits, h, hrun, hblen, hbget, hh⟩ := hg
    have hnames : Names b.ticks h := by
      rw [hh]
      split
      · exact Or.inl rfl
      · exact hs.hints s
    have hkept : Kept b { b with
        gridOps := b.gridOps + 1
        grid := Function.update b.grid s ⟨qs, cnt, bits, h⟩ } := ⟨rfl, rfl, rfl, rfl⟩
    obtain ⟨hs', hc'⟩ := hs.regrid hin hkept rfl rfl (hqlen.trans (hs.qtys s))
      (hclen.trans (hs.cnts s)) hblen hnames (c := (b.cell s p).depart true q)
      (fun t => by rw [hqget, Cell.depart, if_pos rfl, hcell])
      (fun t => by rw [hcget, Cell.depart, if_pos rfl, hcell]) hbget
    rw [hin, ← hh]
    exact ⟨_, hrun, hs', hkept, hc', hintsAt_grid (g := ⟨qs, cnt, bits, h⟩) hin rfl⟩
  · have hout : b.inGrid p = false := by simpa using hin
    have hm : ∃ m : Std.TreeMap Price Agg, ∃ a, b.deposit s p q (-1) = some { b with
          overflowOps := b.overflowOps + 1
          over_ := Function.update b.over_ s m } ∧
        (∀ p', m[p']? = if p' = p then a else (b.over_ s)[p']?) ∧
        mapCell a = (b.cell s p).depart false q := by
      rw [cell_over hout]
      cases hget : (b.over_ s)[p]? with
      | none =>
        refine ⟨b.over_ s, none, ?_, fun p' => ?_, rfl⟩
        · simp only [deposit, if_pos hin, if_neg hneg, hget]
          rfl
        · split
          · rename_i he
            rw [he, hget]
          · rfl
      | some a =>
        by_cases h0 : a.orders - 1 = 0
        · refine ⟨(b.over_ s).erase p, none, ?_, fun p' => getElem?_erase_if .., ?_⟩
          · simp only [deposit, if_pos hin, if_neg hneg, hget, if_pos h0]
            rfl
          · simp [mapCell, Cell.depart, h0]
        · refine ⟨(b.over_ s).insert p ⟨a.qty - q, a.orders - 1⟩, some ⟨a.qty - q, a.orders - 1⟩,
            ?_, fun p' => getElem?_insert_if .., ?_⟩
          · simp only [deposit, if_pos hin, if_neg hneg, hget, if_neg h0]
            rfl
          · simp [mapCell, Cell.depart, h0]
    obtain ⟨m, a, hrun, hget, ha⟩ := hm
    have hkept : Kept b { b with
        overflowOps := b.overflowOps + 1
        over_ := Function.update b.over_ s m } := ⟨rfl, rfl, rfl, rfl⟩
    obtain ⟨hs', hc'⟩ := hs.remap hout hkept rfl rfl hget
    rw [ha] at hc'
    rw [hout]
    exact ⟨_, hrun, hs', hkept, hc', hintsAt_over hout rfl⟩

theorem Sized.shrink (hs : Sized b) (s : Side) (p : Price) (q : Qty) :
    ∃ b', b.shrink s p q = some b' ∧ Sized b' ∧ Kept b b' ∧
      b'.cell = set2 b.cell s p ((b.cell s p).shrink (b.inGrid p) q) ∧
      HintsAt b b' s p (b.grid s).hint := by
  by_cases hin : b.inGrid p = true
  · have ht := tick_lt hin
    obtain ⟨qs, hq, hqlen, hqget⟩ :=
      modifyAt_get (by rw [hs.qtys s]; exact ht) (fun x : Qty => x - q) 0
    have hcell : b.cell s p = ⟨bitAt (b.grid s).bits (b.tickOf p),
        (b.grid s).qty.getD (b.tickOf p) 0, (b.grid s).cnt.getD (b.tickOf p) 0⟩ := by
      rw [cell, if_pos hin]
    have hrun : b.shrink s p q =
        some { b with grid := Function.update b.grid s { b.grid s with qty := qs } } := by
      simp only [FlatBook.shrink, if_pos hin, hq, Option.bind_eq_bind, Option.bind_some]
      rfl
    have hkept : Kept b { b with grid := Function.update b.grid s { b.grid s with qty := qs } } :=
      ⟨rfl, rfl, rfl, rfl⟩
    have hnew : (b.cell s p).shrink true q = ⟨bitAt (b.grid s).bits (b.tickOf p),
        (b.grid s).qty.getD (b.tickOf p) 0 - q, (b.grid s).cnt.getD (b.tickOf p) 0⟩ := by
      rw [hcell]
      rfl
    obtain ⟨hs', hc'⟩ := hs.regrid hin hkept rfl rfl (hqlen.trans (hs.qtys s)) (hs.cnts s) rfl
      (hs.hints s) (c := (b.cell s p).shrink true q) (fun t => by rw [hqget, hnew])
      (fun t => by
        rw [hnew]
        split
        · rename_i he
          rw [he]
        · rfl)
      (fun t => by
        rw [hnew]
        split
        · rename_i he
          rw [he]
        · rfl)
    rw [hin]
    exact ⟨_, hrun, hs', hkept, hc', hintsAt_grid (g := { b.grid s with qty := qs }) hin rfl⟩
  · have hout : b.inGrid p = false := by simpa using hin
    have hm : ∃ m : Std.TreeMap Price Agg, ∃ a, b.shrink s p q =
          some { b with over_ := Function.update b.over_ s m } ∧
        (∀ p', m[p']? = if p' = p then a else (b.over_ s)[p']?) ∧
        mapCell a = (b.cell s p).shrink false q := by
      rw [cell_over hout]
      cases hget : (b.over_ s)[p]? with
      | none =>
        refine ⟨b.over_ s, none, ?_, fun p' => ?_, rfl⟩
        · simp only [FlatBook.shrink, if_neg hin, hget, Function.update_eq_self]
          rfl
        · split
          · rename_i he
            rw [he, hget]
          · rfl
      | some a =>
        refine ⟨(b.over_ s).insert p { a with qty := a.qty - q }, some { a with qty := a.qty - q },
          ?_, fun p' => getElem?_insert_if .., rfl⟩
        simp only [FlatBook.shrink, if_neg hin, hget]
        rfl
    obtain ⟨m, a, hrun, hget, ha⟩ := hm
    have hkept : Kept b { b with over_ := Function.update b.over_ s m } := ⟨rfl, rfl, rfl, rfl⟩
    obtain ⟨hs', hc'⟩ := hs.remap hout hkept rfl rfl hget
    rw [ha] at hc'
    rw [hout]
    exact ⟨_, hrun, hs', hkept, hc', hintsAt_over hout rfl⟩

/-! ### The cells as what stands there -/

theorem total_cons (x : OrderId × Qty) (l : List (OrderId × Qty)) :
    total (x :: l) = x.2.toNat + total l := rfl

theorem total_erase {l : List (OrderId × Qty)} {x : OrderId × Qty} (h : x ∈ l) :
    total l = x.2.toNat + total (l.erase x) := by
  rw [← total_cons]
  exact ((List.perm_cons_erase h).map _).sum_eq

theorem cellOf_cons (x : OrderId × Qty) (l : List (OrderId × Qty)) (inside : Bool) :
    (cellOf l).arrive inside x.2 = cellOf (x :: l) := by
  have hused : ((cellOf l).used || (cellOf l).cnt = 0 || !inside) = true := by
    cases l with
    | nil => simp [cellOf]
    | cons y l => simp [cellOf]
  have hqty : (cellOf l).qty + x.2 = UInt32.ofNat (total (x :: l)) := by
    rw [total_cons, Nat.add_comm, UInt32.ofNat_add, UInt32.ofNat_toNat]
    rfl
  have hcnt : (cellOf l).cnt + 1 = UInt32.ofNat (x :: l).length := by
    rw [List.length_cons, UInt32.ofNat_add]
    rfl
  rw [Cell.arrive, hused, hqty, hcnt, cellOf]
  simp

/-- The count of a level reads one when its last order leaves. -/
theorem cnt_last {x : OrderId × Qty} {l : List (OrderId × Qty)} (h : x ∈ l)
    (hle : l.length ≤ 2 ^ 32) : (cellOf l).cnt - 1 = 0 ↔ l.erase x = [] := by
  have hpos := List.length_pos_of_mem h
  have hlen := List.length_erase_of_mem h
  rw [← List.length_eq_zero_iff, hlen]
  exact (ofNat_pred hle hpos).2.trans (by omega)

theorem cellOf_erase {x : OrderId × Qty} {l : List (OrderId × Qty)} (h : x ∈ l)
    (hle : l.length ≤ 2 ^ 32) (inside : Bool) :
    (cellOf l).depart inside x.2 = cellOf (l.erase x) := by
  have hpos := List.length_pos_of_mem h
  have hpred := (ofNat_pred hle hpos).1
  have hlen := List.length_erase_of_mem h
  have hne : l ≠ [] := List.ne_nil_of_mem h
  have hqty : (cellOf l).qty - x.2 = UInt32.ofNat (total (l.erase x)) := by
    show UInt32.ofNat (total l) - x.2 = _
    rw [total_erase h, Nat.add_comm, UInt32.ofNat_add, UInt32.ofNat_toNat, UInt32.add_sub_cancel]
  have hcnt : (cellOf l).cnt - 1 = UInt32.ofNat (l.erase x).length := by
    rw [hlen]
    exact hpred
  have hzero := cnt_last h hle
  have hused : (cellOf l).used = true := decide_eq_true hne
  by_cases h0 : l.erase x = []
  · have hc0 := hzero.mpr h0
    have hq0 : (cellOf l).qty - x.2 = 0 := by
      rw [hqty, h0]
      rfl
    rw [Cell.depart, hused, hc0, hq0, h0]
    cases inside <;> rfl
  · have hc0 : ¬(cellOf l).cnt - 1 = 0 := fun h => h0 (hzero.mp h)
    have hnew : cellOf (l.erase x) = ⟨true, (cellOf l).qty - x.2, (cellOf l).cnt - 1⟩ := by
      rw [hqty, hcnt, cellOf, decide_eq_true h0]
    rw [hnew, Cell.depart, hused]
    cases inside with
    | true => simp [hc0]
    | false => simp [hc0]

/-- The order `x` of a level after `take` of its shares. -/
def cut (l : List (OrderId × Qty)) (x : OrderId × Qty) (take : Qty) : List (OrderId × Qty) :=
  (x.1, x.2 - take) :: l.erase x

theorem cellOf_cut {x : OrderId × Qty} {l : List (OrderId × Qty)} (h : x ∈ l) {take : Qty}
    (hle : take ≤ x.2) (inside : Bool) :
    (cellOf l).shrink inside take = cellOf (cut l x take) := by
  have hne : l ≠ [] := List.ne_nil_of_mem h
  have hlen : (cut l x take).length = l.length := by
    have hpos := List.length_pos_of_mem h
    rw [cut, List.length_cons, List.length_erase_of_mem h]
    omega
  have hsub := UInt32.toNat_sub_of_le _ _ hle
  have hle' := UInt32.le_iff_toNat_le.mp hle
  have htotal : total l = total (cut l x take) + take.toNat := by
    rw [cut, total_cons, total_erase h, hsub]
    omega
  have hqty : (cellOf l).qty - take = UInt32.ofNat (total (cut l x take)) := by
    show UInt32.ofNat (total l) - take = _
    rw [htotal, UInt32.ofNat_add, UInt32.ofNat_toNat, UInt32.add_sub_cancel]
  have hused : (cellOf l).used = true := decide_eq_true hne
  rw [Cell.shrink, hused, Bool.or_true, if_pos rfl, hqty]
  have hcnt : (cellOf l).cnt = UInt32.ofNat (cut l x take).length := by
    rw [hlen]
    rfl
  rw [hcnt]
  rfl

end Hotpath.Book.FlatBook
