import Hotpath.Book.FlatRep

/-!
# Walking the flat book best price first

The grid of a side is a set of ticks, and `snapshot` is the walk over it and the
overflow map.
-/

namespace Hotpath.Book.FlatBook
open Hotpath.Support
open HybridBook (IsTop)

variable {b : FlatBook} {s : Side} {p : Price}

theorem better_eq (s : Side) (p q : Price) : better s p q = HybridBook.better s p q := by
  cases s <;> rfl

/-- The scans of both grid designs over any bitmap of the ticks: every word they read is
there, they end, and what they return is the nearest set tick. -/
theorem scans_find_nearest {bits : List Word} {ticks : ℕ} {from_ : ℤ}
    (hlen : bits.length = (ticks + 63) / 64) (hclear : ∀ t, ticks ≤ t → bitAt bits t = false)
    (hlow : -1 ≤ from_) :
    (∀ (b : HybridBook) (g : HybridBook.SideGrid), b.ticks = ticks → g.bits = bits →
      (from_ < ticks → ∃ r, HybridBook.scanDownGrid g from_ = some r ∧
        IsLast (fun t => bitAt bits t = true ∧ (t : ℤ) ≤ from_) r) ∧
      ∃ r, b.scanUpGrid g from_ = some r ∧
        IsFirst (fun t => bitAt bits t = true ∧ from_ ≤ t) r) ∧
    (∀ (b : FlatBook) (g : Grid), b.ticks = ticks → g.bits = bits →
      (from_ < ticks → ∃ r, b.scan .buy g from_ = some r ∧
        IsLast (fun t => bitAt bits t = true ∧ (t : ℤ) ≤ from_) r) ∧
      ∃ r, b.scan .sell g from_ = some r ∧
        IsFirst (fun t => bitAt bits t = true ∧ from_ ≤ t) r) := by
  constructor
  case left =>
    intro b g hticks hbits
    rw [HybridBook.scanDownGrid, HybridBook.scanUpGrid, hticks, hbits]
    exact ⟨scanDown_at hlen hlow, scanUp_at hlen hclear⟩
  case right =>
    intro b g hticks hbits
    rw [scan, scan, hticks, hbits]
    exact ⟨scanDown_at hlen hlow, scanUp_at hlen hclear⟩

/-- Ticks 3 and 66 of a window of 70, sought from 65. -/
theorem scans_find_nearest_two : ∃ b, make 0 6900 4 = some b ∧
    (∃ r, b.scan .buy ⟨[], [], [8, 4], -1⟩ 65 = some r ∧
      IsLast (fun t => bitAt [8, 4] t = true ∧ (t : ℤ) ≤ 65) r) ∧
    ∃ r, b.scan .sell ⟨[], [], [8, 4], -1⟩ 65 = some r ∧
      IsFirst (fun t => bitAt [8, 4] t = true ∧ (65 : ℤ) ≤ t) r := by
  have hmake : (make 0 6900 4).map FlatBook.ticks = some 70 := by decide +kernel
  obtain ⟨b, hb, hticks⟩ := Option.map_eq_some_iff.mp hmake
  have hclear (t : ℕ) (ht : 70 ≤ t) : bitAt [8, 4] t = false := by
    by_cases hword : t / 64 < 2
    case pos =>
      have hsplit : t / 64 = 1 := by omega
      have hbit : 6 ≤ t % 64 := by omega
      have hlt : t % 64 < 64 := Nat.mod_lt t (by decide)
      rw [bitAt, hsplit]
      generalize t % 64 = i at hbit hlt
      interval_cases i <;> rfl
    case neg => exact bitAt_beyond (Nat.le_of_not_lt hword)
  have hboth := @scans_find_nearest [8, 4] 70 65 rfl hclear (by decide)
  obtain ⟨hdown, hup⟩ := hboth.2 b ⟨[], [], [8, 4], -1⟩ hticks rfl
  exact ⟨b, hb, hdown (by decide), hup⟩

theorem scan_eq (b : FlatBook) (s : Side) (from_ : ℤ) :
    b.scan s (b.grid s) from_ = scanTicks (b.grid s).bits b.span.ticks s from_ := by
  cases s <;> rfl

theorem scanNext_eq (s : Side) (t : ℤ) : scanNext s t = HybridBook.scanNext s t := by
  cases s <;> rfl

theorem Sized.scan_start (hs : Sized b) (s : Side) :
    ∃ r, b.scan s (b.grid s) (b.scanStart s) = some r ∧
      IsTop s (fun t => bitAt (b.grid s).bits t = true) r := by
  rw [scan_eq]
  apply (hs.bits s).scan_start s
  cases s <;> rfl

/-- An occupied price is one of a set tick or a key of the overflow map. -/
theorem Sized.used_iff (hs : Sized b) (s : Side) (p : Price) : (b.cell s p).used = true ↔
    (∃ t, bitAt (b.grid s).bits t = true ∧ p = b.span.priceOf t) ∨ p ∈ b.over_ s := by
  by_cases hin : b.inGrid p = true
  · have hno : ¬p ∈ b.over_ s := by
      intro h
      rw [hs.outside s p h] at hin
      cases hin
    rw [or_iff_left hno, cell, if_pos hin]
    constructor
    · exact fun h => ⟨b.tickOf p, h, (hs.window.priceOf_tickOf hin).symm⟩
    · intro h
      obtain ⟨t, ht, rfl⟩ := h
      have htick : b.tickOf (b.span.priceOf t) = t :=
        hs.window.tickOf_priceOf ((hs.bits s).inside t ht)
      rw [htick]
      exact ht
  · have hout : b.inGrid p = false := by simpa using hin
    have hno : ¬∃ t, bitAt (b.grid s).bits t = true ∧ p = b.span.priceOf t := by
      intro h
      obtain ⟨t, ht, rfl⟩ := h
      exact hin (hs.window.inGrid_priceOf ((hs.bits s).inside t ht))
    rw [or_iff_right hno, cell_over hout, Std.TreeMap.mem_iff_isSome_getElem?]
    cases (b.over_ s)[p]? <;> simp [mapCell]

def viewAt (b : FlatBook) (s : Side) (p : Price) : LevelView :=
  ⟨p, (b.cell s p).qty, (b.cell s p).cnt⟩

theorem collectLoop_walk (b : FlatBook) (s : Side) (n : ℕ) (t : ℤ) (oit : List (Price × Agg)) :
    b.collectLoop s n t oit = walk b.span (b.grid s).bits s
      (fun t => (subscript (b.grid s).qty (t : ℤ)).bind fun q =>
        (subscript (b.grid s).cnt (t : ℤ)).map fun n => ⟨b.span.priceOf t, q, n⟩)
      (fun x => some ⟨x.1, x.2.qty, x.2.orders⟩) n t oit := by
  induction n generalizing t oit with
  | zero => rfl
  | succ n ih =>
    by_cases ht : t < 0
    · cases oit with
      | nil => rw [collectLoop, walk, if_pos ht, if_pos ht]
      | cons x rest =>
        rw [collectLoop, walk, if_pos ht, if_pos ht]
        simp only [ih]
        rfl
    · obtain ⟨k, rfl⟩ := Int.eq_ofNat_of_zero_le (not_lt.mp ht)
      have hfirst : ∀ oit, ((subscript (b.grid s).qty (k : ℤ)).bind fun q =>
          (subscript (b.grid s).cnt (k : ℤ)).bind fun cnt =>
            (b.scan s (b.grid s) (scanNext s k)).bind fun next =>
              (b.collectLoop s n next oit).bind fun rest =>
                some (LevelView.mk (b.priceOf k) q cnt :: rest)) =
          ((subscript (b.grid s).qty (k : ℤ)).bind fun q =>
            (subscript (b.grid s).cnt (k : ℤ)).map fun n =>
              LevelView.mk (b.span.priceOf k) q n).bind fun view =>
            (scanTicks (b.grid s).bits b.span.ticks s (HybridBook.scanNext s k)).bind fun t =>
              (b.collectLoop s n t oit).bind fun rest => some (view :: rest) := by
        intro oit
        rw [scan_eq, scanNext_eq]
        cases subscript (b.grid s).qty (k : ℤ) with
        | none => rfl
        | some q =>
          cases subscript (b.grid s).cnt (k : ℤ) with
          | none => rfl
          | some c => rfl
      cases oit with
      | nil =>
        rw [collectLoop, walk, if_neg ht, if_neg ht]
        simp only [← ih]
        exact hfirst []
      | cons x rest =>
        rw [collectLoop, walk, if_neg ht, if_neg ht]
        simp only [← ih, better_eq, Int.toNat_natCast]
        show (if HybridBook.better s (b.span.priceOf k) x.1 = true then _ else _) = _
        by_cases hb : HybridBook.better s (b.span.priceOf k) x.1 = true
        · rw [if_pos hb, if_pos hb]
          exact hfirst (x :: rest)
        · rw [if_neg hb, if_neg hb]
          rfl

/-- Whatever list of the occupied prices is sorted best first, `collect` returns
the views of its first entries. -/
theorem Sized.collect_eq (hs : Sized b) {oit : List (Price × Agg)} {L : List Price}
    (hL : L.Pairwise fun p q => HybridBook.better s p q = true)
    (hmem : ∀ p, p ∈ L ↔ (b.cell s p).used = true)
    (hsorted : oit.Pairwise fun x y => HybridBook.better s x.1 y.1 = true)
    (hoit : ∀ p a, (p, a) ∈ oit ↔ (b.over_ s)[p]? = some a) :
    b.collect s oit = some ((L.take kSnapshotDepth).map (viewAt b s)) := by
  obtain ⟨r, hr, htop⟩ := hs.scan_start s
  simp only [collect, hr, Option.bind_eq_bind, Option.bind_some, collectLoop_walk]
  apply walk_eq (hs.bits s) (P := fun _ => True)
  · intro t ht
    have hlt : t < b.ticks := (hs.bits s).inside t ht
    have hin : b.inGrid (b.span.priceOf t) = true := hs.window.inGrid_priceOf hlt
    have htick : b.tickOf (b.span.priceOf t) = t := hs.window.tickOf_priceOf hlt
    have hq : subscript (b.grid s).qty (t : ℤ) = some ((b.grid s).qty.getD t 0) :=
      subscript_cast (by rw [hs.qtys]; exact hlt) _
    have hc : subscript (b.grid s).cnt (t : ℤ) = some ((b.grid s).cnt.getD t 0) :=
      subscript_cast (by rw [hs.cnts]; exact hlt) _
    rw [hq, hc, viewAt, cell, if_pos hin, htick]
    rfl
  · exact htop.congr fun t => (and_iff_left trivial).symm
  · exact fun _ _ _ _ => trivial
  · exact hL
  · intro p
    rw [hmem, hs.used_iff]
    constructor
    · intro h
      cases h with
      | inl h =>
        obtain ⟨t, ht, hp⟩ := h
        exact Or.inl ⟨t, ht, trivial, hp⟩
      | inr h =>
        rw [Std.TreeMap.mem_iff_isSome_getElem?, Option.isSome_iff_exists] at h
        obtain ⟨a, ha⟩ := h
        exact Or.inr ⟨(p, a), (hoit p a).mpr ha, rfl⟩
    · intro h
      cases h with
      | inl h =>
        obtain ⟨t, ht, -, hp⟩ := h
        exact Or.inl ⟨t, ht, hp⟩
      | inr h =>
        obtain ⟨⟨q, a⟩, ha, rfl⟩ := h
        have hget := (hoit p a).mp ha
        right
        rw [Std.TreeMap.mem_iff_isSome_getElem?, hget]
        rfl
  · exact hsorted
  · intro x hx
    have hget := (hoit x.1 x.2).mp hx
    have hout : b.inGrid x.1 = false := by
      apply hs.outside s
      rw [Std.TreeMap.mem_iff_isSome_getElem?, hget]
      rfl
    refine ⟨hout, ?_⟩
    rw [viewAt, cell_over hout, hget]
    rfl

end Hotpath.Book.FlatBook
