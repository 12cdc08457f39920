import Hotpath.Support.OrderedMap
import Hotpath.Book.HybridBook
import Hotpath.Book.MapBook
import Hotpath.Book.TickScan

/-!
# Walking a grid and its overflow map

What the grid designs have in common: the dense window of ticks, the bitmap of
the ticks in use, the ordered map of the prices the window has no tick for, and
the walk that merges the two, best price first.
-/

namespace Hotpath.Book
open Hotpath.Support

/-! ### The window -/

/-- A window of ticks from the price `lo` up. -/
structure Span where
  lo : Price
  ticks : ℕ

namespace Span
variable {w : Span}

def inGrid (w : Span) (px : Price) : Bool :=
  w.lo ≤ px ∧ px % 100 = 0 ∧ ((px - w.lo) / 100).toNat < w.ticks

def tickOf (w : Span) (px : Price) : ℕ := ((px - w.lo) / 100).toNat

def priceOf (w : Span) (t : ℕ) : Price := w.lo + UInt32.ofNat t * 100

/-- What the constructors establish about a window. -/
structure Ok (w : Span) : Prop where
  aligned : w.lo.toNat % 100 = 0
  pos : 0 < w.ticks
  top : w.lo.toNat + 100 * (w.ticks - 1) < 2 ^ 32

theorem offset_toNat {px : Price} (h : w.lo ≤ px) :
    ((px - w.lo) / 100).toNat = (px.toNat - w.lo.toNat) / 100 := by
  rw [UInt32.toNat_div, UInt32.toNat_sub_of_le _ _ h]
  rfl

theorem inGrid_iff {px : Price} : w.inGrid px = true ↔
    w.lo.toNat ≤ px.toNat ∧ px.toNat % 100 = 0 ∧ (px.toNat - w.lo.toNat) / 100 < w.ticks := by
  have hmod : px % 100 = 0 ↔ px.toNat % 100 = 0 := by
    rw [← UInt32.toNat_inj, UInt32.toNat_mod]
    rfl
  simp only [inGrid, decide_eq_true_eq, hmod, UInt32.le_iff_toNat_le]
  constructor
  · rintro ⟨hlo, hm, ht⟩
    exact ⟨hlo, hm, by rwa [offset_toNat (UInt32.le_iff_toNat_le.mpr hlo)] at ht⟩
  · rintro ⟨hlo, hm, ht⟩
    exact ⟨hlo, hm, by rwa [offset_toNat (UInt32.le_iff_toNat_le.mpr hlo)]⟩

theorem tickOf_eq {px : Price} (h : w.inGrid px = true) :
    w.tickOf px = (px.toNat - w.lo.toNat) / 100 :=
  offset_toNat (UInt32.le_iff_toNat_le.mpr (inGrid_iff.mp h).1)

theorem tickOf_lt {px : Price} (h : w.inGrid px = true) : w.tickOf px < w.ticks := by
  rw [tickOf_eq h]
  exact (inGrid_iff.mp h).2.2

theorem Ok.priceOf_toNat (hw : Ok w) {t : ℕ} (ht : t < w.ticks) :
    (w.priceOf t).toNat = w.lo.toNat + 100 * t := by
  have htop := hw.top
  have ht32 : t < 2 ^ 32 := by omega
  have htick : (100 : Price).toNat = 100 := rfl
  rw [priceOf, UInt32.toNat_add, UInt32.toNat_mul, htick, UInt32.toNat_ofNat_of_lt' ht32]
  omega

theorem Ok.inGrid_priceOf (hw : Ok w) {t : ℕ} (ht : t < w.ticks) :
    w.inGrid (w.priceOf t) = true := by
  have ha := hw.aligned
  rw [inGrid_iff, hw.priceOf_toNat ht]
  omega

theorem Ok.tickOf_priceOf (hw : Ok w) {t : ℕ} (ht : t < w.ticks) :
    w.tickOf (w.priceOf t) = t := by
  rw [tickOf_eq (hw.inGrid_priceOf ht), hw.priceOf_toNat ht]
  omega

theorem Ok.priceOf_tickOf (hw : Ok w) {px : Price} (h : w.inGrid px = true) :
    w.priceOf (w.tickOf px) = px := by
  have ha := hw.aligned
  have hg := inGrid_iff.mp h
  rw [← UInt32.toNat_inj, hw.priceOf_toNat (tickOf_lt h), tickOf_eq h]
  omega

theorem Ok.tickOf_inj (hw : Ok w) {p q : Price} (hp : w.inGrid p = true)
    (hq : w.inGrid q = true) (h : w.tickOf p = w.tickOf q) : p = q := by
  rw [← hw.priceOf_tickOf hp, ← hw.priceOf_tickOf hq, h]

theorem Ok.priceOf_lt (hw : Ok w) {t u : ℕ} (ht : t < w.ticks) (hu : u < w.ticks) :
    w.priceOf t < w.priceOf u ↔ t < u := by
  rw [UInt32.lt_iff_toNat_lt, hw.priceOf_toNat ht, hw.priceOf_toNat hu]
  omega

/-- The window of a constructor whose bounds are not inverted. -/
theorem Ok.make {lo hi : Price} (h : ¬hi < lo - lo % 100) :
    Ok ⟨lo - lo % 100, ((hi - (lo - lo % 100)) / 100).toNat + 1⟩ := by
  have htick : (100 : Price).toNat = 100 := rfl
  have hlo : (lo - lo % 100).toNat = lo.toNat - lo.toNat % 100 := by
    rw [UInt32.toNat_sub_of_le, UInt32.toNat_mod, htick]
    rw [UInt32.le_iff_toNat_le, UInt32.toNat_mod]
    exact Nat.mod_le _ _
  have hhi := hi.toNat_lt
  have hle := UInt32.le_iff_toNat_le.mp (UInt32.not_lt.mp h)
  refine ⟨?_, Nat.succ_pos _, ?_⟩
  · show (lo - lo % 100).toNat % 100 = 0
    rw [hlo]
    omega
  · show (lo - lo % 100).toNat + 100 * (((hi - (lo - lo % 100)) / 100).toNat + 1 - 1) < _
    rw [UInt32.toNat_div, UInt32.toNat_sub_of_le _ _ (UInt32.not_lt.mp h), htick]
    omega

end Span

/-! ### The order of a side -/

namespace HybridBook
variable {s : Side}

/-- Tick `u` is worse than tick `t`. -/
def beyond (s : Side) (t u : ℕ) : Prop :=
  match s with
  | .buy => u < t
  | .sell => t < u

/-- `r` is the best tick of a set, `-1` when it is empty. -/
def IsTop (s : Side) (P : ℕ → Prop) (r : ℤ) : Prop :=
  (r = -1 ∧ ∀ t, ¬P t) ∨ ∃ t : ℕ, r = t ∧ P t ∧ ∀ u, P u → u = t ∨ beyond s t u

theorem beyond_trans {t u v : ℕ} (h : beyond s t u) (h' : beyond s u v) : beyond s t v := by
  cases s <;> simp only [beyond] at * <;> omega

theorem better_iff {p q : Price} : better s p q = true ↔
    match s with
    | .buy => q.toNat < p.toNat
    | .sell => p.toNat < q.toNat := by
  cases s <;> simp only [better, decide_eq_true_eq, gt_iff_lt, UInt32.lt_iff_toNat_lt]

theorem better_irrefl (p : Price) : ¬better s p p = true := by
  rw [better_iff]
  cases s <;> simp

theorem better_asymm {p q : Price} (h : better s p q = true) : ¬better s q p = true := by
  rw [better_iff] at h ⊢
  cases s <;> dsimp only at * <;> omega

theorem better_total (p q : Price) : better s p q = true ∨ p = q ∨ better s q p = true := by
  rw [better_iff, better_iff, ← UInt32.toNat_inj]
  cases s <;> dsimp only <;> omega

theorem better_trans {p q r : Price} (h : better s p q = true) (h' : better s q r = true) :
    better s p r = true := by
  rw [better_iff] at *
  cases s <;> dsimp only at * <;> omega

theorem better_head {L : List Price} (hL : L.Pairwise fun p q => better s p q = true) {p : Price}
    (hp : p ∈ L) (hbest : ∀ q ∈ L, q = p ∨ better s p q = true) : ∃ L', L = p :: L' := by
  cases L with
  | nil => cases hp
  | cons q L =>
    rcases hbest q (List.mem_cons_self ..) with rfl | hq
    · exact ⟨L, rfl⟩
    · rcases List.mem_cons.mp hp with rfl | hp
      · exact ⟨L, rfl⟩
      · exact absurd ((List.pairwise_cons.mp hL).1 p hp) (better_asymm hq)

theorem sorted_rest {L : List Price} {p q : Price}
    (hL : (p :: L).Pairwise fun a b => better s a b = true) : q ∈ L ↔ q ∈ p :: L ∧ q ≠ p := by
  constructor
  · intro h
    refine ⟨List.mem_cons_of_mem _ h, fun he => ?_⟩
    rw [he] at h
    exact better_irrefl p ((List.pairwise_cons.mp hL).1 p h)
  · rintro ⟨h, hne⟩
    rcases List.mem_cons.mp h with h | h
    · exact absurd h hne
    · exact h

theorem IsTop.congr {P P' : ℕ → Prop} {r : ℤ} (h : IsTop s P r) (hp : ∀ t, P t ↔ P' t) :
    IsTop s P' r := by
  rcases h with ⟨hr, hn⟩ | ⟨t, hr, ht, hb⟩
  · exact Or.inl ⟨hr, fun t ht => hn t ((hp t).mpr ht)⟩
  · exact Or.inr ⟨t, hr, (hp t).mp ht, fun u hu => hb u ((hp u).mpr hu)⟩

/-- The top is a member, if there is one. -/
theorem IsTop.mem {P : ℕ → Prop} {r : ℤ} (h : IsTop s P r) : r = -1 ∨ ∃ t : ℕ, r = t ∧ P t := by
  rcases h with ⟨h, -⟩ | ⟨t, h, ht, -⟩
  · exact Or.inl h
  · exact Or.inr ⟨t, h, ht⟩

theorem top_of_last {P : ℕ → Prop} {r : ℤ} (h : IsLast P r) : IsTop .buy P r := by
  rcases h with h | ⟨t, hr, ht, hb⟩
  · exact Or.inl h
  · refine Or.inr ⟨t, hr, ht, fun u hu => ?_⟩
    by_contra hc
    rw [not_or] at hc
    have hlt : ¬u < t := hc.2
    exact hb u (by omega) hu

theorem top_of_first {P : ℕ → Prop} {r : ℤ} (h : IsFirst P r) : IsTop .sell P r := by
  rcases h with h | ⟨t, hr, ht, hb⟩
  · exact Or.inl h
  · refine Or.inr ⟨t, hr, ht, fun u hu => ?_⟩
    by_contra hc
    rw [not_or] at hc
    have hlt : ¬t < u := hc.2
    exact hb u (by omega) hu

theorem bids_sorted {β : Type} (levels : Std.TreeMap Price β greater) :
    (levels.toList.map Prod.fst).Pairwise fun p q => better .buy p q = true := by
  rw [List.pairwise_map]
  refine Std.TreeMap.ordered_keys_toList.imp fun {x y} h => ?_
  have hlt : compare y.1 x.1 = Ordering.lt := h
  rw [better, decide_eq_true_eq]
  exact Std.compare_eq_lt.mp hlt

theorem asks_sorted {β : Type} (levels : Std.TreeMap Price β) :
    levels.toList.Pairwise fun x y => better .sell x.1 y.1 = true := by
  refine Std.TreeMap.ordered_keys_toList.imp fun {x y} h => ?_
  rw [better, decide_eq_true_eq]
  exact Std.compare_eq_lt.mp h

theorem reversed_sorted {β : Type} (levels : Std.TreeMap Price β) :
    levels.toList.reverse.Pairwise fun x y => better .buy x.1 y.1 = true := by
  rw [List.pairwise_reverse]
  refine Std.TreeMap.ordered_keys_toList.imp fun {x y} h => ?_
  rw [better, decide_eq_true_eq]
  exact Std.compare_eq_lt.mp h

end HybridBook

open HybridBook

variable {w : Span} {s : Side} {bits : List Word}

theorem Span.Ok.better_priceOf (hw : w.Ok) {t u : ℕ} (ht : t < w.ticks) (hu : u < w.ticks)
    (h : beyond s t u) : better s (w.priceOf t) (w.priceOf u) = true := by
  cases s <;> simp only [better, beyond, decide_eq_true_eq] at *
  · exact (hw.priceOf_lt hu ht).mpr h
  · exact (hw.priceOf_lt ht hu).mpr h

/-! ### Scans -/

/-- The next set tick of a side: downwards for bids, upwards for asks. -/
def scanTicks (bits : List Word) (ticks : ℕ) (side : Side) (from_ : ℤ) : Option ℤ :=
  match side with
  | .buy => scanDown bits from_
  | .sell => scanUp bits ticks from_

/-- A bitmap of ticks of the window. -/
structure TickSet (w : Span) (bits : List Word) : Prop where
  window : w.Ok
  words : bits.length = (w.ticks + 63) / 64
  inside : ∀ t, bitAt bits t = true → t < w.ticks

theorem TickSet.clear_beyond (hb : TickSet w bits) (t : ℕ) (ht : w.ticks ≤ t) :
    bitAt bits t = false := by
  rw [← Bool.not_eq_true]
  intro h
  have := hb.inside t h
  omega

theorem TickSet.scan_start (hb : TickSet w bits) (s : Side) {from_ : ℤ}
    (hf : from_ = match s with | .buy => (w.ticks : ℤ) - 1 | .sell => 0) :
    ∃ r, scanTicks bits w.ticks s from_ = some r ∧ IsTop s (fun t => bitAt bits t = true) r := by
  have hpos := hb.window.pos
  cases s with
  | buy =>
    have hw : (w.ticks - 1) / 64 < bits.length := by
      rw [hb.words]
      omega
    obtain ⟨r, hr, htop⟩ := scanDown_spec hw
    have hstart : from_ = ((w.ticks - 1 : ℕ) : ℤ) := by
      rw [hf]
      dsimp only
      omega
    refine ⟨r, by rw [hstart]; exact hr, (top_of_last htop).congr fun t => ?_⟩
    exact ⟨fun h => h.1, fun h => ⟨h, by have := hb.inside t h; omega⟩⟩
  | sell =>
    obtain ⟨r, hr, htop⟩ := scanUp_spec (f := 0) hb.words hb.clear_beyond
    refine ⟨r, by rw [hf]; exact hr, (top_of_first htop).congr fun t => ?_⟩
    exact ⟨fun h => h.1, fun h => ⟨h, Nat.zero_le t⟩⟩

theorem TickSet.scan_next (hb : TickSet w bits) (s : Side) {t : ℕ} (ht : t < w.ticks) :
    ∃ r, scanTicks bits w.ticks s (scanNext s t) = some r ∧
      IsTop s (fun u => bitAt bits u = true ∧ beyond s t u) r := by
  cases s with
  | buy =>
    cases t with
    | zero =>
      have hneg : scanNext .buy ((0 : ℕ) : ℤ) < 0 := by simp [scanNext]
      exact ⟨-1, scanDown_neg hneg, Or.inl ⟨rfl, fun u hu => Nat.not_lt_zero u hu.2⟩⟩
    | succ t =>
      have hw : t / 64 < bits.length := by
        rw [hb.words]
        omega
      obtain ⟨r, hr, htop⟩ := scanDown_spec hw
      refine ⟨r, ?_, (top_of_last htop).congr fun u => ?_⟩
      · show scanDown bits (((t + 1 : ℕ) : ℤ) - 1) = some r
        rw [Nat.cast_succ, add_sub_cancel_right]
        exact hr
      · exact and_congr_right fun _ => Nat.lt_succ_iff.symm
  | sell =>
    obtain ⟨r, hr, htop⟩ := scanUp_spec (f := t + 1) hb.words hb.clear_beyond
    exact ⟨r, hr, (top_of_first htop).congr fun u => Iff.rfl⟩

/-- A scan from any tick of the window finds a set tick or none. -/
theorem TickSet.scan_at (hb : TickSet w bits) (s : Side) {t : ℕ} (ht : t < w.ticks) :
    ∃ r, scanTicks bits w.ticks s t = some r ∧ (r = -1 ∨ ∃ u : ℕ, r = u ∧ bitAt bits u = true) := by
  cases s with
  | buy =>
    have hw : t / 64 < bits.length := by
      rw [hb.words]
      omega
    obtain ⟨r, hr, hlast⟩ := scanDown_spec hw
    refine ⟨r, hr, hlast.imp (fun h => h.1) fun h => ?_⟩
    obtain ⟨u, hu, hbit, -⟩ := h
    exact ⟨u, hu, hbit.1⟩
  | sell =>
    obtain ⟨r, hr, hfirst⟩ := scanUp_spec (f := t) hb.words hb.clear_beyond
    refine ⟨r, hr, hfirst.imp (fun h => h.1) fun h => ?_⟩
    obtain ⟨u, hu, hbit, -⟩ := h
    exact ⟨u, hu, hbit.1⟩

/-! ### The walk -/

section Walk
variable {α : Type}

/-- One iteration for each entry written; `t` is the grid cursor, the list the
overflow iterator. -/
def walk (w : Span) (bits : List Word) (side : Side) (atTick : ℕ → Option LevelView)
    (entry : Price × α → Option LevelView) : ℕ → ℤ → List (Price × α) → Option (List LevelView)
  | 0, _, _ => some []
  | n + 1, t, oit =>
    if t < 0 then
      match oit with
      | [] => some []
      | x :: oit => do
        let view ← entry x
        let rest ← walk w bits side atTick entry n t oit
        return view :: rest
    else
      let takeGrid := match oit with
        | [] => true
        | x :: _ => better side (w.priceOf t.toNat) x.1
      if takeGrid then do
        let view ← atTick t.toNat
        let t ← scanTicks bits w.ticks side (scanNext side t)
        let rest ← walk w bits side atTick entry n t oit
        return view :: rest
      else match oit with
        | [] => some []
        | x :: oit => do
          let view ← entry x
          let rest ← walk w bits side atTick entry n t oit
          return view :: rest

variable {atTick : ℕ → Option LevelView} {entry : Price × α → Option LevelView}
  {view : Price → LevelView}

/-- Whatever list of the occupied prices is sorted best first, the walk returns
its first entries. `P` says which ticks the grid cursor has not passed. -/
theorem walk_eq (hb : TickSet w bits)
    (hgrid : ∀ t, bitAt bits t = true → atTick t = some (view (w.priceOf t)))
    (n : ℕ) (t : ℤ) (oit : List (Price × α)) (L : List Price) (P : ℕ → Prop)
    (ht : IsTop s (fun u => bitAt bits u = true ∧ P u) t)
    (hclosed : ∀ u v, P u → beyond s u v → P v)
    (hL : L.Pairwise fun p q => better s p q = true)
    (hmem : ∀ p, p ∈ L ↔
      (∃ u, bitAt bits u = true ∧ P u ∧ p = w.priceOf u) ∨ ∃ x ∈ oit, p = x.1)
    (hsorted : oit.Pairwise fun x y => better s x.1 y.1 = true)
    (hoit : ∀ x ∈ oit, w.inGrid x.1 = false ∧ entry x = some (view x.1)) :
    walk w bits s atTick entry n t oit = some ((L.take n).map view) := by
  induction n generalizing t oit L P with
  | zero => rfl
  | succ n ih =>
    -- the next entry comes from the overflow map
    have hover : ∀ x rest, oit = x :: rest →
        (∀ q, (∃ u, bitAt bits u = true ∧ P u ∧ q = w.priceOf u) → better s x.1 q = true) →
        ((entry x).bind fun v => (walk w bits s atTick entry n t rest).bind fun rest =>
          some (v :: rest)) = some ((L.take (n + 1)).map view) := by
      rintro x rest rfl hbest
      have hp : x.1 ∈ L := (hmem x.1).mpr (Or.inr ⟨x, List.mem_cons_self .., rfl⟩)
      obtain ⟨L', rfl⟩ := better_head hL hp fun q hq => by
        rcases (hmem q).mp hq with hg | ⟨y, hy, rfl⟩
        · exact Or.inr (hbest q hg)
        · rcases List.mem_cons.mp hy with rfl | hy
          · exact Or.inl rfl
          · exact Or.inr ((List.pairwise_cons.mp hsorted).1 _ hy)
      have hrest := ih t rest L' P ht hclosed (List.pairwise_cons.mp hL).2 (fun q => ?_)
        (List.pairwise_cons.mp hsorted).2 fun y hy => hoit y (List.mem_cons_of_mem _ hy)
      · rw [(hoit x (List.mem_cons_self ..)).2, Option.bind_some, hrest]
        rfl
      · rw [sorted_rest hL, hmem q]
        constructor
        · rintro ⟨hg | ⟨y, hy, rfl⟩, hne⟩
          · exact Or.inl hg
          · rcases List.mem_cons.mp hy with rfl | hy
            · exact absurd rfl hne
            · exact Or.inr ⟨y, hy, rfl⟩
        · rintro (hg | ⟨y, hy, rfl⟩)
          · refine ⟨Or.inl hg, ?_⟩
            rintro rfl
            exact better_irrefl _ (hbest _ hg)
          · refine ⟨Or.inr ⟨y, List.mem_cons_of_mem _ hy, rfl⟩, fun he => ?_⟩
            have hlt := (List.pairwise_cons.mp hsorted).1 _ hy
            rw [he] at hlt
            exact better_irrefl _ hlt
    rcases ht with ⟨rfl, hnone⟩ | ⟨k, rfl, ⟨hused, hPk⟩, hbest⟩
    · -- the grid is exhausted
      have hempty : ∀ q, ¬∃ u, bitAt bits u = true ∧ P u ∧ q = w.priceOf u :=
        fun q ⟨u, h1, h2, _⟩ => hnone u ⟨h1, h2⟩
      cases hoi : oit with
      | nil =>
        have hnil : L = [] := by
          rw [List.eq_nil_iff_forall_not_mem]
          intro q hq
          rcases (hmem q).mp hq with hg | ⟨y, hy, -⟩
          · exact hempty q hg
          · rw [hoi] at hy
            cases hy
        rw [hnil]
        rfl
      | cons x rest => exact hover x rest hoi fun q hg => absurd hg (hempty q)
    · have hk := hb.inside k hused
      have hneg : ¬(k : ℤ) < 0 := by omega
      -- the next entry comes from the grid
      have hfirst : (∀ x ∈ oit, better s (w.priceOf k) x.1 = true) →
          ((atTick k).bind fun v => (scanTicks bits w.ticks s (scanNext s k)).bind fun t =>
              (walk w bits s atTick entry n t oit).bind fun rest => some (v :: rest)) =
            some ((L.take (n + 1)).map view) := by
        intro hbo
        have hp : w.priceOf k ∈ L := (hmem _).mpr (Or.inl ⟨k, hused, hPk, rfl⟩)
        have hbetter : ∀ u, bitAt bits u = true → P u → u ≠ k →
            better s (w.priceOf k) (w.priceOf u) = true := by
          intro u hu hPu hne
          rcases hbest u ⟨hu, hPu⟩ with he | hbe
          · exact absurd he hne
          · exact hb.window.better_priceOf hk (hb.inside u hu) hbe
        obtain ⟨L', rfl⟩ := better_head hL hp fun q hq => by
          rcases (hmem q).mp hq with ⟨u, hu, hPu, rfl⟩ | ⟨y, hy, rfl⟩
          · by_cases he : u = k
            · exact Or.inl (by rw [he])
            · exact Or.inr (hbetter u hu hPu he)
          · exact Or.inr (hbo _ hy)
        obtain ⟨t', hscan, htop⟩ := hb.scan_next s hk
        have hrest := ih t' oit L' (beyond s k) htop (fun u v h h' => beyond_trans h h')
          (List.pairwise_cons.mp hL).2 (fun q => ?_) hsorted hoit
        · rw [hgrid k hused, Option.bind_some, hscan, Option.bind_some, hrest]
          rfl
        · rw [sorted_rest hL, hmem q]
          constructor
          · rintro ⟨⟨u, hu, hPu, rfl⟩ | hq, hne⟩
            · rcases hbest u ⟨hu, hPu⟩ with he | hbe
              · exact absurd (by rw [he]) hne
              · exact Or.inl ⟨u, hu, hbe, rfl⟩
            · exact Or.inr hq
          · rintro (⟨u, hu, hbe, rfl⟩ | ⟨y, hy, rfl⟩)
            · refine ⟨Or.inl ⟨u, hu, hclosed k u hPk hbe, rfl⟩, fun he => ?_⟩
              have hlt := hb.window.better_priceOf hk (hb.inside u hu) hbe
              rw [he] at hlt
              exact better_irrefl _ hlt
            · refine ⟨Or.inr ⟨y, hy, rfl⟩, fun he => ?_⟩
              have hlt := hbo _ hy
              rw [he] at hlt
              exact better_irrefl _ hlt
      cases hoi : oit with
      | nil =>
        rw [hoi] at hfirst
        rw [walk, if_neg hneg]
        exact hfirst fun x hx => by cases hx
      | cons x rest =>
        have hx := hoit x (by rw [hoi]; exact List.mem_cons_self ..)
        by_cases htake : better s (w.priceOf k) x.1 = true
        · rw [hoi] at hfirst
          rw [walk, if_neg hneg]
          simp only [Int.toNat_natCast, htake, if_true]
          refine hfirst fun y hy => ?_
          rcases List.mem_cons.mp hy with rfl | hy
          · exact htake
          · rw [hoi] at hsorted
            exact better_trans htake ((List.pairwise_cons.mp hsorted).1 y hy)
        · rw [walk, if_neg hneg]
          simp only [Int.toNat_natCast, htake]
          refine hover x rest hoi ?_
          rintro q ⟨u, hu, hPu, rfl⟩
          have hux : better s x.1 (w.priceOf k) = true := by
            rcases better_total (s := s) (w.priceOf k) x.1 with h | h | h
            · exact absurd h htake
            · have hin := hb.window.inGrid_priceOf hk
              rw [h, hx.1] at hin
              cases hin
            · exact h
          rcases hbest u ⟨hu, hPu⟩ with he | hbe
          · rw [he]
            exact hux
          · exact better_trans hux (hb.window.better_priceOf hk (hb.inside u hu) hbe)

/-- The walk is defined whatever stands in the overflow map. -/
theorem walk_some (hb : TickSet w bits)
    (hgrid : ∀ t, bitAt bits t = true → ∃ v, atTick t = some v) (hentry : ∀ x, ∃ v, entry x = some v)
    (n : ℕ) (t : ℤ) (oit : List (Price × α)) (ht : t = -1 ∨ ∃ k : ℕ, t = k ∧ bitAt bits k = true) :
    ∃ l, walk w bits s atTick entry n t oit = some l := by
  induction n generalizing t oit with
  | zero => exact ⟨[], rfl⟩
  | succ n ih =>
    have hover : ∀ x rest, ∃ l, ((entry x).bind fun v =>
        (walk w bits s atTick entry n t rest).bind fun rest => some (v :: rest)) = some l := by
      intro x rest
      obtain ⟨v, hv⟩ := hentry x
      obtain ⟨l, hl⟩ := ih t rest ht
      exact ⟨v :: l, by rw [hv, Option.bind_some, hl, Option.bind_some]⟩
    cases ht with
    | inl ht =>
      subst ht
      cases oit with
      | nil => exact ⟨[], rfl⟩
      | cons x rest => exact hover x rest
    | inr ht =>
      obtain ⟨k, rfl, hk⟩ := ht
      have hneg : ¬(k : ℤ) < 0 := by omega
      have hfirst : ∃ l, ((atTick k).bind fun v =>
          (scanTicks bits w.ticks s (scanNext s k)).bind fun t =>
            (walk w bits s atTick entry n t oit).bind fun rest => some (v :: rest)) = some l := by
        obtain ⟨v, hv⟩ := hgrid k hk
        obtain ⟨t', hscan, htop⟩ := hb.scan_next s (hb.inside k hk)
        obtain ⟨l, hl⟩ := ih t' oit (htop.mem.imp_right fun h => by
          obtain ⟨u, hu, hbit, -⟩ := h
          exact ⟨u, hu, hbit⟩)
        exact ⟨v :: l, by rw [hv, Option.bind_some, hscan, Option.bind_some, hl, Option.bind_some]⟩
      cases oit with
      | nil =>
        rw [walk, if_neg hneg]
        exact hfirst
      | cons x rest =>
        rw [walk, if_neg hneg]
        simp only [Int.toNat_natCast]
        split
        · exact hfirst
        · exact hover x rest

end Walk

/-! ### The best price -/

/-- The best of a set of prices, zero when it is empty. -/
def IsBest (s : Side) (K : Price → Prop) (px : Price) : Prop :=
  (px = kInvalidPrice ∧ ∀ p, ¬K p) ∨ (K px ∧ ∀ q, K q → q = px ∨ better s px q = true)

theorem IsBest.congr {K K' : Price → Prop} {px : Price} (h : IsBest s K px)
    (hk : ∀ p, K p ↔ K' p) : IsBest s K' px := by
  rcases h with ⟨h0, hn⟩ | ⟨hp, hb⟩
  · exact Or.inl ⟨h0, fun p hp => hn p ((hk p).mpr hp)⟩
  · exact Or.inr ⟨(hk px).mp hp, fun q hq => hb q ((hk q).mpr hq)⟩

theorem IsBest.unique {K : Price → Prop} {px px' : Price} (h : IsBest s K px)
    (h' : IsBest s K px') : px = px' := by
  rcases h with ⟨h, hnone⟩ | ⟨h, hbest⟩ <;> rcases h' with ⟨h', hnone'⟩ | ⟨h', hbest'⟩
  · rw [h, h']
  · exact absurd h' (hnone px')
  · exact absurd h (hnone' px)
  · rcases hbest px' h' with he | hb
    · exact he.symm
    · rcases hbest' px h with he | hb'
      · exact he
      · exact absurd hb' (better_asymm hb)

theorem isBest_head {K : Price → Prop} {L : List Price}
    (hL : L.Pairwise fun p q => better s p q = true) (hmem : ∀ p, p ∈ L ↔ K p) :
    IsBest s K (L.head?.getD kInvalidPrice) := by
  cases L with
  | nil =>
    refine Or.inl ⟨rfl, fun p hp => ?_⟩
    have hm := (hmem p).mpr hp
    cases hm
  | cons x L =>
    refine Or.inr ⟨(hmem x).mp (List.mem_cons_self ..), fun q hq => ?_⟩
    rcases List.mem_cons.mp ((hmem q).mpr hq) with he | hm
    · exact Or.inl he
    · exact Or.inr ((List.pairwise_cons.mp hL).1 q hm)

/-- The price of the best tick. -/
theorem isBest_tick (hw : w.Ok) {P : ℕ → Prop} {r : ℤ} (hP : ∀ t, P t → t < w.ticks)
    (h : IsTop s P r) : IsBest s (fun p => ∃ t, P t ∧ p = w.priceOf t)
      (if r < 0 then kInvalidPrice else w.priceOf r.toNat) := by
  rcases h with ⟨rfl, hnone⟩ | ⟨t, rfl, ht, hbest⟩
  · exact Or.inl ⟨rfl, fun p ⟨t, ht, _⟩ => hnone t ht⟩
  · have hneg : ¬(t : ℤ) < 0 := by omega
    rw [if_neg hneg, Int.toNat_natCast]
    refine Or.inr ⟨⟨t, ht, rfl⟩, ?_⟩
    rintro q ⟨u, hu, rfl⟩
    rcases hbest u hu with he | hb
    · exact Or.inl (by rw [he])
    · exact Or.inr (hw.better_priceOf (hP t ht) (hP u hu) hb)

/-- `rbegin()->first` and `begin()->first` of an ascending map. -/
def topKey {α : Type} (side : Side) (m : Std.TreeMap Price α) : Price :=
  match side with
  | .buy => (m.keys.getLast?).getD kInvalidPrice
  | .sell => (m.keys.head?).getD kInvalidPrice

theorem isBest_topKey {α : Type} (s : Side) (m : Std.TreeMap Price α) :
    IsBest s (fun p => p ∈ m) (topKey s m) := by
  have hsorted : m.keys.Pairwise fun p q => better .sell p q = true := by
    rw [← Std.TreeMap.map_fst_toList_eq_keys]
    exact List.pairwise_map.mpr (asks_sorted m)
  cases s with
  | buy =>
    have hrev : m.keys.reverse.Pairwise fun p q => better .buy p q = true := by
      rw [List.pairwise_reverse]
      exact hsorted.imp fun h => by simpa [better] using h
    rw [topKey, ← List.head?_reverse]
    exact isBest_head hrev fun p => by rw [List.mem_reverse, Std.TreeMap.mem_keys]
  | sell => exact isBest_head hsorted fun p => Std.TreeMap.mem_keys

/-- The better of two best prices, where zero is none. -/
def betterOf (side : Side) (g o : Price) : Price :=
  if g = kInvalidPrice then o
  else if o = kInvalidPrice then g
  else if better side g o then g else o

theorem isBest_betterOf {G O : Price → Prop} {g o : Price} (hg : IsBest s G g)
    (ho : IsBest s O o) (hG : ¬G kInvalidPrice) (hO : ¬O kInvalidPrice) :
    IsBest s (fun p => G p ∨ O p) (betterOf s g o) := by
  unfold betterOf
  rcases hg with ⟨rfl, hng⟩ | ⟨hgm, hgb⟩
  · rw [if_pos rfl]
    exact ho.congr fun p => (or_iff_right (hng p)).symm
  · have hg0 : g ≠ kInvalidPrice := fun he => hG (he ▸ hgm)
    rw [if_neg hg0]
    rcases ho with ⟨rfl, hno⟩ | ⟨hom, hob⟩
    · rw [if_pos rfl]
      exact Or.inr ⟨Or.inl hgm, fun q hq => hgb q (hq.resolve_right (hno q))⟩
    · have ho0 : o ≠ kInvalidPrice := fun he => hO (he ▸ hom)
      rw [if_neg ho0]
      by_cases hlt : better s g o = true
      · rw [if_pos hlt]
        refine Or.inr ⟨Or.inl hgm, fun q hq => ?_⟩
        rcases hq with hq | hq
        · exact hgb q hq
        · rcases hob q hq with rfl | hb
          · exact Or.inr hlt
          · exact Or.inr (better_trans hlt hb)
      · rw [if_neg hlt]
        refine Or.inr ⟨Or.inr hom, fun q hq => ?_⟩
        rcases hq with hq | hq
        · rcases better_total (s := s) g o with h | h | h
          · exact absurd h hlt
          · rw [← h]
            exact hgb q hq
          · rcases hgb q hq with rfl | hb
            · exact Or.inr h
            · exact Or.inr (better_trans h hb)
        · exact hob q hq

end Hotpath.Book
