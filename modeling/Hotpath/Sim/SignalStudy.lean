import Hotpath.Sim.Signals
import Hotpath.Support.Recorded

/-!
# The signal study (src/signal_study.cpp)

The signals are sampled on a grid of time, so that bursts of events do not count for more than
quiet seconds. On a tape in time order the samples are the first usable touches of the grid's
cells, one each. A forward return looks up the first sample a horizon later.
-/

namespace Hotpath.Sim
open Hotpath.Book Hotpath.Book.HybridBook Hotpath.Support

structure Sample where
  ts : Ts
  mid : ℚ
  imbalance : ℚ
  microTilt : ℚ
  ofi : ℚ
  deriving DecidableEq

/-- The variables of the loop over the tape. -/
structure Study where
  book : HybridBook
  ofi : OrderFlowImbalance := {}
  samples : List Sample := []
  nextSample : Ts := 0

namespace Study

/-- `while (next_sample <= ts) next_sample += grid_ns`; `none` when the fuel is used up. -/
def skip (gridNs ts : Ts) : ℕ → Ts → Option Ts
  | 0, next => if next ≤ ts then none else some next
  | fuel + 1, next => if next ≤ ts then skip gridNs ts fuel (next + gridNs) else some next

/-- The touch, where the book has a usable one. -/
def look (b : HybridBook) : Option (Option Touch × HybridBook) := do
  let (bb, b) ← b.bestBid
  let (ba, b) ← b.bestAsk
  if bb = kInvalidPrice ∨ ba = kInvalidPrice ∨ bb ≥ ba then return (none, b)
  else
    let lb ← b.levelFor .buy bb
    let la ← b.levelFor .sell ba
    match lb, la with
    | some lb, some la =>
      let t : Touch := ⟨bb, ba, lb.qty, la.qty⟩
      return (if t.valid then some t else none, b)
    | _, _ => return (none, b)

def sampleOf (s : Study) (t : Touch) (ts : Ts) : Sample :=
  ⟨ts, t.mid, t.imbalance, t.microTilt, s.ofi.normalized⟩

/-- What is done at a usable touch. -/
def observe (decay : Ts → ℚ) (gridNs : Ts) (fuel : ℕ) (s : Study) (t : Touch) (ts : Ts) :
    Option Study := do
  let s := { s with ofi := s.ofi.update decay t ts }
  let s := if s.nextSample = 0 then { s with nextSample := ts + gridNs } else s
  if ts ≥ s.nextSample then
    let next ← skip gridNs ts fuel s.nextSample
    return { s with samples := s.samples ++ [s.sampleOf t ts], nextSample := next }
  else return s

def step (decay : Ts → ℚ) (gridNs : Ts) (fuel : ℕ) (s : Study) (e : BookEvent) :
    Option Study := do
  let book ← Book.apply s.book e
  let (t, book) ← look book
  match t with
  | none => return { s with book := book }
  | some t => observe decay gridNs fuel { s with book := book } t e.ts

def run (decay : Ts → ℚ) (gridNs : Ts) (fuel : ℕ) : Study → List BookEvent → Option Study
  | s, [] => some s
  | s, e :: es => (step decay gridNs fuel s e).bind fun s => run decay gridNs fuel s es

/-- The usable touches of a tape, with their times. -/
def touches : HybridBook → List BookEvent → Option (List (Touch × Ts))
  | _, [] => some []
  | b, e :: es => do
    let b ← Book.apply b e
    let (t, b) ← look b
    let rest ← touches b es
    return (t.map fun t => (t, e.ts)).toList ++ rest

/-! ### The grid -/

section Grid
variable {decay : Ts → ℚ} {gridNs : Ts} {fuel : ℕ} {s s' : Study} {t : Touch} {ts : Ts}

/-- The cell of a time on the grid that starts at the first touch. -/
def cell (gridNs : Ts) (t0 ts : ℕ) : ℕ := (ts - t0) / gridNs.toNat

theorem cell_mono {t0 a b : ℕ} (h : a ≤ b) : cell gridNs t0 a ≤ cell gridNs t0 b :=
  Nat.div_le_div_right (Nat.sub_le_sub_right h t0)

/-- The start of a cell. -/
def boundary (gridNs : Ts) (t0 k : ℕ) : ℕ := t0 + k * gridNs.toNat

theorem boundary_le_iff (hg : 0 < gridNs.toNat) {t0 k a : ℕ} (h0 : t0 ≤ a) :
    boundary gridNs t0 k ≤ a ↔ k ≤ cell gridNs t0 a := by
  unfold boundary cell
  rw [Nat.le_div_iff_mul_le hg]
  omega

/-- The loop stops at the first boundary after the time. -/
theorem skip_eq (hg : 0 < gridNs.toNat) {t0 : ℕ} (h0 : t0 ≤ ts.toNat)
    (hroom : ts.toNat + gridNs.toNat < 2 ^ 64) :
    ∀ (fuel k : ℕ) (next : Ts), next.toNat = boundary gridNs t0 k →
      k ≤ cell gridNs t0 ts.toNat + 1 → cell gridNs t0 ts.toNat + 1 - k ≤ fuel →
      ∃ next', skip gridNs ts fuel next = some next' ∧
        next'.toNat = boundary gridNs t0 (cell gridNs t0 ts.toNat + 1) := by
  intro fuel
  induction fuel with
  | zero =>
    intro k next hnext hk hfuel
    have hkk : k = cell gridNs t0 ts.toNat + 1 := by omega
    have hlate : ¬next ≤ ts := by
      rw [UInt64.le_iff_toNat_le, hnext, boundary_le_iff hg h0]
      omega
    exact ⟨next, by rw [skip, if_neg hlate], by rw [hnext, hkk]⟩
  | succ fuel ih =>
    intro k next hnext hk hfuel
    by_cases hle : next ≤ ts
    · have hkc : k ≤ cell gridNs t0 ts.toNat := by
        rw [UInt64.le_iff_toNat_le, hnext] at hle
        exact (boundary_le_iff hg h0).mp hle
      have hadd : (next + gridNs).toNat = boundary gridNs t0 (k + 1) := by
        have hle' := UInt64.le_iff_toNat_le.mp hle
        rw [UInt64.toNat_add, Nat.mod_eq_of_lt (by omega), hnext, boundary, boundary, Nat.succ_mul]
        omega
      rw [skip, if_pos hle]
      exact ih (k + 1) _ hadd (by omega) (by omega)
    · have hkk : k = cell gridNs t0 ts.toNat + 1 := by
        rw [UInt64.le_iff_toNat_le, hnext, boundary_le_iff hg h0] at hle
        omega
      exact ⟨next, by rw [skip, if_neg hle], by rw [hnext, hkk]⟩

theorem observe_first (hn : s.nextSample = 0) (hlate : ¬ts ≥ ts + gridNs) :
    observe decay gridNs fuel s t ts =
      some { s with ofi := s.ofi.update decay t ts, nextSample := ts + gridNs } := by
  simp only [observe, hn, if_true, if_neg hlate]
  rfl

theorem observe_within (hn : ¬s.nextSample = 0) (hlt : ¬ts ≥ s.nextSample) :
    observe decay gridNs fuel s t ts = some { s with ofi := s.ofi.update decay t ts } := by
  simp only [observe, if_neg hn, if_neg hlt]
  rfl

theorem observe_new {next' : Ts} (hn : ¬s.nextSample = 0) (hge : ts ≥ s.nextSample)
    (hskip : skip gridNs ts fuel s.nextSample = some next') :
    observe decay gridNs fuel s t ts = some { s with
      ofi := s.ofi.update decay t ts
      samples := s.samples ++ [sampleOf { s with ofi := s.ofi.update decay t ts } t ts]
      nextSample := next' } := by
  simp only [observe, if_neg hn, if_pos hge, hskip, Option.bind_eq_bind, Option.bind_some]
  rfl

/-- A sample of a touch, with the order flow of the touches up to it. -/
def Samples (decay : Ts → ℚ) (past : List (Touch × Ts)) (y : Sample) : Prop :=
  ∃ l x r, past = l ++ x :: r ∧ y = ⟨x.2, x.1.mid, x.1.imbalance, x.1.microTilt,
    (({} : OrderFlowImbalance).updates decay (l ++ [x])).normalized⟩

theorem Samples.later {past : List (Touch × Ts)} {y : Sample} (h : Samples decay past y)
    (x : Touch × Ts) : Samples decay (past ++ [x]) y := by
  obtain ⟨l, x', r, rfl, hy⟩ := h
  exact ⟨l, x', r ++ [x], by rw [List.append_assoc, List.cons_append], hy⟩

/-- The samples after some touches, of which the first was at `t0` and the last at `last`. -/
structure Sampled (decay : Ts → ℚ) (gridNs : Ts) (t0 last : ℕ) (past : List (Touch × Ts))
    (s : Study) : Prop where
  ofi : s.ofi = ({} : OrderFlowImbalance).updates decay past
  ends : ∃ x ∈ past, x.2.toNat = last
  late : ∀ x ∈ past, t0 ≤ x.2.toNat ∧ x.2.toNat ≤ last
  next : s.nextSample.toNat = boundary gridNs t0 (cell gridNs t0 last + 1)
  rising : (s.samples.map fun y => cell gridNs t0 y.ts.toNat).Pairwise (· < ·)
  within : ∀ y ∈ s.samples, 1 ≤ cell gridNs t0 y.ts.toNat ∧
    cell gridNs t0 y.ts.toNat ≤ cell gridNs t0 last
  taken : ∀ y ∈ s.samples, Samples decay past y
  first : ∀ x ∈ past, 1 ≤ cell gridNs t0 x.2.toNat →
    ∃ y ∈ s.samples, cell gridNs t0 y.ts.toNat = cell gridNs t0 x.2.toNat ∧ y.ts ≤ x.2

/-- The first touch starts the grid. -/
theorem Sampled.start_at (hg : 0 < gridNs.toNat) (hroom : ts.toNat + gridNs.toNat < 2 ^ 64)
    (hofi : s.ofi = {}) (hs : s.samples = []) (hn : s.nextSample = 0) :
    ∃ s', observe decay gridNs fuel s t ts = some s' ∧ s'.book = s.book ∧
      Sampled decay gridNs ts.toNat ts.toNat [(t, ts)] s' := by
  have hadd : (ts + gridNs).toNat = ts.toNat + gridNs.toNat := by
    rw [UInt64.toNat_add, Nat.mod_eq_of_lt hroom]
  have hlate : ¬ts ≥ ts + gridNs := by
    rw [ge_iff_le, UInt64.le_iff_toNat_le, hadd]
    omega
  have hzero : cell gridNs ts.toNat ts.toNat = 0 := by
    rw [cell, Nat.sub_self, Nat.zero_div]
  refine ⟨_, observe_first hn hlate, rfl, ?_⟩
  constructor
  case ofi =>
    show s.ofi.update decay t ts = _
    rw [hofi]
    rfl
  case ends => exact ⟨(t, ts), List.mem_singleton_self _, rfl⟩
  case late =>
    intro x hx
    rw [List.mem_singleton.mp hx]
    exact ⟨le_rfl, le_rfl⟩
  case next =>
    show (ts + gridNs).toNat = _
    rw [hadd, hzero, boundary, Nat.zero_add, Nat.one_mul]
  case rising =>
    show (s.samples.map _).Pairwise _
    rw [hs]
    exact .nil
  case within =>
    show ∀ y ∈ s.samples, _
    rw [hs]
    simp
  case taken =>
    show ∀ y ∈ s.samples, _
    rw [hs]
    simp
  case first =>
    intro x hx h1
    rw [List.mem_singleton.mp hx, hzero] at h1
    omega

/-- A later touch is sampled when it is the first of its cell. -/
theorem Sampled.observe {t0 last : ℕ} {past : List (Touch × Ts)} (hg : 0 < gridNs.toNat)
    (hroom : ts.toNat + gridNs.toNat < 2 ^ 64) (hfuel : ts.toNat / gridNs.toNat < fuel)
    (h : Sampled decay gridNs t0 last past s) (hlast : last ≤ ts.toNat) :
    ∃ s', observe decay gridNs fuel s t ts = some s' ∧ s'.book = s.book ∧
      Sampled decay gridNs t0 ts.toNat (past ++ [(t, ts)]) s' := by
  obtain ⟨x0, hx0, hx0last⟩ := h.ends
  have h0 : t0 ≤ ts.toNat := (h.late x0 hx0).1.trans (hx0last.le.trans hlast)
  have hends : ∃ x ∈ past ++ [(t, ts)], x.2.toNat = ts.toNat :=
    ⟨(t, ts), List.mem_append_right _ (List.mem_singleton_self _), rfl⟩
  have hmono := @cell_mono gridNs t0 _ _ hlast
  have hne : ¬s.nextSample = 0 := by
    intro hz
    have hn := h.next
    rw [hz, boundary, Nat.succ_mul] at hn
    have hz' : (0 : UInt64).toNat = 0 := rfl
    omega
  have hpast : ∀ x ∈ past ++ [(t, ts)], t0 ≤ x.2.toNat ∧ x.2.toNat ≤ ts.toNat := by
    intro x hx
    cases List.mem_append.mp hx with
    | inl hx => exact ⟨(h.late x hx).1, (h.late x hx).2.trans hlast⟩
    | inr hx =>
      rw [List.mem_singleton.mp hx]
      exact ⟨h0, le_rfl⟩
  have htaken : ∀ y ∈ s.samples, Samples decay (past ++ [(t, ts)]) y :=
    fun y hy => (h.taken y hy).later _
  have hofi : s.ofi.update decay t ts =
      ({} : OrderFlowImbalance).updates decay (past ++ [(t, ts)]) := by
    rw [h.ofi, OrderFlowImbalance.updates, OrderFlowImbalance.updates, List.foldl_append]
    rfl
  by_cases hnew : cell gridNs t0 last + 1 ≤ cell gridNs t0 ts.toNat
  · -- a new cell: the touch is sampled and the loop skips to the next boundary
    have hge : ts ≥ s.nextSample := by
      rw [ge_iff_le, UInt64.le_iff_toNat_le, h.next]
      exact (boundary_le_iff hg h0).mpr hnew
    have hcell : cell gridNs t0 ts.toNat ≤ ts.toNat / gridNs.toNat :=
      Nat.div_le_div_right (Nat.sub_le _ _)
    obtain ⟨next', hskip, hnext'⟩ := skip_eq hg h0 hroom fuel (cell gridNs t0 last + 1) s.nextSample
      h.next (by omega) (by omega)
    refine ⟨_, observe_new hne hge hskip, rfl, ?_⟩
    constructor
    case ofi => exact hofi
    case ends => exact hends
    case late => exact hpast
    case next => exact hnext'
    case rising =>
      rw [List.map_append]
      refine List.pairwise_append.mpr ⟨h.rising, List.pairwise_singleton _ _, ?_⟩
      intro a ha b hb
      obtain ⟨y, hy, rfl⟩ := List.mem_map.mp ha
      rw [List.mem_singleton.mp hb]
      exact lt_of_le_of_lt (h.within y hy).2 hnew
    case within =>
      intro y hy
      cases List.mem_append.mp hy with
      | inl hy => exact ⟨(h.within y hy).1, (h.within y hy).2.trans hmono⟩
      | inr hy =>
        rw [List.mem_singleton.mp hy]
        exact ⟨le_trans (Nat.le_add_left _ _) hnew, le_rfl⟩
    case taken =>
      intro y hy
      cases List.mem_append.mp hy with
      | inl hy => exact htaken y hy
      | inr hy =>
        refine ⟨past, (t, ts), [], rfl, ?_⟩
        rw [List.mem_singleton.mp hy, sampleOf, hofi]
    case first =>
      intro x hx h1
      cases List.mem_append.mp hx with
      | inl hx =>
        obtain ⟨y, hy, hsame⟩ := h.first x hx h1
        exact ⟨y, List.mem_append_left _ hy, hsame⟩
      | inr hx =>
        rw [List.mem_singleton.mp hx]
        exact ⟨_, List.mem_append_right _ (List.mem_singleton_self _), rfl, UInt64.le_refl ts⟩
  · have hsame : cell gridNs t0 ts.toNat = cell gridNs t0 last := by omega
    have hlt : ¬ts ≥ s.nextSample := by
      rw [ge_iff_le, UInt64.le_iff_toNat_le, h.next, boundary_le_iff hg h0]
      exact hnew
    refine ⟨_, observe_within hne hlt, rfl, ?_⟩
    constructor
    case ofi => exact hofi
    case ends => exact hends
    case late => exact hpast
    case next =>
      rw [hsame]
      exact h.next
    case rising => exact h.rising
    case within =>
      rw [hsame]
      exact h.within
    case taken => exact htaken
    case first =>
      intro x hx h1
      cases List.mem_append.mp hx with
      | inl hx => exact h.first x hx h1
      | inr hx =>
        -- the last touch before is in the same cell
        rw [List.mem_singleton.mp hx] at h1 ⊢
        dsimp only at h1 ⊢
        rw [hsame] at h1 ⊢
        rw [← hx0last] at h1 ⊢
        obtain ⟨y, hy, hcell, hle⟩ := h.first x0 hx0 h1
        refine ⟨y, hy, hcell, UInt64.le_trans hle ?_⟩
        rw [UInt64.le_iff_toNat_le, hx0last]
        exact hlast

/-- The loop before its first touch, or after some. -/
inductive Follows (decay : Ts → ℚ) (gridNs : Ts) (last : ℕ) : List (Touch × Ts) → Study → Prop where
  | idle (s : Study) (hofi : s.ofi = {}) (hs : s.samples = []) (hn : s.nextSample = 0) :
      Follows decay gridNs last [] s
  | going (x : Touch × Ts) (rest : List (Touch × Ts)) (s : Study)
      (h : Sampled decay gridNs x.2.toNat last (x :: rest) s) : Follows decay gridNs last (x :: rest) s

theorem Follows.observe {last : ℕ} {past : List (Touch × Ts)} (hg : 0 < gridNs.toNat)
    (hroom : ts.toNat + gridNs.toNat < 2 ^ 64) (hfuel : ts.toNat / gridNs.toNat < fuel)
    (h : Follows decay gridNs last past s) (hlast : last ≤ ts.toNat) :
    ∃ s', observe decay gridNs fuel s t ts = some s' ∧ s'.book = s.book ∧
      Follows decay gridNs ts.toNat (past ++ [(t, ts)]) s' := by
  cases h with
  | idle _ hofi hs hn =>
    obtain ⟨s', hs', hb, hsampled⟩ :=
      @Sampled.start_at decay gridNs fuel s t ts hg hroom hofi hs hn
    exact ⟨s', hs', hb, .going _ _ _ hsampled⟩
  | going x rest _ h =>
    obtain ⟨s', hs', hb, hsampled⟩ := h.observe (t := t) hg hroom hfuel hlast
    exact ⟨s', hs', hb, .going _ _ _ hsampled⟩

/-- The loop goes through the touches of the tape. -/
theorem Follows.run {es : List BookEvent} {last : ℕ} {past L : List (Touch × Ts)}
    (hg : 0 < gridNs.toNat) (htime : es.Pairwise fun e e' => e.ts.toNat ≤ e'.ts.toNat)
    (hroom : ∀ e ∈ es, e.ts.toNat + gridNs.toNat < 2 ^ 64)
    (hfuel : ∀ e ∈ es, e.ts.toNat / gridNs.toNat < fuel) (hlast : ∀ e ∈ es, last ≤ e.ts.toNat)
    (h : Follows decay gridNs last past s) (hL : touches s.book es = some L) :
    ∃ s' last', run decay gridNs fuel s es = some s' ∧
      Follows decay gridNs last' (past ++ L) s' := by
  induction es generalizing s last past L with
  | nil =>
    obtain rfl := Option.some.inj hL
    exact ⟨s, last, rfl, by rwa [List.append_nil]⟩
  | cons e es ih =>
    obtain ⟨hfirst, htail⟩ := List.pairwise_cons.mp htime
    have he := List.mem_cons_self (a := e) (l := es)
    have hmem : ∀ e' ∈ es, e' ∈ e :: es := fun e' h' => List.mem_cons_of_mem _ h'
    simp only [touches, Option.bind_eq_bind, Option.bind_eq_some_iff] at hL
    obtain ⟨book, hbook, ⟨t, book'⟩, hlook, rest, hrest, hL⟩ := hL
    obtain rfl := Option.some.inj hL
    cases t with
    | none =>
      have hidle : Follows decay gridNs last past { s with book := book' } := by
        cases h with
        | idle _ hofi hs hn => exact .idle _ hofi hs hn
        | going x rest _ h =>
          exact .going _ _ _ ⟨h.ofi, h.ends, h.late, h.next, h.rising, h.within, h.taken, h.first⟩
      obtain ⟨s', last', hrun, hend⟩ := ih htail (fun e' h' => hroom e' (hmem e' h'))
        (fun e' h' => hfuel e' (hmem e' h')) (fun e' h' => hlast e' (hmem e' h')) hidle hrest
      refine ⟨s', last', ?_, hend⟩
      rw [Study.run, step]
      simp only [hbook, hlook, Option.bind_eq_bind, Option.bind_some]
      exact hrun
    | some t =>
      have hbefore : Follows decay gridNs last past { s with book := book' } := by
        cases h with
        | idle _ hofi hs hn => exact .idle _ hofi hs hn
        | going x rest _ h =>
          exact .going _ _ _ ⟨h.ofi, h.ends, h.late, h.next, h.rising, h.within, h.taken, h.first⟩
      obtain ⟨s1, hs1, hb1, hf1⟩ :=
        hbefore.observe (t := t) hg (hroom e he) (hfuel e he) (hlast e he)
      have hrest1 : touches s1.book es = some rest := by rw [hb1]; exact hrest
      obtain ⟨s', last', hrun, hend⟩ := ih htail (fun e' h' => hroom e' (hmem e' h'))
        (fun e' h' => hfuel e' (hmem e' h')) (fun e' h' => hfirst e' h') hf1 hrest1
      refine ⟨s', last', ?_, ?_⟩
      · rw [Study.run, step]
        simp only [hbook, hlook, Option.bind_eq_bind, Option.bind_some]
        rw [hs1]
        exact hrun
      · rw [List.append_assoc] at hend
        exact hend

/-! ### A grid that wraps -/

end Grid

/-! ### Forward returns -/

end Study

end Hotpath.Sim
