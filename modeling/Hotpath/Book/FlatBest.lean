import Hotpath.Book.FlatMap
import Hotpath.Book.HybridBest

/-!
# Best prices of the flat book

Every deposit raises the cached tick of its side, also one into a level that
exists, and a level that empties while it is cached makes it unknown. A deposit
below another level of the grid is taken for the best one at such a moment, so
the cache is right along the runs in which none comes.
-/

namespace Hotpath.Book.FlatBook
open Hotpath.Support
open HybridBook (Call mapBest mapBest_isBest IsTop beyond set2 set2_same set2_other)

variable {b b' : FlatBook} {W : Standing} {m : MapBook} {s s' : Side} {p : Price} {ref : OrderId}
  {qty : Qty}

def call (b : FlatBook) : Call → Option FlatBook
  | .op op => b.step op
  | .best side => (b.best side).map Prod.snd
  | .snapshot => (b.snapshot).map fun _ => b

def runCalls : FlatBook → List Call → Option FlatBook
  | b, [] => some b
  | b, c :: cs => (b.call c).bind fun b => runCalls b cs

def marked (b : FlatBook) (s : Side) (t : ℕ) : Prop := bitAt (b.grid s).bits t = true

/-- The cached tick is known, or this price is not below a level of the side's
grid. -/
def startsSafe (b : FlatBook) (s : Side) (px : Price) : Prop :=
  b.inGrid px = true → (b.grid s).hint < 0 → ∀ t, marked b s t → ¬beyond s t (b.tickOf px)

/-- The condition on the state before a call. -/
def safe (b : FlatBook) : Call → Prop
  | .op op => admits startsSafe b op
  | _ => True

def safeCalls : FlatBook → List Call → Prop
  | _, [] => True
  | b, c :: cs => b.safe c ∧ ∀ b', b.call c = some b' → safeCalls b' cs

/-! ### Queries -/

/-- What a query does to a book. -/
def setHint (b : FlatBook) (s : Side) (r : ℤ) : FlatBook :=
  { b with grid := Function.update b.grid s { b.grid s with hint := r } }

theorem setHint_same (b : FlatBook) (s : Side) (r : ℤ) :
    (b.setHint s r).grid s = { b.grid s with hint := r } :=
  Function.update_self ..

theorem setHint_other {s' : Side} (h : s' ≠ s) (b : FlatBook) (r : ℤ) :
    (b.setHint s r).grid s' = b.grid s' :=
  Function.update_of_ne h ..

/-- Only the cached tick changes. -/
theorem setHint_kept (b : FlatBook) (s s' : Side) (r : ℤ) :
    ((b.setHint s r).grid s').qty = (b.grid s').qty ∧
    ((b.setHint s r).grid s').cnt = (b.grid s').cnt ∧
    ((b.setHint s r).grid s').bits = (b.grid s').bits := by
  by_cases h : s' = s
  · rw [h, setHint_same]
    exact ⟨rfl, rfl, rfl⟩
  · rw [setHint_other h]
    exact ⟨rfl, rfl, rfl⟩

theorem setHint_cell (b : FlatBook) (s : Side) (r : ℤ) : (b.setHint s r).cell = b.cell := by
  funext s' p
  obtain ⟨hq, hc, hb⟩ := setHint_kept b s s' r
  unfold cell
  rw [hq, hc, hb]
  rfl

theorem setHint_marked (b : FlatBook) (s : Side) (r : ℤ) : marked (b.setHint s r) = marked b := by
  funext s' t
  rw [marked, marked, (setHint_kept b s s' r).2.2]

theorem Sized.setHint (hs : Sized b) (s : Side) {r : ℤ} (hr : Names b.ticks r) :
    Sized (b.setHint s r) := by
  refine ⟨hs.window, fun s' => ?_, fun s' => ?_, fun s' => ?_, hs.outside, fun s' => ?_⟩
  · rw [(setHint_kept b s s' r).1]
    exact hs.qtys s'
  · rw [(setHint_kept b s s' r).2.1]
    exact hs.cnts s'
  · rw [(setHint_kept b s s' r).2.2]
    exact hs.bits s'
  · by_cases he : s' = s
    · rw [he, setHint_same]
      exact hr
    · rw [setHint_other he]
      exact hs.hints s'

/-- The cached ticks that are known are the best ones. -/
def HintOk (b : FlatBook) : Prop :=
  ∀ s, (b.grid s).hint = -1 ∨ IsTop s (marked b s) (b.grid s).hint

theorem Sized.names_of_marked (hs : Sized b) (s : Side) {r : ℤ}
    (h : r = -1 ∨ ∃ u : ℕ, r = u ∧ marked b s u) :
    Names b.ticks r := by
  cases h with
  | inl h => exact Or.inl h
  | inr h =>
    obtain ⟨u, hu, hmark⟩ := h
    exact Or.inr ⟨u, hu, (hs.bits s).inside u hmark⟩

theorem testBit_eq (hs : Sized b) {t : ℕ} (ht : t < b.ticks) :
    testBit (b.grid s) t = some (bitAt (b.grid s).bits t) := by
  have hw : t / 64 < (b.grid s).bits.length := by
    have hlen : (b.grid s).bits.length = (b.ticks + 63) / 64 := (hs.bits s).words
    rw [hlen]
    omega
  simp only [testBit, shiftRight_six, and_sixty_three, word_at hw, Option.bind_eq_bind,
    Option.bind_some]
  rfl

theorem Sized.gridBest_eq (hs : Sized b) (s : Side) : ∃ r, Names b.ticks r ∧
    ((b.grid s).hint = -1 ∨ IsTop s (marked b s) (b.grid s).hint → IsTop s (marked b s) r) ∧
    b.gridBest s = some (if r < 0 then kInvalidPrice else b.priceOf r.toNat, b.setHint s r) := by
  rcases hs.hints s with hneg | ⟨t, ht, hlt⟩
  · obtain ⟨r, hscan, htop⟩ := hs.scan_start s
    have hlt : (b.grid s).hint < 0 := by omega
    refine ⟨r, hs.names_of_marked s htop.mem, fun _ => htop, ?_⟩
    simp only [gridBest, if_pos hlt, hscan, Option.bind_eq_bind, Option.bind_some]
    rfl
  · have hneg : ¬(b.grid s).hint < 0 := by omega
    have htest := testBit_eq (s := s) hs hlt
    have hnat : (b.grid s).hint.toNat = t := by omega
    by_cases hset : bitAt (b.grid s).bits t = true
    · refine ⟨(b.grid s).hint, Or.inr ⟨t, ht, hlt⟩, fun h => h.resolve_left (by omega), ?_⟩
      simp only [gridBest, if_neg hneg, hnat, htest, hset, Option.bind_eq_bind, Option.bind_some]
      rfl
    · obtain ⟨r, hscan, hr⟩ := (hs.bits s).scan_at s hlt
      refine ⟨r, hs.names_of_marked s hr, fun h => ?_, ?_⟩
      · rcases h with h | ⟨h, -⟩ | ⟨u, hu, hmark, -⟩
        · omega
        · omega
        · have hut : u = t := by omega
          rw [hut] at hmark
          exact absurd hmark hset
      · have hscan' : b.scan s (b.grid s) (b.grid s).hint = some r := by
          rw [scan_eq, ht]
          exact hscan
        simp only [gridBest, if_neg hneg, hnat, htest, hset, hscan', Option.bind_eq_bind,
          Option.bind_some]
        rfl

/-- The query is the better of the grid's best price and the overflow map's. -/
theorem best_of_gridBest {g : Price} (h : b.gridBest s = some (g, b')) :
    b.best s = some (betterOf s g (topKey s (b'.over_ s)), b') := by
  have htop : b'.overBest s = topKey s (b'.over_ s) := by cases s <;> rfl
  simp only [best, h, htop, better_eq, Option.bind_eq_bind, Option.bind_some, betterOf]
  by_cases hg : g = kInvalidPrice
  · rw [if_pos hg, if_pos hg]
    rfl
  · rw [if_neg hg, if_neg hg]
    split <;> rfl

/-- While the cache is right, the query is the best occupied price. -/
theorem Sized.best_eq (hs : Sized b) (hz : ∀ s, (b.cell s kInvalidPrice).used = false) (s : Side) :
    ∃ px r, b.best s = some (px, b.setHint s r) ∧ Names b.ticks r ∧
      (HintOk b → HintOk (b.setHint s r) ∧ IsBest s (fun p => (b.cell s p).used = true) px) := by
  obtain ⟨r, hnames, htop, hgrid⟩ := hs.gridBest_eq s
  refine ⟨_, r, best_of_gridBest hgrid, hnames, fun hh => ?_⟩
  replace htop := htop (hh s)
  constructor
  · intro s'
    rw [setHint_marked]
    by_cases he : s' = s
    · rw [he, setHint_same]
      exact Or.inr htop
    · rw [setHint_other he]
      exact hh s'
  · have hno : ¬(b.cell s kInvalidPrice).used = true := by
      rw [hz]
      decide
    have hiff := hs.used_iff s
    have hgrid0 : ¬∃ t, marked b s t ∧ kInvalidPrice = b.span.priceOf t :=
      fun h => hno ((hiff _).mpr (Or.inl h))
    have hover0 : ¬kInvalidPrice ∈ b.over_ s := fun h => hno ((hiff _).mpr (Or.inr h))
    have htick := isBest_tick hs.window (hs.bits s).inside htop
    have hbest := isBest_betterOf htick (isBest_topKey s (b.over_ s)) hgrid0 hover0
    exact hbest.congr fun p => (hiff p).symm

/-! ### Steps -/

theorem Holds.marked_iff (h : Holds b W) {t : ℕ} :
    marked b s t ↔ t < b.ticks ∧ W s (b.span.priceOf t) ≠ [] := by
  have hcell : ∀ t < b.ticks, marked b s t ↔ W s (b.span.priceOf t) ≠ [] := by
    intro t ht
    have hin : b.inGrid (b.span.priceOf t) = true := h.window.inGrid_priceOf ht
    have htick : b.tickOf (b.span.priceOf t) = t := h.window.tickOf_priceOf ht
    have heq := h.cells s (b.span.priceOf t)
    rw [cell, if_pos hin, htick] at heq
    have hbit : bitAt (b.grid s).bits t = decide (W s (b.span.priceOf t) ≠ []) :=
      congrArg Cell.used heq
    rw [marked, hbit]
    exact decide_eq_true_iff
  constructor
  · intro hu
    have ht := (h.bits s).inside t hu
    exact ⟨ht, (hcell t ht).mp hu⟩
  · intro hu
    exact (hcell t hu.1).mpr hu.2

theorem Changed.span {c : Cell} {h : ℤ} (hc : Changed b b' s p c h) : b'.span = b.span := by
  rw [FlatBook.span, FlatBook.span, hc.lo, hc.ticks]

theorem HintOk.congr (hh : HintOk b) (hg : ∀ s, (b'.grid s).hint = (b.grid s).hint)
    (hu : ∀ s t, marked b' s t ↔ marked b s t) : HintOk b' := by
  intro s
  rw [hg]
  cases hh s with
  | inl h => exact Or.inl h
  | inr h => exact Or.inr (h.congr fun t => (hu s t).symm)

theorem raiseHint_eq (s : Side) (h : ℤ) (t : ℕ) : raiseHint s h t = HybridBook.raiseHint s h t := by
  cases s <;> rfl

theorem HintOk.arrive (hh : HintOk b) (h : Holds b W) {x : OrderId × Qty} {c : Cell}
    (h' : Holds b' (set2 W s p (x :: W s p)))
    (hc : Changed b b' s p c (raiseHint s (b.grid s).hint (b.tickOf p)))
    (hsafe : b.startsSafe s p) : HintOk b' := by
  intro s'
  by_cases hsp : s' = s ∧ b.inGrid p = true
  · obtain ⟨rfl, hin⟩ := hsp
    have htick := tick_lt hin
    -- the side's grid gains the tick of `p`
    have hmark : ∀ t, t = b.tickOf p ∨ marked b s' t ↔ marked b' s' t := by
      intro t
      rw [h'.marked_iff, h.marked_iff, hc.ticks, hc.span]
      by_cases ht : t = b.tickOf p
      · have hpx : b.span.priceOf (b.tickOf p) = p := h.window.priceOf_tickOf hin
        rw [ht, hpx, set2_same]
        exact iff_of_true (Or.inl rfl) ⟨htick, List.cons_ne_nil _ _⟩
      · rw [or_iff_right ht]
        apply and_congr_right
        intro hlt
        have hne : b.span.priceOf t ≠ p := by
          intro he
          exact ht (he ▸ (h.window.tickOf_priceOf hlt).symm)
        rw [set2_other fun he => hne he.2]
    rw [hc.hints, if_pos ⟨rfl, hin⟩, raiseHint_eq]
    exact Or.inr ((HybridBook.raiseHint_isTop (hh s') (hsafe hin)).congr hmark)
  · -- no tick of the side changes hands
    have hmark : ∀ t, marked b s' t ↔ marked b' s' t := by
      intro t
      rw [h'.marked_iff, h.marked_iff, hc.ticks, hc.span]
      apply and_congr_right
      intro hlt
      rw [set2_other]
      intro he
      exact hsp ⟨he.1, he.2 ▸ h.window.inGrid_priceOf hlt⟩
    rw [hc.hints, if_neg hsp]
    exact (hh s').imp_right fun htop => htop.congr hmark

theorem HintOk.depart (hh : HintOk b) (h : Holds b W) {l : List (OrderId × Qty)} {c : Cell}
    (hne : W s p ≠ []) (h' : Holds b' (set2 W s p l))
    (hc : Changed b b' s p c (if l = [] ∧ (b.grid s).hint = b.tickOf p then -1
      else (b.grid s).hint)) : HintOk b' := by
  intro s'
  have hhint := hc.hints s'
  by_cases hdrop : s' = s ∧ b.inGrid p = true ∧ l = [] ∧ (b.grid s).hint = b.tickOf p
  · obtain ⟨rfl, hin, hl⟩ := hdrop
    rw [if_pos ⟨rfl, hin⟩, if_pos hl] at hhint
    exact Or.inl hhint
  · have hkeep : (b'.grid s').hint = (b.grid s').hint := by
      rw [hhint]
      split
      · rename_i hsp
        rw [hsp.1, if_neg fun hl => hdrop ⟨hsp.1, hsp.2, hl⟩]
      · rfl
    have hmark : ∀ t, marked b' s' t ↔
        marked b s' t ∧ ¬(s' = s ∧ b.span.priceOf t = p ∧ l = []) := by
      intro t
      rw [h'.marked_iff, h.marked_iff, hc.ticks, hc.span, and_assoc]
      apply and_congr_right
      intro hlt
      by_cases hsp : s' = s ∧ b.span.priceOf t = p
      · obtain ⟨rfl, rfl⟩ := hsp
        rw [set2_same]
        simp [hne]
      · rw [set2_other hsp]
        exact (and_iff_left fun he => hsp ⟨he.1, he.2.1⟩).symm
    rw [hkeep]
    rcases hh s' with hneg | ⟨hneg, -⟩ | ⟨t, ht, hu, hbest⟩
    · exact Or.inl hneg
    · exact Or.inl hneg
    · refine Or.inr (Or.inr ⟨t, ht, (hmark t).mpr ⟨hu, fun he => ?_⟩, fun u hu' =>
        hbest u ((hmark u).mp hu').1⟩)
      obtain ⟨rfl, rfl, hl⟩ := he
      have hlt := (h.marked_iff.mp hu).1
      have htick : b.tickOf (b.span.priceOf t) = t := h.window.tickOf_priceOf hlt
      exact hdrop ⟨rfl, h.window.inGrid_priceOf hlt, hl, by rw [htick]; exact ht⟩

theorem HintOk.cut (hh : HintOk b) (h : Holds b W) {l : List (OrderId × Qty)} {c : Cell}
    (hne : W s p ≠ []) (hl : l ≠ []) (h' : Holds b' (set2 W s p l))
    (hc : Changed b b' s p c (b.grid s).hint) : HintOk b' := by
  apply hh.congr
  · intro s'
    rw [hc.hints]
    split
    · rename_i he
      rw [he.1]
    · rfl
  · intro s' t
    rw [h'.marked_iff, h.marked_iff, hc.ticks, hc.span]
    apply and_congr_right
    intro _
    by_cases hsp : s' = s ∧ b.span.priceOf t = p
    · rw [hsp.1, hsp.2, set2_same]
      exact iff_of_true hl hne
    · rw [set2_other hsp]

/-- The cache is right and no level is at the price that stands for none. -/
structure Cached (b : FlatBook) (W : Standing) : Prop where
  hint : HintOk b
  noZero : ∀ s, W s kInvalidPrice = []

theorem noZero_set2 (hz : ∀ s, W s kInvalidPrice = []) (hp : p ≠ kInvalidPrice)
    (l : List (OrderId × Qty)) (s' : Side) : set2 W s p l s' kInvalidPrice = [] := by
  rw [set2_other fun he => hp he.2.symm]
  exact hz s'

theorem price_ne (hz : ∀ s, W s kInvalidPrice = []) (hne : W s p ≠ []) : p ≠ kInvalidPrice := by
  intro he
  rw [he] at hne
  exact hne (hz s)

theorem keeps_cached : Keeps (fun b s p => startsSafe b s p ∧ p ≠ kInvalidPrice) Cached where
  arrive h hi hok h' hc := ⟨hi.hint.arrive h h' hc hok.1, noZero_set2 hi.noZero hok.2 _⟩
  depart h hi hne h' hc :=
    ⟨hi.hint.depart h hne h' hc, noZero_set2 hi.noZero (price_ne hi.noZero hne) _⟩
  cut h hi hne hl h' hc :=
    ⟨hi.hint.cut h hne hl h' hc, noZero_set2 hi.noZero (price_ne hi.noZero hne) _⟩
  clear _ := ⟨fun _ => Or.inl rfl, fun _ => rfl⟩

theorem admits_and {op : Op} (hsafe : admits startsSafe b op)
    (hprices : ∀ px ∈ op.prices, px ≠ kInvalidPrice) :
    admits (fun b s p => startsSafe b s p ∧ p ≠ kInvalidPrice) b op := by
  cases op with
  | add ref s p qty => exact hsafe.imp_right fun h => ⟨h, hprices p (by simp [Op.prices])⟩
  | replace ref new p qty =>
    exact hsafe.imp_right fun h r b1 h1 h2 => ⟨h r b1 h1 h2, hprices p (by simp [Op.prices])⟩
  | execute ref qty => trivial
  | cancel ref qty => trivial
  | remove ref => trivial
  | clear => trivial

/-! ### Runs -/

theorem Sized.collect_some (hs : Sized b) (s : Side) (oit : List (Price × Agg)) :
    ∃ l, b.collect s oit = some l := by
  obtain ⟨r, hr, htop⟩ := hs.scan_start s
  simp only [collect, hr, Option.bind_eq_bind, Option.bind_some, collectLoop_walk]
  apply walk_some (hs.bits s) _ (fun x => ⟨_, rfl⟩) _ _ _ htop.mem
  intro t ht
  have hlt : t < b.ticks := (hs.bits s).inside t ht
  have hq : subscript (b.grid s).qty (t : ℤ) = some ((b.grid s).qty.getD t 0) :=
    subscript_cast (by rw [hs.qtys]; exact hlt) _
  have hc : subscript (b.grid s).cnt (t : ℤ) = some ((b.grid s).cnt.getD t 0) :=
    subscript_cast (by rw [hs.cnts]; exact hlt) _
  rw [hq, hc]
  exact ⟨_, rfl⟩

theorem Sized.snapshot_some (hs : Sized b) : ∃ snap, b.snapshot = some snap := by
  obtain ⟨bid, hbid⟩ := hs.collect_some .buy (b.over_ .buy).toList.reverse
  obtain ⟨ask, hask⟩ := hs.collect_some .sell (b.over_ .sell).toList
  simp only [snapshot, hbid, hask, Option.bind_eq_bind, Option.bind_some]
  exact ⟨_, rfl⟩

theorem Sized.best_some (hs : Sized b) (s : Side) :
    ∃ px r, b.best s = some (px, b.setHint s r) ∧ Names b.ticks r := by
  obtain ⟨r, hnames, -, hgrid⟩ := hs.gridBest_eq s
  exact ⟨_, r, best_of_gridBest hgrid, hnames⟩

theorem Sound.setHint (h : Sound b) (s : Side) {r : ℤ} (hr : Names b.ticks r) :
    Sound (b.setHint s r) :=
  ⟨h.toSized.setHint s hr, h.table⟩

theorem Sound.call (h : Sound b) (c : Call) (hvalid : c.valid) :
    ∃ b', b.call c = some b' ∧ Sound b' ∧ b.rejected ≤ b'.rejected := by
  cases c with
  | op op => exact h.step op (hvalid op rfl).1
  | best s =>
    obtain ⟨px, r, hbest, hr⟩ := h.toSized.best_some s
    exact ⟨_, by rw [FlatBook.call, hbest]; rfl, h.setHint s hr, le_rfl⟩
  | snapshot =>
    obtain ⟨snap, hsnap⟩ := h.toSized.snapshot_some
    exact ⟨b, by rw [FlatBook.call, hsnap]; rfl, h, le_rfl⟩

theorem Sound.runCalls (h : Sound b) (calls : List Call) (hvalid : ∀ c ∈ calls, c.valid) :
    ∃ b', FlatBook.runCalls b calls = some b' ∧ Sound b' ∧ b.rejected ≤ b'.rejected := by
  induction calls generalizing b with
  | nil => exact ⟨b, rfl, h, le_rfl⟩
  | cons c calls ih =>
    obtain ⟨b1, h1, hs1, hle⟩ := h.call c (hvalid c (List.mem_cons_self ..))
    obtain ⟨b', h', hs', hle'⟩ := ih hs1 fun c hc => hvalid c (List.mem_cons_of_mem _ hc)
    refine ⟨b', ?_, hs', hle.trans hle'⟩
    rw [FlatBook.runCalls, h1]
    exact h'

theorem Tracks.noZero (ht : Tracks Cached b W m) (s : Side) :
    (b.cell s kInvalidPrice).used = false := by
  rw [ht.holds.cells, ht.inv.noZero s]
  rfl

/-- A query keeps the agreement and answers with the best occupied price. -/
theorem Tracks.best (ht : Tracks Cached b W m) (s : Side) :
    ∃ px r, b.best s = some (px, b.setHint s r) ∧ Tracks Cached (b.setHint s r) W m ∧
      IsBest s (fun p => (b.cell s p).used = true) px := by
  obtain ⟨px, r, hbest, hr, hall⟩ := ht.holds.toSized.best_eq ht.noZero s
  obtain ⟨hh, hpx⟩ := hall ht.inv.hint
  refine ⟨px, r, hbest, ⟨⟨ht.holds.toSound.setHint s hr, ?_, ht.holds.live⟩,
    ⟨ht.agrees.records, ht.agrees.size, ht.agrees.cells⟩, hh, ht.inv.noZero⟩, hpx⟩
  rw [setHint_cell]
  exact ht.holds.cells

theorem Tracks.calls (ht : Tracks Cached b W m) (calls : List Call)
    (hvalid : ∀ c ∈ calls, c.valid) (hsafe : safeCalls b calls)
    (hroom : roomy m (counts W) (calls.filterMap Call.op?)) (hrun : runCalls b calls = some b')
    (hrej : b'.rejected = b.rejected) :
    ∃ W', Tracks Cached b' W' (m.replay (calls.filterMap Call.op?)) := by
  induction calls generalizing b W m with
  | nil =>
    obtain rfl := Option.some.inj hrun
    exact ⟨W, ht⟩
  | cons c calls ih =>
    obtain ⟨b1, h1, hrest⟩ := Option.bind_eq_some_iff.mp hrun
    have hvalid' : ∀ c ∈ calls, c.valid := fun c hc => hvalid c (List.mem_cons_of_mem _ hc)
    have hsafe' := hsafe.2 b1 h1
    cases c with
    | op op =>
      obtain ⟨hrefs, hprices⟩ := hvalid (.op op) (List.mem_cons_self ..) op rfl
      obtain ⟨b2, h2, hs1, hle⟩ := ht.holds.toSound.step op hrefs
      obtain rfl : b1 = b2 := Option.some.inj (h1.symm.trans h2)
      obtain ⟨b3, h3, -, hle'⟩ := hs1.runCalls calls hvalid'
      obtain rfl : b' = b3 := Option.some.inj (hrest.symm.trans h3)
      obtain ⟨W1, ht1, hc1⟩ := ht.step keeps_cached op hrefs (admits_and hsafe.1 hprices)
        hroom.1 h1 (by omega)
      exact ih ht1 hvalid' hsafe' (hc1 ▸ hroom.2) hrest (by omega)
    | best s =>
      obtain ⟨px, r, hbest, ht1, -⟩ := ht.best s
      have hb : b1 = b.setHint s r := by
        simp only [call, hbest, Option.map_some, Option.some.injEq] at h1
        exact h1.symm
      rw [hb] at hrest hsafe'
      exact ih ht1 hvalid' hsafe' hroom hrest hrej
    | snapshot =>
      have hb : b1 = b := by
        simp only [call, Option.map_eq_some_iff] at h1
        obtain ⟨-, -, h1⟩ := h1
        exact h1.symm
      rw [hb] at hrest hsafe'
      exact ih ht hvalid' hsafe' hroom hrest hrej

theorem mapCells_used (m : MapBook) (s : Side) (p : Price) :
    (mapCells m s p).used = true ↔ m.level s p ≠ none := by
  rw [mapCells]
  cases m.level s p <;> simp [mapCell]

/-- Along every run every call is defined, and if all are safe and no level
comes to hold more than `2^32` deposits, the best prices of a run that rejects
nothing are the reference book's, the extreme prices of its levels. -/
theorem flat_best_eq_map (lo hi : Price) (maxOrders : ℕ) (b0 : FlatBook)
    (hmake : make lo hi maxOrders = some b0) (calls : List Call) (hvalid : ∀ c ∈ calls, c.valid)
    (hsafe : safeCalls b0 calls)
    (hroom : roomy MapBook.empty (fun _ _ => 0) (calls.filterMap Call.op?)) :
    ∃ b, runCalls b0 calls = some b ∧ (b.rejected = 0 → ∀ s, ∃ px b', b.best s = some (px, b') ∧
      px = mapBest (MapBook.empty.replay (calls.filterMap Call.op?)) s ∧
      IsBest s (fun p => (MapBook.empty.replay (calls.filterMap Call.op?)).level s p ≠ none)
        px) := by
  obtain ⟨hs, hrej0, -, -, -, hhint⟩ := Sound.make hmake
  have ht : Tracks Cached b0 (fun _ _ => []) MapBook.empty :=
    Tracks.make hmake ⟨fun s => Or.inl (hhint s), fun _ => rfl⟩
  obtain ⟨b, hrun, -, -⟩ := hs.runCalls calls hvalid
  refine ⟨b, hrun, fun hrej s => ?_⟩
  obtain ⟨W, htb⟩ := ht.calls calls hvalid hsafe hroom hrun (hrej.trans hrej0.symm)
  obtain ⟨px, r, hbest, -, hpx⟩ := htb.best s
  have hlevel : IsBest s
      (fun p => (MapBook.empty.replay (calls.filterMap Call.op?)).level s p ≠ none) px := by
    apply hpx.congr
    intro p
    rw [htb.agrees.cell_eq htb.holds, mapCells_used]
  exact ⟨px, _, hbest, hlevel.unique (mapBest_isBest _ s), hlevel⟩

theorem flat_best_eq_map_two : ∃ b0 b b' : FlatBook, ∃ px, make 100 300 4 = some b0 ∧
    runCalls b0 [.op (.add 1 .buy 200 5), .best .buy, .op (.add 2 .buy 250 5)] = some b ∧
    b.best .buy = some (px, b') ∧
    px = mapBest (MapBook.empty.replay [.add 1 .buy 200 5, .add 2 .buy 250 5]) .buy ∧
    IsBest .buy (fun p => (MapBook.empty.replay
      [.add 1 .buy 200 5, .add 2 .buy 250 5]).level .buy p ≠ none) px := by
  have hrun : ((make 100 300 4).bind fun b0 => (runCalls b0
      [.op (.add 1 .buy 200 5), .best .buy, .op (.add 2 .buy 250 5)]).map FlatBook.rejected) =
      some 0 := by decide +kernel
  obtain ⟨b0, hmake, h⟩ := Option.bind_eq_some_iff.mp hrun
  obtain ⟨b, hb, hrej⟩ := Option.map_eq_some_iff.mp h
  have hvalid : ∀ c ∈ [Call.op (.add 1 .buy 200 5), .best .buy, .op (.add 2 .buy 250 5)],
      c.valid := by
    simp [HybridBook.Call.valid, HybridBook.Call.op?, Op.refs, Op.prices]
  have hroom : roomy MapBook.empty (fun _ _ => 0)
      ([Call.op (.add 1 .buy 200 5), .best .buy, .op (.add 2 .buy 250 5)].filterMap Call.op?) := by
    apply roomy_of_length
    intro s p
    decide
  have hsafe : safeCalls b0 [.op (.add 1 .buy 200 5), .best .buy, .op (.add 2 .buy 250 5)] := by
    have ht := Tracks.make (I := fun _ _ => True) hmake trivial
    constructor
    · exact Or.inr fun _ _ t hmark => absurd rfl (ht.holds.marked_iff.mp hmark).2
    · intro b1 _
      refine ⟨trivial, fun b2 _ => ⟨Or.inr fun hin => ?_, fun _ _ => trivial⟩⟩
      simp [FlatBook.inGrid, kTick] at hin
  obtain ⟨b1, hb1, hall⟩ := flat_best_eq_map 100 300 4 b0 hmake
    [.op (.add 1 .buy 200 5), .best .buy, .op (.add 2 .buy 250 5)] hvalid hsafe hroom
  obtain rfl : b = b1 := Option.some.inj (hb.symm.trans hb1)
  obtain ⟨px, b', hbest, hpx, hlevel⟩ := hall hrej .buy
  exact ⟨b0, b, b', px, hmake, hb, hbest, hpx, hlevel⟩

/-- Replacing the best bid by a worse one, with a second level between them and
no query since: the cached tick names the worse level. -/
theorem flat_best_misses_level : ¬∀ (lo hi : Price) (maxOrders : ℕ) (b0 b b' : FlatBook)
    (calls : List Call) (s : Side) (px : Price), make lo hi maxOrders = some b0 →
    (∀ c ∈ calls, c.valid) → runCalls b0 calls = some b → b.rejected = 0 →
    b.best s = some (px, b') → px = mapBest (MapBook.empty.replay (calls.filterMap Call.op?)) s := by
  intro hall
  have hrun : ((make 100 300 4).bind fun b0 => (runCalls b0 [.op (.add 1 .buy 300 5),
      .op (.add 2 .buy 200 5), .op (.replace 1 3 100 5)]).bind fun b =>
      (b.best .buy).map fun x => (b.rejected, x.1)) = some (0, 100) := by decide +kernel
  obtain ⟨b0, hmake, h⟩ := Option.bind_eq_some_iff.mp hrun
  obtain ⟨b, hb, h⟩ := Option.bind_eq_some_iff.mp h
  obtain ⟨⟨px, b'⟩, hbest, h⟩ := Option.map_eq_some_iff.mp h
  obtain ⟨hrej, rfl⟩ := Prod.mk.inj h
  have hvalid : ∀ c ∈ [Call.op (.add 1 .buy 300 5), .op (.add 2 .buy 200 5),
      .op (.replace 1 3 100 5)], c.valid := by
    simp [HybridBook.Call.valid, HybridBook.Call.op?, Op.refs, Op.prices]
  have hmap : mapBest (MapBook.empty.replay [.add 1 .buy 300 5, .add 2 .buy 200 5,
      .replace 1 3 100 5]) .buy = 200 := by decide +kernel
  have heq := hall 100 300 4 b0 b b' _ .buy 100 hmake hvalid hb hrej hbest
  have h200 : (100 : Price) = 200 := heq.trans hmap
  exact absurd h200 (by decide)

end Hotpath.Book.FlatBook
