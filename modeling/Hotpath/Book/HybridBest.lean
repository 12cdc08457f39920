import Hotpath.Book.HybridRefine

/-!
# Best prices of the hybrid book

`hint` caches a side's best tick, and `-1` says it is not known. Creating a
level while it is not known takes the new tick for the best one, so the cache
is right along the runs in which no level starts below another of its side's
grid at such a moment.
-/

namespace Hotpath.Book.HybridBook
open Hotpath.Support

/-- A caller's operation or query. -/
inductive Call where
  | op (op : Op)
  | best (side : Side)
  | snapshot
  deriving DecidableEq, Repr

def Call.op? : Call → Option Op
  | .op o => some o
  | _ => none

def call (b : HybridBook) : Call → Option HybridBook
  | .op op => b.step op
  | .best side => (b.best side).map Prod.snd
  | .snapshot => (b.snapshot).map fun _ => b

def runCalls : HybridBook → List Call → Option HybridBook
  | b, [] => some b
  | b, c :: cs => (b.call c).bind fun b => runCalls b cs

variable {b b' : HybridBook} {Q : Queues} {m : MapBook} {s : Side} {p : Price} {ref : OrderId}
  {qty : Qty} {n : ℕ}

/-- If a level at this price would be new, it is known to be the side's best grid
level, or the cached tick is known. -/
def startsSafe (b : HybridBook) (s : Side) (px : Price) : Prop :=
  b.inGrid px = true → b.levelIx s px < 0 → (b.grid s).hint < 0 →
    ∀ t, used b s t → ¬beyond s t (b.tickOf px)

/-- The condition on the state before a call. A replacement starts its level
after the order it replaces has left. -/
def Call.safe (b : HybridBook) : Call → Prop
  | .op (.add _ s px qty) => qty = 0 ∨ b.startsSafe s px
  | .op (.replace old _ px qty) => qty = 0 ∨ ∀ (oi : ℕ) (b1 : HybridBook),
      b.ids.find OpenHashMap.hash old = some (some (oi : ℤ)) → b.retire old oi = some b1 →
      b1.startsSafe (b.ord oi).side px
  | _ => True

def safeCalls : HybridBook → List Call → Prop
  | _, [] => True
  | b, c :: cs => c.safe b ∧ ∀ b', b.call c = some b' → safeCalls b' cs

/-! ### The cached tick -/

def HintOk (b : HybridBook) : Prop :=
  ∀ s, (b.grid s).hint = -1 ∨ IsTop s (used b s) (b.grid s).hint

theorem Rep.used_iff (hr : Rep b Q) {t : ℕ} :
    used b s t ↔ t < b.ticks ∧ Q s (b.priceOf t) ≠ [] := by
  constructor
  · intro h
    obtain ⟨hlt, hx⟩ := hr.grid.used_priceOf h
    exact ⟨hlt, hr.live s _ hx⟩
  · rintro ⟨hlt, hne⟩
    obtain ⟨o, ho⟩ := List.exists_mem_of_ne_nil _ hne
    rw [used, ← hr.grid.levelIx_priceOf hlt]
    exact hr.absent_of ho

theorem beyond_total (s : Side) (t u : ℕ) : beyond s t u ∨ t = u ∨ beyond s u t := by
  cases s <;> simp only [beyond] <;> omega

theorem priceOf_congr (hlo : b'.lo = b.lo) : b'.priceOf = b.priceOf := by
  funext t
  rw [priceOf, priceOf, hlo]

theorem raiseHint_neg {h : ℤ} {t : ℕ} (hh : h < 0) : raiseHint s h t = t := by
  unfold raiseHint
  rw [if_pos hh]

theorem raiseHint_top {P : ℕ → Prop} {h : ℤ} {t : ℕ} (hh : 0 ≤ h) (htop : IsTop s P h) :
    IsTop s (fun u => u = t ∨ P u) (raiseHint s h t) := by
  rcases htop with ⟨rfl, -⟩ | ⟨u, rfl, hu, hbest⟩
  · omega
  · have hneg : ¬(u : ℤ) < 0 := by omega
    unfold raiseHint
    rw [if_neg hneg]
    cases s with
    | buy =>
      dsimp only
      split
      · refine Or.inr ⟨t, rfl, Or.inl rfl, fun v hv => ?_⟩
        rcases hv with rfl | hv
        · exact Or.inl rfl
        · have := hbest v hv
          simp only [beyond] at this ⊢
          omega
      · refine Or.inr ⟨u, rfl, Or.inr hu, fun v hv => ?_⟩
        rcases hv with rfl | hv
        · simp only [beyond]
          omega
        · exact hbest v hv
    | sell =>
      dsimp only
      split
      · refine Or.inr ⟨t, rfl, Or.inl rfl, fun v hv => ?_⟩
        rcases hv with rfl | hv
        · exact Or.inl rfl
        · have := hbest v hv
          simp only [beyond] at this ⊢
          omega
      · refine Or.inr ⟨u, rfl, Or.inr hu, fun v hv => ?_⟩
        rcases hv with rfl | hv
        · simp only [beyond]
          omega
        · exact hbest v hv

/-- The arriving tick joins the set; while the top is not known it must be the best. -/
theorem raiseHint_isTop {P : ℕ → Prop} {h : ℤ} {t : ℕ} (hh : h = -1 ∨ IsTop s P h)
    (hsafe : h < 0 → ∀ u, P u → ¬beyond s u t) :
    IsTop s (fun u => u = t ∨ P u) (raiseHint s h t) := by
  by_cases hneg : h < 0
  · rw [raiseHint_neg hneg]
    refine Or.inr ⟨t, rfl, Or.inl rfl, fun u hu => ?_⟩
    cases hu with
    | inl hu => exact Or.inl hu
    | inr hu =>
      rcases beyond_total s u t with h1 | h1 | h1
      · exact absurd h1 (hsafe hneg u hu)
      · exact Or.inl h1
      · exact Or.inr h1
  · exact raiseHint_top (by omega) (hh.resolve_left (by omega))

theorem HintOk.congr (h : HintOk b) (hg : ∀ s, (b'.grid s).hint = (b.grid s).hint)
    (hu : ∀ s t, used b' s t ↔ used b s t) : HintOk b' := by
  intro s
  rw [hg]
  rcases h s with h | h
  · exact Or.inl h
  · exact Or.inr (h.congr fun t => (hu s t).symm)

theorem HintOk.push (h : HintOk b) (hr : Rep b Q) (hr' : Rep b' (set2 Q s p (Q s p ++ [n])))
    (hp : Pushed b b' n ref s p qty) (hsafe : b.startsSafe s p) : HintOk b' := by
  have hpx := priceOf_congr hp.lo
  intro s'
  rw [hp.hint]
  by_cases hnew : s' = s ∧ b.inGrid p = true ∧ b.levelIx s p < 0
  · obtain ⟨rfl, hin, hx⟩ := hnew
    rw [if_pos ⟨rfl, hin, hx⟩]
    -- the side's grid gains the tick of `p`
    have hused : ∀ t, used b' s' t ↔ t = b.tickOf p ∨ used b s' t := by
      intro t
      rw [hr'.used_iff, hr.used_iff, hp.ticks, hpx]
      by_cases ht : t < b.ticks
      · by_cases htp : t = b.tickOf p
        · rw [htp, hr.grid.window.priceOf_tickOf hin, set2_same]
          simp [tickOf_lt hin]
        · have hne : b.priceOf t ≠ p := by
            rintro rfl
            exact htp (hr.grid.window.tickOf_priceOf ht).symm
          rw [set2_other fun h => hne h.2]
          simp [htp]
      · have htp : t ≠ b.tickOf p := fun he => ht (he ▸ tickOf_lt hin)
        simp [ht, htp]
    right
    exact (raiseHint_isTop (h s') fun hneg => hsafe hin hx hneg).congr fun t => (hused t).symm
  · rw [if_neg hnew]
    -- no tick of the side changes hands
    have hused : ∀ t, used b' s' t ↔ used b s' t := by
      intro t
      rw [hr'.used_iff, hr.used_iff, hp.ticks, hpx]
      refine and_congr_right fun ht => ?_
      by_cases hsp : s' = s ∧ b.priceOf t = p
      · obtain ⟨rfl, rfl⟩ := hsp
        rw [set2_same]
        have hin := hr.grid.window.inGrid_priceOf ht
        have hx : 0 ≤ b.levelIx s' (b.priceOf t) := by
          by_contra hc
          exact hnew ⟨rfl, hin, by omega⟩
        simp [hr.live s' _ hx]
      · rw [set2_other hsp]
    rcases h s' with h | h
    · exact Or.inl h
    · exact Or.inr (h.congr fun t => (hused t).symm)

theorem HintOk.pull (h : HintOk b) (hr : Rep b Q) {l r : List ℕ} (hq : Q s p = l ++ n :: r)
    (hr' : Rep b' (set2 Q s p (l ++ r))) (hp : Pulled b b' ref s p (l ++ r = [])) : HintOk b' := by
  have hpx := priceOf_congr hp.lo
  intro s'
  rw [hp.hint]
  by_cases hdrop : s' = s ∧ l ++ r = [] ∧ b.inGrid p = true ∧ (b.grid s).hint = b.tickOf p
  · rw [if_pos hdrop]
    exact Or.inl rfl
  · rw [if_neg hdrop]
    have hused : ∀ t, used b' s' t ↔ used b s' t ∧ ¬(s' = s ∧ b.priceOf t = p ∧ l ++ r = []) := by
      intro t
      rw [hr'.used_iff, hr.used_iff, hp.ticks, hpx, and_assoc]
      refine and_congr_right fun _ => ?_
      by_cases hsp : s' = s ∧ b.priceOf t = p
      · obtain ⟨rfl, rfl⟩ := hsp
        rw [set2_same, hq]
        simp
      · rw [set2_other hsp]
        exact ⟨fun h => ⟨h, fun h' => hsp ⟨h'.1, h'.2.1⟩⟩, fun h => h.1⟩
    rcases h s' with h | ⟨hneg, hnone⟩ | ⟨t, ht, hu, hbest⟩
    · exact Or.inl h
    · exact Or.inl hneg
    · refine Or.inr (Or.inr ⟨t, ht, (hused t).mpr ⟨hu, ?_⟩, fun u hu' => hbest u ((hused u).mp hu').1⟩)
      rintro ⟨rfl, rfl, he⟩
      have hlt := (hr.used_iff.mp hu).1
      refine hdrop ⟨rfl, he, hr.grid.window.inGrid_priceOf hlt, ?_⟩
      rw [ht, hr.grid.window.tickOf_priceOf hlt]

/-! ### Queries -/

/-- What a query does to a book. -/
def setHint (b : HybridBook) (s : Side) (r : ℤ) : HybridBook :=
  { b with grid := Function.update b.grid s { b.grid s with hint := r } }

/-- `r` names no tick, or one in use. -/
def HintFor (b : HybridBook) (s : Side) (r : ℤ) : Prop := r = -1 ∨ ∃ t : ℕ, r = t ∧ used b s t

theorem IsTop.hintFor {r : ℤ} (h : IsTop s (used b s) r) : HintFor b s r := h.mem

theorem setHint_hint {r : ℤ} : ((b.setHint s r).grid s).hint = r := by
  show (Function.update b.grid s { b.grid s with hint := r } s).hint = r
  rw [Function.update_self]

theorem setHint_other {r : ℤ} {s' : Side} (hs : s' ≠ s) :
    (b.setHint s r).grid s' = b.grid s' := Function.update_of_ne hs _ _

theorem setHint_slot {r : ℤ} (s' : Side) :
    ((b.setHint s r).grid s').slot = (b.grid s').slot := by
  by_cases hs : s' = s
  · rw [hs]
    show (Function.update b.grid s { b.grid s with hint := r } s).slot = _
    rw [Function.update_self]
  · rw [setHint_other hs]

theorem setHint_bits {r : ℤ} (s' : Side) :
    ((b.setHint s r).grid s').bits = (b.grid s').bits := by
  by_cases hs : s' = s
  · rw [hs]
    show (Function.update b.grid s { b.grid s with hint := r } s).bits = _
    rw [Function.update_self]
  · rw [setHint_other hs]

theorem setHint_levelIx {r : ℤ} : (b.setHint s r).levelIx = b.levelIx := by
  funext s' q
  simp only [levelIx, setHint_slot]
  rfl

theorem setHint_used {r : ℤ} : used (b.setHint s r) = used b := by
  funext s' t
  rw [used, used, setHint_slot]

theorem GridOk.setHint (hg : GridOk b) (s : Side) {r : ℤ} (htop : HintFor b s r) :
    GridOk (b.setHint s r) := by
  have hw := hg.window
  refine ⟨⟨hw.aligned, hw.pos, hw.top⟩, fun s' => ?_, fun s' => ?_, fun s' t => ?_, fun s' => ?_,
    hg.outside⟩
  · rw [setHint_slot, hg.slots]
    rfl
  · rw [setHint_bits]
    exact hg.words s'
  · rw [setHint_slot, setHint_bits]
    exact hg.bits s' t
  · rw [setHint_slot]
    by_cases hs : s' = s
    · rw [hs, setHint_hint]
      rcases htop with h | ⟨t, h, hu⟩
      · exact Or.inl h
      · exact Or.inr ⟨t, h, hg.tick_lt hu, hu⟩
    · rw [setHint_other hs]
      exact hg.hint s'

theorem Rep.setHint (hr : Rep b Q) (s : Side) {r : ℤ} (htop : HintFor b s r) :
    Rep (b.setHint s r) Q := by
  have hix := setHint_levelIx (b := b) (s := s) (r := r)
  refine ⟨⟨hr.grid.setHint s htop, ?_, ?_, ?_, fun s' q o ho => ?_, ?_⟩, ?_, hr.freeOrders,
    hr.table, hr.named⟩
  · rw [hix]
    intro s' q hx
    obtain ⟨n, h1, h2, h3, h4⟩ := hr.level s' q hx
    exact ⟨n, h1, h2, h3, h4.congr (fun _ _ => rfl) rfl⟩
  · rw [hix]
    exact hr.absent
  · rw [hix]
    exact hr.inj
  · obtain ⟨h1, h2, h3, h4, h5⟩ := hr.order s' q o ho
    refine ⟨h1, h2, ?_, h4, h5⟩
    rw [hix]
    exact h3
  · rw [hix]
    exact hr.freeLevels
  · rw [hix]
    exact hr.live

/-- What a query leaves cached: the top it scans for when nothing was cached,
otherwise the tick that was. -/
def Found (b : HybridBook) (s : Side) (r : ℤ) : Prop :=
  ((b.grid s).hint = -1 ∧ IsTop s (used b s) r) ∨ (r = (b.grid s).hint ∧ ∃ t : ℕ, r = t ∧ used b s t)

theorem Found.hintFor {r : ℤ} (h : Found b s r) : HintFor b s r := by
  cases h with
  | inl h => exact h.2.hintFor
  | inr h => exact Or.inr h.2

theorem GridOk.gridBest_found (hg : GridOk b) (s : Side) : ∃ r, Found b s r ∧
    b.gridBest s = some (if r < 0 then kInvalidPrice else b.priceOf r.toNat, b.setHint s r) := by
  rcases hg.hint s with hneg | ⟨t, ht, htl, hu⟩
  · obtain ⟨r, hscan, htop⟩ := hg.scan_start s
    have hlt : (b.grid s).hint < 0 := by omega
    refine ⟨r, Or.inl ⟨hneg, htop⟩, ?_⟩
    simp only [gridBest, if_pos hlt, hscan, Option.bind_eq_bind, Option.bind_some]
    rfl
  · have hlt : ¬(b.grid s).hint < 0 := by omega
    have hsub : subscript (b.grid s).slot (b.grid s).hint =
        some ((b.grid s).slot.getD t (-1)) := by
      rw [ht]
      exact subscript_cast (by rw [hg.slots]; exact htl) _
    refine ⟨(b.grid s).hint, Or.inr ⟨rfl, t, ht, hu⟩, ?_⟩
    simp only [gridBest, if_neg hlt, hsub, Option.bind_eq_bind, Option.bind_some,
      if_neg (not_lt.mpr hu)]
    rfl

/-- The query caches the tick it finds, the best one if the cache was right. -/
theorem GridOk.gridBest_eq (hg : GridOk b) (s : Side) :
    ∃ r, HintFor b s r ∧
      ((b.grid s).hint = -1 ∨ IsTop s (used b s) (b.grid s).hint → IsTop s (used b s) r) ∧
      b.gridBest s = some (if r < 0 then kInvalidPrice else b.priceOf r.toNat, b.setHint s r) := by
  obtain ⟨r, hfound, hgrid⟩ := hg.gridBest_found s
  refine ⟨r, hfound.hintFor, fun h => ?_, hgrid⟩
  rcases hfound with ⟨-, htop⟩ | ⟨hr, t, ht, -⟩
  · exact htop
  · rw [hr]
    exact h.resolve_left (by omega)

theorem GridOk.best_found (hg : GridOk b) (s : Side) :
    ∃ px r, Found b s r ∧ b.best s = some (px, b.setHint s r) := by
  obtain ⟨r, hfound, hgrid⟩ := hg.gridBest_found s
  generalize (if r < 0 then kInvalidPrice else b.priceOf r.toNat) = g at hgrid
  have hbest : ∃ px, b.best s = some (px, b.setHint s r) := by
    simp only [best, hgrid, Option.bind_eq_bind, Option.bind_some]
    split
    · exact ⟨_, rfl⟩
    · split
      · exact ⟨_, rfl⟩
      · exact ⟨_, rfl⟩
  obtain ⟨px, hbest⟩ := hbest
  exact ⟨px, r, hfound, hbest⟩

/-- Whatever is cached, a query changes only the cached tick. -/
theorem GridOk.best_some (hg : GridOk b) (s : Side) :
    ∃ px r, HintFor b s r ∧ b.best s = some (px, b.setHint s r) := by
  obtain ⟨px, r, hfound, hbest⟩ := hg.best_found s
  exact ⟨px, r, hfound.hintFor, hbest⟩

/-- The best price of a side, zero when it has none. -/
def IsBestPrice (Q : Queues) (s : Side) (px : Price) : Prop :=
  (px = kInvalidPrice ∧ ∀ p, Q s p = []) ∨
    (Q s px ≠ [] ∧ ∀ q, Q s q ≠ [] → q = px ∨ better s px q = true)

theorem isBestPrice_iff {px : Price} : IsBestPrice Q s px ↔ IsBest s (fun p => Q s p ≠ []) px := by
  simp only [IsBestPrice, IsBest, not_not]

theorem IsBestPrice.unique {px px' : Price} (h : IsBestPrice Q s px) (h' : IsBestPrice Q s px') :
    px = px' := (isBestPrice_iff.mp h).unique (isBestPrice_iff.mp h')

/-- The query is the better of the grid's best price and the overflow map's. -/
theorem best_of_gridBest {g : Price} {b' : HybridBook} (h : b.gridBest s = some (g, b')) :
    b.best s = some (betterOf s g (b'.overBest s), b') := by
  simp only [best, h, Option.bind_eq_bind, Option.bind_some, betterOf]
  by_cases hg : g = kInvalidPrice
  · rw [if_pos hg, if_pos hg]
    rfl
  · rw [if_neg hg, if_neg hg]
    split <;> rfl

theorem gridBest_setHint {px : Price} (h : b.gridBest s = some (px, b')) :
    ∃ r, b' = b.setHint s r := by
  unfold gridBest at h
  dsimp only at h
  split at h
  · obtain ⟨hint, -, h⟩ := Option.bind_eq_some_iff.mp h
    obtain ⟨-, rfl⟩ := Prod.mk.inj (Option.some.inj h)
    exact ⟨hint, rfl⟩
  · obtain ⟨li, -, h⟩ := Option.bind_eq_some_iff.mp h
    split at h
    · obtain ⟨hint, -, h⟩ := Option.bind_eq_some_iff.mp h
      obtain ⟨-, rfl⟩ := Prod.mk.inj (Option.some.inj h)
      exact ⟨hint, rfl⟩
    · obtain ⟨-, rfl⟩ := Prod.mk.inj (Option.some.inj h)
      exact ⟨(b.grid s).hint, rfl⟩

/-- A query writes the cached tick only, in any book. -/
theorem best_setHint {px : Price} (h : b.best s = some (px, b')) : ∃ r, b' = b.setHint s r := by
  cases hg : b.gridBest s with
  | none =>
    simp only [best, hg] at h
    cases h
  | some x =>
    obtain ⟨g, b1⟩ := x
    rw [best_of_gridBest hg] at h
    obtain ⟨-, rfl⟩ := Prod.mk.inj (Option.some.inj h)
    exact gridBest_setHint hg

/-- An occupied price is one of a used tick or a key of the overflow map. -/
theorem Rep.occupied_iff (hr : Rep b Q) (s : Side) (p : Price) :
    Q s p ≠ [] ↔ (∃ t, used b s t ∧ p = b.span.priceOf t) ∨ p ∈ b.over_ s := by
  have hlive : Q s p ≠ [] ↔ 0 ≤ b.levelIx s p := by
    refine ⟨fun hq => ?_, hr.live s p⟩
    obtain ⟨o, ho⟩ := List.exists_mem_of_ne_nil _ hq
    exact hr.absent_of ho
  have hkey : p ∈ b.over_ s ↔ ∃ li, (b.over_ s)[p]? = some li := by
    rw [Std.TreeMap.mem_iff_isSome_getElem?, Option.isSome_iff_exists]
  rw [hlive, hkey]
  by_cases hin : b.inGrid p = true
  · have hno : ¬∃ li, (b.over_ s)[p]? = some li := by
      rintro ⟨li, h⟩
      rw [(hr.grid.outside s p li h).1] at hin
      cases hin
    rw [or_iff_left hno]
    constructor
    · exact fun hx => ⟨b.tickOf p, (hr.grid.used_tickOf hin).mpr hx,
        (hr.grid.window.priceOf_tickOf hin).symm⟩
    · rintro ⟨t, ht, rfl⟩
      exact (hr.grid.used_priceOf ht).2
  · have hno : ¬∃ t, used b s t ∧ p = b.span.priceOf t := by
      rintro ⟨t, ht, rfl⟩
      exact hin (hr.grid.window.inGrid_priceOf (hr.grid.used_priceOf ht).1)
    rw [or_iff_right hno]
    exact hr.grid.levelIx_over (by simpa using hin)

theorem Rep.best_eq (hr : Rep b Q) (hh : HintOk b) (hz : ∀ s, Q s kInvalidPrice = []) (s : Side) :
    ∃ px r, b.best s = some (px, b.setHint s r) ∧ IsTop s (used b s) r ∧ IsBestPrice Q s px ∧
      Rep (b.setHint s r) Q ∧ HintOk (b.setHint s r) := by
  obtain ⟨r, -, htop, hgrid⟩ := hr.grid.gridBest_eq s
  replace htop := htop (hh s)
  have hr' := hr.setHint s htop.hintFor
  have hh' : HintOk (b.setHint s r) := by
    intro s'
    rw [setHint_used]
    by_cases hs : s' = s
    · right
      rw [hs, setHint_hint]
      exact htop
    · rw [setHint_other hs]
      exact hh s'
  have hocc := hr.occupied_iff s
  have hgrid0 : ¬∃ t, used b s t ∧ kInvalidPrice = b.span.priceOf t :=
    fun h => (hocc _).mpr (Or.inl h) (hz s)
  have hover0 : ¬kInvalidPrice ∈ b.over_ s := fun h => (hocc _).mpr (Or.inr h) (hz s)
  have htick := isBest_tick hr.grid.window.span (fun t ht => (hr.grid.used_priceOf ht).1) htop
  have hbest := isBest_betterOf htick (isBest_topKey s (b.over_ s)) hgrid0 hover0
  refine ⟨_, r, best_of_gridBest hgrid, htop, isBestPrice_iff.mpr (hbest.congr fun p => ?_), hr', hh'⟩
  exact (hocc p).symm

/-! ### Steps -/

/-- No level at the price that stands for "none". -/
def NoZero (b : HybridBook) : Prop := ∀ s, b.levelIx s kInvalidPrice < 0

theorem Rep.noZero_iff (hr : Rep b Q) : NoZero b ↔ ∀ s, Q s kInvalidPrice = [] := by
  constructor
  · exact fun h s => hr.absent s _ (h s)
  · intro h s
    by_contra hc
    exact hr.live s _ (by omega) (h s)

theorem Rep.add_noZero (hr : Rep b Q) (hz : NoZero b) (href : ref ≠ OpenHashMap.kEmpty)
    (hp : p ≠ kInvalidPrice) (h : b.add ref s p qty = some b') : NoZero b' := by
  by_cases hqty : qty = 0
  · rw [hqty, add_zero] at h
    obtain rfl := Option.some.inj h
    exact hz
  · rcases hr.add_cases href s p hqty with ⟨-, h'⟩ | ⟨-, h'⟩ | ⟨n, b1, h', hr', -, -⟩
    · rw [h'] at h
      cases h
    · rw [h'] at h
      obtain rfl := Option.some.inj h
      exact hz
    · rw [h'] at h
      obtain rfl := Option.some.inj h
      refine hr'.noZero_iff.mpr fun s' => ?_
      rw [set2_other fun h => hp h.2.symm]
      exact hr.noZero_iff.mp hz s'

theorem Rep.add_hint (hr : Rep b Q) (hh : HintOk b) (href : ref ≠ OpenHashMap.kEmpty)
    (hsafe : qty = 0 ∨ b.startsSafe s p) (h : b.add ref s p qty = some b') : HintOk b' := by
  by_cases hqty : qty = 0
  · rw [hqty, add_zero] at h
    obtain rfl := Option.some.inj h
    exact hh
  · rcases hr.add_cases href s p hqty with ⟨-, h'⟩ | ⟨-, h'⟩ | ⟨n, b1, h', hr', -, hpush⟩
    · rw [h'] at h
      cases h
    · rw [h'] at h
      obtain rfl := Option.some.inj h
      exact hh
    · rw [h'] at h
      obtain rfl := Option.some.inj h
      exact hh.push hr hr' hpush (hsafe.resolve_left hqty)

theorem NoZero.pull (hz : NoZero b) (hr : Rep b Q) {l r : List ℕ} (hq : Q s p = l ++ n :: r)
    (hr' : Rep b' (set2 Q s p (l ++ r))) : NoZero b' := by
  rw [hr.noZero_iff] at hz
  refine hr'.noZero_iff.mpr fun s' => ?_
  rw [set2_other, hz s']
  rintro ⟨rfl, rfl⟩
  rw [hz s'] at hq
  exact absurd hq (by simp)

theorem Rep.step_noZero (hr : Rep b Q) (hz : NoZero b) (op : Op)
    (hrefs : ∀ ref ∈ op.refs, ref ≠ OpenHashMap.kEmpty)
    (hprices : ∀ px ∈ op.prices, px ≠ kInvalidPrice) (h : b.step op = some b') : NoZero b' := by
  have hreduce : ∀ ref qty, ref ≠ OpenHashMap.kEmpty → b.reduce ref qty = some b' → NoZero b' := by
    intro ref qty href h
    rcases hr.reduce_cases href qty with ⟨-, h'⟩ | ⟨n, s, p, l, r, -, hq, -, -, hcase⟩
    · rw [h'] at h
      obtain rfl := Option.some.inj h
      exact hz
    · rcases hcase with ⟨-, b1, h', hr', -⟩ | ⟨-, b1, h', -, hc⟩
      · rw [h'] at h
        obtain rfl := Option.some.inj h
        exact hz.pull hr hq hr'
      · rw [h'] at h
        obtain rfl := Option.some.inj h
        intro s
        rw [hc.index.levelIx_eq]
        exact hz s
  cases op with
  | add ref s p qty =>
    exact hr.add_noZero hz (hrefs ref (by simp [Op.refs])) (hprices p (by simp [Op.prices])) h
  | execute ref qty => exact hreduce ref qty (hrefs ref (by simp [Op.refs])) h
  | cancel ref qty => exact hreduce ref qty (hrefs ref (by simp [Op.refs])) h
  | remove ref =>
    rcases hr.remove_cases (hrefs ref (by simp [Op.refs])) with
      ⟨-, h'⟩ | ⟨n, s, p, l, r, b1, -, hq, -, -, h', hr', -⟩
    · rw [step, h'] at h
      obtain rfl := Option.some.inj h
      exact hz
    · rw [step, h'] at h
      obtain rfl := Option.some.inj h
      exact hz.pull hr hq hr'
  | replace ref new p' qty =>
    rcases hr.replace_cases (hrefs ref (by simp [Op.refs])) new p' qty with
      ⟨-, h'⟩ | ⟨n, s, p, l, r, b1, -, hq, -, -, -, hr1, -, h'⟩
    · rw [step, h'] at h
      obtain rfl := Option.some.inj h
      exact hz
    · rw [step, h'] at h
      exact hr1.add_noZero (hz.pull hr hq hr1) (hrefs new (by simp [Op.refs]))
        (hprices p' (by simp [Op.prices])) h
  | clear =>
    obtain rfl := Option.some.inj h
    exact hr.clear.1.noZero_iff.mpr fun s => rfl

theorem Rep.step_hint (hr : Rep b Q) (hh : HintOk b) (op : Op)
    (hrefs : ∀ ref ∈ op.refs, ref ≠ OpenHashMap.kEmpty) (hsafe : (Call.op op).safe b)
    (h : b.step op = some b') : HintOk b' := by
  have hreduce : ∀ ref qty, ref ≠ OpenHashMap.kEmpty → b.reduce ref qty = some b' → HintOk b' := by
    intro ref qty href h
    rcases hr.reduce_cases href qty with ⟨-, h'⟩ | ⟨n, s, p, l, r, -, hq, -, -, hcase⟩
    · rw [h'] at h
      obtain rfl := Option.some.inj h
      exact hh
    · rcases hcase with ⟨-, b1, h', hr', hp⟩ | ⟨-, b1, h', hr', hc⟩
      · rw [h'] at h
        obtain rfl := Option.some.inj h
        exact hh.pull hr hq hr' hp
      · rw [h'] at h
        obtain rfl := Option.some.inj h
        refine hh.congr (fun s => by rw [hc.index.grid]) fun s t => ?_
        rw [used, used, hc.index.grid]
  cases op with
  | add ref s p qty => exact hr.add_hint hh (hrefs ref (by simp [Op.refs])) hsafe h
  | execute ref qty => exact hreduce ref qty (hrefs ref (by simp [Op.refs])) h
  | cancel ref qty => exact hreduce ref qty (hrefs ref (by simp [Op.refs])) h
  | remove ref =>
    rcases hr.remove_cases (hrefs ref (by simp [Op.refs])) with
      ⟨-, h'⟩ | ⟨n, s, p, l, r, b1, -, hq, -, -, h', hr', hp⟩
    · rw [step, h'] at h
      obtain rfl := Option.some.inj h
      exact hh
    · rw [step, h'] at h
      obtain rfl := Option.some.inj h
      exact hh.pull hr hq hr' hp
  | replace ref new p' qty =>
    have href := hrefs ref (by simp [Op.refs])
    rcases hr.replace_cases href new p' qty with
      ⟨-, h'⟩ | ⟨n, s, p, l, r, b1, hl, hq, -, hs, h1, hr1, hp, h'⟩
    · rw [step, h'] at h
      obtain rfl := Option.some.inj h
      exact hh
    · rw [step, h'] at h
      have hfind : b.ids.find OpenHashMap.hash ref = some (some (n : ℤ)) := by
        rw [hr.table.find_spec href, hl]
      refine hr1.add_hint (hh.pull hr hq hr1 hp) (hrefs new (by simp [Op.refs])) ?_ h
      rw [← hs]
      exact hsafe.imp_right fun h => h n b1 hfind h1
  | clear =>
    obtain rfl := Option.some.inj h
    exact fun s => Or.inl rfl

/-! ### Runs -/

def mapBest (m : MapBook) : Side → Price
  | .buy => m.bestBid
  | .sell => m.bestAsk

def ladder (snap : Snapshot) : Side → List LevelView
  | .buy => snap.bid
  | .sell => snap.ask

/-- A non-empty level of a side at a price. -/
def hasLevel (b : HybridBook) (s : Side) (px : Price) : Prop :=
  ∃ l, b.levelFor s px = some (some l) ∧ l.orders ≠ 0

/-- A book whose cache is right and that agrees with the reference book `m` unless
it has rejected an order. -/
def Tracks (b : HybridBook) (m : MapBook) : Prop :=
  ∃ Q, Rep b Q ∧ (b.rejected = 0 → Agrees b Q m) ∧ HintOk b ∧ NoZero b

theorem Rep.levelFor_cases (hr : Rep b Q) (s : Side) (p : Price) :
    (Q s p = [] ∧ b.levelFor s p = some none) ∨
    ∃ n : ℕ, b.levelIx s p = n ∧ b.levelFor s p = some (some (b.lev n)) ∧
      LevelOk b n p (Q s p) := by
  have hlook := hr.grid.lookupLevel_eq s p
  by_cases hx : 0 ≤ b.levelIx s p
  · obtain ⟨n, hn, hlt, -, hl⟩ := hr.level s p hx
    have hneg : ¬(n : ℤ) < 0 := by omega
    have hsub : subscript b.levels (n : ℤ) = some (b.lev n) := subscript_cast hlt _
    refine Or.inr ⟨n, hn, ?_, hl⟩
    simp only [levelFor, hlook, hn, Option.bind_eq_bind, Option.bind_some, if_neg hneg, hsub]
    rfl
  · refine Or.inl ⟨hr.absent s p (by omega), ?_⟩
    simp only [levelFor, hlook, Option.bind_eq_bind, Option.bind_some, if_pos (not_le.mp hx)]
    rfl

theorem Rep.hasLevel_iff (hr : Rep b Q) : b.hasLevel s p ↔ Q s p ≠ [] := by
  rcases hr.levelFor_cases s p with ⟨hq, hlv⟩ | ⟨n, hn, hlv, hl⟩
  · constructor
    · rintro ⟨l, hl, -⟩
      rw [hlv] at hl
      cases hl
    · exact fun hne => absurd hq hne
  · have hne : Q s p ≠ [] := hr.live s p (by omega)
    refine ⟨fun _ => hne, fun _ => ⟨b.lev n, hlv, ?_⟩⟩
    rw [hl.orders]
    intro h0
    have h0' := congrArg UInt32.toNat h0
    rw [UInt32.toNat_ofNat_of_lt' (hr.length_lt s p)] at h0'
    exact hne (List.length_eq_zero_iff.mp h0')

/-- The reference book's best price is the extreme price of its levels. -/
theorem mapBest_isBest (m : MapBook) (s : Side) :
    IsBest s (fun p => m.level s p ≠ none) (mapBest m s) := by
  cases s with
  | buy =>
    rw [mapBest, MapBook.bestBid, ← Std.TreeMap.map_fst_toList_eq_keys]
    apply isBest_head (bids_sorted m.bids)
    intro p
    rw [Std.TreeMap.map_fst_toList_eq_keys, Std.TreeMap.mem_keys,
      Std.TreeMap.mem_iff_isSome_getElem?, Option.isSome_iff_ne_none]
    rfl
  | sell =>
    rw [mapBest, MapBook.bestAsk, ← Std.TreeMap.map_fst_toList_eq_keys]
    apply isBest_head (List.pairwise_map.mpr (asks_sorted m.asks))
    intro p
    rw [Std.TreeMap.map_fst_toList_eq_keys, Std.TreeMap.mem_keys,
      Std.TreeMap.mem_iff_isSome_getElem?, Option.isSome_iff_ne_none]
    rfl

theorem Agrees.mapBest_isBest (ha : Agrees b Q m) (s : Side) : IsBestPrice Q s (mapBest m s) := by
  apply isBestPrice_iff.mpr
  apply (HybridBook.mapBest_isBest m s).congr
  intro p
  rw [ha.levels, aggOf]
  split
  · rename_i hq
    exact ⟨fun h => absurd rfl h, fun h => absurd hq h⟩
  · rename_i hq
    exact ⟨fun _ => hq, fun _ => Option.some_ne_none _⟩

/-- The reference book's best price heads its snapshot. -/
theorem mapBest_head (m : MapBook) (s : Side) :
    mapBest m s = ((ladder m.snapshot s).head?.map LevelView.price).getD kInvalidPrice := by
  cases s with
  | buy =>
    rw [mapBest, MapBook.bestBid, ← Std.TreeMap.map_fst_toList_eq_keys, ladder, MapBook.snapshot]
    cases m.bids.toList <;> rfl
  | sell =>
    rw [mapBest, MapBook.bestAsk, ← Std.TreeMap.map_fst_toList_eq_keys, ladder, MapBook.snapshot]
    cases m.asks.toList <;> rfl

theorem Agrees.setHint (ha : Agrees b Q m) (r : ℤ) : Agrees (b.setHint s r) Q m :=
  ⟨ha.records, ha.size, ha.levels⟩

theorem Tracks.best (ht : Tracks b m) (s : Side) :
    ∃ px r, b.best s = some (px, b.setHint s r) ∧ IsTop s (used b s) r ∧
      Tracks (b.setHint s r) m ∧ (b.rejected = 0 → px = mapBest m s) := by
  obtain ⟨Q, hr, ha, hh, hz⟩ := ht
  obtain ⟨px, r, hbest, htop, hpx, hr', hh'⟩ := hr.best_eq hh (hr.noZero_iff.mp hz) s
  have hz' := hr'.noZero_iff.mpr (hr.noZero_iff.mp hz)
  exact ⟨px, r, hbest, htop, ⟨Q, hr', fun h => (ha h).setHint r, hh', hz'⟩,
    fun h => hpx.unique ((ha h).mapBest_isBest s)⟩

theorem Tracks.step (ht : Tracks b m) (op : Op) (hrefs : ∀ ref ∈ op.refs, ref ≠ OpenHashMap.kEmpty)
    (hprices : ∀ px ∈ op.prices, px ≠ kInvalidPrice) (hsafe : (Call.op op).safe b)
    (h : b.step op = some b') : Tracks b' (m.step op) := by
  obtain ⟨Q, hr, ha, hh, hz⟩ := ht
  obtain ⟨hle, Q', hr', hsim⟩ := hr.step_sim op hrefs h
  exact ⟨Q', hr', fun h0 => hsim m (ha (by omega)) (by omega), hr.step_hint hh op hrefs hsafe h,
    hr.step_noZero hz op hrefs hprices h⟩

/-- What the caller promises of its operations. -/
def Call.valid (c : Call) : Prop :=
  ∀ op, c.op? = some op → (∀ ref ∈ op.refs, ref ≠ 0) ∧ ∀ px ∈ op.prices, px ≠ 0

theorem Tracks.run (ht : Tracks b m) (calls : List Call) (hvalid : ∀ c ∈ calls, c.valid)
    (hsafe : safeCalls b calls) (h : runCalls b calls = some b') :
    Tracks b' (m.replay (calls.filterMap Call.op?)) := by
  induction calls generalizing b m with
  | nil =>
    obtain rfl := Option.some.inj h
    exact ht
  | cons c cs ih =>
    obtain ⟨b1, h1, h'⟩ := Option.bind_eq_some_iff.mp h
    have hvalid' : ∀ c ∈ cs, c.valid := fun c hc => hvalid c (List.mem_cons_of_mem _ hc)
    have hsafe' := hsafe.2 b1 h1
    cases c with
    | op op =>
      obtain ⟨hrefs, hprices⟩ := hvalid (.op op) (List.mem_cons_self ..) op rfl
      exact ih (ht.step op hrefs hprices hsafe.1 h1) hvalid' hsafe' h'
    | best s =>
      obtain ⟨px, r, hbest, -, ht', -⟩ := ht.best s
      have hb : b1 = b.setHint s r := by
        simp only [call, hbest, Option.map_some, Option.some.injEq] at h1
        exact h1.symm
      rw [hb] at h' hsafe'
      exact ih ht' hvalid' hsafe' h'
    | snapshot =>
      have hb : b1 = b := by
        simp only [call, Option.map_eq_some_iff] at h1
        obtain ⟨-, -, h1⟩ := h1
        exact h1.symm
      rw [hb] at h' hsafe'
      exact ih ht hvalid' hsafe' h'

theorem Tracks.make {lo hi : Price} {maxOrders maxLevels : ℕ}
    (h : make lo hi maxOrders maxLevels = some b) : Tracks b MapBook.empty := by
  obtain ⟨hr, ha⟩ := Agrees.make h
  refine ⟨noQueues, hr, fun _ => ha, fun s => Or.inl ?_, hr.noZero_iff.mpr fun s => rfl⟩
  obtain ⟨-, ids, ticks, -, -, rfl⟩ := make_some h
  rfl

/-- Along every run whose calls are all safe, the best prices are the extreme
prices of the non-empty levels, those of the snapshot and those of the
reference book. -/
theorem best_eq_map (lo hi : Price) (maxOrders maxLevels : ℕ) (b0 : HybridBook)
    (hmake : make lo hi maxOrders maxLevels = some b0) (calls : List Call)
    (hvalid : ∀ c ∈ calls, c.valid) (hsafe : safeCalls b0 calls) (b : HybridBook)
    (hrun : runCalls b0 calls = some b) (hrej : b.rejected = 0) (s : Side) :
    ∃ px b' snap, b.best s = some (px, b') ∧ b.snapshot = some snap ∧
      px = mapBest (MapBook.empty.replay (calls.filterMap Call.op?)) s ∧
      px = ((ladder snap s).head?.map LevelView.price).getD kInvalidPrice ∧
      ((px = kInvalidPrice ∧ ∀ q, ¬b.hasLevel s q) ∨
        (b.hasLevel s px ∧ ∀ q, b.hasLevel s q → q = px ∨ better s px q = true)) := by
  have ht := (Tracks.make hmake).run calls hvalid hsafe hrun
  obtain ⟨px, r, hbest, -, -, hpx⟩ := ht.best s
  obtain rfl := hpx hrej
  obtain ⟨Q, hr, ha, -, -⟩ := ht
  replace ha := ha hrej
  refine ⟨_, _, _, hbest, (ha.snapshot_eq hr).1, rfl, mapBest_head _ s, ?_⟩
  simp only [hr.hasLevel_iff]
  rcases ha.mapBest_isBest s with ⟨h1, h2⟩ | h
  · exact Or.inl ⟨h1, fun q hq => hq (h2 q)⟩
  · exact Or.inr h

/-- The best level is queried and removed, and the search finds the one below it. -/
theorem best_eq_map_removed : ∃ b0 b b' : HybridBook, ∃ px snap, make 100 300 4 4 = some b0 ∧
    runCalls b0 [.op (.add 1 .buy 200 5), .op (.add 2 .buy 300 5), .best .buy, .op (.remove 2)] =
      some b ∧ b.best .buy = some (px, b') ∧ b.snapshot = some snap ∧ px = 200 ∧
    px = ((ladder snap .buy).head?.map LevelView.price).getD kInvalidPrice ∧
    ((px = kInvalidPrice ∧ ∀ q, ¬b.hasLevel .buy q) ∨
      (b.hasLevel .buy px ∧ ∀ q, b.hasLevel .buy q → q = px ∨ better .buy px q = true)) := by
  have hrun : ((make 100 300 4 4).bind fun b0 => (runCalls b0 [.op (.add 1 .buy 200 5),
      .op (.add 2 .buy 300 5), .best .buy, .op (.remove 2)]).map HybridBook.rejected) = some 0 := by
    decide +kernel
  have hhint : ((make 100 300 4 4).bind fun b0 => (b0.call (.op (.add 1 .buy 200 5))).map
      fun b => (b.grid .buy).hint) = some 1 := by decide +kernel
  obtain ⟨b0, hmake, h⟩ := Option.bind_eq_some_iff.mp hrun
  obtain ⟨b, hb, hrej⟩ := Option.map_eq_some_iff.mp h
  rw [hmake, Option.bind_some] at hhint
  -- the first level is the only one, and the second comes with a known tick
  have hfirst : (Call.op (.add 1 .buy 200 5)).safe b0 :=
    Or.inr fun _ _ _ t ht => absurd rfl ((Rep.make hmake).1.used_iff.mp ht).2
  have hsecond : ∀ b1, b0.call (.op (.add 1 .buy 200 5)) = some b1 →
      (Call.op (.add 2 .buy 300 5)).safe b1 := by
    intro b1 h1
    rw [h1, Option.map_some] at hhint
    exact Or.inr fun _ _ hunknown => absurd hunknown (by rw [Option.some.inj hhint]; decide)
  have hsafe : safeCalls b0 [.op (.add 1 .buy 200 5), .op (.add 2 .buy 300 5), .best .buy,
      .op (.remove 2)] :=
    ⟨hfirst, fun b1 h1 => ⟨hsecond b1 h1, fun _ _ => ⟨trivial, fun _ _ => ⟨trivial,
      fun _ _ => trivial⟩⟩⟩⟩
  have hvalid : ∀ c ∈ [Call.op (.add 1 .buy 200 5), .op (.add 2 .buy 300 5), .best .buy,
      .op (.remove 2)], c.valid := by
    simp [Call.valid, Call.op?, Op.refs, Op.prices]
  obtain ⟨px, b', snap, hbest, hsnap, hpx, hall⟩ :=
    best_eq_map 100 300 4 4 b0 hmake _ hvalid hsafe b hb hrej .buy
  exact ⟨b0, b, b', px, snap, hmake, hb, hbest, hsnap, hpx.trans (by decide +kernel), hall⟩

/-- Replacing the best bid by a worse one, with a second level between them and no
query since: the cached tick names the worse level. -/
theorem best_misses_level : ¬∀ (lo hi : Price) (maxOrders maxLevels : ℕ) (b0 b b' : HybridBook)
    (calls : List Call) (s : Side) (px : Price), make lo hi maxOrders maxLevels = some b0 →
    (∀ c ∈ calls, c.valid) → runCalls b0 calls = some b → b.rejected = 0 →
    b.best s = some (px, b') → px = mapBest (MapBook.empty.replay (calls.filterMap Call.op?)) s := by
  intro hall
  have hrun : ((make 100 300 4 4).bind fun b0 => (runCalls b0 [.op (.add 1 .buy 300 5),
      .op (.add 2 .buy 200 5), .op (.replace 1 3 100 5)]).bind fun b =>
      (b.best .buy).map fun x => (b.rejected, x.1)) = some (0, 100) := by decide +kernel
  obtain ⟨b0, hmake, h⟩ := Option.bind_eq_some_iff.mp hrun
  obtain ⟨b, hb, h⟩ := Option.bind_eq_some_iff.mp h
  obtain ⟨⟨px, b'⟩, hbest, h⟩ := Option.map_eq_some_iff.mp h
  obtain ⟨hrej, rfl⟩ := Prod.mk.inj h
  have hvalid : ∀ c ∈ [Call.op (.add 1 .buy 300 5), .op (.add 2 .buy 200 5),
      .op (.replace 1 3 100 5)], c.valid := by
    simp [Call.valid, Call.op?, Op.refs, Op.prices]
  have hmap : mapBest (MapBook.empty.replay [.add 1 .buy 300 5, .add 2 .buy 200 5,
      .replace 1 3 100 5]) .buy = 200 := by decide +kernel
  have heq := hall 100 300 4 4 b0 b b' _ .buy 100 hmake hvalid hb hrej hbest
  have h200 : (100 : Price) = 200 := heq.trans hmap
  exact absurd h200 (by decide)

end Hotpath.Book.HybridBook
