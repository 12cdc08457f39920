import Hotpath.Book.HybridBest

/-!
# The grid on any run

Slots, bitmap and cached ticks correspond on every run that stays inside the
vectors, whatever the references say: each change of a slot changes its bit with
it, and a cached tick that loses its level is forgotten.
-/

namespace Hotpath.Book.HybridBook
open Hotpath.Support

variable {b b' : HybridBook} {s : Side} {p : Price} {ref : OrderId} {qty : Qty} {li oi : ℤ}

/-- The grid corresponds, and what it and the overflow maps name are levels. -/
structure Indexed (b : HybridBook) : Prop extends GridOk b where
  inside : ∀ s p, b.levelIx s p < b.levels.length

theorem Indexed.same (hg : Indexed b) (hi : SameIndex b b')
    (hl : b'.levels.length = b.levels.length) : Indexed b' :=
  ⟨hi.gridOk hg.toGridOk, fun s p => by rw [hi.levelIx_eq, hl]; exact hg.inside s p⟩

theorem Indexed.set {v : ℤ} (hg : Indexed b) (h : GridOk b' ∧ b'.levelIx = set2 b.levelIx s p v)
    (hl : b'.levels.length = b.levels.length) (hv : v < b.levels.length) : Indexed b' := by
  refine ⟨h.1, fun s' p' => ?_⟩
  rw [h.2, hl]
  unfold set2
  split
  · exact hv
  · exact hg.inside s' p'

theorem Indexed.findOrCreate (hg : Indexed b) (h : b.findOrCreateLevel s p = some (b', li)) :
    Indexed b' := by
  by_cases hx : 0 ≤ b.levelIx s p
  · rw [hg.find_existing hx] at h
    obtain ⟨rfl, -⟩ := Prod.mk.inj (Option.some.inj h)
    exact hg
  · have hneg := not_le.mp hx
    cases hf : b.freeLevels with
    | nil =>
      rw [hg.find_full hneg hf] at h
      obtain ⟨rfl, -⟩ := Prod.mk.inj (Option.some.inj h)
      exact hg
    | cons i free =>
      cases hl : modifyAt b.levels i (fun _ => ({ price := p } : Level)) with
      | none =>
        rw [hg.find_fails hneg hf hl] at h
        cases h
      | some levels =>
        obtain ⟨hpos, hlt⟩ := modifyAt_some hl
        obtain ⟨n, rfl⟩ := Int.eq_ofNat_of_zero_le hpos
        rw [Int.toNat_natCast] at hlt
        have hn : (n : ℤ) < b.levels.length := by exact_mod_cast hlt
        obtain ⟨b1, h1, hg1, -, -, hso, hix, -⟩ := hg.find_new hneg hf hl (modifyAt_length hl)
        rw [h1] at h
        obtain ⟨rfl, -⟩ := Prod.mk.inj (Option.some.inj h)
        exact hg.set ⟨hg1, hix⟩ hso.levels hn

theorem Indexed.dropLevel (hg : Indexed b) (h : b.dropLevel s li = some b') : Indexed b' := by
  obtain ⟨level, hl, -⟩ := Option.bind_eq_some_iff.mp h
  obtain ⟨b1, h1, hg1, -, -, hso, hix, -⟩ := hg.drop (s := s) hl
  obtain rfl : b' = b1 := Option.some.inj (h.symm.trans h1)
  exact hg.set ⟨hg1, hix⟩ hso.levels (by omega)

theorem Indexed.enqueue (hg : Indexed b) (h : b.enqueue oi li ref s qty = some b') : Indexed b' := by
  simp only [HybridBook.enqueue, Option.bind_eq_bind, Option.bind_eq_some_iff] at h
  obtain ⟨level, -, o1, -, o2, -, levels, hl, ⟨ids, ok⟩, -, h⟩ := h
  obtain rfl := Option.some.inj h
  exact hg.same ⟨rfl, rfl, rfl, rfl⟩ (modifyAt_length hl)

theorem Indexed.add (hg : Indexed b) (h : b.add ref s p qty = some b') : Indexed b' := by
  unfold HybridBook.add at h
  split at h
  · obtain rfl := Option.some.inj h
    exact hg
  · split at h
    · obtain rfl := Option.some.inj h
      exact hg.same ⟨rfl, rfl, rfl, rfl⟩ rfl
    · obtain ⟨⟨b1, li⟩, hf, h⟩ := Option.bind_eq_some_iff.mp h
      have h1 := hg.findOrCreate hf
      dsimp only at h
      split at h
      · obtain rfl := Option.some.inj h
        exact h1.same ⟨rfl, rfl, rfl, rfl⟩ rfl
      · refine Indexed.enqueue ?_ h
        exact h1.same ⟨rfl, rfl, rfl, rfl⟩ rfl

theorem Indexed.unlink (hg : Indexed b) (h : b.unlink oi = some b') : Indexed b' := by
  simp only [HybridBook.unlink, Option.bind_eq_bind, Option.bind_eq_some_iff] at h
  obtain ⟨o, -, level, -, o1, -, o2, -, o3, -, levels, hl, h⟩ := h
  have h1 : Indexed { b with orders := o3, levels := levels } :=
    hg.same ⟨rfl, rfl, rfl, rfl⟩ (modifyAt_length hl)
  split at h
  · exact h1.dropLevel h
  · obtain rfl := Option.some.inj h
    exact h1

theorem Indexed.retire (hg : Indexed b) (h : b.retire ref oi = some b') : Indexed b' := by
  simp only [HybridBook.retire, Option.bind_eq_bind, Option.bind_eq_some_iff] at h
  obtain ⟨b1, hu, ⟨ids, ok⟩, -, h⟩ := h
  obtain rfl := Option.some.inj h
  exact (hg.unlink hu).same ⟨rfl, rfl, rfl, rfl⟩ rfl

theorem Indexed.reduce (hg : Indexed b) (h : b.reduce ref qty = some b') : Indexed b' := by
  unfold HybridBook.reduce at h
  obtain ⟨found, -, h⟩ := Option.bind_eq_some_iff.mp h
  cases found with
  | none =>
    obtain rfl := Option.some.inj h
    exact hg
  | some i =>
    obtain ⟨o, -, h⟩ := Option.bind_eq_some_iff.mp h
    dsimp only at h
    generalize (if qty < o.qty then qty else o.qty) = take at h
    split at h
    · exact hg.retire h
    · simp only [Option.bind_eq_bind, Option.bind_eq_some_iff] at h
      obtain ⟨orders, -, levels, hl, h⟩ := h
      obtain rfl := Option.some.inj h
      exact hg.same ⟨rfl, rfl, rfl, rfl⟩ (modifyAt_length hl)

theorem Indexed.clear (hg : Indexed b) : Indexed b.clear := by
  obtain ⟨ha, hp, ht⟩ := hg.window
  have hslot : ∀ s t, (b.clear.grid s).slot.getD t (-1) = -1 := by
    intro s t
    show ((b.grid s).slot.map fun _ => (-1 : ℤ)).getD t (-1) = -1
    rw [List.map_const', List.getD_eq_getElem?_getD, List.getElem?_replicate]
    split <;> rfl
  have hbit : ∀ s t, bitAt (b.clear.grid s).bits t = false := by
    intro s t
    show bitAt ((b.grid s).bits.map fun _ => (0 : Word)) t = false
    rw [List.map_const', bitAt, List.getD_eq_getElem?_getD, List.getElem?_replicate]
    split <;> exact BitVec.getLsbD_zero
  refine ⟨⟨⟨ha, hp, ht⟩, fun s => ?_, fun s => ?_, fun s t => ?_, fun s => Or.inl rfl,
    fun s q li hq => ?_⟩, fun s q => ?_⟩
  · exact (List.length_map _).trans (hg.slots s)
  · exact (List.length_map _).trans (hg.words s)
  · rw [hbit, hslot]
    decide
  · have hnone : (∅ : Std.TreeMap Price ℤ)[q]? = some li := hq
    cases hnone
  · have hix : b.clear.levelIx s q = -1 := by
      rw [levelIx, hslot]
      split <;> rfl
    rw [hix]
    omega

theorem Indexed.step (hg : Indexed b) (op : Op) (h : b.step op = some b') : Indexed b' := by
  cases op with
  | add ref s p qty => exact hg.add h
  | execute ref qty => exact hg.reduce h
  | cancel ref qty => exact hg.reduce h
  | remove ref =>
    obtain ⟨found, -, h⟩ := Option.bind_eq_some_iff.mp h
    cases found with
    | none =>
      obtain rfl := Option.some.inj h
      exact hg
    | some i => exact hg.retire h
  | replace ref new p qty =>
    obtain ⟨found, -, h⟩ := Option.bind_eq_some_iff.mp h
    cases found with
    | none =>
      obtain rfl := Option.some.inj h
      exact hg
    | some i =>
      obtain ⟨o, -, h⟩ := Option.bind_eq_some_iff.mp h
      obtain ⟨b1, hr, h⟩ := Option.bind_eq_some_iff.mp h
      exact (hg.retire hr).add h
  | clear =>
    obtain rfl := Option.some.inj h
    exact hg.clear

theorem Indexed.levelFor_some (hg : Indexed b) : ∃ level, b.levelFor s p = some level := by
  have hin := hg.inside s p
  simp only [levelFor, hg.lookupLevel_eq, Option.bind_eq_bind, Option.bind_some]
  by_cases hx : b.levelIx s p < 0
  · rw [if_pos hx]
    exact ⟨none, rfl⟩
  · rw [if_neg hx]
    obtain ⟨n, hn⟩ := Int.eq_ofNat_of_zero_le (not_lt.mp hx)
    rw [hn] at hin ⊢
    have hlt : n < b.levels.length := by exact_mod_cast hin
    have hsub : subscript b.levels (n : ℤ) = some (b.lev n) := subscript_cast hlt _
    rw [hsub]
    exact ⟨_, rfl⟩

/-! ### Repeated queries -/

theorem Indexed.setHint {r : ℤ} (hg : Indexed b) (hf : HintFor b s r) : Indexed (b.setHint s r) :=
  ⟨hg.toGridOk.setHint s hf, fun s' p' => by rw [setHint_levelIx]; exact hg.inside s' p'⟩

/-- The cached tick names a level, or none is left to find. -/
def Cached (b : HybridBook) (s : Side) : Prop :=
  HintFor b s (b.grid s).hint ∧ ((b.grid s).hint = -1 → ∀ t, ¬used b s t)

theorem setHint_same : b.setHint s (b.grid s).hint = b := by
  have hgrid : Function.update b.grid s { b.grid s with hint := (b.grid s).hint } = b.grid :=
    Function.update_eq_self s b.grid
  rw [HybridBook.setHint, hgrid]

theorem Cached.other {r : ℤ} {s' : Side} (h : Cached b s') (hs : s' ≠ s) :
    Cached (b.setHint s r) s' := by
  unfold Cached HintFor at h ⊢
  rwa [setHint_other hs, setHint_used]

theorem Found.cached {r : ℤ} (h : Found b s r) : Cached (b.setHint s r) s := by
  unfold Cached
  rw [setHint_hint, setHint_used]
  refine ⟨?_, fun hneg => ?_⟩
  · have hfor := h.hintFor
    unfold HintFor at hfor ⊢
    rwa [setHint_used]
  · rcases h with ⟨-, htop⟩ | ⟨-, t, ht, -⟩
    · rcases htop with ⟨-, hnone⟩ | ⟨t, ht, -⟩
      · exact hnone
      · omega
    · omega

/-- A query leaves the cache as the next query would. -/
theorem GridOk.best_caches (hg : GridOk b) (s : Side) :
    ∃ px r, HintFor b s r ∧ b.best s = some (px, b.setHint s r) ∧ Cached (b.setHint s r) s := by
  obtain ⟨px, r, hfound, hbest⟩ := hg.best_found s
  exact ⟨px, r, hfound.hintFor, hbest, hfound.cached⟩

theorem GridOk.best_cached (hg : GridOk b) (hc : Cached b s) : ∃ px, b.best s = some (px, b) := by
  obtain ⟨px, r, hfound, hbest⟩ := hg.best_found s
  have hr : r = (b.grid s).hint := by
    rcases hfound with ⟨hneg, htop⟩ | ⟨hr, -⟩
    · rcases htop with ⟨hr, -⟩ | ⟨t, -, hu, -⟩
      · rw [hr, hneg]
      · exact absurd hu (hc.2 hneg t)
    · exact hr
  rw [hr, setHint_same] at hbest
  exact ⟨px, hbest⟩

/-- The price a query reads off the cached tick and the overflow map. -/
def shown (b : HybridBook) (s : Side) : Price :=
  betterOf s (if (b.grid s).hint < 0 then kInvalidPrice else b.priceOf (b.grid s).hint.toNat)
    (b.overBest s)

theorem GridOk.best_shown (hg : GridOk b) (s : Side) : ∃ r, HintFor b s r ∧
    b.best s = some (shown (b.setHint s r) s, b.setHint s r) ∧ Cached (b.setHint s r) s := by
  obtain ⟨r, hfound, hgrid⟩ := hg.gridBest_found s
  refine ⟨r, hfound.hintFor, ?_, hfound.cached⟩
  rw [best_of_gridBest hgrid, shown, setHint_hint]
  rfl

/-- Once both sides are queried, the next queries give the same prices. -/
theorem GridOk.best_again {b1 b2 : HybridBook} {bb ba : Price} (hg : GridOk b)
    (hbid : b.bestBid = some (bb, b1)) (hask : b1.bestAsk = some (ba, b2)) :
    b2.bestBid = some (bb, b2) ∧ b2.bestAsk = some (ba, b2) := by
  obtain ⟨r, hr, hbuy, hcb⟩ := hg.best_shown .buy
  rw [bestBid, hbuy] at hbid
  obtain ⟨rfl, rfl⟩ := Prod.mk.inj (Option.some.inj hbid)
  obtain ⟨r', hr', hsell, hca⟩ := (hg.setHint .buy hr).best_shown .sell
  rw [bestAsk, hsell] at hask
  obtain ⟨rfl, rfl⟩ := Prod.mk.inj (Option.some.inj hask)
  have hg2 := (hg.setHint .buy hr).setHint .sell hr'
  -- a cached tick is found again, so the query writes what is there
  have hagain : ∀ s, Cached ((b.setHint .buy r).setHint .sell r') s →
      ((b.setHint .buy r).setHint .sell r').best s =
        some (shown ((b.setHint .buy r).setHint .sell r') s,
          (b.setHint .buy r).setHint .sell r') := by
    intro s hc
    obtain ⟨px, hpx⟩ := hg2.best_cached hc
    obtain ⟨q, -, hq, -⟩ := hg2.best_shown s
    rw [hpx] at hq
    obtain ⟨hp, hb⟩ := Prod.mk.inj (Option.some.inj hq)
    rw [hpx, hp, ← hb]
  refine ⟨?_, hagain .sell hca⟩
  rw [bestBid, hagain .buy (hcb.other (by decide)), shown, setHint_other (by decide)]
  rfl

end Hotpath.Book.HybridBook
