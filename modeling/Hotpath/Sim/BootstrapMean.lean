import Hotpath.Sim.BootstrapBlocks

/-!
# The block bootstrap on one series

The point estimate is the mean over all observations and the interval is in order,
where the series spans more than one timestamp.
-/

namespace Hotpath.Sim.Bootstrap
open Hotpath.Support

variable {obs : List WeightedObs} {front back : WeightedObs} {t0 t1 blockNs : Ts}
  {pick : List ℕ} {resamples : ℕ}

/-- A series in time order lies between its first and its last timestamp. -/
theorem between (hfront : obs.head? = some front) (hback : obs.getLast? = some back)
    (horder : obs.Pairwise fun x y => x.ts ≤ y.ts) :
    ∀ o ∈ obs, front.ts ≤ o.ts ∧ o.ts ≤ back.ts := by
  intro o ho
  constructor
  case left =>
    obtain ⟨rest, rfl⟩ := List.head?_eq_some_iff.mp hfront
    cases List.mem_cons.mp ho with
    | inl heq => exact heq ▸ UInt64.le_refl _
    | inr hmem => exact (List.pairwise_cons.mp horder).1 o hmem
  case right =>
    obtain ⟨init, rfl⟩ := List.getLast?_eq_some_iff.mp hback
    cases List.mem_append.mp ho with
    | inl hmem =>
      exact (List.pairwise_append.mp horder).2.2 o hmem back (List.mem_singleton_self back)
    | inr hlast => exact List.mem_singleton.mp hlast ▸ UInt64.le_refl _

theorem weight_sum_pos (hpos : ∀ o ∈ obs, 0 < o.weight) (hne : obs ≠ []) :
    0 < (obs.map WeightedObs.weight).sum := by
  have hall : ∀ x ∈ obs.map WeightedObs.weight, 0 < x := by
    intro x hx
    obtain ⟨o, ho, rfl⟩ := List.mem_map.mp hx
    exact hpos o ho
  exact List.sum_pos _ hall (by simpa using hne)

/-- The number of blocks of `[t0, t1]`, where it can be counted. -/
def blocksOf (t0 t1 blockNs : Ts) : ℕ := (t1.toNat - t0.toNat) / blockNs.toNat + 1

/-- The mean over every block once. -/
theorem meanOver_all (hpos : ∀ o ∈ obs, 0 < o.weight) (hne : obs ≠ [])
    (hin : ∀ o ∈ obs, t0 ≤ o.ts ∧ o.ts ≤ t1) :
    meanOver t0 blockNs obs (List.range (blocksOf t0 t1 blockNs)) = totalMean obs := by
  have hlt (o) (ho : o ∈ obs) : blockOf t0 blockNs o < blocksOf t0 t1 blockNs :=
    blockOf_lt (hin o ho).1 (hin o ho).2
  rw [meanOver, picked_all _ hlt, picked_all _ hlt, if_pos (weight_sum_pos hpos hne), totalMean]

/-- What a pick adds to the vector of means. -/
def keptMean (t0 blockNs : Ts) (obs : List WeightedObs) (pick : List ℕ) : Option ℚ :=
  if meanOver t0 blockNs obs pick ≠ 0 then some (meanOver t0 blockNs obs pick) else none

/-- A run of `block_bootstrap` over more than one timestamp. -/
theorem blockBootstrap_eq (hblock : 0 < blockNs) (hfront : obs.head? = some front)
    (hback : obs.getLast? = some back) (horder : obs.Pairwise fun x y => x.ts ≤ y.ts)
    (hpos : ∀ o ∈ obs, 0 < o.weight) (hspan : front.ts < back.ts)
    (hfit : BlocksFit front.ts back.ts blockNs) :
    blockBootstrap obs blockNs resamples =
      if blocksOf front.ts back.ts blockNs < 8 then
        some { point := totalMean obs, lo := totalMean obs, hi := totalMean obs, n := obs.length }
      else percentiles ((picks (blocksOf front.ts back.ts blockNs) resamples seed).filterMap
        (keptMean front.ts blockNs obs)) { point := totalMean obs, n := obs.length } := by
  have hin := between hfront hback horder
  have hne : obs ≠ [] := by rintro rfl; cases hfront
  have hpos' : 0 < blocksOf front.ts back.ts blockNs := Nat.succ_pos _
  have hmean (pick : List ℕ) (hpick : ∀ i ∈ pick, i < blocksOf front.ts back.ts blockNs) :
      meanOf ((List.range (blocksOf front.ts back.ts blockNs)).map
        (inBlock front.ts blockNs obs)) pick = some (keptMean front.ts blockNs obs pick) := by
    rw [meanOf, weightedMean_blocks hpick]
    rfl
  rw [blockBootstrap, hfront, hback]
  simp only [if_neg (UInt64.not_le.mpr hspan),
    bucket_eq hblock (UInt64.le_of_lt hspan) hin hfit, List.length_map, List.length_range,
    Option.bind_eq_bind, Option.bind_some, Option.pure_def,
    weightedMean_blocks fun i hi => List.mem_range.mp hi]
  rw [← blocksOf, meanOver_all hpos hne hin, resample_eq hpos' hmean, Option.bind_some]

/-- Every kept mean of a constant series is the constant. -/
theorem keptMean_constant (hpos : ∀ o ∈ obs, 0 < o.weight) {c m : ℚ}
    (hc : ∀ o ∈ obs, o.value = c) (h : keptMean t0 blockNs obs pick = some m) : m = c := by
  unfold keptMean at h
  obtain ⟨hne, hm⟩ := Option.ite_none_right_eq_some.mp h
  rw [← Option.some.inj hm]
  rw [meanOver_constant hpos hc] at hne ⊢
  split at hne
  case isTrue htouched => rw [if_pos htouched]
  case isFalse => exact absurd rfl hne

theorem totalMean_constant (hpos : ∀ o ∈ obs, 0 < o.weight) (hne : obs ≠ []) {c : ℚ}
    (hc : ∀ o ∈ obs, o.value = c) : totalMean obs = c := by
  have hsum : (obs.map weighted).sum = c * (obs.map WeightedObs.weight).sum := by
    rw [← List.sum_map_mul_left]
    apply congrArg List.sum
    apply List.map_congr_left
    intro o ho
    rw [weighted, hc o ho]
  rw [totalMean, hsum]
  exact mul_div_cancel_right₀ c (weight_sum_pos hpos hne).ne'

/-- What is asked of the result for a series. -/
structure Estimates (obs : List WeightedObs) (r : Interval) : Prop where
  n : r.n = obs.length
  point : r.point = totalMean obs
  order : r.lo ≤ r.hi
  constant : ∀ c, (∀ o ∈ obs, o.value = c) → r.lo = c ∧ r.point = c ∧ r.hi = c

theorem estimates_of_span (hblock : 0 < blockNs) (hfront : obs.head? = some front)
    (hback : obs.getLast? = some back) (horder : obs.Pairwise fun x y => x.ts ≤ y.ts)
    (hpos : ∀ o ∈ obs, 0 < o.weight) (hspan : front.ts < back.ts)
    (hfit : BlocksFit front.ts back.ts blockNs) :
    ∃ r, blockBootstrap obs blockNs resamples = some r ∧ Estimates obs r := by
  have hne : obs ≠ [] := by rintro rfl; cases hfront
  rw [blockBootstrap_eq hblock hfront hback horder hpos hspan hfit]
  split
  case isTrue =>
    apply Exists.intro _
    apply And.intro rfl
    constructor
    case n => rfl
    case point => rfl
    case order => exact le_rfl
    case constant =>
      intro c hc
      have hmean := totalMean_constant hpos hne hc
      exact ⟨hmean, hmean, hmean⟩
  case isFalse =>
    obtain ⟨r, hr, hn, hpoint, _⟩ := percentiles_spec
      ((picks (blocksOf front.ts back.ts blockNs) resamples seed).filterMap
        (keptMean front.ts blockNs obs)) { point := totalMean obs, n := obs.length }
    apply Exists.intro r
    apply And.intro hr
    constructor
    case n => exact hn
    case point => exact hpoint
    case order => exact percentiles_le hr
    case constant =>
      intro c hc
      have hmean := totalMean_constant hpos hne hc
      have hends := percentiles_constant hr
      rw [hmean] at hends hpoint
      obtain ⟨hlo, hhi⟩ := hends fun x hx => by
        obtain ⟨pick, _, hkept⟩ := List.mem_filterMap.mp hx
        exact keptMean_constant hpos hc hkept
      exact ⟨hlo, hpoint, hhi⟩

/-- `block_bootstrap` estimates every series but two kinds: one whose observations all have
one timestamp, unless their mean is zero, and one whose blocks are too many to count. -/
theorem blockBootstrap_estimates (hfront : obs.head? = some front)
    (hback : obs.getLast? = some back) (horder : obs.Pairwise fun x y => x.ts ≤ y.ts)
    (hpos : ∀ o ∈ obs, 0 < o.weight) (hblock : 0 < blockNs) :
    (∃ r, blockBootstrap obs blockNs resamples = some r ∧ Estimates obs r) ↔
      (front.ts < back.ts ∨ totalMean obs = 0) ∧ BlocksFit front.ts back.ts blockNs := by
  have hne : obs ≠ [] := by rintro rfl; cases hfront
  have hin := between hfront hback horder
  have hle : front.ts ≤ back.ts := (hin back (List.mem_of_getLast? hback)).1
  by_cases hspan : front.ts < back.ts
  case pos =>
    constructor
    case mp =>
      intro ⟨r, hr, _⟩
      apply And.intro (Or.inl hspan)
      by_contra hfit
      obtain ⟨rest, rfl⟩ := List.head?_eq_some_iff.mp hfront
      rw [blockBootstrap, hback] at hr
      simp only [List.head?_cons, if_neg (UInt64.not_le.mpr hspan),
        bucket_wraps hle (UInt64.le_refl _) hle hfit] at hr
      cases hr
    case mpr => exact fun h => estimates_of_span hblock hfront hback horder hpos hspan h.2
  case neg =>
    have heq : back.ts ≤ front.ts := UInt64.not_lt.mp hspan
    have hfit : BlocksFit front.ts back.ts blockNs := by
      have hzero : back.ts.toNat - front.ts.toNat = 0 :=
        Nat.sub_eq_zero_of_le (UInt64.le_iff_toNat_le.mp heq)
      rw [BlocksFit, hzero, Nat.zero_div]
      decide
    have hrun : blockBootstrap obs blockNs resamples = some { n := obs.length } := by
      rw [blockBootstrap, hfront, hback]
      simp only [if_pos heq]
      rfl
    rw [hrun]
    constructor
    case mp =>
      intro ⟨r, hr, hest⟩
      obtain rfl := Option.some.inj hr
      exact ⟨Or.inr hest.point.symm, hfit⟩
    case mpr =>
      intro ⟨hor, _⟩
      have hmean := hor.resolve_left hspan
      apply Exists.intro _
      apply And.intro rfl
      constructor
      case n => rfl
      case point => exact hmean.symm
      case order => exact le_rfl
      case constant =>
        intro c hc
        have hzero : c = 0 := (totalMean_constant hpos hne hc).symm.trans hmean
        exact ⟨hzero.symm, hzero.symm, hzero.symm⟩

/-- Two observations a block apart, of 2 and 4. -/
theorem blockBootstrap_estimates_two :
    ∃ r, blockBootstrap [⟨0, 2, 1⟩, ⟨10, 4, 3⟩] 10 100 = some r ∧
      Estimates [⟨0, 2, 1⟩, ⟨10, 4, 3⟩] r :=
  (blockBootstrap_estimates rfl rfl (by decide) (by decide +kernel) (by decide)).mpr
    ⟨Or.inl (by decide), by decide⟩

/-- One observation of 5, whose point estimate is 0. -/
theorem blockBootstrap_one : blockBootstrap [⟨7, 5, 1⟩] 10 100 = some { n := 1 } ∧
    ¬∃ r, blockBootstrap [⟨7, 5, 1⟩] 10 100 = some r ∧ Estimates [⟨7, 5, 1⟩] r := by
  have hrun : blockBootstrap [⟨7, 5, 1⟩] 10 100 = some { n := 1 } := rfl
  apply And.intro hrun
  intro ⟨r, hr, hest⟩
  obtain rfl := Option.some.inj (hrun.symm.trans hr)
  have hpoint : (0 : ℚ) = totalMean [⟨7, 5, 1⟩] := hest.point
  norm_num [totalMean, weighted] at hpoint

end Hotpath.Sim.Bootstrap
