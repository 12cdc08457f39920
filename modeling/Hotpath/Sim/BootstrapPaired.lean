import Hotpath.Sim.BootstrapMean

/-!
# The paired bootstrap

Both series are resampled by the same blocks. What a pick adds is told by which of the
series it touches.
-/

namespace Hotpath.Sim.Bootstrap
open Hotpath.Support

variable {a b : List WeightedObs} {frontA backA frontB backB : WeightedObs}
  {t0 t1 blockNs : Ts} {pick : List ℕ} {resamples : ℕ} {c c1 c2 : ℚ}

/-- A series in time order with positive weights, from its first observation to its last. -/
structure Series (obs : List WeightedObs) (front back : WeightedObs) : Prop where
  front : obs.head? = some front
  back : obs.getLast? = some back
  order : obs.Pairwise fun x y => x.ts ≤ y.ts
  pos : ∀ o ∈ obs, 0 < o.weight

theorem Series.ne_nil {obs : List WeightedObs} {front back : WeightedObs}
    (h : Series obs front back) : obs ≠ [] := by
  rintro rfl
  cases h.front

theorem toNat_min (x y : Ts) : (min x y).toNat = min x.toNat y.toNat := by
  show (if x ≤ y then x else y).toNat = _
  split
  case isTrue h => exact (Nat.min_eq_left (UInt64.le_iff_toNat_le.mp h)).symm
  case isFalse h => exact (Nat.min_eq_right (UInt64.lt_iff_toNat_lt.mp (UInt64.not_le.mp h)).le).symm

theorem toNat_max (x y : Ts) : (max x y).toNat = max x.toNat y.toNat := by
  show (if x ≤ y then y else x).toNat = _
  split
  case isTrue h => exact (Nat.max_eq_right (UInt64.le_iff_toNat_le.mp h)).symm
  case isFalse h => exact (Nat.max_eq_left (UInt64.lt_iff_toNat_lt.mp (UInt64.not_le.mp h)).le).symm

/-- The range of the shared blocks. -/
structure Spans (obs : List WeightedObs) (t0 t1 : Ts) : Prop where
  inside : ∀ o ∈ obs, t0 ≤ o.ts ∧ o.ts ≤ t1

theorem Series.spans {obs : List WeightedObs} {front back : WeightedObs} {first last : Ts}
    (h : Series obs front back) (hfirst : first.toNat ≤ front.ts.toNat)
    (hlast : back.ts.toNat ≤ last.toNat) : Spans obs first last := by
  constructor
  intro o ho
  obtain ⟨hlow, hhigh⟩ := between h.front h.back h.order o ho
  rw [UInt64.le_iff_toNat_le] at hlow hhigh
  rw [UInt64.le_iff_toNat_le, UInt64.le_iff_toNat_le]
  exact ⟨hfirst.trans hlow, hhigh.trans hlast⟩

theorem Series.spans_left (ha : Series a frontA backA) (frontB backB : WeightedObs) :
    Spans a (min frontA.ts frontB.ts) (max backA.ts backB.ts) := by
  apply ha.spans
  · rw [toNat_min]
    exact min_le_left ..
  · rw [toNat_max]
    exact le_max_left ..

theorem Series.spans_right (hb : Series b frontB backB) (frontA backA : WeightedObs) :
    Spans b (min frontA.ts frontB.ts) (max backA.ts backB.ts) := by
  apply hb.spans
  · rw [toNat_min]
    exact min_le_right ..
  · rw [toNat_max]
    exact le_max_right ..

/-- What a pick adds to the vector of differences. -/
def keptDiff (t0 blockNs : Ts) (a b : List WeightedObs) (pick : List ℕ) : Option ℚ :=
  if meanOver t0 blockNs a pick ≠ 0 ∨ meanOver t0 blockNs b pick ≠ 0
  then some (meanOver t0 blockNs a pick - meanOver t0 blockNs b pick) else none

/-- A run of `paired_block_bootstrap` over more than one timestamp. -/
theorem pairedBlockBootstrap_eq (hblock : 0 < blockNs) (ha : Series a frontA backA)
    (hb : Series b frontB backB) (ht0 : t0 = min frontA.ts frontB.ts)
    (ht1 : t1 = max backA.ts backB.ts) (hspan : t0 < t1) (hfit : BlocksFit t0 t1 blockNs) :
    pairedBlockBootstrap a b blockNs resamples =
      if blocksOf t0 t1 blockNs < 8 then
        some { point := totalMean a - totalMean b, lo := totalMean a - totalMean b,
               hi := totalMean a - totalMean b, n := a.length + b.length }
      else percentiles ((picks (blocksOf t0 t1 blockNs) resamples seed).filterMap
        (keptDiff t0 blockNs a b))
        { point := totalMean a - totalMean b, n := a.length + b.length } := by
  have hina : Spans a t0 t1 := ht0 ▸ ht1 ▸ ha.spans_left frontB backB
  have hinb : Spans b t0 t1 := ht0 ▸ ht1 ▸ hb.spans_right frontA backA
  have hnb : 0 < blocksOf t0 t1 blockNs := Nat.succ_pos _
  have hdiff (pick : List ℕ) (hpick : ∀ i ∈ pick, i < blocksOf t0 t1 blockNs) :
      diffOf ((List.range (blocksOf t0 t1 blockNs)).map (inBlock t0 blockNs a))
        ((List.range (blocksOf t0 t1 blockNs)).map (inBlock t0 blockNs b)) pick =
        some (keptDiff t0 blockNs a b pick) := by
    rw [diffOf, weightedMean_blocks hpick, weightedMean_blocks hpick]
    rfl
  rw [pairedBlockBootstrap, ha.front, hb.front, ha.back, hb.back]
  simp only [← ht0, ← ht1, if_neg (UInt64.not_le.mpr hspan),
    bucket_eq hblock (UInt64.le_of_lt hspan) hina.inside hfit,
    bucket_eq hblock (UInt64.le_of_lt hspan) hinb.inside hfit, List.length_map, List.length_range,
    Option.bind_eq_bind, Option.bind_some, Option.pure_def,
    weightedMean_blocks fun i hi => List.mem_range.mp hi]
  rw [← blocksOf, meanOver_all ha.pos ha.ne_nil hina.inside,
    meanOver_all hb.pos hb.ne_nil hinb.inside, resample_eq hnb hdiff, Option.bind_some]

/-- Where the blocks are too many to count, the first observation has none. -/
theorem pairedBlockBootstrap_wraps (ha : Series a frontA backA) (hb : Series b frontB backB)
    (ht0 : t0 = min frontA.ts frontB.ts) (ht1 : t1 = max backA.ts backB.ts) (hspan : t0 < t1)
    (hfit : ¬BlocksFit t0 t1 blockNs) : pairedBlockBootstrap a b blockNs resamples = none := by
  have hina : Spans a t0 t1 := ht0 ▸ ht1 ▸ ha.spans_left frontB backB
  have hbucket : bucket a t0 t1 blockNs = none := by
    obtain ⟨rest, rfl⟩ := List.head?_eq_some_iff.mp ha.front
    obtain ⟨hlow, hhigh⟩ := hina.inside frontA List.mem_cons_self
    exact bucket_wraps (UInt64.le_of_lt hspan) hlow hhigh hfit
  rw [pairedBlockBootstrap, ha.front, hb.front, ha.back, hb.back]
  simp only [← ht0, ← ht1, if_neg (UInt64.not_le.mpr hspan), hbucket]
  rfl

/-- All three figures of the result are `d`. -/
def Exactly (r : Interval) (d : ℚ) : Prop := r.point = d ∧ r.lo = d ∧ r.hi = d

/-! ### Series a constant apart -/

/-- The two series are observed together, `a` always `c` above `b`. -/
def Apart (c : ℚ) (a b : List WeightedObs) : Prop :=
  List.Forall₂ (fun x y => x.ts = y.ts ∧ x.weight = y.weight ∧ x.value = y.value + c) a b

theorem Apart.picked (h : Apart c a b) :
    picked WeightedObs.weight t0 blockNs a pick = picked WeightedObs.weight t0 blockNs b pick ∧
    picked weighted t0 blockNs a pick = picked weighted t0 blockNs b pick +
      c * picked WeightedObs.weight t0 blockNs b pick := by
  induction h with
  | nil => simp [Bootstrap.picked]
  | @cons x y a b hxy _ ih =>
    obtain ⟨hts, hweight, hvalue⟩ := hxy
    obtain ⟨ihw, ihv⟩ := ih
    have hblock : blockOf t0 blockNs x = blockOf t0 blockNs y := by rw [blockOf, hts, blockOf]
    simp only [Bootstrap.picked, List.map_cons, List.sum_cons] at ihw ihv ⊢
    rw [ihw, ihv, hblock, weighted, weighted, hweight, hvalue]
    constructor
    case left => rfl
    case right => ring

theorem Apart.total (h : Apart c a b) (hpos : ∀ o ∈ b, 0 < o.weight) (hne : b ≠ []) :
    totalMean a - totalMean b = c := by
  have hsums : (a.map WeightedObs.weight).sum = (b.map WeightedObs.weight).sum ∧
      (a.map weighted).sum =
        (b.map weighted).sum + c * (b.map WeightedObs.weight).sum := by
    clear hpos hne
    induction h with
    | nil => simp
    | @cons x y a b hxy _ ih =>
      obtain ⟨_, hweight, hvalue⟩ := hxy
      simp only [List.map_cons, List.sum_cons]
      rw [ih.1, ih.2, weighted, weighted, hweight, hvalue]
      constructor
      case left => rfl
      case right => ring
  have hw := weight_sum_pos hpos hne
  rw [totalMean, totalMean, hsums.1, hsums.2]
  field_simp
  ring

/-- The common swing cancels in every pick that holds anything. -/
theorem Apart.kept (h : Apart c a b) {x : ℚ} (hx : keptDiff t0 blockNs a b pick = some x) :
    x = c := by
  have hw : Bootstrap.picked WeightedObs.weight t0 blockNs a pick =
    Bootstrap.picked WeightedObs.weight t0 blockNs b pick := h.picked.1
  have hv : Bootstrap.picked weighted t0 blockNs a pick =
    Bootstrap.picked weighted t0 blockNs b pick +
      c * Bootstrap.picked WeightedObs.weight t0 blockNs b pick := h.picked.2
  unfold keptDiff at hx
  obtain ⟨hor, hx⟩ := Option.ite_none_right_eq_some.mp hx
  rw [← Option.some.inj hx]
  unfold meanOver at hor ⊢
  rw [hw] at hor ⊢
  by_cases hpos : 0 < Bootstrap.picked WeightedObs.weight t0 blockNs b pick
  case pos =>
    rw [if_pos hpos, if_pos hpos, hv]
    field_simp
    ring
  case neg =>
    rw [if_neg hpos, if_neg hpos] at hor
    simp at hor

theorem Apart.span (h : Apart c a b) (ha : Series a frontA backA) (hb : Series b frontB backB) :
    frontA.ts = frontB.ts ∧ backA.ts = backB.ts := by
  have hends (a b : List WeightedObs) (x y : WeightedObs) (h : Apart c a b)
      (hx : a.head? = some x) (hy : b.head? = some y) : x.ts = y.ts := by
    cases h with
    | nil => cases hx
    | cons hxy _ =>
      obtain rfl := Option.some.inj hx
      obtain rfl := Option.some.inj hy
      exact hxy.1
  constructor
  case left => exact hends a b frontA frontB h ha.front hb.front
  case right =>
    apply hends a.reverse b.reverse backA backB (List.forall₂_reverse_iff.mpr h)
    · rw [List.head?_reverse, ha.back]
    · rw [List.head?_reverse, hb.back]

/-- Two series a constant apart have that constant for a difference and no uncertainty,
unless their blocks are too many to count. -/
theorem paired_apart (ha : Series a frontA backA) (hb : Series b frontB backB)
    (hapart : Apart c a b) (hspan : frontA.ts < backA.ts) (hblock : 0 < blockNs) :
    (∃ r, pairedBlockBootstrap a b blockNs resamples = some r ∧ Exactly r c) ↔
      BlocksFit frontA.ts backA.ts blockNs := by
  obtain ⟨hfront, hback⟩ := hapart.span ha hb
  have ht0 : frontA.ts = min frontA.ts frontB.ts := by
    rw [← hfront, ← UInt64.toNat_inj, toNat_min, Nat.min_self]
  have ht1 : backA.ts = max backA.ts backB.ts := by
    rw [← hback, ← UInt64.toNat_inj, toNat_max, Nat.max_self]
  have htotal := hapart.total hb.pos hb.ne_nil
  constructor
  case mp =>
    intro ⟨r, hr, _⟩
    by_contra hfit
    rw [pairedBlockBootstrap_wraps ha hb ht0 ht1 hspan hfit] at hr
    cases hr
  case mpr =>
    intro hfit
    rw [pairedBlockBootstrap_eq hblock ha hb ht0 ht1 hspan hfit, htotal]
    split
    case isTrue => exact ⟨_, rfl, rfl, rfl, rfl⟩
    case isFalse =>
      obtain ⟨r, hr, _, hpoint, _⟩ := percentiles_spec
        ((picks (blocksOf frontA.ts backA.ts blockNs) resamples seed).filterMap
          (keptDiff frontA.ts blockNs a b)) { point := c, n := a.length + b.length }
      have hends := percentiles_constant hr fun x hx => by
        obtain ⟨pick, _, hkept⟩ := List.mem_filterMap.mp hx
        exact hapart.kept hkept
      exact ⟨r, hr, hpoint, hends⟩

theorem paired_apart_two : ∃ r, pairedBlockBootstrap [⟨0, 3, 1⟩, ⟨90, 8, 2⟩]
    [⟨0, 1, 1⟩, ⟨90, 6, 2⟩] 10 100 = some r ∧ Exactly r 2 := by
  have ha : Series [⟨0, 3, 1⟩, ⟨90, 8, 2⟩] ⟨0, 3, 1⟩ ⟨90, 8, 2⟩ :=
    ⟨rfl, rfl, by decide, by decide +kernel⟩
  have hb : Series [⟨0, 1, 1⟩, ⟨90, 6, 2⟩] ⟨0, 1, 1⟩ ⟨90, 6, 2⟩ :=
    ⟨rfl, rfl, by decide, by decide +kernel⟩
  have hapart : Apart 2 [⟨0, 3, 1⟩, ⟨90, 8, 2⟩] [⟨0, 1, 1⟩, ⟨90, 6, 2⟩] := by
    apply List.Forall₂.cons (by norm_num)
    exact List.Forall₂.cons (by norm_num) List.Forall₂.nil
  exact (paired_apart ha hb hapart (by decide) (by decide)).mpr (by decide)

/-- Blocks of one nanosecond from the first timestamp to the last there is: their number is
`2 ^ 64`, so the bucket has none. -/
theorem paired_apart_wraps : ∃ a b : List WeightedObs, ∃ frontA backA frontB backB,
    Series a frontA backA ∧ Series b frontB backB ∧ Apart 1 a b ∧ frontA.ts < backA.ts ∧
    ¬∃ r, pairedBlockBootstrap a b 1 100 = some r ∧ Exactly r 1 := by
  apply Exists.intro [⟨0, 1, 1⟩, ⟨0xFFFFFFFFFFFFFFFF, 1, 1⟩]
  apply Exists.intro [⟨0, 0, 1⟩, ⟨0xFFFFFFFFFFFFFFFF, 0, 1⟩]
  have hnone : pairedBlockBootstrap [⟨0, 1, 1⟩, ⟨0xFFFFFFFFFFFFFFFF, 1, 1⟩]
      [⟨0, 0, 1⟩, ⟨0xFFFFFFFFFFFFFFFF, 0, 1⟩] 1 100 = none := by decide +kernel
  have hapart : Apart 1 [⟨0, 1, 1⟩, ⟨0xFFFFFFFFFFFFFFFF, 1, 1⟩]
      [⟨0, 0, 1⟩, ⟨0xFFFFFFFFFFFFFFFF, 0, 1⟩] := by
    apply List.Forall₂.cons (by norm_num)
    exact List.Forall₂.cons (by norm_num) List.Forall₂.nil
  refine ⟨_, _, _, _, ⟨rfl, rfl, by decide, by decide +kernel⟩,
    ⟨rfl, rfl, by decide, by decide +kernel⟩, hapart, by decide, ?_⟩
  intro ⟨r, hr, _⟩
  rw [hnone] at hr
  cases hr

/-! ### Two constant series -/

/-- A pick holds observations of `a` and none of `b`. -/
def onlyFirst (t0 blockNs : Ts) (a b : List WeightedObs) (pick : List ℕ) : Bool :=
  touched t0 blockNs a pick && !touched t0 blockNs b pick

/-- What the picks of one series alone do to the interval: `kept` differences, `below` of
them under `c1 - c2` and `above` of them over it. -/
structure Tally where
  kept : ℕ
  below : ℕ
  above : ℕ

def tallyPicks (c1 c2 : ℚ) (t0 blockNs : Ts) (a b : List WeightedObs) (ps : List (List ℕ)) :
    Tally :=
  { kept := ps.countP fun p => touched t0 blockNs a p || touched t0 blockNs b p
    below := ps.countP fun p => onlyFirst t0 blockNs a b p && decide (c2 < 0) ||
      onlyFirst t0 blockNs b a p && decide (0 < c1)
    above := ps.countP fun p => onlyFirst t0 blockNs a b p && decide (0 < c2) ||
      onlyFirst t0 blockNs b a p && decide (c1 < 0) }

/-- Too few to matter: both percentiles fall on a difference of `c1 - c2`. -/
def Tally.Harmless (t : Tally) : Prop :=
  t.kept < 50 ∨ (t.below ≤ rank 0.025 t.kept ∧ rank 0.975 t.kept + t.above < t.kept)

section Constants
variable (hpa : ∀ o ∈ a, 0 < o.weight) (hpb : ∀ o ∈ b, 0 < o.weight)
  (h1 : ∀ o ∈ a, o.value = c1) (h2 : ∀ o ∈ b, o.value = c2)

include hpa hpb h1 h2 in
theorem keptDiff_constant : keptDiff t0 blockNs a b pick =
    if (if touched t0 blockNs a pick then c1 else 0) ≠ 0 ∨
      (if touched t0 blockNs b pick then c2 else 0) ≠ 0
    then some ((if touched t0 blockNs a pick then c1 else 0) -
      (if touched t0 blockNs b pick then c2 else 0)) else none := by
  rw [keptDiff, meanOver_constant hpa h1, meanOver_constant hpb h2]

include hpa hpb h1 h2 in
/-- Where one of the constants is zero, a mean over nothing is that constant. -/
theorem keptDiff_zero (hzero : c1 = 0 ∨ c2 = 0) {x : ℚ}
    (hx : keptDiff t0 blockNs a b pick = some x) : x = c1 - c2 := by
  rw [keptDiff_constant hpa hpb h1 h2] at hx
  obtain ⟨hor, hx⟩ := Option.ite_none_right_eq_some.mp hx
  rw [← Option.some.inj hx]
  clear hx
  generalize touched t0 blockNs a pick = ta at hor
  generalize touched t0 blockNs b pick = tb at hor
  cases ta <;> cases tb <;> simp at hor ⊢
  case false.true => rw [hzero.resolve_right hor, zero_sub]
  case true.false => rw [hzero.resolve_left hor, sub_zero]

include hpa hpb h1 h2 in
theorem keptDiff_kept (hne1 : c1 ≠ 0) (hne2 : c2 ≠ 0) :
    (keptDiff t0 blockNs a b pick).isSome =
      (touched t0 blockNs a pick || touched t0 blockNs b pick) := by
  rw [keptDiff_constant hpa hpb h1 h2]
  cases touched t0 blockNs a pick <;> cases touched t0 blockNs b pick <;> simp [hne1, hne2]

include hpa hpb h1 h2 in
theorem keptDiff_below (hne1 : c1 ≠ 0) (hne2 : c2 ≠ 0) :
    ((keptDiff t0 blockNs a b pick).map fun x => decide (x < c1 - c2)).getD false =
      (onlyFirst t0 blockNs a b pick && decide (c2 < 0) ||
        onlyFirst t0 blockNs b a pick && decide (0 < c1)) := by
  rw [keptDiff_constant hpa hpb h1 h2, onlyFirst, onlyFirst]
  cases touched t0 blockNs a pick <;> cases touched t0 blockNs b pick <;> simp [hne1, hne2]
  case true.false => constructor <;> intro h <;> linarith

include hpa hpb h1 h2 in
theorem keptDiff_above (hne1 : c1 ≠ 0) (hne2 : c2 ≠ 0) :
    ((keptDiff t0 blockNs a b pick).map fun x => decide (c1 - c2 < x)).getD false =
      (onlyFirst t0 blockNs a b pick && decide (0 < c2) ||
        onlyFirst t0 blockNs b a pick && decide (c1 < 0)) := by
  rw [keptDiff_constant hpa hpb h1 h2, onlyFirst, onlyFirst]
  cases touched t0 blockNs a pick <;> cases touched t0 blockNs b pick <;> simp [hne1, hne2]
  case false.true => constructor <;> intro h <;> linarith

include hpa hpb h1 h2 in
/-- Both percentiles are the difference of the constants exactly when the picks of one
series alone are few enough. -/
theorem percentiles_exactly_iff (hne1 : c1 ≠ 0) (hne2 : c2 ≠ 0) (ps : List (List ℕ))
    {out r : Interval} (hout : out.point = c1 - c2)
    (hr : percentiles (ps.filterMap (keptDiff t0 blockNs a b)) out = some r) :
    Exactly r (c1 - c2) ↔ (tallyPicks c1 c2 t0 blockNs a b ps).Harmless := by
  have hlen : (ps.filterMap (keptDiff t0 blockNs a b)).length =
      (tallyPicks c1 c2 t0 blockNs a b ps).kept := by
    rw [List.length_filterMap_eq_countP]
    exact congrArg (ps.countP ·) (funext fun p => keptDiff_kept hpa hpb h1 h2 hne1 hne2)
  have hbelow : (ps.filterMap (keptDiff t0 blockNs a b)).countP (· < c1 - c2) =
      (tallyPicks c1 c2 t0 blockNs a b ps).below := by
    rw [List.countP_filterMap]
    exact congrArg (ps.countP ·) (funext fun p => keptDiff_below hpa hpb h1 h2 hne1 hne2)
  have habove : (ps.filterMap (keptDiff t0 blockNs a b)).countP (c1 - c2 < ·) =
      (tallyPicks c1 c2 t0 blockNs a b ps).above := by
    rw [List.countP_filterMap]
    exact congrArg (ps.countP ·) (funext fun p => keptDiff_above hpa hpb h1 h2 hne1 hne2)
  obtain ⟨r', hr', _, hpoint, hor⟩ :=
    percentiles_spec (ps.filterMap (keptDiff t0 blockNs a b)) out
  obtain rfl := Option.some.inj (hr.symm.trans hr')
  rw [hlen] at hor
  generalize ps.filterMap (keptDiff t0 blockNs a b) = v at hlen hbelow habove hor
  have hsorted : (v.insertionSort (· ≤ ·)).Pairwise (· ≤ ·) := List.pairwise_insertionSort _ v
  have hperm : (v.insertionSort (· ≤ ·)).Perm v := List.perm_insertionSort _ v
  cases hor with
  | inl hfew =>
    obtain ⟨hsize, hlo, hhi⟩ := hfew
    apply iff_of_true _ (Or.inl hsize)
    exact ⟨hpoint.trans hout, hlo.trans hout, hhi.trans hout⟩
  | inr hmany =>
    obtain ⟨hsize, hlo, hhi⟩ := hmany
    have hmono : rank 0.025 (tallyPicks c1 c2 t0 blockNs a b ps).kept ≤
        rank 0.975 (tallyPicks c1 c2 t0 blockNs a b ps).kept := rank_mono (by norm_num) _
    have hloeq := rank_eq_iff (d := c1 - c2) hsorted hlo
    have hhieq := rank_eq_iff (d := c1 - c2) hsorted hhi
    rw [hperm.countP_eq, hperm.countP_eq, hperm.length_eq, hlen, hbelow, habove] at hloeq hhieq
    unfold Exactly Tally.Harmless
    rw [hloeq, hhieq]
    constructor
    case mp => exact fun h => Or.inr ⟨h.2.1.1, h.2.2.2⟩
    case mpr =>
      intro h
      have hfit := h.resolve_left (by omega)
      exact ⟨hpoint.trans hout, by omega, by omega⟩

end Constants

/-- Two constant series have their difference for a result, with no uncertainty, exactly
when their blocks can be counted and one of the constants is zero, or there are fewer than
eight blocks, or the picks that hold observations of one series alone are too few to move a
percentile. -/
theorem paired_constants_iff (ha : Series a frontA backA) (hb : Series b frontB backB)
    (h1 : ∀ o ∈ a, o.value = c1) (h2 : ∀ o ∈ b, o.value = c2)
    (ht0 : t0 = min frontA.ts frontB.ts) (ht1 : t1 = max backA.ts backB.ts) (hspan : t0 < t1)
    (hblock : 0 < blockNs) :
    (∃ r, pairedBlockBootstrap a b blockNs resamples = some r ∧ Exactly r (c1 - c2)) ↔
      BlocksFit t0 t1 blockNs ∧ (c1 = 0 ∨ c2 = 0 ∨ blocksOf t0 t1 blockNs < 8 ∨
        (tallyPicks c1 c2 t0 blockNs a b
          (picks (blocksOf t0 t1 blockNs) resamples seed)).Harmless) := by
  by_cases hfit : BlocksFit t0 t1 blockNs
  case neg =>
    apply iff_of_false
    case ha =>
      intro ⟨r, hr, _⟩
      rw [pairedBlockBootstrap_wraps ha hb ht0 ht1 hspan hfit] at hr
      cases hr
    case hb => exact fun h => hfit h.1
  case pos =>
    have htotal : totalMean a - totalMean b = c1 - c2 := by
      rw [totalMean_constant ha.pos ha.ne_nil h1, totalMean_constant hb.pos hb.ne_nil h2]
    rw [pairedBlockBootstrap_eq hblock ha hb ht0 ht1 hspan hfit, htotal]
    split
    case isTrue hfew =>
      exact iff_of_true ⟨_, rfl, rfl, rfl, rfl⟩ ⟨hfit, Or.inr (Or.inr (Or.inl hfew))⟩
    case isFalse hmany =>
      obtain ⟨r, hr, _, hpoint, _⟩ := percentiles_spec
        ((picks (blocksOf t0 t1 blockNs) resamples seed).filterMap (keptDiff t0 blockNs a b))
        { point := c1 - c2, n := a.length + b.length }
      have hunique : (∃ r', percentiles ((picks (blocksOf t0 t1 blockNs) resamples seed).filterMap
          (keptDiff t0 blockNs a b)) { point := c1 - c2, n := a.length + b.length } = some r' ∧
          Exactly r' (c1 - c2)) ↔ Exactly r (c1 - c2) := by
        rw [hr]
        constructor
        case mp => exact fun ⟨r', hr', h⟩ => Option.some.inj hr' ▸ h
        case mpr => exact fun h => ⟨r, rfl, h⟩
      rw [hunique]
      by_cases hzero : c1 = 0 ∨ c2 = 0
      case pos =>
        have hends := percentiles_constant hr fun x hx => by
          obtain ⟨pick, _, hkept⟩ := List.mem_filterMap.mp hx
          exact keptDiff_zero ha.pos hb.pos h1 h2 hzero hkept
        apply iff_of_true ⟨hpoint, hends⟩
        apply And.intro hfit
        cases hzero with
        | inl hc1 => exact Or.inl hc1
        | inr hc2 => exact Or.inr (Or.inl hc2)
      case neg =>
        obtain ⟨hne1, hne2⟩ := not_or.mp hzero
        rw [percentiles_exactly_iff ha.pos hb.pos h1 h2 hne1 hne2 _ rfl hr]
        constructor
        case mp => exact fun h => ⟨hfit, Or.inr (Or.inr (Or.inr h))⟩
        case mpr =>
          intro h
          exact ((h.2.resolve_left hne1).resolve_left hne2).resolve_left hmany

/-- One observation of 2 in the first of eight blocks and one of 0 in the last. -/
theorem paired_constants_iff_zero :
    ∃ r, pairedBlockBootstrap [⟨0, 2, 1⟩] [⟨7, 0, 1⟩] 1 100 = some r ∧ Exactly r (2 - 0) := by
  have ha : Series [⟨0, 2, 1⟩] ⟨0, 2, 1⟩ ⟨0, 2, 1⟩ := ⟨rfl, rfl, by decide, by decide +kernel⟩
  have hb : Series [⟨7, 0, 1⟩] ⟨7, 0, 1⟩ ⟨7, 0, 1⟩ := ⟨rfl, rfl, by decide, by decide +kernel⟩
  apply (paired_constants_iff ha hb (by simp) (by simp) rfl rfl (by decide) (by decide)).mpr
  exact ⟨by decide, Or.inr (Or.inl rfl)⟩

/-- One observation of 2 in the first of eight blocks and one of 1 in the last: many picks
hold one of the two alone, and enter the interval as differences of 2 and of -1. -/
theorem paired_constants_spread : ∃ a b : List WeightedObs, ∃ frontA backA frontB backB,
    Series a frontA backA ∧ Series b frontB backB ∧ (∀ o ∈ a, o.value = 2) ∧
    (∀ o ∈ b, o.value = 1) ∧ min frontA.ts frontB.ts < max backA.ts backB.ts ∧
    ∃ r, pairedBlockBootstrap a b 1 100 = some r ∧ r.point = 1 ∧ r.lo = -1 ∧ r.hi = 2 := by
  have hrun : (pairedBlockBootstrap [⟨0, 2, 1⟩] [⟨7, 1, 1⟩] 1 100).map
      (fun r => (r.point, r.lo, r.hi)) = some (1, -1, 2) := by decide +kernel
  obtain ⟨r, hr, heq⟩ := Option.map_eq_some_iff.mp hrun
  simp only [Prod.mk.injEq] at heq
  exact ⟨[⟨0, 2, 1⟩], [⟨7, 1, 1⟩], ⟨0, 2, 1⟩, ⟨0, 2, 1⟩, ⟨7, 1, 1⟩, ⟨7, 1, 1⟩,
    ⟨rfl, rfl, by decide, by decide +kernel⟩, ⟨rfl, rfl, by decide, by decide +kernel⟩,
    by simp, by simp, by decide, r, hr, heq⟩

end Hotpath.Sim.Bootstrap
