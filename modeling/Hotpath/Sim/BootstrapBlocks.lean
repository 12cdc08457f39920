import Hotpath.Sim.Bootstrap
import Hotpath.Support.SortedRank

/-!
# Blocks and resamples

What the buckets hold and what a resampled mean is: sums over the observations whose
block was picked. Every pick is in range, so the loops subscript nothing outside.
-/

namespace Hotpath.Sim.Bootstrap
open Hotpath.Support

variable {obs : List WeightedObs} {t0 t1 blockNs : Ts} {pick : List ℕ} {nb k : ℕ}

/-! ### Weighted means -/

/-- The sum of `g` over the picked blocks, a block picked twice counting twice. -/
def mass (g : WeightedObs → ℚ) (blocks : List (List WeightedObs)) (pick : List ℕ) : ℚ :=
  (pick.map fun i => ((blocks.getD i []).map g).sum).sum

def weighted (o : WeightedObs) : ℚ := o.value * o.weight

theorem tally_block (block : List WeightedObs) (acc : ℚ × ℚ) :
    block.foldl tally acc =
      (acc.1 + (block.map weighted).sum, acc.2 + (block.map WeightedObs.weight).sum) := by
  induction block generalizing acc with
  | nil => simp
  | cons o block ih =>
    rw [List.foldl_cons, ih]
    simp only [tally, weighted, List.map_cons, List.sum_cons, add_assoc]

/-- The mean of a pick whose blocks exist. -/
theorem weightedMean_eq {blocks : List (List WeightedObs)} (h : ∀ i ∈ pick, i < blocks.length) :
    weightedMean blocks pick = some (if 0 < mass WeightedObs.weight blocks pick
      then mass weighted blocks pick / mass WeightedObs.weight blocks pick else 0) := by
  have hfold (acc : ℚ × ℚ) : pick.foldlM (fun acc b => do
      let block ← blocks[b]?
      return block.foldl tally acc) acc =
      some (acc.1 + mass weighted blocks pick, acc.2 + mass WeightedObs.weight blocks pick) := by
    induction pick generalizing acc with
    | nil => simp [mass]
    | cons i pick ih =>
      have hi : i < blocks.length := h i List.mem_cons_self
      have hblock : blocks[i]? = some (blocks.getD i []) := by simp [hi]
      rw [List.foldlM_cons, hblock]
      apply (ih (fun j hj => h j (List.mem_cons_of_mem i hj)) _).trans
      rw [tally_block]
      simp only [mass, List.map_cons, List.sum_cons, add_assoc]
  rw [weightedMean, hfold]
  simp

/-! ### Buckets -/

/-- The observations of block `i`. -/
def inBlock (t0 blockNs : Ts) (obs : List WeightedObs) (i : ℕ) : List WeightedObs :=
  obs.filter fun o => blockOf t0 blockNs o = i

/-- The blocks of `[t0, t1]` can be counted in 64 bits. -/
def BlocksFit (t0 t1 blockNs : Ts) : Prop :=
  (t1.toNat - t0.toNat) / blockNs.toNat + 1 < 2 ^ 64

instance : Decidable (BlocksFit t0 t1 blockNs) := inferInstanceAs (Decidable (_ < _))

theorem blockCount_eq (h : t0 ≤ t1) (hfit : BlocksFit t0 t1 blockNs) :
    (blockCount t0 t1 blockNs).toNat = (t1.toNat - t0.toNat) / blockNs.toNat + 1 := by
  rw [blockCount, UInt64.toNat_add, UInt64.toNat_div, UInt64.toNat_sub_of_le _ _ h]
  exact Nat.mod_eq_of_lt hfit

theorem blockCount_wraps (h : t0 ≤ t1) (hfit : ¬BlocksFit t0 t1 blockNs) :
    (blockCount t0 t1 blockNs).toNat = 0 := by
  have hlt := ((t1 - t0) / blockNs).toNat_lt
  rw [UInt64.toNat_div, UInt64.toNat_sub_of_le _ _ h] at hlt
  have hfull : (t1.toNat - t0.toNat) / blockNs.toNat + 1 = 2 ^ 64 := by
    unfold BlocksFit at hfit
    omega
  rw [blockCount, UInt64.toNat_add, UInt64.toNat_div, UInt64.toNat_sub_of_le _ _ h]
  show ((t1.toNat - t0.toNat) / blockNs.toNat + 1) % 2 ^ 64 = 0
  rw [hfull, Nat.mod_self]

theorem blockOf_eq {o : WeightedObs} (h : t0 ≤ o.ts) :
    blockOf t0 blockNs o = (o.ts.toNat - t0.toNat) / blockNs.toNat := by
  rw [blockOf, UInt64.toNat_div, UInt64.toNat_sub_of_le _ _ h]

/-- Truncated division puts every observation of the range into one of its blocks. -/
theorem blockOf_lt {o : WeightedObs} (hlow : t0 ≤ o.ts) (hhigh : o.ts ≤ t1) :
    blockOf t0 blockNs o < (t1.toNat - t0.toNat) / blockNs.toNat + 1 := by
  rw [blockOf_eq hlow, Nat.lt_succ_iff]
  apply Nat.div_le_div_right
  have hle := UInt64.le_iff_toNat_le.mp hhigh
  omega

theorem pushAt_eq {out : List (List WeightedObs)} {i : ℕ} (o : WeightedObs) (hi : i < nb)
    (hlen : out.length = nb) : pushAt out i o =
      some ((List.range nb).map fun j => out.getD j [] ++ if i = j then [o] else []) := by
  rw [pushAt, if_pos (hlen ▸ hi)]
  apply congrArg some
  apply List.ext_getElem?
  intro j
  rw [List.getElem?_modify, List.getElem?_map]
  by_cases hj : j < nb
  case pos =>
    have hout : out[j]? = some (out.getD j []) := by simp [hlen, hj]
    rw [hout, List.getElem?_range hj]
    by_cases hij : i = j
    case pos => simp [hij]
    case neg => simp [hij]
  case neg =>
    rw [List.getElem?_eq_none (by omega), List.getElem?_eq_none (by simp; omega)]
    rfl

/-- Every observation falls into exactly one block, and each block keeps their order. -/
theorem bucket_eq (hblock : 0 < blockNs) (h01 : t0 ≤ t1)
    (hin : ∀ o ∈ obs, t0 ≤ o.ts ∧ o.ts ≤ t1) (hfit : BlocksFit t0 t1 blockNs) :
    bucket obs t0 t1 blockNs =
      some ((List.range ((t1.toNat - t0.toNat) / blockNs.toNat + 1)).map
        (inBlock t0 blockNs obs)) := by
  rw [bucket, if_neg (UInt64.ne_of_lt hblock).symm, blockCount_eq h01 hfit]
  generalize hnb : (t1.toNat - t0.toNat) / blockNs.toNat + 1 = nb
  have hall (out : List (List WeightedObs)) (hlen : out.length = nb) :
      obs.foldlM (fun out o => if o.ts < t0 ∨ t1 < o.ts then some out
        else pushAt out (blockOf t0 blockNs o) o) out =
      some ((List.range nb).map fun i => out.getD i [] ++ inBlock t0 blockNs obs i) := by
    induction obs generalizing out with
    | nil =>
      apply congrArg some
      apply List.ext_getElem?
      intro j
      rw [List.getElem?_map]
      by_cases hj : j < nb
      case pos => simp [hlen, hj, inBlock]
      case neg => simp [hlen, hj]
    | cons o obs ih =>
      obtain ⟨hlow, hhigh⟩ := hin o List.mem_cons_self
      have hlt : blockOf t0 blockNs o < nb := hnb ▸ blockOf_lt hlow hhigh
      have hinside : ¬(o.ts < t0 ∨ t1 < o.ts) := by
        rw [not_or, UInt64.not_lt, UInt64.not_lt]
        exact ⟨hlow, hhigh⟩
      rw [List.foldlM_cons, if_neg hinside, pushAt_eq o hlt hlen]
      simp only [Option.bind_eq_bind, Option.bind_some]
      rw [ih (fun x hx => hin x (List.mem_cons_of_mem o hx)) _ (by simp)]
      apply congrArg some
      apply List.map_congr_left
      intro j hj
      have hj : j < nb := List.mem_range.mp hj
      simp only [inBlock, List.filter_cons, decide_eq_true_eq]
      by_cases hoj : blockOf t0 blockNs o = j
      case pos => simp [hoj, hj]
      case neg => simp [hoj, hj]
  rw [hall _ List.length_replicate]
  apply congrArg some
  apply List.map_congr_left
  intro j hj
  simp [List.mem_range.mp hj]

/-- Where the count wraps there is no block for the first observation. -/
theorem bucket_wraps {o : WeightedObs} (h01 : t0 ≤ t1) (hlow : t0 ≤ o.ts) (hhigh : o.ts ≤ t1)
    (hfit : ¬BlocksFit t0 t1 blockNs) : bucket (o :: obs) t0 t1 blockNs = none := by
  have hinside : ¬(o.ts < t0 ∨ t1 < o.ts) := by
    rw [not_or, UInt64.not_lt, UInt64.not_lt]
    exact ⟨hlow, hhigh⟩
  rw [bucket]
  split
  case isTrue => rfl
  case isFalse =>
    rw [blockCount_wraps h01 hfit, List.foldlM_cons, if_neg hinside, pushAt, if_neg (by simp)]
    rfl

/-! ### The mean of a pick -/

/-- The sum of `g` over the observations, each as often as its block was picked. -/
def picked (g : WeightedObs → ℚ) (t0 blockNs : Ts) (obs : List WeightedObs) (pick : List ℕ) : ℚ :=
  (obs.map fun o => (pick.count (blockOf t0 blockNs o) : ℚ) * g o).sum

/-- `weighted_mean` of a pick. -/
def meanOver (t0 blockNs : Ts) (obs : List WeightedObs) (pick : List ℕ) : ℚ :=
  if 0 < picked WeightedObs.weight t0 blockNs obs pick
  then picked weighted t0 blockNs obs pick / picked WeightedObs.weight t0 blockNs obs pick
  else 0

theorem sum_filter (g : WeightedObs → ℚ) (p : WeightedObs → Bool) (obs : List WeightedObs) :
    ((obs.filter p).map g).sum = (obs.map fun o => if p o then g o else 0).sum := by
  induction obs with
  | nil => rfl
  | cons o obs ih =>
    rw [List.map_cons, List.sum_cons, ← ih, List.filter_cons]
    cases p o <;> simp

theorem inBlock_sum (g : WeightedObs → ℚ) (t0 blockNs : Ts) (obs : List WeightedObs)
    (pick : List ℕ) :
    (pick.map fun i => ((inBlock t0 blockNs obs i).map g).sum).sum =
      picked g t0 blockNs obs pick := by
  induction pick with
  | nil => simp [picked]
  | cons i pick ih =>
    have hone : ((inBlock t0 blockNs obs i).map g).sum =
        (obs.map fun o => if blockOf t0 blockNs o = i then g o else 0).sum := by
      have hfilter := sum_filter g (fun o => decide (blockOf t0 blockNs o = i)) obs
      simp only [decide_eq_true_eq] at hfilter
      exact hfilter
    rw [List.map_cons, List.sum_cons, ih, hone, picked, picked, ← List.sum_map_add]
    apply congrArg List.sum
    apply List.map_congr_left
    intro o _
    rw [List.count_cons]
    by_cases ho : blockOf t0 blockNs o = i
    case pos => simp [ho, add_mul, add_comm]
    case neg => simp [ho, Ne.symm ho]

/-- The mean of a pick from the blocks of a bucket. -/
theorem weightedMean_blocks (h : ∀ i ∈ pick, i < nb) :
    weightedMean ((List.range nb).map (inBlock t0 blockNs obs)) pick =
      some (meanOver t0 blockNs obs pick) := by
  have hmass (g : WeightedObs → ℚ) :
      mass g ((List.range nb).map (inBlock t0 blockNs obs)) pick = picked g t0 blockNs obs pick := by
    rw [← inBlock_sum, mass]
    apply congrArg List.sum
    apply List.map_congr_left
    intro i hi
    simp [h i hi]
  rw [weightedMean_eq (by simpa using h), hmass, hmass, meanOver]

/-- Picking every block once gives the sum over all observations. -/
theorem picked_all (g : WeightedObs → ℚ) (h : ∀ o ∈ obs, blockOf t0 blockNs o < nb) :
    picked g t0 blockNs obs (List.range nb) = (obs.map g).sum := by
  apply congrArg List.sum
  apply List.map_congr_left
  intro o ho
  rw [List.count_eq_one_of_mem List.nodup_range (List.mem_range.mpr (h o ho)), Nat.cast_one,
    one_mul]

/-- The mean over all observations. -/
def totalMean (obs : List WeightedObs) : ℚ :=
  (obs.map weighted).sum / (obs.map WeightedObs.weight).sum

section Weights
variable (hpos : ∀ o ∈ obs, 0 < o.weight)

/-- Some picked block holds an observation. -/
def touched (t0 blockNs : Ts) (obs : List WeightedObs) (pick : List ℕ) : Bool :=
  obs.any fun o => pick.contains (blockOf t0 blockNs o)

include hpos in
theorem weight_nonneg : ∀ o ∈ obs, 0 ≤ (pick.count (blockOf t0 blockNs o) : ℚ) * o.weight :=
  fun o ho => mul_nonneg (Nat.cast_nonneg _) (hpos o ho).le

include hpos in
/-- A mean is over something exactly when a picked block holds something. -/
theorem picked_pos_iff : 0 < picked WeightedObs.weight t0 blockNs obs pick ↔
    touched t0 blockNs obs pick = true := by
  have hnonneg : ∀ x ∈ obs.map fun o => (pick.count (blockOf t0 blockNs o) : ℚ) * o.weight,
      0 ≤ x := by
    intro x hx
    obtain ⟨o, ho, rfl⟩ := List.mem_map.mp hx
    exact weight_nonneg hpos o ho
  rw [touched, List.any_eq_true]
  constructor
  case mp =>
    intro h
    by_contra hnone
    have hzero : picked WeightedObs.weight t0 blockNs obs pick = 0 := by
      apply List.sum_eq_zero
      intro x hx
      obtain ⟨o, ho, rfl⟩ := List.mem_map.mp hx
      have hcount : pick.count (blockOf t0 blockNs o) = 0 := by
        apply List.count_eq_zero.mpr
        intro hmem
        exact hnone ⟨o, ho, List.contains_iff_mem.mpr hmem⟩
      rw [hcount, Nat.cast_zero, zero_mul]
    exact h.ne' hzero
  case mpr =>
    intro ⟨o, ho, hmem⟩
    have hcount : 0 < pick.count (blockOf t0 blockNs o) :=
      List.count_pos_iff.mpr (List.contains_iff_mem.mp hmem)
    have hone : 0 < (pick.count (blockOf t0 blockNs o) : ℚ) * o.weight :=
      mul_pos (Nat.cast_pos.mpr hcount) (hpos o ho)
    exact hone.trans_le (List.single_le_sum hnonneg _ (List.mem_map_of_mem ho))

include hpos in
/-- Over a series that is constant every mean is that constant, or over nothing. -/
theorem meanOver_constant {c : ℚ} (hc : ∀ o ∈ obs, o.value = c) :
    meanOver t0 blockNs obs pick = if touched t0 blockNs obs pick then c else 0 := by
  have hsum : picked weighted t0 blockNs obs pick =
      c * picked WeightedObs.weight t0 blockNs obs pick := by
    rw [picked, picked, ← List.sum_map_mul_left]
    apply congrArg List.sum
    apply List.map_congr_left
    intro o ho
    rw [weighted, hc o ho]
    ring
  unfold meanOver
  by_cases hw : 0 < picked WeightedObs.weight t0 blockNs obs pick
  case pos =>
    rw [if_pos hw, if_pos ((picked_pos_iff hpos).mp hw), hsum]
    exact mul_div_cancel_right₀ c hw.ne'
  case neg => rw [if_neg hw, if_neg fun h => hw ((picked_pos_iff hpos).mpr h)]

end Weights

/-! ### Resamples -/

/-- The picks of the resampling loop. -/
def picks (nb : ℕ) : ℕ → Rng → List (List ℕ)
  | 0, _ => []
  | k + 1, rng => (draw nb nb rng).1 :: picks nb k (draw nb nb rng).2

theorem draw_lt (hnb : 0 < nb) (n : ℕ) (rng : Rng) : ∀ i ∈ (draw nb n rng).1, i < nb := by
  induction n generalizing rng with
  | zero => exact fun i hi => absurd hi List.not_mem_nil
  | succ n ih =>
    intro i hi
    cases List.mem_cons.mp hi with
    | inl heq => exact heq ▸ Nat.mod_lt _ hnb
    | inr hmem => exact ih _ i hmem

/-- A loop whose body subscripts in range runs to its end. -/
theorem resample_eq {f : List ℕ → Option (Option ℚ)} {g : List ℕ → Option ℚ} (hnb : 0 < nb)
    (hf : ∀ pick, (∀ i ∈ pick, i < nb) → f pick = some (g pick)) (k : ℕ) (rng : Rng) :
    resample nb f k rng = some ((picks nb k rng).filterMap g) := by
  induction k generalizing rng with
  | zero => rfl
  | succ k ih =>
    rw [resample]
    simp only [hf _ (draw_lt hnb nb rng), ih, Option.bind_eq_bind, Option.bind_some,
      Option.pure_def, picks, List.filterMap_cons]
    cases g (draw nb nb rng).1 <;> rfl

/-! ### Percentiles -/

theorem rank_lt {q : ℚ} {size : ℕ} (hq1 : q ≤ 1) (hsize : 0 < size) : rank q size < size := by
  have hle : q * ((size - 1 : ℕ) : ℚ) ≤ (((size - 1 : ℕ) : ℤ) : ℚ) := by
    rw [Int.cast_natCast]
    exact mul_le_of_le_one_left (Nat.cast_nonneg _) hq1
  have hfloor := Rat.floor_monotone hle
  rw [Rat.floor_intCast] at hfloor
  rw [rank]
  omega

theorem rank_mono {q q' : ℚ} (h : q ≤ q') (size : ℕ) : rank q size ≤ rank q' size := by
  apply Int.toNat_le_toNat
  apply Rat.floor_monotone
  exact mul_le_mul_of_nonneg_right h (Nat.cast_nonneg _)

/-- What `percentiles` returns: the point where there is too little, else two of the values,
the lower one first. -/
theorem percentiles_spec (v : List ℚ) (out : Interval) :
    ∃ r, percentiles v out = some r ∧ r.n = out.n ∧ r.point = out.point ∧
      ((v.length < 50 ∧ r.lo = out.point ∧ r.hi = out.point) ∨
       (50 ≤ v.length ∧ (v.insertionSort (· ≤ ·))[rank 0.025 v.length]? = some r.lo ∧
        (v.insertionSort (· ≤ ·))[rank 0.975 v.length]? = some r.hi)) := by
  unfold percentiles
  split
  case isTrue hfew => exact ⟨_, rfl, rfl, rfl, Or.inl ⟨hfew, rfl, rfl⟩⟩
  case isFalse hmany =>
    have hlen : (v.insertionSort (· ≤ ·)).length = v.length := List.length_insertionSort ..
    rw [← hlen]
    rw [← hlen] at hmany
    generalize v.insertionSort (· ≤ ·) = sorted at hmany
    have hlo : rank 0.025 sorted.length < sorted.length := rank_lt (by norm_num) (by omega)
    have hhi : rank 0.975 sorted.length < sorted.length := rank_lt (by norm_num) (by omega)
    simp only [List.getElem?_eq_getElem hlo, List.getElem?_eq_getElem hhi]
    exact ⟨_, rfl, rfl, rfl, Or.inr ⟨by omega, rfl, rfl⟩⟩

theorem percentiles_le {v : List ℚ} {out r : Interval} (h : percentiles v out = some r) :
    r.lo ≤ r.hi := by
  obtain ⟨r', hr', _, _, hor⟩ := percentiles_spec v out
  obtain rfl := Option.some.inj (h.symm.trans hr')
  cases hor with
  | inl hfew => rw [hfew.2.1, hfew.2.2]
  | inr hmany =>
    obtain ⟨_, hlo, hhi⟩ := hmany
    obtain ⟨hilo, hlo⟩ := List.getElem?_eq_some_iff.mp hlo
    obtain ⟨hihi, hhi⟩ := List.getElem?_eq_some_iff.mp hhi
    rw [← hlo, ← hhi]
    have hsorted : (v.insertionSort (· ≤ ·)).Pairwise (· ≤ ·) := List.pairwise_insertionSort _ v
    exact hsorted.rel_get_of_le (rank_mono (by norm_num) v.length)

/-- Where all values are the point, so are the ends. -/
theorem percentiles_constant {v : List ℚ} {out r : Interval} (h : percentiles v out = some r)
    (hall : ∀ x ∈ v, x = out.point) : r.lo = out.point ∧ r.hi = out.point := by
  obtain ⟨r', hr', _, _, hor⟩ := percentiles_spec v out
  obtain rfl := Option.some.inj (h.symm.trans hr')
  cases hor with
  | inl hfew => exact hfew.2
  | inr hmany =>
    have hmem {i : ℕ} {x : ℚ} (hx : (v.insertionSort (· ≤ ·))[i]? = some x) : x = out.point :=
      hall x ((List.mem_insertionSort (· ≤ ·)).mp (List.mem_of_getElem? hx))
    exact ⟨hmem hmany.2.1, hmem hmany.2.2⟩

end Hotpath.Sim.Bootstrap
