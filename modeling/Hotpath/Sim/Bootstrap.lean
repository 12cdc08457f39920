import Hotpath.Core.Types

/-!
# The block bootstrap (sim/bootstrap.hpp)

Resampling in blocks of wall-clock time. A `double` is a rational, `std::sort` an
insertion sort; `none` is a subscript outside a vector or a division by zero.
-/

namespace Hotpath.Sim

structure WeightedObs where
  ts : Ts
  value : ℚ
  weight : ℚ
  deriving DecidableEq

structure Interval where
  point : ℚ := 0
  lo : ℚ := 0
  hi : ℚ := 0
  n : ℕ := 0
  deriving DecidableEq

namespace Bootstrap

/-- One observation of the inner loop: `num` and `den`. -/
def tally (acc : ℚ × ℚ) (o : WeightedObs) : ℚ × ℚ :=
  (acc.1 + o.value * o.weight, acc.2 + o.weight)

def weightedMean (blocks : List (List WeightedObs)) (pick : List ℕ) : Option ℚ := do
  let (num, den) ← pick.foldlM (fun acc b => do
    let block ← blocks[b]?
    return block.foldl tally acc) ((0, 0) : ℚ × ℚ)
  return if 0 < den then num / den else 0

/-- `out[i].push_back(o)` -/
def pushAt (out : List (List WeightedObs)) (i : ℕ) (o : WeightedObs) :
    Option (List (List WeightedObs)) :=
  if i < out.length then some (out.modify i (· ++ [o])) else none

/-- The number of blocks of `[t0, t1]`. -/
def blockCount (t0 t1 blockNs : Ts) : UInt64 := (t1 - t0) / blockNs + 1

def blockOf (t0 blockNs : Ts) (o : WeightedObs) : ℕ := ((o.ts - t0) / blockNs).toNat

def bucket (obs : List WeightedObs) (t0 t1 blockNs : Ts) : Option (List (List WeightedObs)) :=
  if blockNs = 0 then none
  else obs.foldlM (fun out o =>
    if o.ts < t0 ∨ t1 < o.ts then some out else pushAt out (blockOf t0 blockNs o) o)
    (List.replicate (blockCount t0 t1 blockNs).toNat [])

/-- The state of `Rng`, which is also what it returned last. -/
abbrev Rng := UInt64

def seed : Rng := 0x9E3779B97F4A7C15

def Rng.next (s : Rng) : Rng :=
  let s := s ^^^ (s <<< 13)
  let s := s ^^^ (s >>> 7)
  s ^^^ (s <<< 17)

/-- The first `n` of the picks among `nb` blocks. -/
def draw (nb : ℕ) : ℕ → Rng → List ℕ × Rng
  | 0, rng => ([], rng)
  | n + 1, rng =>
    let rng := Rng.next rng
    let (pick, after) := draw nb n rng
    (rng.toNat % nb :: pick, after)

/-- The resampling loop: `f` is what a pick adds to the vector, if anything. -/
def resample (nb : ℕ) (f : List ℕ → Option (Option ℚ)) : ℕ → Rng → Option (List ℚ)
  | 0, _ => some []
  | k + 1, rng => do
    let (pick, rng) := draw nb nb rng
    let m ← f pick
    let rest ← resample nb f k rng
    return m.toList ++ rest

/-- The index of a percentile among `size` sorted values. -/
def rank (q : ℚ) (size : ℕ) : ℕ := (q * ((size - 1 : ℕ) : ℚ)).floor.toNat

def percentiles (v : List ℚ) (out : Interval) : Option Interval :=
  if v.length < 50 then some { out with lo := out.point, hi := out.point }
  else do
    let v := v.insertionSort (· ≤ ·)
    let lo ← v[rank 0.025 v.length]?
    let hi ← v[rank 0.975 v.length]?
    return { out with lo := lo, hi := hi }

/-- The mean of a pick, unless it is zero. -/
def meanOf (blocks : List (List WeightedObs)) (pick : List ℕ) : Option (Option ℚ) := do
  let m ← weightedMean blocks pick
  return if m ≠ 0 then some m else none

/-- The difference of the means of a pick, unless both are zero. -/
def diffOf (ba bb : List (List WeightedObs)) (pick : List ℕ) : Option (Option ℚ) := do
  let x ← weightedMean ba pick
  let y ← weightedMean bb pick
  return if x ≠ 0 ∨ y ≠ 0 then some (x - y) else none

end Bootstrap

open Bootstrap

def blockBootstrap (obs : List WeightedObs) (blockNs : Ts) (resamples : ℕ) : Option Interval :=
  match obs.head?, obs.getLast? with
  | some front, some back => do
    let r : Interval := { n := obs.length }
    let t0 := front.ts
    let t1 := back.ts
    if t1 ≤ t0 then return r
    let blocks ← bucket obs t0 t1 blockNs
    let nb := blocks.length
    let point ← weightedMean blocks (List.range nb)
    let r := { r with point := point }
    if nb < 8 then return { r with lo := point, hi := point }
    let means ← resample nb (meanOf blocks) resamples seed
    percentiles means r
  | _, _ => some {}

def pairedBlockBootstrap (a b : List WeightedObs) (blockNs : Ts) (resamples : ℕ) :
    Option Interval :=
  match a.head?, b.head?, a.getLast?, b.getLast? with
  | some frontA, some frontB, some backA, some backB => do
    let r : Interval := { n := a.length + b.length }
    let t0 := min frontA.ts frontB.ts
    let t1 := max backA.ts backB.ts
    if t1 ≤ t0 then return r
    let ba ← bucket a t0 t1 blockNs
    let bb ← bucket b t0 t1 blockNs
    let nb := ba.length
    let x ← weightedMean ba (List.range nb)
    let y ← weightedMean bb (List.range nb)
    let r := { r with point := x - y }
    if nb < 8 then return { r with lo := x - y, hi := x - y }
    let diffs ← resample nb (diffOf ba bb) resamples seed
    percentiles diffs r
  | _, _, _, _ => some {}

end Hotpath.Sim
