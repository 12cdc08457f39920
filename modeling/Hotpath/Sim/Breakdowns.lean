import Hotpath.Sim.BootstrapPaired
import Hotpath.Sim.Reports
import Hotpath.Support.Fallible

/-!
# The breakdowns of a session (src/sim_mm.cpp)

The queue-aware fills by the queue they joined behind and by how they were obtained, and the
two paired comparisons. A breakdown is of the ten second scores of the report: each fill is
in one of its parts, and a comparison is of the means that the parts show.
-/

namespace Hotpath.Sim
open Hotpath.Book Hotpath.Support Hotpath.Sim.MarketMaker Hotpath.Sim.Bootstrap

structure Bucket where
  name : String
  lo : Qty
  hi : Qty
  f : List Fill := []

namespace Bucket

def holds (bk : Bucket) (f : Fill) : Bool :=
  bk.lo ≤ f.queueAheadAtJoin ∧ f.queueAheadAtJoin ≤ bk.hi

/-- The inner loop, which stops at the first bucket that takes the fill. -/
def place (f : Fill) : List Bucket → List Bucket
  | [] => []
  | bk :: b => if bk.holds f then { bk with f := bk.f ++ [f] } :: b else bk :: place f b

end Bucket

structure Kinds where
  fresh : List Fill := []
  stale : List Fill := []
  swept : List Fill := []

def Kinds.push (k : Kinds) (f : Fill) : Kinds :=
  let k := if f.stale then { k with stale := k.stale ++ [f] } else { k with fresh := k.fresh ++ [f] }
  if f.swept then { k with swept := k.swept ++ [f] } else k

/-- What a bucket has at the end. -/
def Bucket.fill (fills : List Fill) (bk : Bucket) : Bucket :=
  { bk with f := bk.f ++ fills.filter bk.holds }

theorem Bucket.holds_iff {bk : Bucket} {f : Fill} : bk.holds f = true ↔
    bk.lo.toNat ≤ f.queueAheadAtJoin.toNat ∧ f.queueAheadAtJoin.toNat ≤ bk.hi.toNat := by
  rw [holds, decide_eq_true_iff, UInt32.le_iff_toNat_le, UInt32.le_iff_toNat_le]

/-- The buckets stand one above the other. -/
def Ascending (b : List Bucket) : Prop := b.Pairwise fun bk bk' => bk.hi.toNat < bk'.lo.toNat

theorem Ascending.fill {b : List Bucket} (hb : Ascending b) (fills : List Fill) :
    Ascending (b.map (Bucket.fill fills)) :=
  List.pairwise_map.mpr hb

/-- No two of them take one fill. -/
theorem Ascending.unique {b : List Bucket} (hb : Ascending b) {bk bk' : Bucket} {f : Fill}
    (hm : bk ∈ b) (hm' : bk' ∈ b) (h : bk.holds f = true) (h' : bk'.holds f = true) : bk = bk' := by
  obtain ⟨hlo, hhi⟩ := Bucket.holds_iff.mp h
  obtain ⟨hlo', hhi'⟩ := Bucket.holds_iff.mp h'
  induction hb with
  | nil => cases hm
  | @cons first b hfirst hrest ih =>
    cases hm with
    | head =>
      cases hm' with
      | head => rfl
      | tail _ hm' =>
        have hlt := hfirst bk' hm'
        omega
    | tail _ hm =>
      cases hm' with
      | head =>
        have hlt := hfirst bk hm
        omega
      | tail _ hm' => exact ih hm hm'

variable {v : Market} {es : List BookEvent} {fills : List Fill} {mids : List MidSample}

theorem FillsOf.filter (h : FillsOf es fills) (p : Fill → Bool) : FillsOf es (fills.filter p) :=
  ⟨h.order.filter p, fun f hf => h.event f (List.mem_of_mem_filter hf),
    fun f hf => h.qty f (List.mem_of_mem_filter hf)⟩

section

variable (hobs : ∀ fills, toObs mids (10 * kSec) none fills =
  some (fills.filterMap (scored v es mids (10 * kSec) none)))
include hobs

end

end Hotpath.Sim
