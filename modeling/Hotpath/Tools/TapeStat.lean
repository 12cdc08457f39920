import Hotpath.Book.Churn
import Hotpath.Book.Tape
import Hotpath.Support.SortedRank

/-!
# The statistics of a tape (tape_stat.cpp)

How the events of a tape are mixed and spaced, and how deep the intrusive book is after
each of them. The counters are numbers that do not wrap: those of events, gaps and levels
cannot reach `2^64`, and `sum_levels` and `elements_shifted`, at most `2^20` and `2^21`
for each event, cannot on a tape of fewer than `2^43` events.
-/

namespace Hotpath.Tools
open Hotpath.Book Hotpath.Support

namespace TapeStat

/-! ### Inter-event timing -/

structure Timing where
  gaps : List Ts := []
  gapsExec : List Ts := []
  prev : Ts := 0
  first : Bool := true
  perType : EventType → ℕ := fun _ => 0

namespace Timing

/-- `++per_type[e.type]`. -/
def count (t : Timing) (e : BookEvent) : Timing :=
  { t with perType := Function.update t.perType e.type (t.perType e.type + 1) }

/-- The gap before an event that does not run backwards. -/
def push (t : Timing) (e : BookEvent) : Timing :=
  { t with
    gaps := t.gaps ++ [e.ts - t.prev]
    gapsExec := if e.type = .execute then t.gapsExec ++ [e.ts - t.prev] else t.gapsExec }

def event (t : Timing) (e : BookEvent) : Timing :=
  let t := t.count e
  let t := if t.first = false ∧ t.prev ≤ e.ts then t.push e else t
  { t with prev := e.ts, first := false }

end Timing

/-- `std::sort` -/
def sort (v : List Ts) : List Ts := v.mergeSort fun g g' => g ≤ g'

/-- `rank` takes the number of values to a product of doubles cast to an index. -/
def quantile (rank : ℕ → ℕ) (v : List Ts) : Option Ts :=
  if v = [] then some 0 else v[rank v.length]?

structure Quantiles where
  p10 : Ts
  p50 : Ts
  p90 : Ts
  deriving DecidableEq, Repr

/-- The ranks of the quantiles of a tape: of its price window and of its gaps. -/
structure Ranks where
  lo : ℕ → ℕ
  hi : ℕ → ℕ
  p10 : ℕ → ℕ
  p50 : ℕ → ℕ
  p90 : ℕ → ℕ
  window : ∀ n, 0 < n → lo n ≤ hi n ∧ hi n < n
  gaps : ∀ n, 0 < n → p10 n ≤ p50 n ∧ p50 n ≤ p90 n ∧ p90 n < n

def Ranks.quantiles (ranks : Ranks) (v : List Ts) : Option Quantiles := do
  return ⟨← quantile ranks.p10 v, ← quantile ranks.p50 v, ← quantile ranks.p90 v⟩

/-! ### Book depth and level churn -/

structure Depth where
  book : IntrusiveBook
  sumLevels : ℕ := 0
  maxLevels : ℕ := 0

namespace Depth

def event (d : Depth) (e : BookEvent) : Option Depth := do
  let book ← Book.apply d.book e
  let lv := book.bidLevels + book.askLevels
  return ⟨book, d.sumLevels + lv, if d.maxLevels < lv then lv else d.maxLevels⟩

def loop : Depth → List BookEvent → Option Depth
  | d, [] => some d
  | d, e :: events => (d.event e).bind fun d => loop d events

end Depth

/-- The pools of the tool's own book. -/
def kOrders : ℕ := 2 ^ 21
def kLevels : ℕ := 2 ^ 20

end TapeStat

open TapeStat

structure TapeStat where
  window : Price × Price
  timing : Timing
  all : Quantiles
  exec : Quantiles
  subUs : ℕ
  sub10us : ℕ
  depth : Depth

/-- The inner `none` is an exception of a constructor, or undefined behaviour. -/
def tapeStat (ranks : Ranks) (path : String) (file : Option (List UInt8)) :
    Except String (Option TapeStat) := do
  let tape ← Tape.open_ path file
  return do
    let events ← tape.events.mapM id
    let window ← priceWindow ranks.lo ranks.hi events
    let timing := events.foldl Timing.event {}
    let all ← ranks.quantiles (sort timing.gaps)
    let exec ← ranks.quantiles (sort timing.gapsExec)
    let ib ← IntrusiveBook.make kOrders kLevels
    let depth ← Depth.loop { book := ib } events
    return {
      window := window
      timing := timing
      all := all
      exec := exec
      subUs := timing.gaps.countP (· < 1000)
      sub10us := timing.gaps.countP (· < 10000)
      depth := depth }

namespace TapeStat

/-! ### What the loop over the times collects -/

/-- The neighbours whose times do not run backwards. -/
def steps (events : List BookEvent) : List (BookEvent × BookEvent) :=
  (events.zip events.tail).filter fun s => s.1.ts ≤ s.2.ts

def gap (s : BookEvent × BookEvent) : Ts := s.2.ts - s.1.ts

variable {t : Timing} {d e : BookEvent}

theorem steps_cons (d e : BookEvent) (events : List BookEvent) :
    steps (d :: e :: events) =
      if d.ts ≤ e.ts then (d, e) :: steps (e :: events) else steps (e :: events) := by
  rw [steps, List.tail_cons, List.zip_cons_cons, List.filter_cons]
  simp only [decide_eq_true_eq]
  rfl

/-- The loop from an event on: its gaps are those of the steps from there. -/
theorem foldl_gaps (events : List BookEvent) (hfirst : t.first = false) (hprev : t.prev = d.ts) :
    (events.foldl Timing.event t).gaps = t.gaps ++ (steps (d :: events)).map gap ∧
      (events.foldl Timing.event t).gapsExec =
        t.gapsExec ++ ((steps (d :: events)).filter fun s => s.2.type = .execute).map gap := by
  induction events generalizing t d with
  | nil => exact ⟨(List.append_nil _).symm, (List.append_nil _).symm⟩
  | cons e events ih =>
    obtain ⟨hgaps, hexec⟩ := @ih (t.event e) e rfl rfl
    rw [List.foldl_cons, hgaps, hexec, steps_cons]
    by_cases hle : d.ts ≤ e.ts
    · have hpush : t.event e = { (t.count e).push e with prev := e.ts, first := false } := by
        rw [Timing.event, if_pos ⟨hfirst, hprev.trans_le hle⟩]
      rw [hpush, if_pos hle, List.map_cons, List.filter_cons]
      constructor
      · show t.gaps ++ [e.ts - t.prev] ++ _ = _
        rw [List.append_assoc, hprev]
        rfl
      · show (if e.type = .execute then t.gapsExec ++ [e.ts - t.prev] else t.gapsExec) ++ _ = _
        by_cases htype : e.type = .execute
        · rw [if_pos htype, if_pos (decide_eq_true htype), List.append_assoc, hprev]
          rfl
        · rw [if_neg htype, if_neg (by simpa using htype)]
    · have hskip : t.event e = { t.count e with prev := e.ts, first := false } := by
        rw [Timing.event, if_neg fun h => hle (hprev ▸ h.2)]
      rw [hskip, if_neg hle]
      exact ⟨rfl, rfl⟩

theorem gaps_eq (events : List BookEvent) :
    (events.foldl Timing.event {}).gaps = (steps events).map gap ∧
      (events.foldl Timing.event {}).gapsExec =
        ((steps events).filter fun s => s.2.type = .execute).map gap := by
  cases events with
  | nil => exact ⟨rfl, rfl⟩
  | cons e events => exact foldl_gaps (t := Timing.event {} e) events rfl rfl

theorem event_perType (t : Timing) (e : BookEvent) : (t.event e).perType = (t.count e).perType := by
  rw [Timing.event]
  split <;> rfl

theorem foldl_perType (events : List BookEvent) (t : Timing) (k : EventType) :
    (events.foldl Timing.event t).perType k = t.perType k + events.countP (·.type = k) := by
  induction events generalizing t with
  | nil => rfl
  | cons e events ih =>
    rw [List.foldl_cons, ih, event_perType, List.countP_cons]
    show Function.update t.perType e.type (t.perType e.type + 1) k + _ = _
    by_cases hk : e.type = k
    · rw [hk, Function.update_self, if_pos (decide_eq_true rfl)]
      omega
    · rw [Function.update_of_ne (Ne.symm hk), if_neg (by simpa using hk), Nat.add_zero]

theorem mix_total (events : List BookEvent) :
    events.countP (·.type = .add) + events.countP (·.type = .execute) +
      events.countP (·.type = .cancel) + events.countP (·.type = .delete) +
      events.countP (·.type = .replace) = events.length := by
  induction events with
  | nil => rfl
  | cons e events ih =>
    simp only [List.countP_cons, List.length_cons]
    cases htype : e.type <;> simp <;> omega

/-! ### Quantiles -/

/-- `x` stands at a rank among these values: no more are below it, and no more above. -/
def AtRank (v : List Ts) (rank : ℕ) (x : Ts) : Prop :=
  v.countP (· < x) ≤ rank ∧ rank + v.countP (x < ·) < v.length

/-- What the quantiles of some gaps are, in whatever order these were collected. -/
structure Quantiles.Of (ranks : Ranks) (v : List Ts) (q : Quantiles) : Prop where
  low : q.p10 ≤ q.p50
  high : q.p50 ≤ q.p90
  noGap : v = [] → q = ⟨0, 0, 0⟩
  ranked : v ≠ [] → AtRank v (ranks.p10 v.length) q.p10 ∧
    AtRank v (ranks.p50 v.length) q.p50 ∧ AtRank v (ranks.p90 v.length) q.p90

theorem sort_sorted (v : List Ts) : (sort v).Pairwise (· ≤ ·) := by
  have h : (sort v).Pairwise fun g g' => decide (g ≤ g') = true := by
    apply List.pairwise_mergeSort
    · exact fun a b c hab hbc => decide_eq_true
        (UInt64.le_trans (of_decide_eq_true hab) (of_decide_eq_true hbc))
    · exact fun a b => by simpa using UInt64.le_total a b
  exact h.imp fun hab => of_decide_eq_true hab

theorem sort_perm (v : List Ts) : (sort v).Perm v := List.mergeSort_perm v _

/-- What is read off the sorted gaps stands at its rank among the gaps. -/
theorem quantile_sort {rank : ℕ → ℕ} {v : List Ts} (hne : v ≠ []) (hlt : rank v.length < v.length) :
    ∃ x, quantile rank (sort v) = some x ∧ (sort v)[rank v.length]? = some x ∧
      AtRank v (rank v.length) x := by
  have hperm := sort_perm v
  obtain ⟨x, hsome⟩ : ∃ x, (sort v)[rank v.length]? = some x :=
    ⟨_, List.getElem?_eq_getElem (hlt.trans_eq hperm.length_eq.symm)⟩
  have hsorted : ((sort v).map UInt64.toNat).Pairwise (· ≤ ·) := by
    rw [List.pairwise_map]
    exact (sort_sorted v).imp fun hle => UInt64.le_iff_toNat_le.mp hle
  have hat : ((sort v).map UInt64.toNat)[rank v.length]? = some x.toNat := by
    rw [List.getElem?_map, hsome, Option.map_some]
  have hrank := (rank_eq_iff hsorted hat).mp rfl
  simp only [List.countP_map, List.length_map, Function.comp_def, ← UInt64.lt_iff_toNat_lt,
    hperm.countP_eq, hperm.length_eq] at hrank
  refine ⟨x, ?_, hsome, hrank⟩
  have hfull : sort v ≠ [] := fun h => hne (h ▸ hperm).symm.eq_nil
  rw [quantile, if_neg hfull, hperm.length_eq, hsome]

theorem quantiles_sort (ranks : Ranks) (v : List Ts) :
    ∃ q, ranks.quantiles (sort v) = some q ∧ q.Of ranks v := by
  by_cases hnil : v = []
  · refine ⟨⟨0, 0, 0⟩, ?_, UInt64.le_refl _, UInt64.le_refl _, fun _ => rfl, fun h => absurd hnil h⟩
    rw [hnil, sort, List.mergeSort_nil]
    rfl
  · obtain ⟨hlow, hhigh, hlt⟩ := ranks.gaps v.length (List.length_pos_of_ne_nil hnil)
    obtain ⟨x, hx, hatx, hrankx⟩ := quantile_sort hnil ((hlow.trans hhigh).trans_lt hlt)
    obtain ⟨y, hy, haty, hranky⟩ := quantile_sort hnil (hhigh.trans_lt hlt)
    obtain ⟨z, hz, hatz, hrankz⟩ := quantile_sort hnil hlt
    have hmono : ∀ {i j : ℕ} {g g' : Ts}, (sort v)[i]? = some g → (sort v)[j]? = some g' →
        i ≤ j → g ≤ g' := by
      intro i j g g' hg hg' hij
      obtain ⟨hi, rfl⟩ := List.getElem?_eq_some_iff.mp hg
      obtain ⟨hj, rfl⟩ := List.getElem?_eq_some_iff.mp hg'
      rcases Nat.eq_or_lt_of_le hij with rfl | hlt
      · exact UInt64.le_refl _
      · exact List.pairwise_iff_getElem.mp (sort_sorted v) i j hi hj hlt
    refine ⟨⟨x, y, z⟩, ?_, hmono hatx haty hlow, hmono haty hatz hhigh, fun h => absurd h hnil,
      fun _ => ⟨hrankx, hranky, hrankz⟩⟩
    rw [Ranks.quantiles, hx, hy, hz]
    rfl

/-! ### The levels after each event -/

/-- How many prices the reference book has orders at after each event. -/
def levelsAfter : MapBook → List BookEvent → List ℕ
  | _, [] => []
  | m, e :: events => (m.step e.op).levelsInUse :: levelsAfter (m.step e.op) events

namespace Depth

variable {d d' : Depth} {n : ℕ}

/-- What the counters of a pass amount to after `n` events. -/
structure Ok (d : Depth) (n : ℕ) : Prop where
  live : d.book.levelCount ≤ d.maxLevels
  most : d.maxLevels ≤ kLevels
  sum : d.sumLevels ≤ n * d.maxLevels
  pool : d.book.freeLevels.length + d.book.levelCount = kLevels
  churn : d.book.levelCreates = d.book.levelDestroys + d.book.levelCount
  shifted : d.book.shifted ≤ (d.book.levelCreates + d.book.levelDestroys) * d.maxLevels

theorem Ok.start {b : IntrusiveBook} (h : IntrusiveBook.make kOrders kLevels = some b) :
    Ok { book := b } 0 := by
  obtain ⟨hlive, hfree, hcreates, hdestroys, hshifted⟩ := IntrusiveBook.make_levels h
  constructor
  case live => exact hlive.le
  case most => exact Nat.zero_le _
  case sum => exact Nat.zero_le _
  case pool => rw [hlive, hfree, Nat.add_zero]
  case churn => rw [hlive, hcreates, hdestroys]
  case shifted => exact hshifted.trans_le (Nat.zero_le _)

theorem event_eq {b : IntrusiveBook} {e : BookEvent} (h : Book.apply d.book e = some b) :
    d.event e = some ⟨b, d.sumLevels + b.levelCount, max d.maxLevels b.levelCount⟩ := by
  rw [event, h, max_def_lt]
  rfl

theorem Ok.event {b : IntrusiveBook} {e : BookEvent} (h : d.Ok n)
    (happly : Book.apply d.book e = some b) :
    Ok ⟨b, d.sumLevels + b.levelCount, max d.maxLevels b.levelCount⟩ (n + 1) := by
  obtain ⟨c, x, hc⟩ := IntrusiveBook.apply_churned happly
  have hlive := hc.live
  have hchurn := h.churn
  have hcreates := hc.creates
  have hdestroys := hc.destroys
  have hpool := hc.pool.trans h.pool
  have hmax := Nat.le_max_left d.maxLevels b.levelCount
  constructor
  case live => exact Nat.le_max_right ..
  case most => exact max_le h.most (by omega)
  case sum =>
    calc d.sumLevels + b.levelCount
      _ ≤ n * max d.maxLevels b.levelCount + max d.maxLevels b.levelCount :=
        Nat.add_le_add (h.sum.trans (Nat.mul_le_mul_left n hmax)) (Nat.le_max_right ..)
      _ = (n + 1) * max d.maxLevels b.levelCount := (Nat.succ_mul ..).symm
  case pool => exact hpool
  case churn =>
    show b.levelCreates = b.levelDestroys + b.levelCount
    omega
  case shifted =>
    have hall : b.levelCreates + b.levelDestroys =
        d.book.levelCreates + d.book.levelDestroys + (c + x) := by omega
    calc b.shifted
      _ ≤ d.book.shifted + (c + x) * d.book.levelCount := hc.shifted
      _ ≤ (d.book.levelCreates + d.book.levelDestroys) * d.maxLevels + (c + x) * d.maxLevels :=
        Nat.add_le_add h.shifted (Nat.mul_le_mul_left _ h.live)
      _ = (b.levelCreates + b.levelDestroys) * d.maxLevels := by rw [hall, ← Nat.add_mul]
      _ ≤ (b.levelCreates + b.levelDestroys) * max d.maxLevels b.levelCount :=
        Nat.mul_le_mul_left _ hmax

/-- A pass whose book stands for a hybrid book goes on to the end of the tape, and where
every event fits it counts the levels of the reference book. -/
theorem loop_spec {h : HybridBook} {Q : HybridBook.Queues} (hr : HybridBook.Rep h Q)
    (hs : HybridBook.Small h) (ht : IntrusiveBook.Twin h d.book) (hok : d.Ok n)
    (events : List BookEvent)
    (hrefs : ∀ e ∈ events, ∀ ref ∈ e.op.refs, ref ≠ OpenHashMap.kEmpty) :
    ∃ d', loop d events = some d' ∧ d'.Ok (n + events.length) ∧
      ∀ m, HybridBook.Agrees h Q m → HybridBook.Pooled kOrders kLevels h →
        m.fitsAll (MapBook.poolRoom kOrders kLevels) (events.map BookEvent.op) = true →
        d'.sumLevels = d.sumLevels + (levelsAfter m events).sum ∧
          d'.maxLevels = (levelsAfter m events).foldl max d.maxLevels := by
  induction events generalizing d h Q n with
  | nil => exact ⟨d, rfl, hok, fun _ _ _ _ => ⟨rfl, rfl⟩⟩
  | cons e events ih =>
    have hop := hrefs e (List.mem_cons_self ..)
    obtain ⟨h1, hh1, hs1⟩ := hr.step_total hs e.op hop
    obtain ⟨-, Q1, hr1, hagree⟩ := hr.step_sim e.op hop hh1
    have htwin := ht.step hr e.op hop
    rw [hh1] at htwin
    obtain ⟨b, hb, ht1⟩ := rel_right htwin
    obtain ⟨d', hloop, hok', hcounts⟩ := ih hr1 hs1 ht1 (hok.event hb)
      fun e hm => hrefs e (List.mem_cons_of_mem _ hm)
    refine ⟨d', ?_, ?_, fun m ha hp hfits => ?_⟩
    · rw [loop, event_eq hb]
      exact hloop
    · rw [List.length_cons, Nat.add_comm events.length, ← Nat.add_assoc]
      exact hok'
    · rw [List.map_cons, MapBook.fitsAll, Bool.and_eq_true] at hfits
      have ha1 := hagree m ha ((hr.step_taken_iff ha hp hs e.op hop hh1).mpr hfits.1)
      have hp1 := hp.same (hr.step_size e.op hop hh1)
      obtain ⟨hsum, hmax⟩ := hcounts _ ha1 hp1 hfits.2
      -- what is not free stands for a price of the reference book
      have hfilled := ha1.levels_filled hr1 hs1.levels
      have hcount : h1.levels.length = h1.freeLevels.length + b.levelCount := ht1.count
      have hlevels : b.levelCount = (m.step e.op).levelsInUse := by omega
      rw [hsum, hmax, levelsAfter, List.sum_cons, List.foldl_cons, ← hlevels, ← Nat.add_assoc]
      exact ⟨rfl, rfl⟩

end Depth

/-! ### The tool -/

theorem make_some : ∃ b, IntrusiveBook.make kOrders kLevels = some b := by
  have hmade : ∀ ids, OpenHashMap.make kOrders = some (ids : OpenHashMap ℤ) →
      ∃ b, IntrusiveBook.make kOrders kLevels = some b := by
    intro ids hids
    rw [IntrusiveBook.make, hids]
    exact ⟨_, rfl⟩
  exact hmade _ (OpenHashMap.make_eq_some.mpr ⟨by decide, ⟨21, rfl⟩, rfl⟩)

/-- The tool on a tape as it is written runs to its end, and what it prints is what it
says: the mix and the gaps are those of the tape, each quantile stands at its rank, and the
counters of the book are in their bounds. Where every event fits the pools, the depths
are the reference book's. -/
theorem tapeStat_accounts (ranks : Ranks) (path : String) (symbolRaw : UInt64) (locate : UInt16)
    (events : List BookEvent) (hlen : events.length < 2 ^ 64)
    (hrefs : ∀ e ∈ events, ∀ ref ∈ e.op.refs, ref ≠ 0) :
    ∃ r, tapeStat ranks path (some (tapeFile symbolRaw locate events)) = .ok (some r) ∧
      (∀ k, r.timing.perType k = events.countP (·.type = k)) ∧
      r.timing.perType .add + r.timing.perType .execute + r.timing.perType .cancel +
        r.timing.perType .delete + r.timing.perType .replace = events.length ∧
      r.all.Of ranks ((steps events).map gap) ∧
      r.exec.Of ranks (((steps events).filter fun s => s.2.type = .execute).map gap) ∧
      r.subUs ≤ r.sub10us ∧ r.sub10us ≤ (steps events).length ∧
      r.depth.Ok events.length ∧
      (MapBook.empty.fitsAll (MapBook.poolRoom kOrders kLevels) (events.map BookEvent.op) = true →
        r.depth.sumLevels = (levelsAfter MapBook.empty events).sum ∧
          r.depth.maxLevels = (levelsAfter MapBook.empty events).foldl max 0) := by
  obtain ⟨lo, hi, hwin, -⟩ := priceWindow_covers ranks.window events
  obtain ⟨hgaps, hexec⟩ := gaps_eq events
  have hcount : ∀ k, (events.foldl Timing.event {}).perType k = events.countP (·.type = k) :=
    fun k => (foldl_perType events {} k).trans (Nat.zero_add _)
  obtain ⟨all, hall, hallOf⟩ := quantiles_sort ranks (events.foldl Timing.event {}).gaps
  obtain ⟨exec, hex, hexOf⟩ := quantiles_sort ranks (events.foldl Timing.event {}).gapsExec
  obtain ⟨ib, hmake⟩ := make_some
  obtain ⟨h, hmk, ht⟩ := IntrusiveBook.Twin.make hmake
  obtain ⟨hr, ha⟩ := HybridBook.Agrees.make hmk
  have hp := HybridBook.Pooled.make hmk
  have hs : HybridBook.Small h := ⟨hp.orders.trans_le (by decide), hp.levels.trans_le (by decide)⟩
  obtain ⟨depth, hloop, hok, hfit⟩ :=
    Depth.loop_spec (d := { book := ib }) hr hs ht (Depth.Ok.start hmake) events hrefs
  rw [Nat.zero_add] at hok
  refine ⟨⟨(lo, hi), events.foldl Timing.event {}, all, exec,
    (events.foldl Timing.event {}).gaps.countP (· < 1000),
    (events.foldl Timing.event {}).gaps.countP (· < 10000), depth⟩, ?_, ?_, ?_, ?_, ?_, ?_,
    ?_, hok, ?_⟩
  · simp only [tapeStat, Tape.open_written hlen, bind, Except.bind, pure, Except.pure,
      mapM_some_id, Option.bind_some, hwin, hall, hex, hmake, hloop]
  · exact hcount
  · simp only [hcount]
    exact mix_total events
  · rwa [hgaps] at hallOf
  · rwa [hexec] at hexOf
  · apply List.countP_mono_left
    intro g _ hg
    exact decide_eq_true (UInt64.lt_of_lt_of_le (of_decide_eq_true hg) (by decide))
  · rw [hgaps]
    exact List.countP_le_length.trans_eq (List.length_map ..)
  · intro hfits
    obtain ⟨hsum, hmax⟩ := hfit MapBook.empty ha hp hfits
    exact ⟨hsum.trans (Nat.zero_add _), hmax⟩

/-- Two orders of which one is executed and deleted, at a time before its execution, and the
other executed. -/
theorem tapeStat_accounts_gaps :
    let ranks : Ranks := ⟨fun _ => 0, fun n => n - 1, fun _ => 0, fun n => n / 2, fun n => n - 1,
      by omega, by omega⟩
    let events : List BookEvent := [⟨1, 1, 0, 100, 5, .add, .buy⟩, ⟨4, 2, 0, 300, 5, .add, .sell⟩,
      ⟨4, 1, 0, 100, 2, .execute, .buy⟩, ⟨3, 1, 0, 100, 3, .delete, .buy⟩,
      ⟨10, 2, 0, 300, 5, .execute, .sell⟩]
    ∃ r, tapeStat ranks "s" (some (tapeFile 7 3 events)) = .ok (some r) ∧
      r.timing.perType .execute = 2 ∧ r.all.Of ranks [3, 0, 7] ∧ r.exec.Of ranks [0, 7] ∧
      r.depth.sumLevels = 6 ∧ r.depth.maxLevels = 2 := by
  intro ranks events
  obtain ⟨r, hrun, hmix, -, hall, hexec, -, -, -, hfit⟩ := tapeStat_accounts ranks "s" 7 3 events
    (by decide) (by simp [events, BookEvent.op, Op.refs])
  have hgaps : (steps events).map gap = [3, 0, 7] := by decide
  have hgapsExec : ((steps events).filter fun s => s.2.type = .execute).map gap = [0, 7] := by
    decide
  obtain ⟨hsum, hmax⟩ := hfit (by decide +kernel)
  exact ⟨r, hrun, hmix .execute, hgaps ▸ hall, hgapsExec ▸ hexec, hsum.trans (by decide +kernel),
    hmax.trans (by decide +kernel)⟩

end TapeStat

end Hotpath.Tools
