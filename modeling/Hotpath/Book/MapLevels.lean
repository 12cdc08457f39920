import Hotpath.Book.HybridBest

/-!
# The two views of the map book

The reference book keeps its orders twice: by reference, and summed by price. On
a run that puts in no reference that is still live, the second is the sum of the
first after every operation.
-/

namespace Hotpath.Book.MapBook
open Hotpath.Support

/-! ### The orders at a price -/

/-- The records at a side and price. -/
def resting (m : MapBook) (s : Side) (p : Price) : List Rec :=
  (m.orders.toList.map Prod.snd).filter fun r => r.side = s ∧ r.px = p

/-- What is left of them. -/
def shares (m : MapBook) (s : Side) (p : Price) : ℕ :=
  ((m.resting s p).map fun r => r.qty.toNat).sum

def one (s : Side) (p : Price) (r : Rec) : ℕ := if r.side = s ∧ r.px = p then 1 else 0
def left (s : Side) (p : Price) (r : Rec) : ℕ := if r.side = s ∧ r.px = p then r.qty.toNat else 0

theorem sum_filter {A : Type} (q : A → Bool) (f : A → ℕ) (l : List A) :
    ((l.filter q).map f).sum = (l.map fun x => if q x then f x else 0).sum := by
  induction l with
  | nil => rfl
  | cons x l ih =>
    rw [List.filter_cons, List.map_cons, List.sum_cons]
    split
    · rw [List.map_cons, List.sum_cons, ih]
    · rw [ih, Nat.zero_add]

theorem shares_eq (m : MapBook) (s : Side) (p : Price) :
    m.shares s p = weigh (fun _ r => left s p r) m.orders := by
  rw [shares, resting, sum_filter, List.map_map]
  simp only [decide_eq_true_eq]
  rfl

theorem resting_length (m : MapBook) (s : Side) (p : Price) :
    (m.resting s p).length = weigh (fun _ r => one s p r) m.orders := by
  have hlen : (m.resting s p).length = ((m.resting s p).map fun _ => 1).sum := by
    rw [List.map_const', List.sum_replicate, smul_eq_mul, Nat.mul_one]
  rw [hlen, resting, sum_filter, List.map_map]
  simp only [decide_eq_true_eq]
  rfl

/-- The aggregate of what is there. -/
def summed (m : MapBook) (s : Side) (p : Price) : Option Agg :=
  if m.resting s p = [] then none
  else some ⟨UInt32.ofNat (m.shares s p), UInt32.ofNat (m.resting s p).length⟩

/-- The levels are the aggregates of the orders. -/
def Booked (m : MapBook) : Prop := ∀ s p, m.level s p = m.summed s p

/-- No price holds more orders than a level counts. -/
def Roomy (m : MapBook) : Prop := ∀ s p, (m.resting s p).length < 2 ^ 32

variable {m m' : MapBook} {r : Rec} {ref : OrderId} {s : Side} {p : Price} {qty : Qty}

theorem summed_getD (m : MapBook) (s : Side) (p : Price) : (m.summed s p).getD {} =
    ⟨UInt32.ofNat (m.shares s p), UInt32.ofNat (m.resting s p).length⟩ := by
  unfold summed
  split
  · rename_i h
    rw [shares, h]
    rfl
  · rfl

theorem summed_some (h : (m.resting s p).length ≠ 0) : m.summed s p =
    some ⟨UInt32.ofNat (m.shares s p), UInt32.ofNat (m.resting s p).length⟩ :=
  if_neg fun he => h (by rw [he]; rfl)

theorem summed_congr (hc : (m'.resting s p).length = (m.resting s p).length)
    (hs : m'.shares s p = m.shares s p) : m'.summed s p = m.summed s p := by
  simp only [summed, ← List.length_eq_zero_iff, hc, hs]

/-! ### One operation -/

/-- An order's level and record lose it. -/
def pull (m : MapBook) (ref : OrderId) (r : Rec) : MapBook :=
  { m.detach r r.qty with orders := (m.detach r r.qty).orders.erase ref }

theorem orders_pull (m : MapBook) (ref : OrderId) (r : Rec) :
    (m.pull ref r).orders = m.orders.erase ref :=
  congrArg (fun o => o.erase ref) (orders_detach m r r.qty)

/-- All that an order has left is taken. -/
theorem reduce_all (hr : m.orders[ref]? = some r) (hge : ¬qty < r.qty) :
    m.reduce ref qty = m.pull ref r := by
  simp only [MapBook.reduce, hr, if_neg hge, if_true]
  rfl

/-- An order comes in under a reference that names none. -/
theorem Booked.add (h : m.Booked) (hq : qty ≠ 0) (hnew : m.orders[ref]? = none) :
    (m.add ref s p qty).Booked := by
  have horders := orders_add m ref s p hq
  have hcount : ∀ s' p', ((m.add ref s p qty).resting s' p').length =
      one s' p' ⟨p, qty, s⟩ + (m.resting s' p').length := fun s' p' => by
    rw [resting_length, resting_length, horders, weigh_insert_new hnew]
  have hshares : ∀ s' p', (m.add ref s p qty).shares s' p' =
      left s' p' ⟨p, qty, s⟩ + m.shares s' p' := fun s' p' => by
    rw [shares_eq, shares_eq, horders, weigh_insert_new hnew]
  intro s' p'
  rw [level_add m ref s p hq]
  have hc := hcount s' p'
  have hs := hshares s' p'
  by_cases hsp : s' = s ∧ p' = p
  · obtain ⟨rfl, rfl⟩ := hsp
    rw [one, if_pos ⟨rfl, rfl⟩] at hc
    rw [left, if_pos ⟨rfl, rfl⟩] at hs
    rw [if_pos ⟨rfl, rfl⟩, h, summed_getD, summed_some (by omega), hc, hs, HybridBook.ofNat_add_qty,
      Nat.add_comm qty.toNat, Nat.add_comm 1, UInt32.ofNat_add (m.resting s' p').length]
    rfl
  · have hsp' : ¬(s = s' ∧ p = p') := fun he => hsp ⟨he.1.symm, he.2.symm⟩
    rw [one, if_neg hsp', Nat.zero_add] at hc
    rw [left, if_neg hsp', Nat.zero_add] at hs
    rw [if_neg hsp, h, summed_congr hc hs]

/-- An order goes out with all it has left. -/
theorem Booked.pull (h : m.Booked) (hroom : m.Roomy) (hr : m.orders[ref]? = some r) :
    (m.pull ref r).Booked := by
  have hcount : ∀ s' p', (m.resting s' p').length =
      one s' p' r + ((m.pull ref r).resting s' p').length := fun s' p' => by
    rw [resting_length, resting_length, orders_pull, weigh_erase hr]
  have hshares : ∀ s' p', m.shares s' p' = left s' p' r + (m.pull ref r).shares s' p' :=
    fun s' p' => by
      rw [shares_eq, shares_eq, orders_pull, weigh_erase hr]
  intro s' p'
  have hlevel : ∀ agg, m.level r.side r.px = some agg → (m.pull ref r).level s' p' =
      if s' = r.side ∧ p' = r.px
      then (if agg.orders - 1 = 0 then none else some ⟨agg.qty - r.qty, agg.orders - 1⟩)
      else m.level s' p' := fun agg ha => by
    rw [← level_detach ha]
    cases s' <;> rfl
  have hown := hcount r.side r.px
  rw [one, if_pos ⟨rfl, rfl⟩] at hown
  rw [hlevel _ ((h r.side r.px).trans (summed_some (by omega)))]
  have hc := hcount s' p'
  have hs := hshares s' p'
  generalize m.pull ref r = m' at *
  by_cases hsp : s' = r.side ∧ p' = r.px
  · obtain ⟨rfl, rfl⟩ := hsp
    rw [one, if_pos ⟨rfl, rfl⟩] at hc
    rw [left, if_pos ⟨rfl, rfl⟩] at hs
    have hlast : UInt32.ofNat (1 + (m'.resting r.side r.px).length) - 1 =
        UInt32.ofNat (m'.resting r.side r.px).length := by
      rw [Nat.add_comm 1]
      exact HybridBook.ofNat_sub_qty _ 1
    have hzero : UInt32.ofNat (m'.resting r.side r.px).length = 0 ↔ m'.resting r.side r.px = [] := by
      have hlt := hroom r.side r.px
      rw [← UInt32.toNat_inj, UInt32.toNat_ofNat', Nat.mod_eq_of_lt (by omega),
        ← List.length_eq_zero_iff]
      rfl
    rw [if_pos ⟨rfl, rfl⟩, hc, hs, hlast, Nat.add_comm r.qty.toNat, HybridBook.ofNat_sub_qty, summed]
    simp only [hzero]
  · have hsp' : ¬(r.side = s' ∧ r.px = p') := fun he => hsp ⟨he.1.symm, he.2.symm⟩
    rw [one, if_neg hsp', Nat.zero_add] at hc
    rw [left, if_neg hsp', Nat.zero_add] at hs
    rw [if_neg hsp, h, summed_congr hc hs]

/-- An order gives up part of what it has left. -/
theorem Booked.cut (h : m.Booked) (hr : m.orders[ref]? = some r) (hlt : qty < r.qty) :
    (m.reduce ref qty).Booked := by
  obtain ⟨px, q, side⟩ := r
  obtain ⟨horders, hlevel⟩ := HybridBook.level_reduce hr hlt
  have hcount : ∀ s' p', ((m.reduce ref qty).resting s' p').length = (m.resting s' p').length :=
    fun s' p' => by
      have hw := weigh_insert_old (w := fun _ r => one s' p' r) (v := ⟨px, q - qty, side⟩) hr
      rw [resting_length, resting_length, horders]
      have hone : one s' p' ⟨px, q - qty, side⟩ = one s' p' ⟨px, q, side⟩ := rfl
      omega
  have hshares : ∀ s' p', (m.reduce ref qty).shares s' p' + left s' p' ⟨px, q, side⟩ =
      left s' p' ⟨px, q - qty, side⟩ + m.shares s' p' := fun s' p' => by
    rw [shares_eq, shares_eq, horders]
    exact weigh_insert_old hr
  have hown : 0 < (m.resting side px).length := by
    rw [resting_length, weigh_erase hr]
    rw [one, if_pos ⟨rfl, rfl⟩]
    omega
  intro s' p'
  rw [hlevel _ ((h side px).trans (summed_some (by omega)))]
  have hc := hcount s' p'
  have hs := hshares s' p'
  by_cases hsp : s' = side ∧ p' = px
  · obtain ⟨rfl, rfl⟩ := hsp
    rw [left, left, if_pos ⟨rfl, rfl⟩, if_pos ⟨rfl, rfl⟩] at hs
    have hle : qty.toNat ≤ q.toNat := Nat.le_of_lt (UInt32.lt_iff_toNat_lt.mp hlt)
    have hsub : (q - qty).toNat = q.toNat - qty.toNat := UInt32.toNat_sub_of_le _ _
      (UInt32.le_iff_toNat_le.mpr hle)
    dsimp only at hs
    have htotal : m.shares s' p' = (m.reduce ref qty).shares s' p' + qty.toNat := by omega
    rw [if_pos ⟨rfl, rfl⟩, summed_some (by omega), hc, htotal, HybridBook.ofNat_sub_qty]
  · have hsp' : ¬(side = s' ∧ px = p') := fun he => hsp ⟨he.1.symm, he.2.symm⟩
    rw [left, left, if_neg hsp', if_neg hsp', Nat.add_zero, Nat.zero_add] at hs
    rw [if_neg hsp, h, summed_congr hc hs]

/-! ### Runs -/

/-- The operation puts in no reference that is still live. -/
def Fresh (m : MapBook) : Op → Prop
  | .add ref _ _ qty => qty = 0 ∨ m.orders[ref]? = none
  | .replace oldRef newRef _ qty =>
    m.orders[oldRef]? = none ∨ qty = 0 ∨ newRef = oldRef ∨ m.orders[newRef]? = none
  | _ => True

theorem Booked.insert (h : m.Booked) (hf : qty = 0 ∨ m.orders[ref]? = none) :
    (m.add ref s p qty).Booked := by
  by_cases hq : qty = 0
  · rw [MapBook.add, if_pos hq]
    exact h
  · exact h.add hq (hf.resolve_left hq)

theorem Booked.reduce (h : m.Booked) (hroom : m.Roomy) (ref : OrderId) (qty : Qty) :
    (m.reduce ref qty).Booked := by
  cases hr : m.orders[ref]? with
  | none =>
    rw [MapBook.reduce, hr]
    exact h
  | some r =>
    by_cases hlt : qty < r.qty
    · exact h.cut hr hlt
    · rw [reduce_all hr hlt]
      exact h.pull hroom hr

theorem Booked.step (h : m.Booked) (hroom : m.Roomy) {op : Op} (hf : m.Fresh op) :
    (m.step op).Booked := by
  cases op with
  | add ref side px qty => exact h.insert hf
  | execute ref qty => exact h.reduce hroom ref qty
  | cancel ref qty => exact h.reduce hroom ref qty
  | remove ref =>
    cases hr : m.orders[ref]? with
    | none =>
      simp only [MapBook.step, MapBook.remove, hr]
      exact h
    | some r =>
      simp only [MapBook.step, MapBook.remove, hr]
      exact h.pull hroom hr
  | replace oldRef newRef px qty =>
    cases hr : m.orders[oldRef]? with
    | none =>
      simp only [MapBook.step, MapBook.replace, hr]
      exact h
    | some r =>
      simp only [MapBook.step, MapBook.replace, hr]
      apply Booked.insert (h.pull hroom hr)
      rcases hf with hnone | hq | hsame | hnew
      · rw [hr] at hnone
        cases hnone
      · exact .inl hq
      · right
        rw [orders_pull, getElem?_erase_if, if_pos hsame]
      · right
        rw [orders_pull, getElem?_erase_if]
        split
        · rfl
        · exact hnew
  | clear =>
    intro s p
    cases s <;> rfl

theorem Booked.replay (h : m.Booked) (ops : List Op)
    (hf : ∀ n op, ops[n]? = some op → (m.replay (ops.take n)).Fresh op)
    (hroom : ∀ n, (m.replay (ops.take n)).Roomy) : (m.replay ops).Booked := by
  induction ops generalizing m with
  | nil => exact h
  | cons op ops ih =>
    have hstep := h.step (hroom 0) (hf 0 op rfl)
    exact ih hstep (fun n x hx => hf (n + 1) x hx) (fun n => hroom (n + 1))

/-! ### The reference book's views -/

/-- The price's view, from the orders there. -/
def restingView (m : MapBook) (s : Side) (p : Price) : LevelView :=
  ⟨p, UInt32.ofNat (m.shares s p), UInt32.ofNat (m.resting s p).length⟩

/-- What the levels and the snapshot say of the orders. -/
structure Truthful (m : MapBook) : Prop where
  /-- There is a level where there are orders. -/
  exists_iff : ∀ s p, m.level s p ≠ none ↔ m.resting s p ≠ []
  orders : ∀ s p agg, m.level s p = some agg → agg.orders.toNat = (m.resting s p).length
  qty : ∀ s p agg, m.level s p = some agg → agg.qty.toNat = m.shares s p % 2 ^ 32
  /-- The best ten of the prices with orders, with their sums. -/
  snapshot : ∀ s, ∃ prices : List Price,
    prices.Pairwise (fun p q => HybridBook.better s p q = true) ∧
    (∀ p, p ∈ prices ↔ m.resting s p ≠ []) ∧
    HybridBook.ladder m.snapshot s = (prices.take kSnapshotDepth).map (m.restingView s)

/-- The total is exact where it fits. -/
theorem Truthful.exact (h : m.Truthful) {agg : Agg} (ha : m.level s p = some agg)
    (hlt : m.shares s p < 2 ^ 32) : agg.qty.toNat = m.shares s p := by
  rw [h.qty s p agg ha, Nat.mod_eq_of_lt hlt]

theorem Booked.some (h : m.Booked) {agg : Agg} (ha : m.level s p = some agg) :
    m.resting s p ≠ [] ∧ agg = ⟨UInt32.ofNat (m.shares s p), UInt32.ofNat (m.resting s p).length⟩ := by
  rw [h, summed] at ha
  split at ha
  · cases ha
  · rename_i hne
    exact ⟨hne, (Option.some.inj ha).symm⟩

/-- A side's entries, in its order, viewed. -/
theorem Booked.views (h : m.Booked) {l : List (Price × Agg)}
    (hl : ∀ x ∈ l, m.level s x.1 = Option.some x.2) (n : ℕ) :
    (l.take n).map view = ((l.map Prod.fst).take n).map (m.restingView s) := by
  rw [← List.map_take, List.map_map]
  apply List.map_congr_left
  intro x hx
  obtain ⟨-, hagg⟩ := h.some (hl x (List.mem_of_mem_take hx))
  show LevelView.mk x.1 x.2.qty x.2.orders = _
  rw [hagg]
  rfl

theorem Booked.truthful (h : m.Booked) (hroom : m.Roomy) : m.Truthful := by
  have hexists : ∀ s p, m.level s p ≠ none ↔ m.resting s p ≠ [] := by
    intro s p
    rw [h, summed]
    split
    · rename_i hnil
      exact ⟨fun hc => absurd rfl hc, fun hc => absurd hnil hc⟩
    · rename_i hne
      exact ⟨fun _ => hne, fun _ => Option.some_ne_none _⟩
  constructor
  case exists_iff => exact hexists
  case orders =>
    intro s p agg ha
    rw [(h.some ha).2, UInt32.toNat_ofNat', Nat.mod_eq_of_lt (hroom s p)]
  case qty =>
    intro s p agg ha
    rw [(h.some ha).2, UInt32.toNat_ofNat']
  case snapshot =>
    intro s
    cases s with
    | buy =>
      refine ⟨m.bids.toList.map Prod.fst, HybridBook.bids_sorted m.bids, ?_, ?_⟩
      · intro p
        rw [← hexists, Std.TreeMap.map_fst_toList_eq_keys, Std.TreeMap.mem_keys,
          Std.TreeMap.mem_iff_isSome_getElem?, Option.isSome_iff_ne_none]
        rfl
      · exact h.views (s := .buy) (l := m.bids.toList)
          (fun x hx => Std.TreeMap.mem_toList_iff_getElem?_eq_some.mp hx) _
    | sell =>
      refine ⟨m.asks.toList.map Prod.fst,
        List.pairwise_map.mpr (HybridBook.asks_sorted m.asks), ?_, ?_⟩
      · intro p
        rw [← hexists, Std.TreeMap.map_fst_toList_eq_keys, Std.TreeMap.mem_keys,
          Std.TreeMap.mem_iff_isSome_getElem?, Option.isSome_iff_ne_none]
        rfl
      · exact h.views (s := .sell) (l := m.asks.toList)
          (fun x hx => Std.TreeMap.mem_toList_iff_getElem?_eq_some.mp hx) _

/-- On every run that puts in no reference still live and no more orders at a price
than a level counts, the levels and the snapshot are true after every operation. -/
theorem levels_truthful (ops : List Op)
    (hf : ∀ (n : ℕ) op, ops[n]? = some op → (empty.replay (ops.take n)).Fresh op)
    (hroom : ∀ n, (empty.replay (ops.take n)).Roomy) (n : ℕ) :
    (empty.replay (ops.take n)).Truthful := by
  have hstart : empty.Booked := by
    intro s p
    cases s <;> rfl
  have hbooked : (empty.replay (ops.take n)).Booked := by
    apply hstart.replay
    · intro k op hop
      have hk : k < n := by
        by_contra hge
        rw [List.getElem?_take, if_neg hge] at hop
        cases hop
      rw [List.getElem?_take, if_pos hk] at hop
      rw [List.take_take, Nat.min_eq_left (Nat.le_of_lt hk)]
      exact hf k op hop
    · intro k
      rw [List.take_take]
      exact hroom _
  exact hbooked.truthful (hroom n)

theorem size_add (m : MapBook) (ref : OrderId) (s : Side) (p : Price) (qty : Qty) :
    (m.add ref s p qty).orders.size ≤ m.orders.size + 1 := by
  by_cases hq : qty = 0
  · rw [MapBook.add, if_pos hq]
    exact Nat.le_succ _
  · rw [orders_add m ref s p hq]
    exact Std.TreeMap.size_insert_le

theorem size_reduce (m : MapBook) (ref : OrderId) (qty : Qty) :
    (m.reduce ref qty).orders.size ≤ m.orders.size + 1 := by
  cases hr : m.orders[ref]? with
  | none =>
    rw [MapBook.reduce, hr]
    exact Nat.le_succ _
  | some r =>
    by_cases hlt : qty < r.qty
    · rw [(HybridBook.level_reduce hr hlt).1]
      exact Std.TreeMap.size_insert_le
    · simp only [MapBook.reduce, hr, if_neg hlt, if_true, orders_detach]
      exact le_trans Std.TreeMap.size_erase_le (Nat.le_succ _)

/-- An operation puts in at most one order. -/
theorem size_step (m : MapBook) (op : Op) : (m.step op).orders.size ≤ m.orders.size + 1 := by
  cases op with
  | add ref side px qty => exact size_add m ref side px qty
  | execute ref qty => exact size_reduce m ref qty
  | cancel ref qty => exact size_reduce m ref qty
  | remove ref =>
    cases hr : m.orders[ref]? with
    | none =>
      simp only [MapBook.step, MapBook.remove, hr]
      exact Nat.le_succ _
    | some r =>
      simp only [MapBook.step, MapBook.remove, hr, orders_detach]
      exact le_trans Std.TreeMap.size_erase_le (Nat.le_succ _)
  | replace oldRef newRef px qty =>
    cases hr : m.orders[oldRef]? with
    | none =>
      simp only [MapBook.step, MapBook.replace, hr]
      exact Nat.le_succ _
    | some r =>
      simp only [MapBook.step, MapBook.replace, hr]
      apply le_trans (size_add _ _ _ _ _)
      simp only [orders_detach]
      exact Nat.succ_le_succ Std.TreeMap.size_erase_le
  | clear => exact Nat.zero_le _

theorem size_replay (m : MapBook) (ops : List Op) :
    (m.replay ops).orders.size ≤ m.orders.size + ops.length := by
  induction ops generalizing m with
  | nil => exact le_rfl
  | cons op ops ih =>
    have hstep := size_step m op
    have hrest := ih (m.step op)
    show ((m.step op).replay ops).orders.size ≤ m.orders.size + (ops.length + 1)
    omega

/-- A run of fewer than `2^32` operations leaves room at every price. -/
theorem roomy_of_length {ops : List Op} (h : ops.length < 2 ^ 32) (n : ℕ) :
    (empty.replay (ops.take n)).Roomy := by
  intro s p
  have hsize := size_replay empty (ops.take n)
  have hempty : empty.orders.size = 0 := rfl
  have htake : (ops.take n).length ≤ ops.length := List.length_take_le' _ _
  have hle : ((empty.replay (ops.take n)).resting s p).length ≤
      (empty.replay (ops.take n)).orders.size := by
    apply le_trans (List.length_filter_le _ _)
    rw [List.length_map, Std.TreeMap.length_toList]
  omega

theorem levels_truthful_replace : (empty.replay
    ([.add 1 .buy 100 5, .add 2 .buy 100 7, .replace 1 1 200 4, .execute 2 3].take 4)).Truthful := by
  apply levels_truthful
  · intro n op hop
    rcases n with _ | _ | _ | _ | n
    · cases hop
      exact .inr (by decide +kernel)
    · cases hop
      exact .inr (by decide +kernel)
    · cases hop
      exact .inr (.inr (.inl rfl))
    · cases hop
      trivial
    · cases hop
  · exact roomy_of_length (by decide)

/-- A reference put in again while it is live leaves its old level behind. -/
theorem reused_ref_leaves_level :
    ¬∀ ops : List Op, (empty.replay ops).Truthful := by
  intro h
  have ht := h [.add 1 .buy 100 5, .add 1 .buy 200 5]
  have hlevel : (empty.replay [.add 1 .buy 100 5, .add 1 .buy 200 5]).level .buy 100 ≠ none := by
    decide +kernel
  have hnone : (empty.replay [.add 1 .buy 100 5, .add 1 .buy 200 5]).resting .buy 100 = [] := by
    decide +kernel
  exact (ht.exists_iff .buy 100).mp hlevel hnone

end Hotpath.Book.MapBook
