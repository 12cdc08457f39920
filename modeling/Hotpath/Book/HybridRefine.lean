import Hotpath.Book.MapBook
import Hotpath.Book.HybridSnapshot

/-!
# The hybrid book refines the map book

`Agrees b Q m` relates a hybrid book holding the queues `Q` to the reference
book: the same records by reference, and for each price the aggregate of its
queue. Every operation that is not rejected keeps it, and two books that agree
show the same snapshot.
-/

namespace Hotpath.Book
open Hotpath.Support

/-! ### The reference book, price by price -/

namespace MapBook

def level (m : MapBook) (s : Side) (p : Price) : Option Agg :=
  match s with
  | .buy => m.bids[p]?
  | .sell => m.asks[p]?

section Levels
variable {cmp : Price → Price → Ordering} [Std.TransCmp cmp] [Std.LawfulEqCmp cmp]

theorem deposit_get (m : Std.TreeMap Price Agg cmp) (px : Price) (qty : Qty) (q : Price) :
    (deposit m px qty)[q]? =
      if q = px then some ⟨(m[px]?.getD {}).qty + qty, (m[px]?.getD {}).orders + 1⟩ else m[q]? := by
  rw [deposit, getElem?_insert_if]

theorem reduceLevel_get {m : Std.TreeMap Price Agg cmp} {px : Price} {agg : Agg}
    (h : m[px]? = some agg) (qty : Qty) (q : Price) :
    (reduceLevel m px qty)[q]? = if q = px then some { agg with qty := agg.qty - qty } else m[q]? := by
  rw [reduceLevel, h]
  exact getElem?_insert_if ..

theorem detachFrom_get {m : Std.TreeMap Price Agg cmp} {px : Price} {agg : Agg}
    (h : m[px]? = some agg) (qty : Qty) (q : Price) :
    (detachFrom m px qty)[q]? = if q = px
      then (if agg.orders - 1 = 0 then none else some ⟨agg.qty - qty, agg.orders - 1⟩)
      else m[q]? := by
  simp only [detachFrom, h]
  split
  · rw [getElem?_erase_if]
  · rw [getElem?_insert_if]

end Levels

variable {m : MapBook} {r : Rec} {agg : Agg}

theorem level_add (m : MapBook) (ref : OrderId) (s : Side) (p : Price) {qty : Qty} (h : qty ≠ 0)
    (s' : Side) (p' : Price) : (m.add ref s p qty).level s' p' =
      if s' = s ∧ p' = p
      then some ⟨((m.level s p).getD {}).qty + qty, ((m.level s p).getD {}).orders + 1⟩
      else m.level s' p' := by
  rw [add, if_neg h]
  cases s <;> cases s' <;> simp [level, deposit_get]

theorem level_detach (h : m.level r.side r.px = some agg) (qty : Qty) (s' : Side) (p' : Price) :
    (m.detach r qty).level s' p' =
      if s' = r.side ∧ p' = r.px
      then (if agg.orders - 1 = 0 then none else some ⟨agg.qty - qty, agg.orders - 1⟩)
      else m.level s' p' := by
  obtain ⟨px, q, side⟩ := r
  cases side <;> cases s' <;> simp only [detach, level] at * <;>
    simp [detachFrom_get h]

theorem orders_add (m : MapBook) (ref : OrderId) (s : Side) (p : Price) {qty : Qty} (h : qty ≠ 0) :
    (m.add ref s p qty).orders = m.orders.insert ref ⟨p, qty, s⟩ := by
  rw [add, if_neg h]
  cases s <;> rfl

theorem orders_detach (m : MapBook) (r : Rec) (qty : Qty) : (m.detach r qty).orders = m.orders := by
  unfold detach
  cases r.side <;> rfl

end MapBook

namespace HybridBook

variable {b b' : HybridBook} {Q : Queues} {m : MapBook} {s : Side} {p : Price} {ref : OrderId}
  {qty : Qty} {n : ℕ}

/-! ### Agreement -/

def aggOf (b : HybridBook) (q : List ℕ) : Option MapBook.Agg :=
  if q = [] then none else some ⟨UInt32.ofNat (b.total q), UInt32.ofNat q.length⟩

structure Agrees (b : HybridBook) (Q : Queues) (m : MapBook) : Prop where
  records : ∀ ref ≠ OpenHashMap.kEmpty, ∀ r, m.orders[ref]? = some r ↔
    ∃ n : ℕ, OpenHashMap.lookup b.ids ref = some (n : ℤ) ∧ n ∈ Q r.side r.px ∧
      (b.ord n).qty = r.qty
  size : m.orders.size = b.ids.size
  levels : ∀ s p, m.level s p = b.aggOf (Q s p)

theorem aggOf_getD (q : List ℕ) : (b.aggOf q).getD {} =
    ⟨UInt32.ofNat (b.total q), UInt32.ofNat q.length⟩ := by
  unfold aggOf
  split
  · rename_i h
    rw [h]
    rfl
  · rfl

theorem aggOf_data {q : List ℕ} (h : ∀ o ∈ q, (b'.ord o).data = (b.ord o).data) :
    b'.aggOf q = b.aggOf q := by
  rw [aggOf, aggOf, total_data h]

theorem Agrees.record (ha : Agrees b Q m) (href : ref ≠ OpenHashMap.kEmpty)
    (hl : OpenHashMap.lookup b.ids ref = some (n : ℤ)) (hn : n ∈ Q s p) :
    m.orders[ref]? = some ⟨p, (b.ord n).qty, s⟩ :=
  (ha.records ref href _).mpr ⟨n, hl, hn, rfl⟩

theorem Agrees.no_record (ha : Agrees b Q m) (href : ref ≠ OpenHashMap.kEmpty)
    (hl : OpenHashMap.lookup b.ids ref = none) : m.orders[ref]? = none := by
  apply Option.eq_none_iff_forall_ne_some.mpr
  intro r hr
  obtain ⟨n, h, -⟩ := (ha.records ref href r).mp hr
  rw [hl] at h
  cases h

theorem Agrees.push (ha : Agrees b Q m) (hr : Rep b Q) (href : ref ≠ OpenHashMap.kEmpty)
    (hqty : qty ≠ 0) (hfresh : ∀ s' p', n ∉ Q s' p') (hp : Pushed b b' n ref s p qty)
    (hrej : b'.rejected = b.rejected) :
    Agrees b' (set2 Q s p (Q s p ++ [n])) (m.add ref s p qty) := by
  have hold : ∀ s' p', ∀ o ∈ Q s' p', (b'.ord o).data = (b.ord o).data :=
    fun s' p' o ho => hp.others o fun he => hfresh s' p' (he ▸ ho)
  have hqn : (b'.ord n).qty = qty := by
    have hd := hp.data
    simp only [Order.data, Prod.mk.injEq] at hd
    exact hd.2.2.1
  rcases hp.table_cases hr.table href with ⟨h, -⟩ | ⟨-, -, hlook, hsize⟩
  · omega
  · refine ⟨fun k hk r => ?_, ?_, fun s' p' => ?_⟩
    · rw [MapBook.orders_add _ _ _ _ hqty, getElem?_insert_if, hlook k hk]
      by_cases hkr : k = ref
      · rw [if_pos hkr, if_pos hkr]
        constructor
        · rintro he
          obtain rfl := Option.some.inj he
          refine ⟨n, rfl, ?_, hqn⟩
          rw [set2_same]
          exact List.mem_append_right _ (List.mem_singleton_self n)
        · rintro ⟨n', hn', hmem, hq⟩
          obtain rfl : n = n' := by exact_mod_cast Option.some.inj hn'
          by_cases hsp : r.side = s ∧ r.px = p
          · rw [← hsp.1, ← hsp.2, ← hqn, hq]
          · rw [set2_other hsp] at hmem
            exact absurd hmem (hfresh _ _)
      · rw [if_neg hkr, if_neg hkr, ha.records k hk r]
        refine exists_congr fun n' => and_congr_right fun hl => ?_
        obtain ⟨n2, s2, p2, hn2, hmem2, -⟩ := hr.named k hk _ hl
        obtain rfl : n' = n2 := by exact_mod_cast hn2
        have hne : n' ≠ n := fun he => hfresh s2 p2 (he ▸ hmem2)
        rw [Order.qty_of_data (hp.others n' hne)]
        refine and_congr_left fun _ => ?_
        unfold set2
        split
        · rename_i hsp
          rw [hsp.1, hsp.2, List.mem_append, List.mem_singleton]
          exact ⟨Or.inl, fun h => h.resolve_right hne⟩
        · rfl
    · rw [MapBook.orders_add _ _ _ _ hqty, size_insert_if, ha.size]
      rcases hsize with ⟨hsome, hs⟩ | ⟨hnone, hs⟩
      · rw [hs, if_pos]
        cases hl : OpenHashMap.lookup b.ids ref with
        | none => exact absurd hl hsome
        | some i =>
          obtain ⟨n', s', p', rfl, hmem, -⟩ := hr.named ref href i hl
          rw [ha.record href hl hmem]
          rfl
      · rw [hs, ha.no_record href hnone]
        rfl
    · rw [MapBook.level_add _ _ _ _ hqty]
      unfold set2
      split
      · have htotal : b'.total (Q s p ++ [n]) = b.total (Q s p) + qty.toNat := by
          rw [total_append, total_data (hold s p), total_cons, hqn]
          rfl
        rw [ha.levels s p, aggOf_getD, aggOf, if_neg (by simp), htotal, List.length_append,
          ← ofNat_add_qty, UInt32.ofNat_add (Q s p).length]
        rfl
      · rw [ha.levels, aggOf_data (hold s' p')]

theorem Agrees.pull (ha : Agrees b Q m) (hr : Rep b Q) (href : ref ≠ OpenHashMap.kEmpty)
    (hl : OpenHashMap.lookup b.ids ref = some (n : ℤ)) {l r : List ℕ} (hq : Q s p = l ++ n :: r)
    (hp : Pulled b b' ref s p (l ++ r = [])) :
    Agrees b' (set2 Q s p (l ++ r)) { m.detach ⟨p, (b.ord n).qty, s⟩ (b.ord n).qty with
      orders := m.orders.erase ref } := by
  have hmem : n ∈ Q s p := by simp [hq]
  have hrec := ha.record href hl hmem
  have hnd := hr.nodup s p
  rw [hq] at hnd
  have hnotin : n ∉ l ++ r := fun h => ne_of_nodup hnd h rfl
  refine ⟨fun k hk rc => ?_, ?_, fun s' p' => ?_⟩
  · show (m.orders.erase ref)[k]? = some rc ↔ _
    rw [getElem?_erase_if, hp.ids k hk]
    by_cases hkr : k = ref
    · rw [if_pos hkr, if_pos hkr]
      simp
    · rw [if_neg hkr, if_neg hkr, ha.records k hk rc]
      refine exists_congr fun n' => and_congr_right fun hlk => ?_
      obtain ⟨n2, s2, p2, hn2, hmem2, hid2⟩ := hr.named k hk _ hlk
      obtain rfl : n' = n2 := by exact_mod_cast hn2
      obtain ⟨n3, -, -, hn3, -, hid3⟩ := hr.named ref href _ hl
      obtain rfl : n = n3 := by exact_mod_cast hn3
      have hne : n' ≠ n := fun he => hkr (by rw [← hid2, he, hid3])
      rw [Order.qty_of_data (hp.data n')]
      refine and_congr_left fun _ => ?_
      unfold set2
      split
      · rename_i hsp
        rw [hsp.1, hsp.2, hq, List.mem_append, List.mem_append, List.mem_cons]
        exact ⟨fun h => h.imp_right fun h => h.resolve_left hne, fun h => h.imp_right Or.inr⟩
      · rfl
  · show (m.orders.erase ref).size = _
    rw [size_erase_if, hrec, ha.size, ← hp.size]
    rfl
  · have hagg : m.level s p = some ⟨UInt32.ofNat (b.total (Q s p)), UInt32.ofNat (Q s p).length⟩ := by
      rw [ha.levels, aggOf, if_neg (List.ne_nil_of_mem hmem)]
    have hdet := MapBook.level_detach (r := ⟨p, (b.ord n).qty, s⟩) hagg (b.ord n).qty s' p'
    have hlen : (Q s p).length = (l ++ r).length + 1 := by
      rw [hq]
      simp only [List.length_append, List.length_cons]
      omega
    have hcount := ofNat_pred (hr.length_lt s p).le (by omega)
    have hsum : b.total (Q s p) = b.total (l ++ r) + (b.ord n).qty.toNat := by
      rw [hq, total_append, total_cons, total_append]
      omega
    show (m.detach ⟨p, (b.ord n).qty, s⟩ (b.ord n).qty).level s' p' = _
    rw [hdet]
    unfold set2
    split
    · rw [aggOf, total_data fun o _ => hp.data o]
      dsimp only
      by_cases he : l ++ r = []
      · rw [if_pos he, if_pos (hcount.2.mpr (by rw [hlen, he]; rfl))]
      · have hlen0 : (l ++ r).length ≠ 0 := fun h => he (List.length_eq_zero_iff.mp h)
        rw [if_neg he, if_neg (fun h => hlen0 (by have := hcount.2.mp h; omega)), hsum,
          ofNat_sub_qty, hcount.1, hlen, Nat.add_sub_cancel]
    · rw [ha.levels, aggOf_data fun o _ => hp.data o]

theorem Agrees.cut (ha : Agrees b Q m) (hr : Rep b Q) (href : ref ≠ OpenHashMap.kEmpty)
    (hl : OpenHashMap.lookup b.ids ref = some (n : ℤ)) (hm : n ∈ Q s p)
    (hid : (b.ord n).id = ref) {take : Qty} (htake : take < (b.ord n).qty)
    (hc : Cut b b' n take) {m' : MapBook}
    (hm' : m'.orders = m.orders.insert ref ⟨p, (b.ord n).qty - take, s⟩)
    (hlev : ∀ s' p', m'.level s' p' = if s' = s ∧ p' = p
      then (m.level s p).map fun agg => { agg with qty := agg.qty - take } else m.level s' p') :
    Agrees b' Q m' := by
  have hrec := ha.record href hl hm
  refine ⟨fun k hk rc => ?_, ?_, fun s' p' => ?_⟩
  · rw [hm', getElem?_insert_if, hc.ids]
    by_cases hkr : k = ref
    · rw [if_pos hkr, hkr, hl]
      constructor
      · intro he
        obtain rfl := Option.some.inj he
        exact ⟨n, rfl, hm, by rw [hc.ord]⟩
      · rintro ⟨n', hn', hmem, hq⟩
        obtain rfl : n = n' := by exact_mod_cast Option.some.inj hn'
        obtain ⟨h1, h2⟩ := hr.queue_unique hm hmem
        have hq' : (b.ord n).qty - take = rc.qty := by
          rw [← hq, hc.ord]
        rw [← h1, ← h2, hq']
    · rw [if_neg hkr, ha.records k hk rc]
      refine exists_congr fun n' => and_congr_right fun hlk => ?_
      obtain ⟨n2, -, -, hn2, -, hid2⟩ := hr.named k hk _ hlk
      obtain rfl : n' = n2 := by exact_mod_cast hn2
      have hne : n' ≠ n := fun he => hkr (by rw [← hid2, he, hid])
      rw [hc.others n' hne]
  · rw [hm', size_insert_if, hrec, hc.ids, ← ha.size]
    rfl
  · rw [hlev]
    split
    · rename_i hsp
      have htake' := UInt32.lt_iff_toNat_lt.mp htake
      rw [hsp.1, hsp.2, ha.levels, aggOf, aggOf, if_neg (List.ne_nil_of_mem hm),
        if_neg (List.ne_nil_of_mem hm), total_cut hm (hr.nodup s p) hc.ord hc.others htake', Option.map_some,
        ofNat_sub_qty]
    · rename_i hsp
      rw [ha.levels]
      have hsame : ∀ o ∈ Q s' p', b'.ord o = b.ord o := fun o ho =>
        hc.others o fun he => hsp (hr.queue_unique hm (he ▸ ho))
      rw [aggOf, aggOf, total_congr hsame]

/-! ### Steps -/

theorem level_reduce {px : Price} {q : Qty} (hrec : m.orders[ref]? = some ⟨px, q, s⟩)
    (hlt : qty < q) :
    (m.reduce ref qty).orders = m.orders.insert ref ⟨px, q - qty, s⟩ ∧
    ∀ agg, m.level s px = some agg → ∀ s' p', (m.reduce ref qty).level s' p' =
      if s' = s ∧ p' = px then some { agg with qty := agg.qty - qty } else m.level s' p' := by
  have hne : ¬qty = q := fun he => UInt32.lt_irrefl q (he ▸ hlt)
  cases s <;> simp only [MapBook.reduce, hrec, if_pos hlt, if_neg hne, true_and] <;>
    intro agg hagg s' p' <;> cases s' <;> simp only [MapBook.level] at * <;>
    simp [MapBook.reduceLevel_get hagg]

/-- A rejection count only grows, so a run that ends at zero never rejected. -/
theorem Rep.add_sim (hr : Rep b Q) (href : ref ≠ OpenHashMap.kEmpty) (s : Side) (p : Price)
    (qty : Qty) (h : b.add ref s p qty = some b') :
    b.rejected ≤ b'.rejected ∧ ∃ Q', Rep b' Q' ∧
      ∀ m, Agrees b Q m → b'.rejected = b.rejected → Agrees b' Q' (m.add ref s p qty) := by
  by_cases hqty : qty = 0
  · rw [hqty, add_zero] at h
    obtain rfl := Option.some.inj h
    refine ⟨le_rfl, Q, hr, fun m ha _ => ?_⟩
    rw [MapBook.add, if_pos hqty]
    exact ha
  · rcases hr.add_cases href s p hqty with ⟨-, h'⟩ | ⟨-, h'⟩ | ⟨n, b1, h', hr', hfresh, hp⟩
    · rw [h'] at h
      cases h
    · rw [h'] at h
      obtain rfl := Option.some.inj h
      exact ⟨Nat.le_succ _, Q, hr.reject _, fun m _ h0 => absurd h0 (Nat.succ_ne_self _)⟩
    · rw [h'] at h
      obtain rfl := Option.some.inj h
      refine ⟨?_, _, hr', fun m ha hrej => ha.push hr href hqty hfresh hp hrej⟩
      rcases hp.table with ⟨-, h⟩ | ⟨-, h⟩ <;> omega

theorem Rep.reduce_sim (hr : Rep b Q) (href : ref ≠ OpenHashMap.kEmpty) (qty : Qty)
    (h : b.reduce ref qty = some b') :
    b'.rejected = b.rejected ∧ ∃ Q', Rep b' Q' ∧
      ∀ m, Agrees b Q m → Agrees b' Q' (m.reduce ref qty) := by
  rcases hr.reduce_cases href qty with ⟨hl, h'⟩ | ⟨n, s, p, l, r, hl, hq, hid, -, hcase⟩
  · rw [h'] at h
    obtain rfl := Option.some.inj h
    refine ⟨rfl, Q, hr, fun m ha => ?_⟩
    rw [MapBook.reduce, ha.no_record href hl]
    exact ha
  · have hmem : n ∈ Q s p := by simp [hq]
    rcases hcase with ⟨hge, b1, h', hr', hp⟩ | ⟨hlt, b1, h', hr', hc⟩
    · rw [h'] at h
      obtain rfl := Option.some.inj h
      refine ⟨hp.rejected, _, hr', fun m ha => ?_⟩
      simp only [MapBook.reduce, ha.record href hl hmem, if_neg hge, if_true,
        MapBook.orders_detach]
      exact ha.pull hr href hl hq hp
    · rw [h'] at h
      obtain rfl := Option.some.inj h
      refine ⟨hc.rejected, Q, hr', fun m ha => ?_⟩
      obtain ⟨ho, hlev⟩ := level_reduce (ha.record href hl hmem) hlt
      refine ha.cut hr href hl hmem hid hlt hc ho fun s' p' => ?_
      have hagg : m.level s p = some ⟨UInt32.ofNat (b.total (Q s p)),
          UInt32.ofNat (Q s p).length⟩ := by
        rw [ha.levels, aggOf, if_neg (List.ne_nil_of_mem hmem)]
      rw [hlev _ hagg, hagg]
      rfl

theorem Rep.step_sim (hr : Rep b Q) (op : Op)
    (hrefs : ∀ ref ∈ op.refs, ref ≠ OpenHashMap.kEmpty) (h : b.step op = some b') :
    b.rejected ≤ b'.rejected ∧ ∃ Q', Rep b' Q' ∧
      ∀ m, Agrees b Q m → b'.rejected = b.rejected → Agrees b' Q' (m.step op) := by
  cases op with
  | add ref s p qty => exact hr.add_sim (hrefs ref (by simp [Op.refs])) s p qty h
  | execute ref qty =>
    obtain ⟨h1, Q', h2, h3⟩ := hr.reduce_sim (hrefs ref (by simp [Op.refs])) qty h
    exact ⟨h1.ge, Q', h2, fun m ha _ => h3 m ha⟩
  | cancel ref qty =>
    obtain ⟨h1, Q', h2, h3⟩ := hr.reduce_sim (hrefs ref (by simp [Op.refs])) qty h
    exact ⟨h1.ge, Q', h2, fun m ha _ => h3 m ha⟩
  | remove ref =>
    have href := hrefs ref (by simp [Op.refs])
    rcases hr.remove_cases href with ⟨hl, h'⟩ | ⟨n, s, p, l, r, b1, hl, hq, -, -, h', hr', hp⟩
    · rw [step, h'] at h
      obtain rfl := Option.some.inj h
      refine ⟨le_rfl, Q, hr, fun m ha _ => ?_⟩
      rw [MapBook.step, MapBook.remove, ha.no_record href hl]
      exact ha
    · rw [step, h'] at h
      obtain rfl := Option.some.inj h
      refine ⟨hp.rejected.ge, _, hr', fun m ha _ => ?_⟩
      simp only [MapBook.step, MapBook.remove, ha.record href hl (by simp [hq] : n ∈ Q s p),
        MapBook.orders_detach]
      exact ha.pull hr href hl hq hp
  | replace ref new p' qty =>
    have href := hrefs ref (by simp [Op.refs])
    have hnew := hrefs new (by simp [Op.refs])
    rcases hr.replace_cases href new p' qty with
      ⟨hl, h'⟩ | ⟨n, s, p, l, r, b1, hl, hq, -, -, -, hr1, hp, h'⟩
    · rw [step, h'] at h
      obtain rfl := Option.some.inj h
      refine ⟨le_rfl, Q, hr, fun m ha _ => ?_⟩
      rw [MapBook.step, MapBook.replace, ha.no_record href hl]
      exact ha
    · rw [step, h'] at h
      obtain ⟨h1, Q', h2, h3⟩ := hr1.add_sim hnew s p' qty h
      rw [hp.rejected] at h1 h3
      refine ⟨h1, Q', h2, fun m ha h0 => ?_⟩
      simp only [MapBook.step, MapBook.replace, ha.record href hl (by simp [hq] : n ∈ Q s p),
        MapBook.orders_detach]
      exact h3 _ (ha.pull hr href hl hq hp) h0
  | clear =>
    obtain rfl := Option.some.inj h
    obtain ⟨hr', hsize, hnone⟩ := hr.clear
    refine ⟨le_rfl, noQueues, hr', fun m _ _ => ⟨fun k hk r => ?_, hsize.symm, fun s p => ?_⟩⟩
    · rw [hnone k hk]
      constructor
      · intro h0
        cases h0
      · rintro ⟨n, h0, -⟩
        cases h0
    · cases s <;> rfl

/-! ### Snapshots -/

theorem Core.collect_eq (hc : Core b Q) {oit : List (Price × ℤ)} {L : List Price}
    (hL : L.Pairwise fun p q => better s p q = true) (hmem : ∀ p, p ∈ L ↔ 0 ≤ b.levelIx s p)
    (hsorted : oit.Pairwise fun x y => better s x.1 y.1 = true)
    (hoit : ∀ p li, (p, li) ∈ oit ↔ (b.over_ s)[p]? = some li) :
    b.collect s oit = some ((L.take kSnapshotDepth).map (viewAt b Q s)) := by
  obtain ⟨r, hr, htop⟩ := hc.grid.scan_start s
  have hset := hc.grid.tickSet s
  simp only [collect, hr, Option.bind_eq_bind, Option.bind_some, collectLoop_walk]
  refine walk_eq hset (fun t ht => hc.atTick_eq ht) kSnapshotDepth r oit L (fun _ => True)
    (htop.congr fun t => ?_) (fun _ _ _ _ => trivial) hL (fun p => ?_) hsorted fun x hx => ?_
  · rw [and_true]
    exact (hc.grid.bits s t).symm
  · rw [hmem]
    constructor
    · intro hx
      by_cases hin : b.inGrid p = true
      · exact Or.inl ⟨b.tickOf p, (hc.grid.bits s _).mpr ((hc.grid.used_tickOf hin).mpr hx), trivial,
          (hc.grid.window.priceOf_tickOf hin).symm⟩
      · obtain ⟨li, hli⟩ := (hc.grid.levelIx_over (by simpa using hin)).mp hx
        exact Or.inr ⟨(p, li), (hoit p li).mpr hli, rfl⟩
    · rintro (⟨u, hu, -, rfl⟩ | ⟨⟨q, li⟩, hli, rfl⟩)
      · exact (hc.grid.used_priceOf ((hc.grid.bits s u).mp hu)).2
      · have ho := (hoit p li).mp hli
        exact (hc.grid.levelIx_over (hc.grid.outside s p li ho).1).mpr ⟨li, ho⟩
  · exact hc.entry_eq ((hoit x.1 x.2).mp hx)

theorem views_eq {cmp : Price → Price → Ordering} [Std.TransCmp cmp] [Std.LawfulEqCmp cmp]
    (levels : Std.TreeMap Price MapBook.Agg cmp)
    (h : ∀ p, levels[p]? = b.aggOf (Q s p)) (n : ℕ) :
    ((levels.toList.map Prod.fst).take n).map (viewAt b Q s) =
      (levels.toList.take n).map MapBook.view := by
  rw [← List.map_take, List.map_map]
  refine List.map_congr_left fun x hx => ?_
  obtain ⟨p, agg⟩ := x
  have hget := Std.TreeMap.mem_toList_iff_getElem?_eq_some.mp (List.mem_of_mem_take hx)
  rw [h, aggOf] at hget
  split at hget
  · cases hget
  · obtain rfl := Option.some.inj hget
    rfl

theorem keys_mem {cmp : Price → Price → Ordering} [Std.TransCmp cmp] [Std.LawfulEqCmp cmp]
    (hr : Rep b Q) (levels : Std.TreeMap Price MapBook.Agg cmp)
    (h : ∀ p, levels[p]? = b.aggOf (Q s p)) (p : Price) :
    p ∈ levels.toList.map Prod.fst ↔ 0 ≤ b.levelIx s p := by
  rw [List.mem_map]
  constructor
  · rintro ⟨⟨q, agg⟩, hq, rfl⟩
    have hget := Std.TreeMap.mem_toList_iff_getElem?_eq_some.mp hq
    rw [h, aggOf] at hget
    split at hget
    · cases hget
    · rename_i hne
      obtain ⟨o, ho⟩ := List.exists_mem_of_ne_nil _ hne
      exact hr.absent_of ho
  · intro hx
    have hget : levels[p]? = some ⟨UInt32.ofNat (b.total (Q s p)), UInt32.ofNat (Q s p).length⟩ := by
      rw [h, aggOf, if_neg (hr.live s p hx)]
    exact ⟨_, Std.TreeMap.mem_toList_iff_getElem?_eq_some.mpr hget, rfl⟩

theorem Agrees.snapshot_eq (ha : Agrees b Q m) (hr : Rep b Q) :
    b.snapshot = some m.snapshot ∧ b.orderCount = m.orderCount := by
  have hbid : b.collect .buy (b.over_ .buy).toList.reverse =
      some ((m.bids.toList.take kSnapshotDepth).map MapBook.view) := by
    rw [← views_eq (s := .buy) m.bids (ha.levels .buy)]
    exact hr.collect_eq (bids_sorted m.bids) (keys_mem hr m.bids (ha.levels .buy))
      (reversed_sorted _) fun p li => by
        rw [List.mem_reverse, Std.TreeMap.mem_toList_iff_getElem?_eq_some]
  have hask : b.collect .sell (b.over_ .sell).toList =
      some ((m.asks.toList.take kSnapshotDepth).map MapBook.view) := by
    rw [← views_eq (s := .sell) m.asks (ha.levels .sell)]
    exact hr.collect_eq (List.pairwise_map.mpr (asks_sorted m.asks))
      (keys_mem hr m.asks (ha.levels .sell)) (asks_sorted _) fun p li =>
        Std.TreeMap.mem_toList_iff_getElem?_eq_some
  refine ⟨?_, ha.size.symm⟩
  simp only [snapshot, hbid, hask, Option.bind_eq_bind, Option.bind_some]
  rfl

/-! ### Runs -/

theorem Rep.add_total (hr : Rep b Q) (hs : Small b) (href : ref ≠ OpenHashMap.kEmpty) (s : Side)
    (p : Price) (qty : Qty) : ∃ b', b.add ref s p qty = some b' ∧ Small b' := by
  by_cases hqty : qty = 0
  · exact ⟨b, by rw [hqty, add_zero], hs⟩
  · rcases hr.add_cases href s p hqty with ⟨hbig, -⟩ | ⟨-, h⟩ | ⟨n, b', h, -, -, hp⟩
    · exact absurd hs hbig
    · exact ⟨_, h, hs.orders, hs.levels⟩
    · exact ⟨b', h, by rw [hp.orders]; exact hs.orders, by rw [hp.levels]; exact hs.levels⟩

theorem Pulled.small {last : Prop} [Decidable last] (hp : Pulled b b' ref s p last)
    (hs : Small b) : Small b' :=
  ⟨by rw [hp.orders]; exact hs.orders, by rw [hp.levels]; exact hs.levels⟩

/-- Pools of at most `2^31` entries are never subscripted outside their range. -/
theorem Rep.step_total (hr : Rep b Q) (hs : Small b) (op : Op)
    (hrefs : ∀ ref ∈ op.refs, ref ≠ OpenHashMap.kEmpty) : ∃ b', b.step op = some b' ∧ Small b' := by
  have hreduce : ∀ ref qty, ref ≠ OpenHashMap.kEmpty → ∃ b', b.reduce ref qty = some b' ∧ Small b' := by
    intro ref qty href
    rcases hr.reduce_cases href qty with ⟨-, h⟩ | ⟨n, s, p, l, r, -, -, -, -, hcase⟩
    · exact ⟨b, h, hs⟩
    · rcases hcase with ⟨-, b', h, -, hp⟩ | ⟨-, b', h, -, hc⟩
      · exact ⟨b', h, hp.small hs⟩
      · exact ⟨b', h, by rw [hc.orders]; exact hs.orders, by rw [hc.levels]; exact hs.levels⟩
  cases op with
  | add ref s p qty => exact hr.add_total hs (hrefs ref (by simp [Op.refs])) s p qty
  | execute ref qty => exact hreduce ref qty (hrefs ref (by simp [Op.refs]))
  | cancel ref qty => exact hreduce ref qty (hrefs ref (by simp [Op.refs]))
  | remove ref =>
    rcases hr.remove_cases (hrefs ref (by simp [Op.refs])) with
      ⟨-, h⟩ | ⟨n, s, p, l, r, b', -, -, -, -, h, -, hp⟩
    · exact ⟨b, h, hs⟩
    · exact ⟨b', h, hp.small hs⟩
  | replace ref new p' qty =>
    rcases hr.replace_cases (hrefs ref (by simp [Op.refs])) new p' qty with
      ⟨-, h⟩ | ⟨n, s, p, l, r, b1, -, -, -, -, -, hr1, hp, h⟩
    · exact ⟨b, h, hs⟩
    · obtain ⟨b', h', hs'⟩ := hr1.add_total (hp.small hs) (hrefs new (by simp [Op.refs])) s p' qty
      exact ⟨b', h.trans h', hs'⟩
  | clear => exact ⟨b.clear, rfl, hs.orders, hs.levels⟩

theorem Rep.run_total (hr : Rep b Q) (hs : Small b) (ops : List Op)
    (hrefs : ∀ op ∈ ops, ∀ ref ∈ op.refs, ref ≠ OpenHashMap.kEmpty) :
    ∃ b', Design.run b ops = some b' := by
  induction ops generalizing b Q with
  | nil => exact ⟨b, rfl⟩
  | cons op ops ih =>
    have hop := hrefs op (List.mem_cons_self ..)
    obtain ⟨b1, h1, hs1⟩ := hr.step_total hs op hop
    obtain ⟨-, Q1, hr1, -⟩ := hr.step_sim op hop h1
    obtain ⟨b', h'⟩ := ih hr1 hs1 fun op hm => hrefs op (List.mem_cons_of_mem _ hm)
    refine ⟨b', ?_⟩
    show (b.step op).bind _ = _
    rw [h1]
    exact h'

theorem Rep.run_rep (hr : Rep b Q) (ops : List Op)
    (hrefs : ∀ op ∈ ops, ∀ ref ∈ op.refs, ref ≠ OpenHashMap.kEmpty)
    (h : Design.run b ops = some b') : b.rejected ≤ b'.rejected ∧ ∃ Q', Rep b' Q' := by
  induction ops generalizing b Q with
  | nil =>
    obtain rfl := Option.some.inj h
    exact ⟨le_rfl, Q, hr⟩
  | cons op ops ih =>
    obtain ⟨b1, h1, h'⟩ := Option.bind_eq_some_iff.mp h
    obtain ⟨hle, Q1, hr1, -⟩ := hr.step_sim op (hrefs op (List.mem_cons_self ..)) h1
    obtain ⟨hle', hrep⟩ := ih hr1 (fun op hm => hrefs op (List.mem_cons_of_mem _ hm)) h'
    exact ⟨hle.trans hle', hrep⟩

theorem Rep.run_sim (hr : Rep b Q) (ha : Agrees b Q m) (ops : List Op)
    (hrefs : ∀ op ∈ ops, ∀ ref ∈ op.refs, ref ≠ OpenHashMap.kEmpty)
    (h : Design.run b ops = some b') (hrej : b'.rejected = b.rejected) :
    ∃ Q', Rep b' Q' ∧ Agrees b' Q' (m.replay ops) := by
  induction ops generalizing b Q m with
  | nil =>
    obtain rfl := Option.some.inj h
    exact ⟨Q, hr, ha⟩
  | cons op ops ih =>
    obtain ⟨b1, h1, h'⟩ := Option.bind_eq_some_iff.mp h
    obtain ⟨hle, Q1, hr1, hstep⟩ := hr.step_sim op (hrefs op (List.mem_cons_self ..)) h1
    have hops : ∀ op ∈ ops, ∀ ref ∈ op.refs, ref ≠ OpenHashMap.kEmpty :=
      fun op hm => hrefs op (List.mem_cons_of_mem _ hm)
    have hle' := (hr1.run_rep ops hops h').1
    exact ih hr1 (hstep m ha (by omega)) hops h' (by omega)

theorem Agrees.make {lo hi : Price} {maxOrders maxLevels : ℕ}
    (h : make lo hi maxOrders maxLevels = some b) :
    Rep b noQueues ∧ Agrees b noQueues MapBook.empty := by
  obtain ⟨hr, hsize, -, -, -, -, hnone⟩ := Rep.make h
  refine ⟨hr, fun k hk r => ?_, hsize.symm, fun s p => ?_⟩
  · rw [hnone k hk]
    constructor
    · intro h0
      cases h0
    · rintro ⟨n, h0, -⟩
      cases h0
  · cases s <;> rfl

/-- What a run that rejects nothing holds after its first operations. -/
theorem Agrees.run_take {lo hi : Price} {maxOrders maxLevels : ℕ} {b0 : HybridBook}
    (hmake : HybridBook.make lo hi maxOrders maxLevels = some b0) {ops : List Op}
    (hrefs : ∀ op ∈ ops, ∀ ref ∈ op.refs, ref ≠ OpenHashMap.kEmpty)
    (h : Design.run b0 ops = some b) (hrej : b.rejected = 0) (n : ℕ) :
    ∃ bn Qn, Design.run b0 (ops.take n) = some bn ∧ Rep bn Qn ∧
      Agrees bn Qn (MapBook.empty.replay (ops.take n)) := by
  obtain ⟨hr, ha⟩ := Agrees.make hmake
  obtain ⟨-, -, hrej0, -⟩ := Rep.make hmake
  rw [← List.take_append_drop n ops, Design.run_append] at h
  obtain ⟨bn, hn, hrest⟩ := Option.bind_eq_some_iff.mp h
  have htake : ∀ op ∈ ops.take n, ∀ ref ∈ op.refs, ref ≠ OpenHashMap.kEmpty :=
    fun op hm => hrefs op (List.mem_of_mem_take hm)
  have hdrop : ∀ op ∈ ops.drop n, ∀ ref ∈ op.refs, ref ≠ OpenHashMap.kEmpty :=
    fun op hm => hrefs op (List.mem_of_mem_drop hm)
  obtain ⟨hle, Q1, hr1⟩ := hr.run_rep _ htake hn
  have hle' := (hr1.run_rep _ hdrop hrest).1
  obtain ⟨Qn, hrn, han⟩ := hr.run_sim ha _ htake hn (by omega)
  exact ⟨bn, Qn, hn, hrn, han⟩

/-- Whatever the window and the pools, a run that rejects nothing shows the
reference book's snapshot and order count after every operation. With pools of
at most `2^31` entries every run is defined. -/
theorem snapshot_eq_map (lo hi : Price) (maxOrders maxLevels : ℕ) (b0 : HybridBook)
    (hmake : make lo hi maxOrders maxLevels = some b0) (ops : List Op)
    (hrefs : ∀ op ∈ ops, ∀ ref ∈ op.refs, ref ≠ 0) :
    (maxOrders ≤ 2 ^ 31 → maxLevels ≤ 2 ^ 31 → ∃ b, Design.run b0 ops = some b) ∧
    ∀ b, Design.run b0 ops = some b → b.rejected = 0 → ∀ n,
      ∃ bn, Design.run b0 (ops.take n) = some bn ∧
        bn.snapshot = some (MapBook.empty.replay (ops.take n)).snapshot ∧
        bn.orderCount = (MapBook.empty.replay (ops.take n)).orderCount := by
  obtain ⟨hr, -⟩ := Agrees.make hmake
  obtain ⟨-, -, -, -, horders, hlevels, -⟩ := Rep.make hmake
  refine ⟨fun ho hl => hr.run_total ⟨by rwa [horders], by rwa [hlevels]⟩ ops hrefs,
    fun b h hrej n => ?_⟩
  obtain ⟨bn, Qn, hn, hrn, han⟩ := Agrees.run_take hmake hrefs h hrej n
  exact ⟨bn, hn, han.snapshot_eq hrn⟩

theorem snapshot_eq_map_replace : ∃ b0 bn : HybridBook, make 100 300 4 4 = some b0 ∧
    Design.run b0 [.add 1 .buy 300 5, .add 2 .buy 200 7, .replace 1 3 100 5] = some bn ∧
    bn.snapshot = some (MapBook.empty.replay
      [.add 1 .buy 300 5, .add 2 .buy 200 7, .replace 1 3 100 5]).snapshot ∧
    bn.orderCount = (MapBook.empty.replay
      [.add 1 .buy 300 5, .add 2 .buy 200 7, .replace 1 3 100 5]).orderCount := by
  have hrun : ((make 100 300 4 4).bind fun b0 => (Design.run b0
      [.add 1 .buy 300 5, .add 2 .buy 200 7, .replace 1 3 100 5]).map HybridBook.rejected) =
      some 0 := by decide +kernel
  obtain ⟨b0, hmake, h⟩ := Option.bind_eq_some_iff.mp hrun
  obtain ⟨b, hb, hrej⟩ := Option.map_eq_some_iff.mp h
  obtain ⟨bn, hn⟩ := (snapshot_eq_map 100 300 4 4 b0 hmake
    [.add 1 .buy 300 5, .add 2 .buy 200 7, .replace 1 3 100 5] (by simp [Op.refs])).2 b hb hrej 3
  exact ⟨b0, bn, hmake, hn⟩

end HybridBook

end Hotpath.Book
