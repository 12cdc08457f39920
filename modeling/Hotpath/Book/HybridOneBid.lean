import Hotpath.Book.HybridRefine

/-!
# A book of one bid

Pools with room beside one order reject nothing while at most two orders rest: a
stream of replacements of one bid changes its ref and its stamp and nothing else.
-/

namespace Hotpath.Book.HybridBook
open Hotpath.Support

variable {b b' : HybridBook} {Q : Queues} {s : Side} {ref new : OrderId} {seq : UInt32}

theorem ofNat_ref {i : ℕ} (h : i + 1 < 2 ^ 64) : UInt64.ofNat (i + 1) ≠ OpenHashMap.kEmpty := by
  intro he
  have hn := congrArg UInt64.toNat he
  rw [UInt64.toNat_ofNat', Nat.mod_eq_of_lt h] at hn
  exact absurd hn (Nat.succ_ne_zero i)

theorem ofNat_ref_inj {i j : ℕ} (hi : i < 2 ^ 64) (hj : j < 2 ^ 64)
    (h : UInt64.ofNat i = UInt64.ofNat j) : i = j := by
  have hn := congrArg UInt64.toNat h
  rwa [UInt64.toNat_ofNat', UInt64.toNat_ofNat', Nat.mod_eq_of_lt hi, Nat.mod_eq_of_lt hj] at hn

/-- Pools and an id table with room beside one order. -/
structure Roomy (b : HybridBook) : Prop where
  small : Small b
  orders : 2 ≤ b.orders.length
  levels : 2 ≤ b.levels.length
  ids : 2 ≤ b.ids.limit
  rejected : b.rejected = 0

/-- A book that holds the orders `q` as bids at 100 and nothing else. -/
def bids (q : List ℕ) : Queues := set2 noQueues .buy 100 q

theorem bids_one {q : List ℕ} {s : Side} {p : Price} (h : bids q s p ≠ []) :
    s = .buy ∧ p = 100 := by
  by_contra hc
  unfold bids at h
  rw [set2_other hc] at h
  exact h rfl

/-- An order beside at most one other is never rejected. -/
theorem Roomy.add {q : List ℕ} {p : Price} {qty : Qty} (hro : Roomy b)
    (hr : Rep b (bids q)) (hq : q.length ≤ 1) (hsize : b.ids.size ≤ 1)
    (href : ref ≠ OpenHashMap.kEmpty) (hnew : OpenHashMap.lookup b.ids ref = none)
    (hqty : qty ≠ 0) (h : b.add ref s p qty = some b') :
    ∃ m : ℕ, Rep b' (set2 (bids q) s p (bids q s p ++ [m])) ∧ Roomy b' ∧
      b'.ids.size = b.ids.size + 1 ∧ b'.nextSeq = b.nextSeq + 1 ∧
      OpenHashMap.lookup b'.ids ref = some (m : ℤ) ∧ (b'.ord m).qty = qty ∧
      ∀ n ∈ q, (b'.ord n).qty = (b.ord n).qty := by
  have hfree : ∀ n : ℕ, ∃ m < 2, m ≠ n := fun n => by
    by_cases h0 : n = 0
    · exact ⟨1, by omega, by omega⟩
    · exact ⟨0, by omega, by omega⟩
  have hroom : ¬NoRoom b s p := by
    rintro (hf | ⟨-, hf⟩)
    · -- one of the first two slots is free
      obtain ⟨m, hm, hne⟩ := hfree (q.head?.getD 0)
      refine hr.freeOrders.ne_nil (n := m) (by have := hro.orders; omega) (by omega)
        (fun s' p' hmem => ?_) hf
      obtain ⟨rfl, rfl⟩ := bids_one (List.ne_nil_of_mem hmem)
      rw [bids, set2_same] at hmem
      cases q with
      | nil => cases hmem
      | cons n q =>
        have hnil : q = [] := List.length_eq_zero_iff.mp (by simpa using hq)
        rw [hnil, List.mem_singleton] at hmem
        exact hne hmem
    · obtain ⟨m, hm, hne⟩ := hfree (b.levelIx .buy 100).toNat
      refine hr.freeLevels.ne_nil (n := m) (by have := hro.levels; omega) (by omega)
        (fun s' p' heq => ?_) hf
      obtain ⟨rfl, rfl⟩ := bids_one (hr.live s' p' (by omega))
      omega
  rcases hr.add_cases href s p hqty with ⟨hno, -⟩ | ⟨hno, -⟩ | ⟨m, b1, h1, hr1, hfresh, hp⟩
  · exact absurd hro.small hno
  · exact absurd hno hroom
  · rw [h1] at h
    obtain rfl := Option.some.inj h
    have hdata := hp.data
    simp only [Order.data, Prod.mk.injEq] at hdata
    rcases hr.table.insert_spec href (m : ℤ) with ⟨-, hfull, -⟩ | ⟨ids, hi, -, hslots, hlk, hcase⟩
    · have := hro.ids
      omega
    · rcases hp.table with ⟨ht, hrej⟩ | ⟨ht, -⟩
      · rw [hi] at ht
        obtain rfl : ids = b1.ids := (Prod.mk.inj (Option.some.inj ht)).1
        have hsz : b1.ids.size = b.ids.size + 1 := by
          rcases hcase with ⟨hc, -⟩ | ⟨-, -, hc⟩
          · exact absurd hnew hc
          · exact hc
        refine ⟨m, hr1, ⟨⟨?_, ?_⟩, ?_, ?_, ?_, hrej.trans hro.rejected⟩, hsz, hp.nextSeq, ?_,
          hdata.2.2.1, fun n hn => ?_⟩
        · rw [hp.orders]
          exact hro.small.orders
        · rw [hp.levels]
          exact hro.small.levels
        · rw [hp.orders]
          exact hro.orders
        · rw [hp.levels]
          exact hro.levels
        · rw [OpenHashMap.limit, hslots]
          exact hro.ids
        · rw [hlk ref href, if_pos rfl]
        · have hne : n ≠ m := by
            rintro rfl
            exact hfresh .buy 100 (by rw [bids, set2_same]; exact hn)
          have hd := hp.others n hne
          simp only [Order.data, Prod.mk.injEq] at hd
          exact hd.2.2.1
      · rw [hi] at ht
        exact absurd (Prod.mk.inj (Option.some.inj ht)).2 (by simp)

/-- One bid of five shares. -/
structure OneBid (b : HybridBook) (ref : OrderId) (seq : UInt32) : Prop where
  room : Roomy b
  size : b.ids.size = 1
  stamp : b.nextSeq = seq
  bid : ∃ n : ℕ, Rep b (bids [n]) ∧ OpenHashMap.lookup b.ids ref = some (n : ℤ) ∧
    (b.ord n).qty = 5

/-- The first bid. -/
theorem OneBid.first (hro : Roomy b) (hr : Rep b noQueues) (hsize : b.ids.size = 0)
    (href : ref ≠ OpenHashMap.kEmpty) (hnone : OpenHashMap.lookup b.ids ref = none)
    (h : b.add ref .buy 100 5 = some b') : OneBid b' ref (b.nextSeq + 1) := by
  have hr' : Rep b (bids []) := by
    have hself : bids [] = noQueues := set2_self
    rw [hself]
    exact hr
  obtain ⟨m, hr1, hro1, hs1, hn1, hl1, hq1, -⟩ :=
    hro.add hr' (Nat.zero_le _) (by omega) href hnone (by decide) h
  refine ⟨hro1, by rw [hs1, hsize], hn1, m, ?_, hl1, hq1⟩
  rw [bids, set2_same, set2_set2] at hr1
  exact hr1

/-- No other ref is in the table. -/
theorem OneBid.absent (hb : OneBid b ref seq) (href : ref ≠ OpenHashMap.kEmpty)
    (hnew : new ≠ OpenHashMap.kEmpty) (hne : new ≠ ref) :
    OpenHashMap.lookup b.ids new = none := by
  obtain ⟨n, hr, hlk, -⟩ := hb.bid
  have hslot : ∀ r ≠ OpenHashMap.kEmpty, ∀ i, OpenHashMap.lookup b.ids r = some i →
      (b.ord n).id = r := by
    intro r hr0 i hi
    obtain ⟨k, s, p, -, hk, hid⟩ := hr.named r hr0 i hi
    obtain ⟨rfl, rfl⟩ := bids_one (List.ne_nil_of_mem hk)
    rw [bids, set2_same, List.mem_singleton] at hk
    rwa [hk] at hid
  cases hl : OpenHashMap.lookup b.ids new with
  | none => rfl
  | some i => exact absurd ((hslot new hnew i hl).symm.trans (hslot ref href _ hlk)) hne

/-- The bid takes a new ref and a new stamp. -/
theorem OneBid.replace (hb : OneBid b ref seq) (href : ref ≠ OpenHashMap.kEmpty)
    (hnew : new ≠ OpenHashMap.kEmpty) (hne : new ≠ ref) (h : b.replace ref new 100 5 = some b') :
    OneBid b' new (seq + 1) := by
  have habsent := hb.absent href hnew hne
  obtain ⟨hro, hsize, hstamp, n, hr, hlk, -⟩ := hb
  rcases hr.replace_cases href new 100 5 with
    ⟨hnone, -⟩ | ⟨m, s, p, l, r, b1, hlm, hq, hid, -, -, hr1, hp, h'⟩
  · rw [hlk] at hnone
    cases hnone
  · obtain ⟨rfl, rfl⟩ := bids_one (s := s) (p := p) (by rw [hq]; simp)
    rw [bids, set2_same] at hq
    have hlr : l = [] ∧ r = [] := by
      have hlen := congrArg List.length hq
      simp only [List.length_append, List.length_cons, List.length_nil] at hlen
      exact ⟨List.length_eq_zero_iff.mp (by omega), List.length_eq_zero_iff.mp (by omega)⟩
    obtain ⟨rfl, rfl⟩ := hlr
    obtain rfl : n = m := by simpa using hq
    have hr2 : Rep b1 noQueues := by
      rw [bids, set2_set2] at hr1
      have hself : set2 noQueues .buy 100 ([] ++ []) = noQueues := set2_self
      rwa [hself] at hr1
    have hro1 : Roomy b1 := by
      refine ⟨hp.small hro.small, by rw [hp.orders]; exact hro.orders,
        by rw [hp.levels]; exact hro.levels, ?_, hp.rejected.trans hro.rejected⟩
      rw [OpenHashMap.limit, hp.slots]
      exact hro.ids
    have hnone : OpenHashMap.lookup b1.ids new = none := by
      rw [hp.ids new hnew, if_neg hne, habsent]
    have hsize1 : b1.ids.size = 0 := by
      have := hp.size
      omega
    rw [h'] at h
    have hfirst := OneBid.first hro1 hr2 hsize1 hnew hnone h
    rwa [hp.nextSeq, hstamp] at hfirst

end Hotpath.Book.HybridBook
