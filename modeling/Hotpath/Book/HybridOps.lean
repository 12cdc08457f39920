import Hotpath.Book.HybridOrders

/-!
# One step of the hybrid book

Every operation, on a well-formed book, does one of a few things to the queues:
nothing, one push, one pull, one cut, or a pull and then a push. A step can
leave the model only where a pool is longer than `2^31`.
-/

namespace Hotpath.Book.HybridBook
open Hotpath.Support

variable {b b' : HybridBook} {Q : Queues} {s : Side} {p : Price} {ref : OrderId} {qty : Qty}
  {m : ℕ}

structure Small (b : HybridBook) : Prop where
  orders : b.orders.length ≤ 2 ^ 31
  levels : b.levels.length ≤ 2 ^ 31

/-! ### Adding -/

/-- Nothing the queues depend on changes. -/
theorem Core.congr (hc : Core b Q) (hi : SameIndex b b') (ho : b'.orders = b.orders)
    (hl : b'.levels = b.levels) (hf : b'.freeLevels = b.freeLevels) : Core b' Q := by
  have hord : b'.ord = b.ord := by funext o; rw [ord, ho, ord]
  have hlev : b'.lev = b.lev := by funext n; rw [lev, hl, lev]
  refine ⟨hi.gridOk hc.grid, fun s p hx => ?_, ?_, ?_, fun s p o h => ?_, ?_⟩
  · rw [hi.levelIx_eq] at hx ⊢
    obtain ⟨n, h1, h2, h3, h4⟩ := hc.level s p hx
    exact ⟨n, h1, by rwa [hl], h3, h4.congr (fun o _ => by rw [hord]) (by rw [hlev])⟩
  · rw [hi.levelIx_eq]
    exact hc.absent
  · rw [hi.levelIx_eq]
    exact hc.inj
  · obtain ⟨h1, h2, h3, h4, h5⟩ := hc.order s p o h
    exact ⟨by rwa [ho], h2, by rw [hord, hi.levelIx_eq, h3], by rw [hord, h4], by rwa [hord]⟩
  · rw [hf, hl, hi.levelIx_eq]
    exact hc.freeLevels

theorem Rep.reject (hr : Rep b Q) (k : ℕ) : Rep { b with rejected := k } Q :=
  ⟨hr.toCore.congr ⟨rfl, rfl, rfl, rfl⟩ rfl rfl rfl, hr.live, hr.freeOrders, hr.table, hr.named⟩

/-- The level `add` works on, found or new. -/
theorem Rep.level_for (hr : Rep b Q) (s : Side) (p : Price) :
    (2 ^ 31 < b.levels.length ∧ b.findOrCreateLevel s p = none) ∨
    (b.levelIx s p < 0 ∧ b.freeLevels = [] ∧ b.findOrCreateLevel s p = some (b, -1)) ∨
    ∃ (n : ℕ) (b1 : HybridBook), b.findOrCreateLevel s p = some (b1, (n : ℤ)) ∧ Core b1 Q ∧
      SameOrders b b1 ∧ b1.levelIx s p = n ∧
      (∀ s' p', ¬(s' = s ∧ p' = p) → b1.levelIx s' p' = b.levelIx s' p') ∧
      ∀ s', (b1.grid s').hint = if s' = s ∧ b.inGrid p = true ∧ b.levelIx s p < 0
        then raiseHint s (b.grid s).hint (b.tickOf p) else (b.grid s').hint := by
  by_cases hx : 0 ≤ b.levelIx s p
  · obtain ⟨n, hn, -⟩ := hr.level s p hx
    right; right
    refine ⟨n, b, ?_, hr.toCore, SameOrders.rfl', hn, fun _ _ _ => rfl, fun s' => ?_⟩
    · rw [hr.grid.find_existing hx, hn]
    · rw [if_neg fun h => absurd h.2.2 (by omega)]
  · have hx' : b.levelIx s p < 0 := by omega
    cases hf : b.freeLevels with
    | nil => exact Or.inr (Or.inl ⟨hx', rfl, hr.grid.find_full hx' hf⟩)
    | cons li free =>
      rcases hr.create hx' hf with ⟨-, hbig, h⟩ | ⟨n, b1, h, hc1, hso, hix, hhint⟩
      · exact Or.inl ⟨hbig, h⟩
      · refine Or.inr (Or.inr ⟨n, b1, h, hc1, hso, by rw [hix, set2_same],
          fun s' p' hne => by rw [hix, set2_other hne], fun s' => ?_⟩)
        rw [hhint s']
        simp only [hx', and_true]

theorem Rep.named_push (hr : Rep b Q) (href : ref ≠ OpenHashMap.kEmpty)
    (hp : Pushed b b' m ref s p qty) (hfresh : ∀ s' p', m ∉ Q s' p') :
    b'.ids.WF OpenHashMap.hash ∧ ∀ k ≠ OpenHashMap.kEmpty, ∀ i,
      OpenHashMap.lookup b'.ids k = some i →
      ∃ (n : ℕ) (s' : Side) (p' : Price), i = n ∧ n ∈ set2 Q s p (Q s p ++ [m]) s' p' ∧
        (b'.ord n).id = k := by
  have hkeep : ∀ k ≠ OpenHashMap.kEmpty, ∀ i, OpenHashMap.lookup b.ids k = some i →
      ∃ (n : ℕ) (s' : Side) (p' : Price), i = n ∧ n ∈ set2 Q s p (Q s p ++ [m]) s' p' ∧
        (b'.ord n).id = k := by
    intro k hk i hi
    obtain ⟨n, s', p', rfl, hn, hid⟩ := hr.named k hk i hi
    refine ⟨n, s', p', rfl, ?_, ?_⟩
    · unfold set2
      split
      · rename_i h
        rw [h.1, h.2] at hn
        exact List.mem_append_left _ hn
      · exact hn
    · have hd := hp.others n fun he => hfresh s' p' (he ▸ hn)
      simp only [Order.data, Prod.mk.injEq] at hd
      rw [hd.1, hid]
  have hnew : m ∈ set2 Q s p (Q s p ++ [m]) s p := by
    rw [set2_same]
    exact List.mem_append_right _ (List.mem_singleton_self m)
  have hid : (b'.ord m).id = ref := by
    have hd := hp.data
    simp only [Order.data, Prod.mk.injEq] at hd
    exact hd.1
  rcases hp.table_cases hr.table href with ⟨-, h, -⟩ | ⟨-, hw, hlk, -⟩
  · rw [h]
    exact ⟨hr.table, hkeep⟩
  · refine ⟨hw, fun k hk i hki => ?_⟩
    rw [hlk k hk] at hki
    split at hki
    · rename_i hkr
      obtain rfl := Option.some.inj hki
      exact ⟨m, s, p, rfl, hnew, by rw [hid, hkr]⟩
    · exact hkeep k hk i hki

theorem add_zero (b : HybridBook) (ref : OrderId) (s : Side) (p : Price) :
    b.add ref s p 0 = some b := rfl

/-- A pool an addition needs is used up. -/
def NoRoom (b : HybridBook) (s : Side) (p : Price) : Prop :=
  b.freeOrders = [] ∨ (b.levelIx s p < 0 ∧ b.freeLevels = [])

theorem Rep.add_cases (hr : Rep b Q) (href : ref ≠ OpenHashMap.kEmpty) (s : Side) (p : Price)
    (hqty : qty ≠ 0) :
    (¬Small b ∧ b.add ref s p qty = none) ∨
    (NoRoom b s p ∧ b.add ref s p qty = some { b with rejected := b.rejected + 1 }) ∨
    ∃ m b', b.add ref s p qty = some b' ∧ Rep b' (set2 Q s p (Q s p ++ [m])) ∧
      (∀ s' p', m ∉ Q s' p') ∧ Pushed b b' m ref s p qty := by
  cases hf : b.freeOrders with
  | nil =>
    right; left
    refine ⟨Or.inl hf, ?_⟩
    simp only [add, if_neg hqty, hf]
    rfl
  | cons oi free =>
    have hadd : b.add ref s p qty = (b.findOrCreateLevel s p).bind fun x =>
        if x.2 < 0 then some { x.1 with rejected := x.1.rejected + 1 }
        else HybridBook.enqueue { x.1 with freeOrders := free } oi x.2 ref s qty := by
      simp only [add, if_neg hqty, hf]
      rfl
    rcases hr.level_for s p with ⟨hbig, h⟩ | ⟨hx, hfull, h⟩ | ⟨n, b1, h, hc1, hso, hx, hother, hhint⟩
    · left
      refine ⟨fun hs => absurd hs.levels (by omega), ?_⟩
      rw [hadd, h]
      rfl
    · right; left
      refine ⟨Or.inr ⟨hx, hfull⟩, ?_⟩
      rw [hadd, h, ← hf]
      rfl
    · have hfree := hr.freeOrders
      rw [hf] at hfree
      have hn : ¬(n : ℤ) < 0 := by omega
      rcases hfree.pop with ⟨m, rfl, hm, hsmall, hfresh, hrest⟩ | ⟨hneg, hbig⟩
      · right; right
        have ht : b1.ids.WF OpenHashMap.hash := by rw [hso.ids]; exact hr.table
        have hm1 : m < b1.orders.length := by rw [hso.orders]; exact hm
        have hcf : Core { b1 with freeOrders := free } Q :=
          hc1.congr ⟨rfl, rfl, rfl, rfl⟩ rfl rfl rfl
        obtain ⟨b', hrun, hc', hi, hfo, hol, hll, hdm, hdo, hseq, htab⟩ :=
          hcf.enqueue ht href hx hm1 hsmall hfresh hqty
        have hord1 : b1.ord = b.ord := by funext o; rw [ord, hso.orders, ord]
        have hpush : Pushed b b' m ref s p qty := by
          refine ⟨hi.lo.trans hso.lo, hi.ticks.trans hso.ticks, ?_, ?_, ?_, fun o ho => ?_, ?_, ?_,
            fun s' => ?_⟩
          · exact hol.trans (congrArg List.length hso.orders)
          · rw [hll]
            exact hso.levels
          · rw [hdm]
            show (ref, b1.nextSeq, qty, s) = _
            rw [hso.nextSeq]
          · rw [hdo o ho]
            show (b1.ord o).data = _
            rw [hord1]
          · rw [hseq]
            show b1.nextSeq + 1 = _
            rw [hso.nextSeq]
          · rw [← hso.ids, ← hso.rejected]
            exact htab
          · rw [hi.grid]
            exact hhint s'
        refine ⟨m, b', ?_, ?_, hfresh, hpush⟩
        · rw [hadd, h, Option.bind_some, if_neg hn, hrun]
        · obtain ⟨hw, hnamed⟩ := hr.named_push href hpush hfresh
          refine ⟨hc', fun s' p' hx' => ?_, ?_, hw, hnamed⟩
          · by_cases hsp : s' = s ∧ p' = p
            · rw [hsp.1, hsp.2, set2_same]
              exact List.append_ne_nil_of_right_ne_nil (Q s p) (List.cons_ne_nil m [])
            · rw [set2_other hsp]
              refine hr.live s' p' ?_
              rw [hi.levelIx_eq] at hx'
              have hx1 : 0 ≤ b1.levelIx s' p' := hx'
              rwa [hother s' p' hsp] at hx1
          · rw [hfo, hpush.orders]
            refine hrest.congr fun k => ⟨fun hk s' p' hk' => ?_, fun hk => ⟨fun s' p' hk' => ?_,
              fun he => ?_⟩⟩
            · unfold set2 at hk'
              split at hk'
              · rcases List.mem_append.mp hk' with h' | h'
                · exact hk.1 s p h'
                · exact hk.2 (List.mem_singleton.mp h')
              · exact hk.1 s' p' hk'
            · refine hk s' p' ?_
              by_cases hsp : s' = s ∧ p' = p
              · rw [hsp.1, hsp.2, set2_same]
                rw [hsp.1, hsp.2] at hk'
                exact List.mem_append_left _ hk'
              · rwa [set2_other hsp]
            · refine hk s p ?_
              rw [set2_same, he]
              exact List.mem_append_right _ (List.mem_singleton_self m)
      · left
        refine ⟨fun hs => absurd hs.orders (by omega), ?_⟩
        have hsub : ∃ l, subscript b1.levels (n : ℤ) = some l := by
          obtain ⟨n', hn', hlt, -⟩ := hc1.level s p (by omega)
          obtain rfl : n' = n := by
            rw [hx] at hn'
            exact_mod_cast hn'.symm
          exact ⟨_, subscript_cast hlt {}⟩
        obtain ⟨l, hl⟩ := hsub
        rw [hadd, h, Option.bind_some, if_neg hn]
        simp only [HybridBook.enqueue, hl, Option.bind_eq_bind, Option.bind_some,
          modifyAt_neg hneg, Option.bind_none]

/-! ### Ending an order -/

theorem Rep.retire (hr : Rep b Q) (href : ref ≠ OpenHashMap.kEmpty)
    (hlk : OpenHashMap.lookup b.ids ref = some (m : ℤ)) {l r : List ℕ}
    (hq : Q s p = l ++ m :: r) :
    ∃ b', b.retire ref m = some b' ∧ Rep b' (set2 Q s p (l ++ r)) ∧
      Pulled b b' ref s p (l ++ r = []) := by
  obtain ⟨b1, h1, hc1, hlive, hlo, hticks, hfo, hol, hll, hdata, hseq, hrej, hids, hhint⟩ :=
    hr.unlink hq hr.live
  have hmem : m ∈ Q s p := by simp [hq]
  rcases hr.table.erase_spec href with ⟨hnone, -⟩ | ⟨-, ids, he, hw, hslots, hsize, hlook⟩
  · rw [hlk] at hnone
    cases hnone
  · obtain ⟨b', hb'⟩ : ∃ b' : HybridBook,
        b' = { b1 with freeOrders := (m : ℤ) :: b1.freeOrders, ids := ids } := ⟨_, rfl⟩
    have hrun : b.retire ref m = some b' := by
      rw [hb']
      simp only [HybridBook.retire, h1, hids, he, Option.bind_eq_bind, Option.bind_some]
      rfl
    have hpull : Pulled b b' ref s p (l ++ r = []) := by
      rw [hb']
      exact ⟨hlo, hticks, hol, hll, hdata, hseq, hrej, hsize, hslots, hlook, hhint⟩
    have hnd := hr.nodup s p
    rw [hq] at hnd
    have hnotin : m ∉ l ++ r := fun h => ne_of_nodup hnd h rfl
    have hsub : ∀ s' p' k, k ∈ set2 Q s p (l ++ r) s' p' → k ∈ Q s' p' ∧ k ≠ m := by
      intro s' p' k hk
      by_cases hsp : s' = s ∧ p' = p
      · obtain ⟨rfl, rfl⟩ := hsp
        rw [set2_same] at hk
        refine ⟨?_, fun he => hnotin (he ▸ hk)⟩
        rw [hq]
        rcases List.mem_append.mp hk with h | h
        · exact List.mem_append_left _ h
        · exact List.mem_append_right _ (List.mem_cons_of_mem _ h)
      · rw [set2_other hsp] at hk
        exact ⟨hk, fun he => hsp (hr.queue_unique hmem (he ▸ hk))⟩
    have hstay : ∀ s' p' k, k ∈ Q s' p' → k ≠ m → k ∈ set2 Q s p (l ++ r) s' p' := by
      intro s' p' k hk hne
      by_cases hsp : s' = s ∧ p' = p
      · obtain ⟨rfl, rfl⟩ := hsp
        rw [hq] at hk
        rw [set2_same]
        rcases List.mem_append.mp hk with h | h
        · exact List.mem_append_left _ h
        · rcases List.mem_cons.mp h with h | h
          · exact absurd h hne
          · exact List.mem_append_right _ h
      · rwa [set2_other hsp]
    refine ⟨b', hrun, ⟨?_, ?_, ?_, ?_, fun k hk i hi => ?_⟩, hpull⟩
    · rw [hb']
      exact hc1.congr ⟨rfl, rfl, rfl, rfl⟩ rfl rfl rfl
    · rw [hb']
      exact hlive
    · rw [hpull.orders]
      have hpool := hr.order s p m hmem
      have hrest : FreeOk b.freeOrders b.orders.length fun k =>
          (∀ s' p', k ∉ set2 Q s p (l ++ r) s' p') ∧ k ≠ m := by
        refine hr.freeOrders.congr fun k => ⟨fun hk => ⟨fun s' p' h => ?_, fun he => ?_⟩,
          fun hk s' p' h => ?_⟩
        · exact hk s' p' (hsub s' p' k h).1
        · exact hk s p (he ▸ hmem)
        · exact hk.1 s' p' (hstay s' p' k h hk.2)
      rw [hb']
      show FreeOk ((m : ℤ) :: b1.freeOrders) _ _
      rw [hfo]
      exact hrest.push hpool.inPool hpool.small fun s' p' h => (hsub s' p' m h).2 rfl
    · rw [hb']
      exact hw
    · rw [hpull.ids k hk] at hi
      split at hi
      · cases hi
      · rename_i hkr
        obtain ⟨n, s', p', rfl, hn, hid⟩ := hr.named k hk i hi
        have hid' : (b'.ord n).id = k := by
          have hd := hpull.data n
          simp only [Order.data, Prod.mk.injEq] at hd
          rw [hd.1, hid]
        refine ⟨n, s', p', rfl, hstay s' p' n hn fun he => hkr ?_, hid'⟩
        obtain ⟨m', s1, p1, hm', -, hidm⟩ := hr.named ref href m hlk
        have hmm : m' = m := by exact_mod_cast hm'.symm
        rw [← hid, he, ← hmm, hidm]

/-! ### Reducing an order -/

structure Cut (b b' : HybridBook) (m : ℕ) (take : Qty) : Prop where
  index : SameIndex b b'
  orders : b'.orders.length = b.orders.length
  levels : b'.levels.length = b.levels.length
  ord : b'.ord m = { b.ord m with qty := (b.ord m).qty - take }
  others : ∀ o, o ≠ m → b'.ord o = b.ord o
  nextSeq : b'.nextSeq = b.nextSeq
  rejected : b'.rejected = b.rejected
  ids : b'.ids = b.ids

theorem total_cut {q : List ℕ} (hm : m ∈ q) (hnd : q.Nodup) {take : Qty}
    (hord : b'.ord m = { b.ord m with qty := (b.ord m).qty - take })
    (hothers : ∀ o, o ≠ m → b'.ord o = b.ord o) (htake : take.toNat < (b.ord m).qty.toNat) :
    b.total q = b'.total q + take.toNat := by
  obtain ⟨l, r, rfl⟩ := List.append_of_mem hm
  have hl : b'.total l = b.total l := total_congr fun o ho =>
    hothers o (ne_of_nodup hnd (List.mem_append_left _ ho))
  have hr : b'.total r = b.total r := total_congr fun o ho =>
    hothers o (ne_of_nodup hnd (List.mem_append_right _ ho))
  have hsub : ((b.ord m).qty - take).toNat = (b.ord m).qty.toNat - take.toNat :=
    UInt32.toNat_sub_of_le _ _ (UInt32.le_iff_toNat_le.mpr htake.le)
  rw [total_append, total_append, total_cons, total_cons, hl, hr, hord]
  show _ = b.total l + (((b.ord m).qty - take).toNat + b.total r) + take.toNat
  rw [hsub]
  omega

theorem Rep.cut (hr : Rep b Q) (hm : m ∈ Q s p) {take : Qty}
    (htake : take.toNat < (b.ord m).qty.toNat) :
    ∃ orders levels, modifyAt b.orders m (fun o => { o with qty := o.qty - take }) = some orders ∧
      modifyAt b.levels (b.ord m).level (fun l => { l with qty := l.qty - take }) = some levels ∧
      Rep { b with orders := orders, levels := levels } Q ∧
      Cut b { b with orders := orders, levels := levels } m take := by
  obtain ⟨hpool, hsmall, hlv, hsd, hqt⟩ := hr.order s p m hm
  obtain ⟨n, hx, hn, -, hl⟩ := hr.level s p (hr.absent_of hm)
  obtain ⟨orders, ho, holen, hoget⟩ :=
    modifyAt_get hpool (fun o : Order => { o with qty := o.qty - take }) {}
  obtain ⟨levels, hle, hllen, hlget⟩ :=
    modifyAt_get hn (fun l : Level => { l with qty := l.qty - take }) {}
  obtain ⟨b', hb'⟩ : ∃ b' : HybridBook, b' = { b with orders := orders, levels := levels } :=
    ⟨_, rfl⟩
  have hordm : b'.ord m = { b.ord m with qty := (b.ord m).qty - take } := by
    rw [HybridBook.ord, hb', hoget, if_pos rfl]
    rfl
  have hord : ∀ o, o ≠ m → b'.ord o = b.ord o := by
    intro o hne
    rw [HybridBook.ord, hb', hoget, if_neg hne, HybridBook.ord]
  have hlevn : b'.lev n = { b.lev n with qty := (b.lev n).qty - take } := by
    rw [lev, hb', hlget, if_pos rfl]
    rfl
  have hi : SameIndex b b' := by rw [hb']; exact ⟨rfl, rfl, rfl, rfl⟩
  have hsub : ((b.ord m).qty - take).toNat = (b.ord m).qty.toNat - take.toNat :=
    UInt32.toNat_sub_of_le _ _ (UInt32.le_iff_toNat_le.mpr htake.le)
  have hlinks : ∀ o, (b'.ord o).next = (b.ord o).next ∧ (b'.ord o).prev = (b.ord o).prev ∧
      (b'.ord o).level = (b.ord o).level ∧ (b'.ord o).side = (b.ord o).side ∧
      (b'.ord o).id = (b.ord o).id := by
    intro o
    by_cases ho : o = m
    · rw [ho, hordm]
      exact ⟨rfl, rfl, rfl, rfl, rfl⟩
    · rw [hord o ho]
      exact ⟨rfl, rfl, rfl, rfl, rfl⟩
  have hlevel : LevelOk b' n p (Q s p) := by
    refine ⟨by rw [hlevn, hl.price], ?_, by rw [hlevn, hl.orders], ?_⟩
    · have hsum := total_cut hm hl.chain.nodup hordm hord htake
      rw [hlevn]
      show (b.lev n).qty - take = _
      rw [hl.qty, hsum, ofNat_sub_qty]
    · rw [hlevn]
      exact hl.chain.congr fun o _ => ⟨(hlinks o).1, (hlinks o).2.1⟩
  have hc := hr.relink (q := Q s p) hi (by rw [hb']) (by rw [hb']; exact holen)
    (by rw [hb']; exact hllen) hx (fun k hk => by rw [lev, hb', hlget, if_neg hk, lev]) hlevel
    (fun o ho _ => hord o fun he => ho (he ▸ hm)) (fun o ho => Or.inl ho) (fun o ho => ?_)
  · rw [set2_self] at hc
    refine ⟨orders, levels, ho, by rw [hlv, hx]; exact hle, ?_, ?_⟩
    · rw [← hb']
      refine ⟨hc, fun s' p' hx' => hr.live s' p' (by rwa [hi.levelIx_eq] at hx'), ?_, ?_,
        fun k hk i hki => ?_⟩
      · rw [hb']
        show FreeOk b.freeOrders orders.length _
        rw [holen]
        exact hr.freeOrders
      · rw [hb']
        exact hr.table
      · rw [hb'] at hki
        obtain ⟨o, s', p', rfl, ho', hid⟩ := hr.named k hk i hki
        exact ⟨o, s', p', rfl, ho', by rw [(hlinks o).2.2.2.2, hid]⟩
    · rw [← hb']
      refine ⟨hi, ?_, ?_, hordm, hord, ?_, ?_, ?_⟩ <;> rw [hb']
      · exact holen
      · exact hllen
  · obtain ⟨g1, g2, g3, g4, g5⟩ := hr.order s p o ho
    refine ⟨by rw [hb']; show o < orders.length; rwa [holen], g2, ?_, ?_, ?_⟩
    · rw [(hlinks o).2.2.1, hi.levelIx_eq, g3]
    · rw [(hlinks o).2.2.2.1, g4]
    · by_cases hom : o = m
      · rw [hom, hordm]
        show (b.ord m).qty - take ≠ 0
        intro h0
        have h0' := congrArg UInt32.toNat h0
        rw [hsub] at h0'
        exact absurd h0' (Nat.sub_ne_zero_of_lt htake)
      · rwa [hord o hom]

/-! ### Empty books -/

def noQueues : Queues := fun _ _ => []

theorem Rep.empty (hw : Window b) (hslot : ∀ s, (b.grid s).slot = List.replicate b.ticks (-1))
    (hbits : ∀ s, (b.grid s).bits = List.replicate ((b.ticks + 63) / 64) 0)
    (hhint : ∀ s, (b.grid s).hint = -1) (hover : ∀ s, b.over_ s = ∅)
    (horders : b.freeOrders = (List.range b.orders.length).map int32)
    (hlevels : b.freeLevels = (List.range b.levels.length).map int32)
    (ht : b.ids.WF OpenHashMap.hash)
    (hids : ∀ k ≠ OpenHashMap.kEmpty, OpenHashMap.lookup b.ids k = none) : Rep b noQueues := by
  have hget : ∀ s t, (b.grid s).slot.getD t (-1) = -1 := by
    intro s t
    rw [hslot, List.getD_eq_getElem?_getD, List.getElem?_replicate]
    split <;> rfl
  have hix : ∀ s p, b.levelIx s p = -1 := by
    intro s p
    rw [levelIx, hget, hover]
    split <;> rfl
  have hbit : ∀ s t, bitAt (b.grid s).bits t = false := by
    intro s t
    rw [bitAt, hbits, List.getD_eq_getElem?_getD, List.getElem?_replicate]
    split <;> exact BitVec.getLsbD_zero
  refine ⟨⟨⟨hw, fun s => ?_, fun s => ?_, fun s t => ?_, fun s => Or.inl (hhint s),
    fun s p li h => ?_⟩, fun s p h => ?_, fun _ _ _ => rfl, fun s p _ _ h => ?_,
    fun s p o h => ?_, ?_⟩, fun s p h => ?_, ?_, ht, fun k hk i h => ?_⟩
  · rw [hslot, List.length_replicate]
  · rw [hbits, List.length_replicate]
  · rw [hbit, hget]
    simp
  · rw [hover] at h
    cases h
  · rw [hix] at h
    omega
  · rw [hix] at h
    omega
  · cases h
  · rw [hlevels]
    refine FreeOk.fresh fun n _ s p => ?_
    rw [hix]
    omega
  · rw [hix] at h
    omega
  · rw [horders]
    exact FreeOk.fresh fun n _ s p h => by cases h
  · rw [hids k hk] at h
    cases h

theorem Rep.make {lo hi : Price} {maxOrders maxLevels : ℕ}
    (h : make lo hi maxOrders maxLevels = some b) :
    Rep b noQueues ∧ b.ids.size = 0 ∧ b.rejected = 0 ∧ b.nextSeq = 1 ∧
      b.orders.length = maxOrders ∧ b.levels.length = maxLevels ∧
      ∀ k ≠ OpenHashMap.kEmpty, OpenHashMap.lookup b.ids k = none := by
  have hw := make_window h
  obtain ⟨-, ids, ticks, hids, -, rfl⟩ := make_some h
  obtain ⟨hwf, -, hsize, hnone⟩ := OpenHashMap.WF.make (h := OpenHashMap.hash) hids
  refine ⟨Rep.empty hw (fun _ => rfl) (fun _ => rfl) (fun _ => rfl) (fun _ => rfl) ?_ ?_ hwf hnone,
    hsize, rfl, rfl, List.length_replicate, List.length_replicate, hnone⟩
  · rw [List.length_replicate]
  · rw [List.length_replicate]

theorem Rep.clear (hr : Rep b Q) :
    Rep b.clear noQueues ∧ b.clear.ids.size = 0 ∧
      ∀ k ≠ OpenHashMap.kEmpty, OpenHashMap.lookup b.clear.ids k = none := by
  obtain ⟨hwf, -, hsize, hnone⟩ := hr.table.clear
  refine ⟨Rep.empty ?_ (fun s => ?_) (fun s => ?_) (fun _ => rfl) (fun _ => rfl) rfl rfl hwf hnone,
    hsize, hnone⟩
  · obtain ⟨ha, hp, ht⟩ := hr.grid.window
    exact ⟨ha, hp, ht⟩
  · show ((b.grid s).slot.map fun _ => (-1 : ℤ)) = _
    rw [List.map_const', hr.grid.slots]
    rfl
  · show ((b.grid s).bits.map fun _ => (0 : Word)) = _
    rw [List.map_const', hr.grid.words]
    rfl

/-! ### Reducing, removing and replacing -/

theorem Rep.found (hr : Rep b Q) (href : ref ≠ OpenHashMap.kEmpty) :
    OpenHashMap.lookup b.ids ref = none ∨
    ∃ (m : ℕ) (s : Side) (p : Price) (l r : List ℕ), OpenHashMap.lookup b.ids ref = some (m : ℤ) ∧
      Q s p = l ++ m :: r ∧ (b.ord m).id = ref ∧ (b.ord m).side = s ∧
      subscript b.orders (m : ℤ) = some (b.ord m) := by
  cases hl : OpenHashMap.lookup b.ids ref with
  | none => exact Or.inl rfl
  | some i =>
    obtain ⟨m, s, p, rfl, hm, hid⟩ := hr.named ref href i hl
    obtain ⟨l, r, hq⟩ := List.append_of_mem hm
    have ho := hr.order s p m hm
    exact Or.inr ⟨m, s, p, l, r, rfl, hq, hid, ho.side, subscript_cast ho.inPool _⟩

theorem Rep.reduce_cases (hr : Rep b Q) (href : ref ≠ OpenHashMap.kEmpty) (qty : Qty) :
    (OpenHashMap.lookup b.ids ref = none ∧ b.reduce ref qty = some b) ∨
    ∃ (m : ℕ) (s : Side) (p : Price) (l r : List ℕ), OpenHashMap.lookup b.ids ref = some (m : ℤ) ∧
      Q s p = l ++ m :: r ∧ (b.ord m).id = ref ∧ (b.ord m).side = s ∧
      ((¬qty < (b.ord m).qty ∧ ∃ b', b.reduce ref qty = some b' ∧
          Rep b' (set2 Q s p (l ++ r)) ∧ Pulled b b' ref s p (l ++ r = [])) ∨
        (qty < (b.ord m).qty ∧ ∃ b', b.reduce ref qty = some b' ∧ Rep b' Q ∧ Cut b b' m qty)) := by
  have hfind := hr.table.find_spec href
  rcases hr.found href with hl | ⟨m, s, p, l, r, hl, hq, hid, hs, hsub⟩
  · left
    rw [hl] at hfind
    refine ⟨hl, ?_⟩
    simp only [reduce, hfind, Option.bind_eq_bind, Option.bind_some]
    rfl
  · right
    refine ⟨m, s, p, l, r, hl, hq, hid, hs, ?_⟩
    rw [hl] at hfind
    by_cases hlt : qty < (b.ord m).qty
    · right
      have hne : ¬qty = (b.ord m).qty := fun he => UInt32.lt_irrefl _ (he ▸ hlt)
      obtain ⟨orders, levels, h1, h2, hr', hcut⟩ :=
        hr.cut (s := s) (p := p) (by simp [hq]) (UInt32.lt_iff_toNat_lt.mp hlt)
      refine ⟨hlt, _, ?_, hr', hcut⟩
      simp only [reduce, hfind, hsub, Option.bind_eq_bind, Option.bind_some, if_pos hlt,
        if_neg hne, h1, h2]
      rfl
    · left
      obtain ⟨b', h1, hr', hp⟩ := hr.retire href hl hq
      refine ⟨hlt, b', ?_, hr', hp⟩
      simp only [reduce, hfind, hsub, Option.bind_eq_bind, Option.bind_some, if_neg hlt, if_true]
      exact h1

theorem Rep.remove_cases (hr : Rep b Q) (href : ref ≠ OpenHashMap.kEmpty) :
    (OpenHashMap.lookup b.ids ref = none ∧ b.remove ref = some b) ∨
    ∃ (m : ℕ) (s : Side) (p : Price) (l r : List ℕ) (b' : HybridBook),
      OpenHashMap.lookup b.ids ref = some (m : ℤ) ∧ Q s p = l ++ m :: r ∧ (b.ord m).id = ref ∧
      (b.ord m).side = s ∧ b.remove ref = some b' ∧ Rep b' (set2 Q s p (l ++ r)) ∧
      Pulled b b' ref s p (l ++ r = []) := by
  have hfind := hr.table.find_spec href
  rcases hr.found href with hl | ⟨m, s, p, l, r, hl, hq, hid, hs, -⟩
  · left
    rw [hl] at hfind
    refine ⟨hl, ?_⟩
    simp only [remove, hfind, Option.bind_eq_bind, Option.bind_some]
    rfl
  · right
    rw [hl] at hfind
    obtain ⟨b', h1, hr', hp⟩ := hr.retire href hl hq
    refine ⟨m, s, p, l, r, b', hl, hq, hid, hs, ?_, hr', hp⟩
    simp only [remove, hfind, Option.bind_eq_bind, Option.bind_some]
    exact h1

theorem Rep.replace_cases (hr : Rep b Q) (href : ref ≠ OpenHashMap.kEmpty) (new : OrderId)
    (p' : Price) (qty : Qty) :
    (OpenHashMap.lookup b.ids ref = none ∧ b.replace ref new p' qty = some b) ∨
    ∃ (m : ℕ) (s : Side) (p : Price) (l r : List ℕ) (b1 : HybridBook),
      OpenHashMap.lookup b.ids ref = some (m : ℤ) ∧ Q s p = l ++ m :: r ∧ (b.ord m).id = ref ∧
      (b.ord m).side = s ∧ b.retire ref m = some b1 ∧ Rep b1 (set2 Q s p (l ++ r)) ∧
      Pulled b b1 ref s p (l ++ r = []) ∧ b.replace ref new p' qty = b1.add new s p' qty := by
  have hfind := hr.table.find_spec href
  rcases hr.found href with hl | ⟨m, s, p, l, r, hl, hq, hid, hs, hsub⟩
  · left
    rw [hl] at hfind
    refine ⟨hl, ?_⟩
    simp only [HybridBook.replace, hfind, Option.bind_eq_bind, Option.bind_some]
    rfl
  · right
    rw [hl] at hfind
    obtain ⟨b1, h1, hr', hp⟩ := hr.retire href hl hq
    refine ⟨m, s, p, l, r, b1, hl, hq, hid, hs, h1, hr', hp, ?_⟩
    simp only [HybridBook.replace, hfind, hsub, Option.bind_eq_bind, Option.bind_some, h1, hs]

end Hotpath.Book.HybridBook
