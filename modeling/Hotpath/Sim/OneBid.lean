import Hotpath.Book.HybridOneBid
import Hotpath.Sim.Total
import Hotpath.Sim.Touch

/-!
# A market maker over a single bid

A book of one bid knows its best prices, and while nobody offers no quote is out:
a stream of replacements of the bid changes its ref and its stamp and nothing
else.
-/

namespace Hotpath.Sim
open Hotpath.Book Hotpath.Book.HybridBook Hotpath.Support

namespace MarketMaker

variable {mm mm' : MarketMaker} {s : Side} {e : BookEvent} {b b' : HybridBook} {Q : Queues}
  {fills : List Fill}

/-! ### Books of one order -/

/-- With one level on each side at most, the cached ticks are right. -/
theorem hintOk_of_one (hr : Rep b Q) (hone : ∀ s p p', Q s p ≠ [] → Q s p' ≠ [] → p' = p) :
    HintOk b := by
  intro s
  cases hr.grid.hint s with
  | inl h => exact Or.inl h
  | inr h =>
    obtain ⟨t, ht, -, hu⟩ := h
    refine Or.inr (Or.inr ⟨t, ht, hu, fun u hu' => Or.inl ?_⟩)
    obtain ⟨htl, htq⟩ := hr.used_iff.mp hu
    obtain ⟨hul, huq⟩ := hr.used_iff.mp hu'
    have hp := hone s _ _ htq huq
    rw [← hr.grid.window.tickOf_priceOf htl, ← hr.grid.window.tickOf_priceOf hul, hp]

/-- The touch of a book whose cached ticks are right. -/
theorem touch_best {bb ba : Price} {mm1 : MarketMaker} (hr : Rep mm.book Q)
    (hone : ∀ s p p', Q s p ≠ [] → Q s p' ≠ [] → p' = p) (hz : ∀ s, Q s kInvalidPrice = [])
    (h : mm.queryTouch = some (bb, ba, mm1)) :
    (∃ r r', mm1 = { mm with book := (mm.book.setHint .buy r).setHint .sell r' }) ∧
      Rep mm1.book Q ∧ IsBestPrice Q .buy bb ∧ IsBestPrice Q .sell ba := by
  obtain ⟨b1, b2, h1, h2, rfl⟩ := queryTouch_some.mp h
  obtain ⟨px, r, hb, -, hbest, hr1, -⟩ := hr.best_eq (hintOk_of_one hr hone) hz .buy
  rw [bestBid, hb] at h1
  obtain ⟨rfl, rfl⟩ := Prod.mk.inj (Option.some.inj h1)
  obtain ⟨px', r', ha, -, hbest', hr2, -⟩ := hr1.best_eq (hintOk_of_one hr1 hone) hz .sell
  rw [bestAsk, ha] at h2
  obtain ⟨rfl, rfl⟩ := Prod.mk.inj (Option.some.inj h2)
  exact ⟨⟨r, r', rfl⟩, hr2, hbest, hbest'⟩

variable {ref new : OrderId} {seq : UInt32}

theorem bid_touch {bb ba : Price} {mm1 : MarketMaker} (hb : OneBid mm.book ref seq)
    (h : mm.queryTouch = some (bb, ba, mm1)) :
    OneBid mm1.book ref seq ∧ usable bb ba = false := by
  obtain ⟨hro, hsize, hstamp, n, hr, hlk, hqty⟩ := hb
  have hone : ∀ s p p', bids [n] s p ≠ [] → bids [n] s p' ≠ [] → p' = p := fun s p p' h h' => by
    rw [(bids_one h).2, (bids_one h').2]
  have hz : ∀ s, bids [n] s kInvalidPrice = [] := by
    intro s
    by_contra hc
    exact absurd (bids_one hc).2 (by decide)
  obtain ⟨⟨r, r', hmm1⟩, hr1, -, hask⟩ := touch_best hr hone hz h
  refine ⟨?_, ?_⟩
  · rw [hmm1] at hr1 ⊢
    exact ⟨⟨⟨hro.small.orders, hro.small.levels⟩, hro.orders, hro.levels, hro.ids, hro.rejected⟩,
      hsize, hstamp, n, hr1, hlk, hqty⟩
  · cases hask with
    | inl h =>
      rw [h.1]
      simp [usable]
    | inr h => exact absurd (bids_one h.1).1 (by simp)

theorem smallLevels_of_one (hr : Rep b Q) (hone : ∀ s p, (Q s p).length ≤ 1) : SmallLevels b := by
  intro s p
  rw [hr.fifo_eq]
  unfold queueOf
  have hlen := hone s p
  cases hq : Q s p with
  | nil => simp [mass]
  | cons n l =>
    rw [hq, List.length_cons] at hlen
    obtain rfl : l = [] := List.length_eq_zero_iff.mp (by omega)
    have hlt := UInt32.toNat_lt (b.ord n).qty
    simpa [mass, Resting.shares, Order.resting] using hlt

theorem bid_usable (hb : OneBid b ref seq) : Usable b := by
  obtain ⟨n, hr, -⟩ := hb.bid
  exact ⟨hb.room.small, _, hr⟩

theorem bid_smallLevels (hb : OneBid b ref seq) : SmallLevels b := by
  obtain ⟨n, hr, -⟩ := hb.bid
  refine smallLevels_of_one hr fun s p => ?_
  unfold bids set2
  split
  · exact le_rfl
  · exact Nat.zero_le _

/-! ### Events -/

/-- A market maker that quotes on neither side. -/
structure Out (mm : MarketMaker) : Prop extends Idle mm where
  out : ∀ s, (mm.quote s).active = false
  allow : ∀ s, mm.allow s = true

/-- An event without a quote to step. -/
theorem Out.onEvent (ho : Out mm) (h : mm.onEvent e = some (mm', fills)) :
    ∃ bb ba mm1 b1 mm2, mm.queryTouch = some (bb, ba, mm1) ∧ mm1.book.step e.op = some b1 ∧
      mm2.book = b1 ∧ Out mm2 ∧ mm2.requote e.ts = some mm' := by
  obtain ⟨mm1, pre, book, hland, -, hstep, hreq, -⟩ := onEvent_some h
  obtain ⟨⟨bb, ba, mm0, hq, hbook⟩, -, hlat, -, hallow, hquote, -⟩ := landEarlier_idle ho.landed hland
  rw [hbook] at hstep
  refine ⟨bb, ba, mm0, book, _, hq, hstep, (stepSides_desk pre).book, ?_, hreq⟩
  have hidle : Idle { mm1 with book := book } :=
    ⟨hlat.trans ho.latency, fun s => by rw [hquote]; exact ho.landed s⟩
  obtain ⟨hidle2, -, hallow2⟩ := stepSides_idle hidle pre e
  refine ⟨hidle2, fun s => ?_, fun s => ?_⟩
  · cases pre with
    | none =>
      show (mm1.quote s).active = false
      rw [hquote]
      exact ho.out s
    | some pre =>
      obtain ⟨-, hq2, -, -⟩ := @stepSides_some { mm1 with book := book } e pre
      have hout : (({ mm1 with book := book } : MarketMaker).quote s).active = false := by
        show (mm1.quote s).active = false
        rw [hquote]
        exact ho.out s
      rw [hq2, stepSide, if_pos (Or.inl (by rw [hout]; simp))]
      exact hout
  · rw [hallow2]
    show mm1.allow s = true
    rw [hallow]
    exact ho.allow s

/-- While nobody offers, nobody quotes. -/
theorem Out.stay (ho : Out mm) (hb : OneBid mm.book ref seq) {now : Ts}
    (h : mm.requote now = some mm') : Out mm' ∧ OneBid mm'.book ref seq := by
  obtain ⟨bb, ba, mm1, hq, hd, hcase⟩ := requote_zero ho.latency ho.landed h
  obtain ⟨hb1, hu⟩ := bid_touch hb hq
  obtain ⟨b1, b2, -, -, hmm1⟩ := queryTouch_some.mp hq
  rcases hcase with ⟨-, hquote⟩ | ⟨hu', -⟩
  · refine ⟨⟨⟨?_, fun s => ?_⟩, fun s => ?_, fun s => ?_⟩, ?_⟩
    · rw [hd.latency, hmm1]
      exact ho.latency
    · rw [hquote]
      exact ho.landed s
    · rw [hquote]
      exact ho.out s
    · rw [hd.allow, hmm1]
      exact ho.allow s
    · rw [hd.book]
      exact hb1
  · rw [hu] at hu'
    cases hu'

def insertBid (ref : OrderId) : Input := .event ⟨1, ref, 0, 100, 5, .add, .buy⟩

/-- The event that brings the bid in. -/
theorem Out.first (ho : Out mm) (hro : Roomy mm.book) (hr : Rep mm.book noQueues)
    (hsize : mm.book.ids.size = 0) (href : ref ≠ OpenHashMap.kEmpty)
    (hnone : OpenHashMap.lookup mm.book.ids ref = none) :
    ∃ mm' fills, mm.input (insertBid ref) = some (mm', fills) ∧ Out mm' ∧
      OneBid mm'.book ref (mm.book.nextSeq + 1) := by
  obtain ⟨mm', fills, h, -⟩ := onEvent_total (e := ⟨1, ref, 0, 100, 5, .add, .buy⟩)
    ⟨hro.small, _, hr⟩ fun r hmem => by
      obtain rfl : r = ref := by simpa [BookEvent.op, Op.refs] using hmem
      exact href
  obtain ⟨bb, ba, mm1, b1, mm2, hq, hstep, rfl, ho2, hreq⟩ := ho.onEvent h
  have hne : ∀ s p p', noQueues s p ≠ [] → noQueues s p' ≠ [] → p' = p :=
    fun s p p' hc => absurd rfl hc
  obtain ⟨⟨r, r', hmm1⟩, hr1, -⟩ := touch_best hr hne (fun _ => rfl) hq
  have hb : OneBid mm2.book ref (mm1.book.nextSeq + 1) := by
    have hro1 : Roomy mm1.book := by
      rw [hmm1]
      exact ⟨⟨hro.small.orders, hro.small.levels⟩, hro.orders, hro.levels, hro.ids, hro.rejected⟩
    refine OneBid.first hro1 hr1 ?_ href ?_ hstep
    · rw [hmm1]
      exact hsize
    · rw [hmm1]
      exact hnone
  have hseq : mm1.book.nextSeq = mm.book.nextSeq := by
    rw [hmm1]
    rfl
  rw [hseq] at hb
  exact ⟨mm', fills, h, ho2.stay hb hreq⟩

/-- The event that replaces it. -/
theorem Out.next (ho : Out mm) (hb : OneBid mm.book ref seq) (href : ref ≠ OpenHashMap.kEmpty)
    (hnew : new ≠ OpenHashMap.kEmpty) (hne : new ≠ ref) :
    ∃ mm' fills, mm.input (.event ⟨1, ref, new, 100, 5, .replace, .buy⟩) = some (mm', fills) ∧
      Out mm' ∧ OneBid mm'.book new (seq + 1) := by
  obtain ⟨mm', fills, h, -⟩ := onEvent_total (e := ⟨1, ref, new, 100, 5, .replace, .buy⟩)
    (bid_usable hb) fun r hmem => by
      have hcase : r = ref ∨ r = new := by simpa [BookEvent.op, Op.refs] using hmem
      cases hcase with
      | inl he => exact he ▸ href
      | inr he => exact he ▸ hnew
  obtain ⟨bb, ba, mm1, b1, mm2, hq, hstep, rfl, ho2, hreq⟩ := ho.onEvent h
  obtain ⟨hb1, -⟩ := bid_touch hb hq
  have hb2 : OneBid mm2.book new (seq + 1) := hb1.replace href hnew hne hstep
  exact ⟨mm', fills, h, ho2.stay hb2 hreq⟩

def offer (ref : OrderId) : Input := .event ⟨1, ref, 0, 200, 5, .add, .sell⟩

/-- The offer that makes the touch: both quotes join, behind the bid and with the
stamp that comes next. -/
theorem Out.join (ho : Out mm) (hb : OneBid mm.book ref seq) (href : ref ≠ OpenHashMap.kEmpty)
    (hnew : new ≠ OpenHashMap.kEmpty) (hne : new ≠ ref) :
    ∃ mm' fills, mm.input (offer new) = some (mm', fills) ∧
      mm'.book.rejected = 0 ∧ SmallLevels mm'.book ∧ (mm'.quote .buy).active = true ∧
      (mm'.pos .buy).ahead = 5 ∧ (mm'.pos .buy).joinSeq = seq + 1 := by
  obtain ⟨mm', fills, h, -⟩ := onEvent_total (e := ⟨1, new, 0, 200, 5, .add, .sell⟩)
    (bid_usable hb) fun r hmem => by
      obtain rfl : r = new := by simpa [BookEvent.op, Op.refs] using hmem
      exact hnew
  obtain ⟨bb0, ba0, mm1, b1, mm2, hq, hstep, rfl, ho2, hreq⟩ := ho.onEvent h
  obtain ⟨hb1, -⟩ := bid_touch hb hq
  have hnone := hb1.absent href hnew hne
  obtain ⟨hro, hsize, rfl, n, hr, hlk, hqty⟩ := hb1
  have hstep' : mm1.book.add new .sell 200 5 = some mm2.book := hstep
  obtain ⟨m, hr2, hro2, -, hseq2, -, -, hqn⟩ :=
    hro.add hr le_rfl hsize.le hnew hnone (by decide) hstep'
  -- one bid and one offer
  obtain ⟨Q2, hQ2⟩ : ∃ Q2, Q2 = set2 (bids [n]) .sell 200 (bids [n] .sell 200 ++ [m]) := ⟨_, rfl⟩
  rw [← hQ2] at hr2
  have hbuy : Q2 .buy 100 = [n] := by
    rw [hQ2, set2_other (by simp), bids, set2_same]
  have hsell : Q2 .sell 200 = [m] := by
    rw [hQ2, set2_same, bids, set2_other (by simp)]
    rfl
  have hrest : ∀ s p, Q2 s p ≠ [] → p = touchOf 100 200 s := by
    intro s p hne
    rw [hQ2] at hne
    by_cases hsp : s = .sell ∧ p = 200
    · rw [hsp.1, hsp.2]
      rfl
    · rw [set2_other hsp] at hne
      obtain ⟨rfl, rfl⟩ := bids_one hne
      rfl
  have hone : ∀ s p p', Q2 s p ≠ [] → Q2 s p' ≠ [] → p' = p := fun s p p' h h' => by
    rw [hrest s p h, hrest s p' h']
  have hz : ∀ s, Q2 s kInvalidPrice = [] := by
    intro s
    by_contra hc
    have hbad := hrest s _ hc
    cases s with
    | buy => exact absurd hbad (by decide)
    | sell => exact absurd hbad (by decide)
  have hlen : ∀ s p, (Q2 s p).length ≤ 1 := by
    intro s p
    by_cases hc : Q2 s p = []
    · rw [hc]
      exact Nat.zero_le _
    · rw [hrest s p hc]
      cases s with
      | buy =>
        show (Q2 .buy 100).length ≤ 1
        rw [hbuy]
        exact le_rfl
      | sell =>
        show (Q2 .sell 200).length ≤ 1
        rw [hsell]
        exact le_rfl
  have hbest : ∀ s px, IsBestPrice Q2 s px → px = touchOf 100 200 s := by
    intro s px hbest
    cases hbest with
    | inl hnone =>
      have hne' : Q2 s (touchOf 100 200 s) ≠ [] := by
        cases s with
        | buy =>
          show Q2 .buy 100 ≠ []
          rw [hbuy]
          simp
        | sell =>
          show Q2 .sell 200 ≠ []
          rw [hsell]
          simp
      exact absurd (hnone.2 _) hne'
    | inr hsome => exact hrest s px hsome.1
  obtain ⟨bb, ba, mm3, hq3, hd, hcase⟩ := requote_zero ho2.latency ho2.landed hreq
  obtain ⟨⟨r, r', hmm3⟩, hr3, hbid, hask⟩ := touch_best hr2 hone hz hq3
  obtain rfl : bb = 100 := hbest .buy bb hbid
  obtain rfl : ba = 200 := hbest .sell ba hask
  have hrej : mm3.book.rejected = 0 := by
    rw [hmm3]
    exact hro2.rejected
  have hseq3 : mm3.book.nextSeq = mm1.book.nextSeq + 1 := by
    rw [hmm3]
    exact hseq2
  rw [← hd.book] at hr3 hrej hseq3
  have hqty3 : (mm'.book.ord n).qty = 5 := by
    rw [hd.book, hmm3]
    exact (hqn n (List.mem_singleton_self n)).trans hqty
  refine ⟨mm', fills, h, hrej, smallLevels_of_one hr3 hlen, ?_⟩
  rcases hcase with ⟨hu, -⟩ | ⟨-, hcase⟩
  · exact absurd (by decide) hu
  · rcases hcase .buy with ⟨⟨hact, -⟩, -⟩ | ⟨-, -, hact, hjoin⟩
    · rw [ho2.out, ho2.allow] at hact
      cases hact
    · rw [ho2.allow] at hact
      obtain ⟨-, -, r0, hr0, hpos⟩ := hjoin (ho2.allow .buy)
      have hr0' : resting mm'.book .buy 100 = some r0 := hr0
      rw [resting_eq hr3, queueOf, hbuy] at hr0'
      have hfive : mass Resting.shares ([n].map fun k => (mm'.book.ord k).resting) = 5 := by
        show (mm'.book.ord n).qty.toNat + 0 = 5
        rw [hqty3]
        rfl
      rw [hfive] at hr0'
      refine ⟨hact, ?_, ?_⟩
      · rw [hpos, ← Option.some.inj hr0']
        rfl
      · rw [hpos, hseq3]
        rfl

end MarketMaker

end Hotpath.Sim
