import Hotpath.Sim.Quoting

/-!
# The naive model never fills less

Two market makers differ in the fill model only and see the same inputs, with
no latency. Per event the naive one can fill less: it may be waiting for the
touch while the other still rests. What holds is a lead since the two last
joined together: the naive quotes are at least as many lives on, and their fills
at least as many shares.
-/

namespace Hotpath.Sim
open Hotpath.Book

namespace MarketMaker

/-- One side of the two runs. `dn` and `dq` are the totals when both last joined
at one touch, `fn` and `fq` the shares filled since, `mn` and `mq` the lives
begun since; a life is `size` shares. -/
structure Lead (size : ℕ) (qn qq : Quote) (tn tq : ℕ) : Prop where
  idleN : qn.inFlight = false
  idleQ : qq.inFlight = false
  price : qn.active = true → qq.active = true → qn.px = qq.px
  capN : qn.active = true → qn.remaining.toNat ≤ size ∧ (0 < size → 0 < qn.remaining.toNat)
  capQ : qq.active = true → qq.remaining.toNat ≤ size ∧ (0 < size → 0 < qq.remaining.toNat)
  lives : ∃ dn dq fn fq mn mq : ℕ, tn = dn + fn ∧ tq = dq + fq ∧ dq ≤ dn ∧ fq ≤ fn ∧
    fn + live qn = mn * size ∧ fq + live qq = mq * size ∧ mq * size ≤ mn * size

variable {size tn tq : ℕ} {qn qq qn' qq' : Quote} {s : Side} {pre : Pre} {e : BookEvent}

theorem Lead.le (h : Lead size qn qq tn tq) : tq ≤ tn := by
  obtain ⟨dn, dq, fn, fq, -, -, rfl, rfl, hd, hf, -⟩ := h.lives
  exact Nat.add_le_add hd hf

theorem live_active {q : Quote} (h : q.active = true) : live q = q.remaining.toNat := by
  rw [live, if_pos h]

theorem live_inactive {q : Quote} (h : ¬q.active = true) : live q = 0 := by
  rw [live, if_neg h]

theorem Taken.cap {q q' : Quote} {fills : List Fill} {f : ℕ} (ht : Taken s q q' fills f)
    (hc : q.active = true → q.remaining.toNat ≤ size ∧ (0 < size → 0 < q.remaining.toNat)) :
    q'.active = true → q'.remaining.toNat ≤ size ∧ (0 < size → 0 < q'.remaining.toNat) := by
  intro ha
  have hq := ht.active ha
  obtain ⟨h1, h2⟩ := hc hq
  have hl := ht.live
  rw [live_active ha, live_active hq] at hl
  exact ⟨by omega, fun h0 => ht.left ha (h2 h0)⟩

theorem Lead.fill (h : Lead size qn qq tn tq) {fillsN fillsQ : List Fill} {f g : ℕ}
    (hn : Taken s qn qn' fillsN f) (hq : Taken s qq qq' fillsQ g)
    (hf : hits s qn pre e → f = min e.shares.toNat qn.remaining.toNat)
    (hg : hits s qq pre e → g ≤ min e.shares.toNat qq.remaining.toNat)
    (hg0 : ¬hits s qq pre e → g = 0) : Lead size qn' qq' (tn + f) (tq + g) := by
  obtain ⟨dn, dq, fn, fq, mn, mq, rfl, rfl, hd, hfl, hln, hlq, hm⟩ := h.lives
  have hln' := hn.live
  have hlq' := hq.live
  refine ⟨hn.inFlight.trans h.idleN, hq.inFlight.trans h.idleQ, fun ha hb => ?_, hn.cap h.capN,
    hq.cap h.capQ, dn, dq, fn + f, fq + g, mn, mq, by omega, by omega, hd, ?_, by omega, by omega,
    hm⟩
  · rw [hn.px, hq.px]
    exact h.price (hn.active ha) (hq.active hb)
  · by_cases hit : hits s qq pre e
    · have hqa := hit.1
      have hgq := hg hit
      have hlive := live_active hqa
      by_cases hna : qn.active = true
      · -- both rest at one price, so both are hit
        have hpx := h.price hna hqa
        have hitn : hits s qn pre e := ⟨hna, hit.2.1, hit.2.2.1, by rw [hpx]; exact hit.2.2.2⟩
        have hfn := hf hitn
        have hliven := live_active hna
        omega
      · -- the naive quote has ended its life, which counts in full
        have hliven := live_inactive hna
        omega
    · rw [hg0 hit]
      omega

/-- How a side comes out of a requote without latency. -/
def Requoted (size : ℕ) (target : Price) (allow : Bool) (q q' : Quote) : Prop :=
  (settled q target allow ∧ q' = q) ∨
    (¬settled q target allow ∧ q'.inFlight = false ∧ q'.active = allow ∧
      (allow = true → q'.px = target ∧ q'.remaining.toNat = size))

theorem Requoted.away {target : Price} {q q' : Quote} (h : Requoted size target false q q')
    (hi : q.inFlight = false) : q'.inFlight = false ∧ ¬q'.active = true := by
  rcases h with ⟨hs, rfl⟩ | ⟨-, h1, h2, -⟩
  · exact ⟨hi, by rw [hs.1]; simp⟩
  · exact ⟨h1, by rw [h2]; simp⟩

theorem settled_active {q : Quote} {target : Price} :
    settled q target true ↔ q.active = true ∧ q.px = target := by
  unfold settled
  constructor
  · rintro ⟨h1, h2⟩
    exact ⟨h1, h2.resolve_left (not_not.mpr h1)⟩
  · rintro ⟨h1, h2⟩
    exact ⟨h1, Or.inr h2⟩

theorem Lead.requote (h : Lead size qn qq tn tq) {target : Price} {allow : Bool}
    (hn : Requoted size target allow qn qn') (hq : Requoted size target allow qq qq') :
    Lead size qn' qq' tn tq := by
  cases allow with
  | false =>
    obtain ⟨in', an⟩ := hn.away h.idleN
    obtain ⟨iq, aq⟩ := hq.away h.idleQ
    have hln := live_inactive an
    have hlq := live_inactive aq
    exact ⟨in', iq, fun ha => absurd ha an, fun ha => absurd ha an, fun ha => absurd ha aq,
      tn, tq, 0, 0, 0, 0, rfl, rfl, h.le, le_rfl, by omega, by omega, le_rfl⟩
  | true =>
    obtain ⟨dn, dq, fn, fq, mn, mq, htn, htq, hd, hf, hln, hlq, hm⟩ := h.lives
    rcases hn with ⟨sn, rfl⟩ | ⟨sn, in', an, jn⟩ <;> rcases hq with ⟨sq, rfl⟩ | ⟨sq, iq, aq, jq⟩
    · exact h
    · -- only the queue-aware quote joins: its life had ended, and the naive one is in a later one
      obtain ⟨pq, rq⟩ := jq rfl
      obtain ⟨ha, hp⟩ := settled_active.mp sn
      have hqq : ¬qq.active = true := fun hc =>
        sq (settled_active.mpr ⟨hc, (h.price ha hc).symm.trans hp⟩)
      have hl0 := live_inactive hqq
      have hl1 := live_active ha
      have hl2 : live qq' = size := by rw [live_active aq, rq]
      obtain ⟨hle, hpos⟩ := h.capN ha
      refine ⟨h.idleN, iq, fun _ _ => hp.trans pq.symm, h.capN, fun _ => ⟨rq.le, fun h0 => by omega⟩,
        dn, dq, fn, fq, mn, mq + 1, htn, htq, hd, hf, hln, ?_, ?_⟩
      · rw [hl2, Nat.add_mul, Nat.one_mul]
        omega
      · by_cases h0 : 0 < size
        · have hlt : mq * size < mn * size := by
            have := hpos h0
            omega
          exact Nat.mul_le_mul_right size (Nat.lt_of_mul_lt_mul_right hlt)
        · have hz : size = 0 := by omega
          rw [hz]
          exact Nat.le_refl _
    · -- only the naive quote joins: it begins one more life
      obtain ⟨pn, rn⟩ := jn rfl
      obtain ⟨ha, hp⟩ := settled_active.mp sq
      have hqn : ¬qn.active = true := fun hc =>
        sn (settled_active.mpr ⟨hc, (h.price hc ha).trans hp⟩)
      have hl0 := live_inactive hqn
      have hl2 : live qn' = size := by rw [live_active an, rn]
      refine ⟨in', h.idleQ, fun _ _ => pn.trans hp.symm, fun _ => ⟨rn.le, fun h0 => by omega⟩, h.capQ,
        dn, dq, fn, fq, mn + 1, mq, htn, htq, hd, hf, ?_, hlq, ?_⟩
      · rw [hl2, Nat.add_mul, Nat.one_mul]
        omega
      · exact hm.trans (Nat.mul_le_mul_right size (Nat.le_succ mn))
    · -- both join at the new touch
      obtain ⟨pn, rn⟩ := jn rfl
      obtain ⟨pq, rq⟩ := jq rfl
      have hl1 : live qn' = size := by rw [live_active an, rn]
      have hl2 : live qq' = size := by rw [live_active aq, rq]
      exact ⟨in', iq, fun _ _ => pn.trans pq.symm, fun _ => ⟨rn.le, fun h0 => by omega⟩,
        fun _ => ⟨rq.le, fun h0 => by omega⟩, tn, tq, 0, 0, 1, 1, rfl, rfl, h.le, le_rfl,
        by omega, by omega, le_rfl⟩

/-! ### The two runs -/

structure Lock (n q : MarketMaker) (tn tq : Side → ℕ) : Prop where
  book : q.book = n.book
  quoteSize : q.quoteSize = n.quoteSize
  latencyN : n.latency = 0
  latencyQ : q.latency = 0
  modelN : n.fillModel = .naive
  modelQ : q.fillModel = .queueAware
  allow : q.allow = n.allow
  lead : ∀ s, Lead n.quoteSize.toNat (n.quote s) (q.quote s) (tn s) (tq s)

variable {n q n' q' : MarketMaker} {tN tQ : Side → ℕ}

theorem Lock.landEarlier (h : Lock n q tN tQ) {now : Ts} {n1 q1 : MarketMaker}
    (hn : n.landEarlier now = some n1) (hq : q.landEarlier now = some q1) : Lock n1 q1 tN tQ := by
  obtain ⟨⟨bb, ba, n2, hqn, hbn⟩, sn, ln, mn, an, qn, -⟩ :=
    landEarlier_idle (fun s => (h.lead s).idleN) hn
  obtain ⟨⟨bb', ba', q2, hqq, hbq⟩, sq, lq, mq, aq, qq, -⟩ :=
    landEarlier_idle (fun s => (h.lead s).idleQ) hq
  obtain ⟨b1, b2, g1, g2, rfl⟩ := queryTouch_some.mp hqn
  obtain ⟨c1, c2, k1, k2, rfl⟩ := queryTouch_some.mp hqq
  rw [h.book, g1] at k1
  obtain ⟨-, rfl⟩ := Prod.mk.inj (Option.some.inj k1)
  rw [g2] at k2
  obtain ⟨-, rfl⟩ := Prod.mk.inj (Option.some.inj k2)
  refine ⟨by rw [hbn, hbq], by rw [sn, sq, h.quoteSize], ln.trans h.latencyN,
    lq.trans h.latencyQ, mn.trans h.modelN, mq.trans h.modelQ, by rw [an, aq, h.allow], fun s => ?_⟩
  rw [sn, qn, qq]
  exact h.lead s

theorem Lock.resolve (h : Lock n q tN tQ) (e : BookEvent) : q.resolve e = n.resolve e := by
  simp only [MarketMaker.resolve, h.book]

theorem Lock.setBook (h : Lock n q tN tQ) (b : HybridBook) :
    Lock { n with book := b } { q with book := b } tN tQ :=
  ⟨rfl, h.quoteSize, h.latencyN, h.latencyQ, h.modelN, h.modelQ, h.allow, h.lead⟩

theorem Lock.stepSides (h : Lock n q tN tQ) (pre : Option Pre) (e : BookEvent) :
    Lock (n.stepSides pre e).1 (q.stepSides pre e).1
      (fun s => tN s + shares s (n.stepSides pre e).2)
      (fun s => tQ s + shares s (q.stepSides pre e).2) := by
  cases pre with
  | none => exact h
  | some pre =>
    obtain ⟨dn, hqn, -, -⟩ := @stepSides_some n e pre
    obtain ⟨dq, hqq, -, -⟩ := @stepSides_some q e pre
    refine ⟨by rw [dn.book, dq.book, h.book], by rw [dn.quoteSize, dq.quoteSize, h.quoteSize],
      dn.latency.trans h.latencyN, dq.latency.trans h.latencyQ, dn.fillModel.trans h.modelN,
      dq.fillModel.trans h.modelQ, by rw [dn.allow, dq.allow, h.allow], fun s => ?_⟩
    have hsn : ∀ s x, x ∈ (stepSide n.fillModel (n.quote s) (n.pos s) s pre e).2.2 →
        x.side = s := by
      intro s x hx
      rw [h.modelN] at hx
      obtain ⟨f, ht, -⟩ := stepSide_naive (n.quote s) (n.pos s) s pre e
      exact ht.side x hx
    have hsq : ∀ s x, x ∈ (stepSide q.fillModel (q.quote s) (q.pos s) s pre e).2.2 →
        x.side = s := by
      intro s x hx
      rw [h.modelQ] at hx
      obtain ⟨f, ht, -⟩ := stepSide_queueAware (q.quote s) (q.pos s) s pre e
      exact ht.side x hx
    rw [hqn, hqq, dn.quoteSize, shares_stepSides pre s hsn, shares_stepSides pre s hsq, h.modelN,
      h.modelQ]
    obtain ⟨f, htn, hf, -⟩ := stepSide_naive (n.quote s) (n.pos s) s pre e
    obtain ⟨g, htq, hg, hg0⟩ := stepSide_queueAware (q.quote s) (q.pos s) s pre e
    rw [htn.shares, htq.shares]
    exact (h.lead s).fill htn htq hf hg hg0

theorem Lock.requote (h : Lock n q tN tQ) {now : Ts} (hn : n.requote now = some n')
    (hq : q.requote now = some q') : Lock n' q' tN tQ := by
  obtain ⟨bb, ba, n1, hqn, dn, casen⟩ := requote_zero h.latencyN (fun s => (h.lead s).idleN) hn
  obtain ⟨bb', ba', q1, hqq, dq, caseq⟩ := requote_zero h.latencyQ (fun s => (h.lead s).idleQ) hq
  obtain ⟨b1, b2, g1, g2, rfl⟩ := queryTouch_some.mp hqn
  obtain ⟨c1, c2, k1, k2, rfl⟩ := queryTouch_some.mp hqq
  rw [h.book, g1] at k1
  obtain ⟨rfl, rfl⟩ := Prod.mk.inj (Option.some.inj k1)
  rw [g2] at k2
  obtain ⟨rfl, rfl⟩ := Prod.mk.inj (Option.some.inj k2)
  refine ⟨dq.book.trans dn.book.symm, (dq.quoteSize.trans h.quoteSize).trans dn.quoteSize.symm,
    dn.latency.trans h.latencyN, dq.latency.trans h.latencyQ, dn.fillModel.trans h.modelN,
    dq.fillModel.trans h.modelQ, (dq.allow.trans h.allow).trans dn.allow.symm, fun s => ?_⟩
  have hsize : n'.quoteSize = n.quoteSize := dn.quoteSize
  rw [hsize]
  rcases casen with ⟨hu, en⟩ | ⟨hu, en⟩ <;> rcases caseq with ⟨hu', eq⟩ | ⟨hu', eq⟩
  · rw [en, eq]
    exact h.lead s
  · exact absurd hu' hu
  · exact absurd hu hu'
  · have rn : Requoted n.quoteSize.toNat (touchOf bb ba s) (n.allow s) (n.quote s) (n'.quote s) := by
      rcases en s with hs | ⟨h1, h2, h3, h4⟩
      · exact Or.inl hs
      · exact Or.inr ⟨h1, h2, h3, fun ha => ⟨(h4 ha).1, by rw [(h4 ha).2.1]⟩⟩
    have rq : Requoted n.quoteSize.toNat (touchOf bb ba s) (n.allow s) (q.quote s) (q'.quote s) := by
      rw [← h.allow, ← h.quoteSize]
      rcases eq s with hs | ⟨h1, h2, h3, h4⟩
      · exact Or.inl hs
      · exact Or.inr ⟨h1, h2, h3, fun ha => ⟨(h4 ha).1, by rw [(h4 ha).2.1]⟩⟩
    exact (h.lead s).requote rn rq

theorem Lock.input (h : Lock n q tN tQ) (x : Input) {fn fq : List Fill}
    (hn : n.input x = some (n', fn)) (hq : q.input x = some (q', fq)) :
    Lock n' q' (fun s => tN s + shares s fn) (fun s => tQ s + shares s fq) := by
  cases x with
  | quoting bid ask =>
    obtain ⟨rfl, rfl⟩ := Prod.mk.inj (Option.some.inj hn)
    obtain ⟨rfl, rfl⟩ := Prod.mk.inj (Option.some.inj hq)
    exact ⟨h.book, h.quoteSize, h.latencyN, h.latencyQ, h.modelN, h.modelQ, rfl, h.lead⟩
  | event e =>
    obtain ⟨n1, pn, bn, en, rn, sn, zn, rfl⟩ := onEvent_some hn
    obtain ⟨q1, pq, bq, eq, rq, sq, zq, rfl⟩ := onEvent_some hq
    have h1 := h.landEarlier en eq
    rw [h1.resolve, rn] at rq
    obtain rfl := Option.some.inj rq
    rw [h1.book, sn] at sq
    obtain rfl := Option.some.inj sq
    exact ((h1.setBook bn).stepSides pn e).requote zn zq

theorem Lock.run (h : Lock n q tN tQ) (xs : List Input) {fn fq : List Fill}
    (hn : n.run xs = some (n', fn)) (hq : q.run xs = some (q', fq)) :
    Lock n' q' (fun s => tN s + shares s fn) (fun s => tQ s + shares s fq) := by
  induction xs generalizing n q tN tQ fn fq with
  | nil =>
    obtain ⟨rfl, rfl⟩ := Prod.mk.inj (Option.some.inj hn)
    obtain ⟨rfl, rfl⟩ := Prod.mk.inj (Option.some.inj hq)
    exact h
  | cons x xs ih =>
    obtain ⟨n1, f1, f2, hn1, hn2, rfl⟩ := run_cons hn
    obtain ⟨q1, g1, g2, hq1, hq2, rfl⟩ := run_cons hq
    have hrest := ih (h.input x hn1 hq1) hn2 hq2
    simp only [shares_append, ← Nat.add_assoc]
    exact hrest

/-- At every point of every stream, with any `setQuoting` calls, the naive run has
filled at least as many shares on each side. -/
theorem naive_fills_at_least (lo hi : Price) (size : Qty) (maxOrders maxLevels : ℕ)
    (n0 q0 : MarketMaker) (hn0 : make lo hi size 0 .naive maxOrders maxLevels = some n0)
    (hq0 : make lo hi size 0 .queueAware maxOrders maxLevels = some q0) (xs : List Input)
    (n q : MarketMaker) (fn fq : List Fill) (hn : n0.run xs = some (n, fn))
    (hq : q0.run xs = some (q, fq)) (s : Side) : shares s fq ≤ shares s fn := by
  obtain ⟨b, hb, rfl⟩ := make_some hn0
  obtain ⟨b', hb', rfl⟩ := make_some hq0
  rw [hb] at hb'
  obtain rfl := Option.some.inj hb'
  have hlock : Lock { book := b, quoteSize := size, latency := 0, fillModel := .naive }
      { book := b, quoteSize := size, latency := 0, fillModel := .queueAware }
      (fun _ => 0) (fun _ => 0) := by
    refine ⟨rfl, rfl, rfl, rfl, rfl, rfl, rfl, fun s => ⟨rfl, rfl, fun h => ?_, fun h => ?_,
      fun h => ?_, 0, 0, 0, 0, 0, 0, rfl, rfl, le_rfl, le_rfl, ?_, ?_, le_rfl⟩⟩
    · cases h
    · cases h
    · cases h
    · rw [Nat.zero_mul]
      rfl
    · rw [Nat.zero_mul]
      rfl
  have hle := ((hlock.run xs hn hq).lead s).le
  rwa [Nat.zero_add, Nat.zero_add] at hle

/-- Behind five shares the naive quote fills and the queued one does not. -/
theorem naive_fills_at_least_one : ∃ n0 q0 n q : MarketMaker, ∃ fn fq, ∃ xs : List Input,
    make 100 300 3 0 .naive 4 4 = some n0 ∧ make 100 300 3 0 .queueAware 4 4 = some q0 ∧
    n0.run xs = some (n, fn) ∧ q0.run xs = some (q, fq) ∧ shares .buy fn = 3 ∧
    shares .buy fq = 0 ∧ shares .buy fq ≤ shares .buy fn := by
  let xs : List Input := [.event ⟨1, 1, 0, 200, 5, .add, .buy⟩,
    .event ⟨2, 2, 0, 300, 5, .add, .sell⟩, .event ⟨3, 1, 0, 0, 4, .execute, .buy⟩]
  have hn : ((make 100 300 3 0 .naive 4 4).bind fun n0 =>
      (n0.run xs).map fun r => shares .buy r.2) = some 3 := by decide +kernel
  have hq : ((make 100 300 3 0 .queueAware 4 4).bind fun q0 =>
      (q0.run xs).map fun r => shares .buy r.2) = some 0 := by decide +kernel
  obtain ⟨n0, hn0, hn⟩ := Option.bind_eq_some_iff.mp hn
  obtain ⟨⟨n, fn⟩, hn, hfn⟩ := Option.map_eq_some_iff.mp hn
  obtain ⟨q0, hq0, hq⟩ := Option.bind_eq_some_iff.mp hq
  obtain ⟨⟨q, fq⟩, hq, hfq⟩ := Option.map_eq_some_iff.mp hq
  exact ⟨n0, q0, n, q, fn, fq, xs, hn0, hq0, hn, hq, hfn, hfq,
    naive_fills_at_least 100 300 3 4 4 n0 q0 hn0 hq0 xs n q fn fq hn hq .buy⟩

end MarketMaker

end Hotpath.Sim
