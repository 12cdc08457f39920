import Hotpath.Sim.OneBid

/-!
# The shares ahead of a quote, over runs

A watched run keeps both sides' quotes standing in their queues. The stamps
have 32 bits: the run may insert `2^32 - 2` orders before the next stamp, which
a quote that joins captures, wraps to zero.
-/

namespace Hotpath.Sim
open Hotpath.Book Hotpath.Book.HybridBook Hotpath.Support

namespace MarketMaker

variable {mm mm' : MarketMaker} {q : Quote} {pos : QueuePosition} {s : Side} {e : BookEvent}
  {b b' : HybridBook} {Q Q' : Queues} {used : List OrderId} {E : Prop} {k : ℕ}

/-! ### Runs -/

/-- The invariant of a watched run. -/
structure Sound (E : Prop) (w : Watched) (Q : Queues) (used : List OrderId) (k : ℕ) : Prop where
  ledger : Ledger w.mm.book Q used k
  model : w.mm.fillModel = .queueAware
  standing : w.mm.book.rejected = 0 → ∀ s,
    Standing E w.mm.book Q used s (w.mm.quote s) (w.mm.pos s) (w.members s)
  small : w.mm.book.rejected = 0 → E → ∀ s p,
    mass Resting.shares (queueOf w.mm.book Q s p) < 2 ^ 32

variable {w w' : Watched} {fills : List Fill}

/-- Asking for the touch changes nothing the queues show. -/
theorem Ledger.touch {mm1 : MarketMaker} {bb ba : Price} (hl : Ledger mm.book Q used k)
    (h : mm.queryTouch = some (bb, ba, mm1)) :
    ∃ b2, mm1 = { mm with book := b2 } ∧ Ledger b2 Q used k ∧
      b2.rejected = mm.book.rejected ∧ b2.nextSeq = mm.book.nextSeq ∧
      queueOf b2 Q = queueOf mm.book Q ∧ b2.isLive = mm.book.isLive := by
  obtain ⟨b1, b2, h1, h2, rfl⟩ := queryTouch_some.mp h
  obtain ⟨px, r, hf, hb⟩ := hl.rep.grid.best_some .buy
  rw [bestBid, hb] at h1
  obtain ⟨-, rfl⟩ := Prod.mk.inj (Option.some.inj h1)
  have hl1 := hl.setHint .buy hf
  obtain ⟨px', r', hf', ha⟩ := hl1.rep.grid.best_some .sell
  rw [bestAsk, ha] at h2
  obtain ⟨-, rfl⟩ := Prod.mk.inj (Option.some.inj h2)
  exact ⟨_, rfl, hl1.setHint .sell hf', rfl, rfl, rfl, rfl⟩

/-- A stage of landings on a book that only answered queries. -/
theorem Sound.land {mm1 base : MarketMaker} {bb ba : Price} {now : Ts}
    (hs : Sound E w Q used k) (hq : w.mm.queryTouch = some (bb, ba, mm1))
    (hbook : base.book = mm1.book)
    (hbase : ∀ s, (base.quote s).active = (mm1.quote s).active ∧
      (base.quote s).px = (mm1.quote s).px ∧ base.pos s = mm1.pos s)
    (hd : SameDesk mm1 w'.mm)
    (h : w' = ⟨mm1, w.members⟩ ∨ ∀ s,
      Landed base s (touchOf bb ba s) now (w'.mm.quote s) (w'.mm.pos s) ∧
      w'.members s = Watched.noted base s (touchOf bb ba s) now (w.members s)) :
    Sound E w' Q used k ∧ w'.mm.book.rejected = w.mm.book.rejected ∧
      queueOf w'.mm.book Q = queueOf w.mm.book Q := by
  obtain ⟨b2, rfl, hl2, hrej, hseq, hqs, hlive⟩ := Ledger.touch hs.ledger hq
  have hb : w'.mm.book = b2 := hd.book
  have hstand : w.mm.book.rejected = 0 → ∀ s,
      Standing E b2 Q used s (w.mm.quote s) (w.mm.pos s) (w.members s) :=
    fun h0 s => (hs.standing h0 s).book hseq hqs hlive
  refine ⟨⟨by rw [hb]; exact hl2, hd.fillModel.trans hs.model, fun h0 s => ?_, fun h0 => ?_⟩,
    by rw [hb, hrej], by rw [hb, hqs]⟩
  · rw [hb, hrej] at h0
    rw [hb]
    rcases h with rfl | h
    · exact hstand h0 s
    · obtain ⟨hland, hnoted⟩ := h s
      rw [hnoted]
      have hbb : base.book = b2 := hbook
      obtain ⟨g1, g2, g3⟩ := hbase s
      have hst : Standing E base.book Q used s (base.quote s) (base.pos s) (w.members s) := by
        rw [hbb, g3]
        exact (hstand h0 s).congr g1 g2
      have hlb : Ledger base.book Q used k := by rw [hbb]; exact hl2
      have hfin := hst.landed hlb (by rw [hbb, hrej]; exact h0)
        (fun hE => by rw [hbb, hqs]; exact hs.small h0 hE s _) hland
      rwa [hbb] at hfin
  · rw [hb, hrej] at h0
    rw [hb, hqs]
    exact hs.small h0

theorem InPriority.congr (h : InPriority b e) (hf : b'.fifo = b.fifo) : InPriority b' e :=
  ⟨by rw [hf]; exact h.front, by rw [hf]; exact h.within⟩

theorem fifo_eq (hr : Rep b Q) : b.fifo = queueOf b Q := by
  funext s p
  exact hr.fifo_eq s p

theorem decided_same (mm : MarketMaker) (bb ba : Price) (now : Ts) (s : Side) :
    ((mm.decided bb ba now).quote s).active = (mm.quote s).active ∧
      ((mm.decided bb ba now).quote s).px = (mm.quote s).px ∧
      (mm.decided bb ba now).pos s = mm.pos s := by
  rw [decided_quote]
  unfold decide
  split
  · exact ⟨rfl, rfl, rfl⟩
  · split
    · exact ⟨rfl, rfl, rfl⟩
    · exact ⟨rfl, rfl, rfl⟩

/-- The fills of an event are those of the event that the book took. -/
theorem Follows.stepSides {pre : Option Pre} {used' : List OrderId} {members : List OrderId}
    (hf : Follows E e pre b Q used b' Q' used') (hm : mm.fillModel = .queueAware)
    (hst : Standing E b Q used s (mm.quote s) (mm.pos s) members) :
    Standing E b' Q' used' s ((mm.stepSides pre e).1.quote s) ((mm.stepSides pre e).1.pos s)
      members := by
  have h := hf s _ _ _ hst
  cases pre with
  | none => exact h
  | some pre =>
    obtain ⟨-, hquote, hpos, -⟩ := @stepSides_some mm e pre
    rw [hquote, hpos, hm]
    exact h

theorem Sound.event (hs : Sound E w Q used k) (hreal : ∀ r ∈ e.op.refs, r ≠ OpenHashMap.kEmpty)
    (hnew : ∀ r, newRef e = some r → r ∉ used ∧ k + 2 < 2 ^ 32)
    (h : w.onEvent e = some (w', fills))
    (hE : E → InPriority w.mm.book e ∧ SmallLevels w'.mm.book) :
    ∃ Q', Sound E w' Q' ((newRef e).toList ++ used) (k + (newRef e).toList.length) := by
  obtain ⟨w1, pre, book, h1, h2, h3, h4⟩ := Watched.onEvent_noted h
  obtain ⟨bb0, ba0, mm1, hq1, hd1, hcase1⟩ := Watched.landEarlier_noted h1
  obtain ⟨hs1, -, hqs1⟩ := hs.land hq1 rfl (fun _ => ⟨rfl, rfl, rfl⟩) hd1 hcase1
  obtain ⟨Q', hl', hfollow⟩ := Ledger.event hs1.ledger hreal hnew h2 h3
  have hprio : E → InPriority w1.mm.book e := by
    intro hEt
    refine (hE hEt).1.congr ?_
    rw [fifo_eq hs1.ledger.rep, fifo_eq hs.ledger.rep, hqs1]
  -- the book and the quotes between the fills and the requote
  obtain ⟨w2, hw2⟩ : ∃ w2 : Watched,
      w2 = ⟨({ w1.mm with book := book }.stepSides pre e).1, w1.members⟩ := ⟨_, rfl⟩
  rw [← hw2] at h4
  have hd2 := @stepSides_desk { w1.mm with book := book } e pre
  have hb2 : w2.mm.book = book := by
    rw [hw2]
    exact hd2.book
  have hm2 : w2.mm.fillModel = .queueAware := by
    rw [hw2]
    exact hd2.fillModel.trans hs1.model
  obtain ⟨bb, ba, mm3, hq3, hd3, hcase3⟩ := Watched.requote_noted h4
  have hl2 : Ledger w2.mm.book Q' ((newRef e).toList ++ used) (k + (newRef e).toList.length) := by
    rw [hb2]
    exact hl'
  obtain ⟨b3, rfl, hl3, hrej3, -, hqs3, -⟩ := Ledger.touch hl2 hq3
  have hb3 : w'.mm.book = b3 := hd3.book
  have hs2 : Sound E w2 Q' ((newRef e).toList ++ used) (k + (newRef e).toList.length) := by
    refine ⟨hl2, hm2, fun h0 s => ?_, fun h0 hEt s p => ?_⟩
    · rw [hb2] at h0 ⊢
      obtain ⟨h0', hf⟩ := hfollow h0
      rw [hw2]
      exact (hf E hprio).stepSides hs1.model (hs1.standing h0' s)
    · have hsm := (hE hEt).2 s p
      rw [hb3, hl3.rep.fifo_eq, hqs3] at hsm
      exact hsm
  have hdec := fun s => decided_same { w2.mm with book := b3 } bb ba e.ts s
  have hsame : ({ w2.mm with book := b3 } : MarketMaker).book =
      (({ w2.mm with book := b3 } : MarketMaker).decided bb ba e.ts).book := rfl
  exact ⟨Q', (hs2.land hq3 hsame.symm hdec hd3 hcase3).1⟩

def Input.newRef : Input → Option OrderId
  | .quoting _ _ => none
  | .event e => MarketMaker.newRef e

/-- A run in time priority whose levels stay small. -/
def priorityRun : MarketMaker → List Input → Prop
  | _, [] => True
  | mm, x :: xs => (∀ e, x = .event e → InPriority mm.book e) ∧
    ∀ mm' fills, mm.input x = some (mm', fills) → SmallLevels mm'.book ∧ priorityRun mm' xs

theorem Sound.run {members : Side → List OrderId} {xs : List Input}
    (hs : Sound E ⟨mm, members⟩ Q used k)
    (hreal : ∀ x ∈ xs, ∀ r ∈ x.refs, r ≠ OpenHashMap.kEmpty)
    (hnew : ∀ r ∈ xs.filterMap Input.newRef, r ∉ used)
    (hfresh : (xs.filterMap Input.newRef).Nodup)
    (hcount : k + (xs.filterMap Input.newRef).length + 1 < 2 ^ 32)
    (h : mm.run xs = some (mm', fills)) (hE : E → priorityRun mm xs) :
    ∃ members', Watched.run ⟨mm, members⟩ xs = some (⟨mm', members'⟩, fills) ∧
      ∃ Q' used' k', Sound E ⟨mm', members'⟩ Q' used' k' := by
  induction xs generalizing mm members Q used k fills with
  | nil =>
    obtain ⟨rfl, rfl⟩ := Prod.mk.inj (Option.some.inj h)
    exact ⟨members, rfl, Q, used, k, hs⟩
  | cons x xs ih =>
    obtain ⟨mm1, f1, f2, h1, h2, rfl⟩ := run_cons h
    have hrest : ∀ y ∈ xs, ∀ r ∈ y.refs, r ≠ OpenHashMap.kEmpty :=
      fun y hy => hreal y (List.mem_cons_of_mem _ hy)
    cases x with
    | quoting bid ask =>
      obtain ⟨rfl, rfl⟩ := Prod.mk.inj (Option.some.inj h1)
      have hs1 : Sound E ⟨mm.setQuoting bid ask, members⟩ Q used k :=
        ⟨hs.ledger, hs.model, hs.standing, hs.small⟩
      obtain ⟨m2, k2, hend⟩ := ih hs1 hrest hnew hfresh hcount h2 fun hEt => ((hE hEt).2 _ _ h1).2
      refine ⟨m2, ?_, hend⟩
      simp only [Watched.run, Watched.input, k2, Option.bind_eq_bind, Option.bind_some]
      rfl
    | event e =>
      obtain ⟨m1, k1⟩ := Watched.onEvent_lift members h1
      have hlen : ((Input.event e :: xs).filterMap Input.newRef) =
          (MarketMaker.newRef e).toList ++ xs.filterMap Input.newRef := by
        have hx : (Input.event e).newRef = MarketMaker.newRef e := rfl
        rw [List.filterMap_cons, hx]
        cases MarketMaker.newRef e <;> rfl
      rw [hlen] at hnew hfresh hcount
      rw [List.length_append] at hcount
      obtain ⟨-, hfresh', hdis⟩ := List.nodup_append.mp hfresh
      obtain ⟨Q1, hs1⟩ := hs.event (hreal _ (List.mem_cons_self ..))
        (fun r hr => ⟨hnew r (by rw [hr]; simp), by rw [hr] at hcount; simp at hcount; omega⟩) k1
        fun hEt => ⟨(hE hEt).1 e rfl, ((hE hEt).2 _ _ h1).1⟩
      have hnew' : ∀ r ∈ xs.filterMap Input.newRef, r ∉ (MarketMaker.newRef e).toList ++ used := by
        intro r hr hu
        rcases List.mem_append.mp hu with hu | hu
        · exact hdis r hu r hr rfl
        · exact hnew r (List.mem_append_right _ hr) hu
      obtain ⟨m2, k2, hend⟩ := ih hs1 hrest hnew' hfresh' (by omega) h2
        fun hEt => ((hE hEt).2 _ _ h1).2
      refine ⟨m2, ?_, hend⟩
      simp only [Watched.run, Watched.input, k1, k2, Option.bind_eq_bind, Option.bind_some]
      rfl

theorem Sound.make {lo hi : Price} {size : Qty} {latency : Ts} {maxOrders maxLevels : ℕ}
    (h : make lo hi size latency .queueAware maxOrders maxLevels = some mm) :
    Sound E ⟨mm, fun _ => []⟩ noQueues [] 0 := by
  obtain ⟨b, hb, rfl⟩ := make_some h
  obtain ⟨hr, -, -, hseq, -, -, hnone⟩ := Rep.make hb
  have hledger : Ledger b noQueues [] 0 := by
    refine ⟨hr, fun s p => List.Pairwise.nil, fun s p o ho => (by cases ho), by rw [hseq]; rfl,
      fun i hi => (by cases hi), fun i hi hl => absurd (hnone i hi) hl, fun _ s p m hm => ?_⟩
    cases hm
  refine ⟨hledger, rfl, fun _ s => ?_, fun _ _ s p => ?_⟩
  · exact ⟨fun i hi => (by cases hi), fun h => (by cases h), fun h => (by cases h),
      fun h => (by cases h), fun _ h => (by cases h), fun _ => rfl⟩
  · show (0 : ℕ) < 2 ^ 32
    decide

/-- After every event each active quote has at most as many shares ahead as are
left of the orders stamped before it joined, which are the live ones of those
that rested there; in time priority exactly as many. -/
theorem ahead_counts_queue (lo hi : Price) (size : Qty) (latency : Ts) (maxOrders maxLevels : ℕ)
    (mm0 : MarketMaker)
    (hmake : make lo hi size latency .queueAware maxOrders maxLevels = some mm0) (xs : List Input)
    (hreal : ∀ x ∈ xs, ∀ r ∈ x.refs, r ≠ 0) (hfresh : (xs.filterMap Input.newRef).Nodup)
    (hcount : (xs.filterMap Input.newRef).length < 2 ^ 32 - 1) (mm : MarketMaker)
    (fills : List Fill) (hrun : mm0.run xs = some (mm, fills)) (hrej : mm.book.rejected = 0) :
    ∃ members, Watched.run ⟨mm0, fun _ => []⟩ xs = some (⟨mm, members⟩, fills) ∧
      (∀ s, (mm.quote s).active = true →
        (mm.pos s).ahead.toNat ≤
          aheadTotal (mm.book.fifo s (mm.quote s).px) (mm.pos s).joinSeq ∧
        (ahead (mm.book.fifo s (mm.quote s).px) (mm.pos s).joinSeq).map Resting.id =
          (members s).filter mm.book.isLive) ∧
      (priorityRun mm0 xs → mm.behindWhileQueued = 0 ∧ ∀ s, (mm.quote s).active = true →
        (mm.pos s).ahead.toNat =
          aheadTotal (mm.book.fifo s (mm.quote s).px) (mm.pos s).joinSeq) := by
  obtain ⟨members, hw, Q, used, k, hs⟩ := (Sound.make (E := priorityRun mm0 xs) hmake).run hreal
    (fun r _ h => by cases h) hfresh (by omega) hrun id
  refine ⟨members, hw, fun s ha => ?_, fun hE => ⟨?_, fun s ha => ?_⟩⟩
  · have hst := hs.standing hrej s
    rw [hs.ledger.rep.fifo_eq]
    exact ⟨hst.le ha, hst.names ha⟩
  · have hbuy := (hs.standing hrej .buy).behind hE
    have hsell := (hs.standing hrej .sell).behind hE
    show (mm.pos .buy).behindWhileQueued + (mm.pos .sell).behindWhileQueued = 0
    have hbuy' : (mm.pos .buy).behindWhileQueued = 0 := hbuy
    have hsell' : (mm.pos .sell).behindWhileQueued = 0 := hsell
    rw [hbuy', hsell']
  · rw [hs.ledger.rep.fifo_eq]
    exact (hs.standing hrej s).exact hE ha

/-- The order ahead of the quote is executed and cancelled in part, and one behind it cancelled. -/
def worn : List Input :=
  [.event ⟨1, 1, 0, 200, 5, .add, .buy⟩, .event ⟨2, 2, 0, 300, 5, .add, .sell⟩,
    .event ⟨3, 3, 0, 200, 4, .add, .buy⟩, .event ⟨4, 1, 0, 0, 2, .execute, .buy⟩,
    .event ⟨5, 1, 0, 0, 1, .cancel, .buy⟩, .event ⟨6, 3, 0, 0, 1, .cancel, .buy⟩]

theorem ahead_counts_queue_worn : ∃ (mm0 mm : MarketMaker) (fills : List Fill),
    make 100 300 3 0 .queueAware 8 8 = some mm0 ∧ mm0.run worn = some (mm, fills) ∧
    (mm.quote .buy).active = true ∧ (mm.pos .buy).ahead = 2 ∧
    (mm.pos .buy).ahead.toNat ≤
      aheadTotal (mm.book.fifo .buy (mm.quote .buy).px) (mm.pos .buy).joinSeq := by
  have hrun : ((make 100 300 3 0 .queueAware 8 8).bind fun mm0 => (mm0.run worn).map fun r =>
      (r.1.book.rejected, (r.1.quote .buy).active, (r.1.pos .buy).ahead)) = some (0, true, 2) := by
    decide +kernel
  obtain ⟨mm0, hmake, h⟩ := Option.bind_eq_some_iff.mp hrun
  obtain ⟨⟨mm, fills⟩, hrun, h⟩ := Option.map_eq_some_iff.mp h
  obtain ⟨hrej, h⟩ := Prod.mk.inj h
  obtain ⟨hact, hahead⟩ := Prod.mk.inj h
  have hreal : ∀ x ∈ worn, ∀ r ∈ x.refs, r ≠ 0 := by
    simp [worn, Input.refs, BookEvent.op, Op.refs]
  obtain ⟨members, -, hle, -⟩ := ahead_counts_queue 100 300 3 0 8 8 mm0 hmake worn hreal (by decide)
    (by decide) mm fills hrun hrej
  exact ⟨mm0, mm, fills, hmake, hrun, hact, hahead, (hle .buy hact).1⟩

/-! ### The last stamp

A bid replaced again and again until the stamps are used up. -/

theorem run_push {x : Input} {xs : List Input} {mm1 : MarketMaker} {f1 f2 : List Fill}
    (h1 : mm.run xs = some (mm1, f1)) (h2 : mm1.input x = some (mm', f2)) :
    mm.run (xs ++ [x]) = some (mm', f1 ++ f2) := by
  induction xs generalizing mm f1 with
  | nil =>
    obtain ⟨rfl, rfl⟩ := Prod.mk.inj (Option.some.inj h1)
    simp only [List.nil_append, run, h2, Option.bind_eq_bind, Option.bind_some]
    simp
  | cons y ys ih =>
    obtain ⟨mm2, g1, g2, k1, k2, rfl⟩ := run_cons h1
    simp only [List.cons_append, run, k1, ih k2, Option.bind_eq_bind, Option.bind_some]
    rw [List.append_assoc]
    rfl

theorem priorityRun_push {x : Input} {xs : List Input} {mm1 : MarketMaker} {f1 : List Fill}
    (h1 : mm.run xs = some (mm1, f1)) (h : priorityRun mm xs)
    (hx : (∀ e, x = .event e → InPriority mm1.book e) ∧
      ∀ mm' fills, mm1.input x = some (mm', fills) → SmallLevels mm'.book) :
    priorityRun mm (xs ++ [x]) := by
  induction xs generalizing mm f1 with
  | nil =>
    obtain ⟨rfl, -⟩ := Prod.mk.inj (Option.some.inj h1)
    exact ⟨hx.1, fun mm' fills h' => ⟨hx.2 mm' fills h', trivial⟩⟩
  | cons y ys ih =>
    obtain ⟨mm2, g1, g2, k1, k2, rfl⟩ := run_cons h1
    refine ⟨h.1, fun mm3 f3 h3 => ⟨(h.2 mm3 f3 h3).1, ?_⟩⟩
    rw [k1] at h3
    obtain ⟨rfl, rfl⟩ := Prod.mk.inj (Option.some.inj h3)
    exact ih k2 (h.2 _ _ k1).2

/-- No priority is asked of additions and replacements. -/
theorem InPriority.of_insert (h : e.type = .add ∨ e.type = .replace) : InPriority b e := by
  refine ⟨fun hx => ?_, fun hx => ?_⟩
  · rw [hx] at h
    simp at h
  · rcases hx with hx | hx
    · rw [hx] at h
      simp at h
    · rw [hx] at h
      simp at h

def replaceBid (i : ℕ) : Input :=
  .event ⟨1, UInt64.ofNat (i + 1), UInt64.ofNat (i + 2), 100, 5, .replace, .buy⟩

/-- A bid, then `n` replacements of it. -/
def selfReplaced (n : ℕ) : List Input := insertBid 1 :: (List.range n).map replaceBid

theorem selfReplaced_succ (n : ℕ) :
    selfReplaced (n + 1) = selfReplaced n ++ [replaceBid n] := by
  rw [selfReplaced, List.range_succ, List.map_append]
  rfl

theorem newRefs_selfReplaced (n : ℕ) :
    (selfReplaced n).filterMap Input.newRef = (List.range (n + 1)).map fun i => UInt64.ofNat (i + 1) := by
  induction n with
  | zero => rfl
  | succ n ih =>
    rw [selfReplaced_succ, List.filterMap_append, ih]
    conv_rhs => rw [List.range_succ, List.map_append]
    rfl

/-- The whole stream: by one replacement after the other. -/
theorem selfReplaced_run {mm0 : MarketMaker} (ho : Out mm0) (hro : Roomy mm0.book)
    (hr : Rep mm0.book noQueues) (hsize : mm0.book.ids.size = 0)
    (hnone : OpenHashMap.lookup mm0.book.ids 1 = none) (n : ℕ) (hn : n + 1 < 2 ^ 64) :
    ∃ mm fills, mm0.run (selfReplaced n) = some (mm, fills) ∧ priorityRun mm0 (selfReplaced n) ∧
      Out mm ∧ OneBid mm.book (UInt64.ofNat (n + 1)) (mm0.book.nextSeq + UInt32.ofNat (n + 1)) := by
  induction n with
  | zero =>
    obtain ⟨mm, fills, h, ho1, hb⟩ := ho.first hro hr hsize (by decide) hnone
    have hrun : mm0.run ([] ++ [insertBid 1]) = some (mm, [] ++ fills) := run_push rfl h
    have hprio : priorityRun mm0 ([] ++ [insertBid 1]) := by
      refine priorityRun_push rfl trivial ⟨fun e he => ?_, fun mm' fills' h' => ?_⟩
      · obtain rfl := Input.event.inj he
        exact InPriority.of_insert (Or.inl rfl)
      · rw [h] at h'
        obtain ⟨rfl, rfl⟩ := Prod.mk.inj (Option.some.inj h')
        exact bid_smallLevels hb
    exact ⟨mm, _, hrun, hprio, ho1, hb⟩
  | succ n ih =>
    obtain ⟨mm, fills, hrun, hprio, ho1, hb⟩ := ih (by omega)
    have hne : UInt64.ofNat (n + 2) ≠ UInt64.ofNat (n + 1) := by
      intro h
      have := ofNat_ref_inj (by omega) (by omega) h
      omega
    obtain ⟨mm', fills', h, ho2, hb2⟩ := ho1.next hb (ofNat_ref (by omega)) (ofNat_ref (by omega)) hne
    rw [selfReplaced_succ]
    refine ⟨mm', _, run_push hrun h, ?_, ho2, ?_⟩
    · refine priorityRun_push hrun hprio ⟨fun e he => ?_, fun mm2 fills2 h' => ?_⟩
      · obtain rfl := Input.event.inj he
        exact InPriority.of_insert (Or.inr rfl)
      · have h2 : some (mm', fills') = some (mm2, fills2) := h.symm.trans h'
        obtain ⟨rfl, rfl⟩ := Prod.mk.inj (Option.some.inj h2)
        exact bid_smallLevels hb2
    · rw [UInt32.ofNat_add, ← UInt32.add_assoc]
      exact hb2

theorem selfReplaced_real {n : ℕ} (hn : n + 1 < 2 ^ 64) :
    ∀ x ∈ selfReplaced n, ∀ r ∈ x.refs, r ≠ 0 := by
  intro x hx r hr
  cases hx with
  | head =>
    obtain rfl : r = 1 := by simpa [insertBid, Input.refs, BookEvent.op, Op.refs] using hr
    decide
  | tail _ hx =>
    obtain ⟨i, hi, rfl⟩ := List.mem_map.mp hx
    rw [List.mem_range] at hi
    have hcase : r ∈ [UInt64.ofNat (i + 1), UInt64.ofNat (i + 1 + 1)] := hr
    simp only [List.mem_cons, List.not_mem_nil, or_false] at hcase
    cases hcase with
    | inl he => exact he ▸ ofNat_ref (by omega)
    | inr he => exact he ▸ ofNat_ref (by omega)

theorem newRefs_nodup {n : ℕ} (hn : n + 2 < 2 ^ 64) :
    ((selfReplaced n ++ [offer (UInt64.ofNat (n + 2))]).filterMap Input.newRef).Nodup ∧
      ((selfReplaced n ++ [offer (UInt64.ofNat (n + 2))]).filterMap Input.newRef).length = n + 2 := by
  have heq : (selfReplaced n ++ [offer (UInt64.ofNat (n + 2))]).filterMap Input.newRef =
      (List.range (n + 2)).map fun i => UInt64.ofNat (i + 1) := by
    rw [List.filterMap_append, newRefs_selfReplaced]
    conv_rhs => rw [List.range_succ, List.map_append]
    rfl
  rw [heq]
  refine ⟨?_, by rw [List.length_map, List.length_range]⟩
  rw [List.nodup_map_iff_inj_on List.nodup_range]
  intro i hi j hj he
  rw [List.mem_range] at hi hj
  have := ofNat_ref_inj (by omega) (by omega) he
  omega

/-- `2^32 - 1` insertions bring the next stamp back to zero: the bid quote joins
behind five shares, and no order is stamped before it. -/
theorem stamps_wrap : ∃ (mm0 mm : MarketMaker) (xs : List Input) (fills : List Fill),
    make 100 200 1 0 .queueAware 4 4 = some mm0 ∧ (∀ x ∈ xs, ∀ r ∈ x.refs, r ≠ 0) ∧
    (xs.filterMap Input.newRef).Nodup ∧ (xs.filterMap Input.newRef).length < 2 ^ 32 ∧
    mm0.run xs = some (mm, fills) ∧ mm.book.rejected = 0 ∧ priorityRun mm0 xs ∧
    (mm.quote .buy).active = true ∧ (mm.pos .buy).ahead.toNat = 5 ∧
    aheadTotal (mm.book.fifo .buy (mm.quote .buy).px) (mm.pos .buy).joinSeq = 0 := by
  have hsome : (make 100 200 1 0 .queueAware 4 4).map (fun mm => mm.book.ids.limit) = some 2 := by
    decide +kernel
  obtain ⟨mm0, hmake, hlimit⟩ := Option.map_eq_some_iff.mp hsome
  obtain ⟨b, hb, hmm0⟩ := make_some hmake
  obtain ⟨hr, hsize, hrej, hseq, horders, hlevels, hnone⟩ := Rep.make hb
  have hro : Roomy b := by
    refine ⟨⟨by rw [horders]; norm_num, by rw [hlevels]; norm_num⟩, by rw [horders]; norm_num,
      by rw [hlevels]; norm_num, ?_, hrej⟩
    rw [hmm0] at hlimit
    exact hlimit.ge
  have ho : Out mm0 := by
    rw [hmm0]
    exact ⟨⟨rfl, fun _ => rfl⟩, fun _ => rfl, fun _ => rfl⟩
  have hbook : mm0.book = b := by rw [hmm0]
  obtain ⟨n, hn⟩ : ∃ n : ℕ, n = 2 ^ 32 - 3 := ⟨_, rfl⟩
  obtain ⟨mm1, f1, hrun, hprio, ho1, hbid⟩ := selfReplaced_run ho (by rw [hbook]; exact hro)
    (by rw [hbook]; exact hr) (by rw [hbook]; exact hsize)
    (by rw [hbook]; exact hnone 1 (by decide)) n (by omega)
  have hne : UInt64.ofNat (n + 2) ≠ UInt64.ofNat (n + 1) := by
    intro h
    have := ofNat_ref_inj (by omega) (by omega) h
    omega
  obtain ⟨mm, f2, hlast, hrej2, hsmall, hact, hahead, hjoin⟩ :=
    ho1.join hbid (ofNat_ref (by omega)) (ofNat_ref (by omega)) hne
  obtain ⟨hnodup, hlen⟩ := newRefs_nodup (n := n) (by omega)
  have hzero : (mm.pos .buy).joinSeq = 0 := by
    rw [hjoin, hbook, hseq, hn]
    decide
  refine ⟨mm0, mm, _, _, hmake, fun x hx r hr => ?_, hnodup, by rw [hlen]; omega,
    run_push hrun hlast, hrej2, priorityRun_push hrun hprio ⟨fun e he => ?_, fun mm' f' h' => ?_⟩,
    hact, by rw [hahead]; rfl, ?_⟩
  · rcases List.mem_append.mp hx with hx | hx
    · exact selfReplaced_real (by omega) x hx r hr
    · rw [List.mem_singleton] at hx
      rw [hx] at hr
      obtain rfl : r = UInt64.ofNat (n + 2) := by
        simpa [offer, Input.refs, BookEvent.op, Op.refs] using hr
      exact ofNat_ref (by omega)
  · obtain rfl := Input.event.inj he
    exact InPriority.of_insert (Or.inl rfl)
  · have h2 : some (mm, f2) = some (mm', f') := hlast.symm.trans h'
    obtain ⟨rfl, rfl⟩ := Prod.mk.inj (Option.some.inj h2)
    exact hsmall
  · rw [hzero]
    simp [aheadTotal, ahead, before, mass]

end MarketMaker

end Hotpath.Sim
