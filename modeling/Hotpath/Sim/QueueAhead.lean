import Hotpath.Sim.Membership

/-!
# The shares ahead of a quote

The running counter of the queue model against the queue itself: `ahead` never
exceeds what is left of the orders stamped before the quote joined, and these
are the orders that rested there. Where every execution is of the front of its
queue the two are equal.
-/

namespace Hotpath.Sim
open Hotpath.Book Hotpath.Book.HybridBook Hotpath.Support

namespace MarketMaker

variable {mm mm' : MarketMaker} {q : Quote} {pos : QueuePosition} {side s : Side} {pre : Pre}
  {e : BookEvent}

/-! ### One event on a queue position -/

/-- The position of a quote at the price of the affected order. -/
def stepped (pos : QueuePosition) (pre : Pre) (e : BookEvent) (remaining : Qty) : QueuePosition :=
  match e.type with
  | .execute => (pos.onExecution pre.seq e.shares remaining).2
  | .cancel => pos.onCancel pre.seq e.shares
  | .delete => pos.onDelete pre.seq pre.qty
  | .replace => pos.onDelete pre.seq pre.qty
  | .add => pos

/-- The shares the event takes from `ahead`, as far as there are any. -/
def gone (pos : QueuePosition) (pre : Pre) (e : BookEvent) : ℕ :=
  match e.type with
  | .execute => e.shares.toNat
  | .cancel => if pos.isAhead pre.seq then e.shares.toNat else 0
  | .delete => if pos.isAhead pre.seq then pre.qty.toNat else 0
  | .replace => if pos.isAhead pre.seq then pre.qty.toNat else 0
  | .add => 0

/-- An execution of an order behind while shares are ahead. -/
def suspicious (pos : QueuePosition) (pre : Pre) (e : BookEvent) : Prop :=
  e.type = .execute ∧ 0 < pos.ahead.toNat ∧ pos.isAhead pre.seq = false

theorem shorten_spec (pos : QueuePosition) (seq : UInt32) (shares : Qty) :
    (pos.shorten seq shares).joinSeq = pos.joinSeq ∧
    (pos.shorten seq shares).behindWhileQueued = pos.behindWhileQueued ∧
    (pos.shorten seq shares).ahead.toNat =
      pos.ahead.toNat - if pos.isAhead seq then shares.toNat else 0 := by
  unfold QueuePosition.shorten
  by_cases ha : pos.isAhead seq = true
  · rw [if_neg (not_not.mpr ha), if_pos ha]
    refine ⟨rfl, rfl, ?_⟩
    obtain ⟨hle, hmin⟩ := least_le shares pos.ahead
    show (pos.ahead - if shares < pos.ahead then shares else pos.ahead).toNat = _
    rw [UInt32.toNat_sub_of_le _ _ hle, hmin]
    omega
  · rw [if_pos ha, if_neg ha]
    exact ⟨rfl, rfl, rfl⟩

theorem onExecution_spec (pos : QueuePosition) (seq : UInt32) (executed remaining : Qty) :
    (pos.onExecution seq executed remaining).2.joinSeq = pos.joinSeq ∧
    (pos.onExecution seq executed remaining).2.ahead.toNat = pos.ahead.toNat - executed.toNat ∧
    ((pos.onExecution seq executed remaining).2.behindWhileQueued = pos.behindWhileQueued ∨
      (0 < pos.ahead.toNat ∧ pos.isAhead seq = false)) := by
  have hcase : ∀ p : QueuePosition, p.ahead = pos.ahead → p.joinSeq = pos.joinSeq →
      (if executed ≤ p.ahead then ((0 : Qty), { p with ahead := p.ahead - executed })
        else (if executed - p.ahead < remaining then executed - p.ahead else remaining,
          { p with ahead := 0 })).2.joinSeq = pos.joinSeq ∧
      (if executed ≤ p.ahead then ((0 : Qty), { p with ahead := p.ahead - executed })
        else (if executed - p.ahead < remaining then executed - p.ahead else remaining,
          { p with ahead := 0 })).2.ahead.toNat = pos.ahead.toNat - executed.toNat ∧
      (if executed ≤ p.ahead then ((0 : Qty), { p with ahead := p.ahead - executed })
        else (if executed - p.ahead < remaining then executed - p.ahead else remaining,
          { p with ahead := 0 })).2.behindWhileQueued = p.behindWhileQueued := by
    intro p ha hj
    split
    · rename_i hle
      refine ⟨hj, ?_, rfl⟩
      show (p.ahead - executed).toNat = _
      rw [UInt32.toNat_sub_of_le _ _ hle, ha]
    · rename_i hlt
      rw [UInt32.le_iff_toNat_le, ha] at hlt
      refine ⟨hj, ?_, rfl⟩
      show 0 = _
      omega
  unfold QueuePosition.onExecution
  by_cases hb : pos.ahead > 0 ∧ ¬pos.isAhead seq = true
  · obtain ⟨h1, h2, -⟩ := hcase { pos with behindWhileQueued := pos.behindWhileQueued + 1 } rfl rfl
    simp only [if_pos hb]
    refine ⟨h1, h2, Or.inr ⟨?_, by simpa using hb.2⟩⟩
    exact UInt32.lt_iff_toNat_lt.mp hb.1
  · obtain ⟨h1, h2, h3⟩ := hcase pos rfl rfl
    simp only [if_neg hb]
    exact ⟨h1, h2, Or.inl h3⟩

theorem stepped_spec (pos : QueuePosition) (pre : Pre) (e : BookEvent) (remaining : Qty) :
    (stepped pos pre e remaining).joinSeq = pos.joinSeq ∧
    (stepped pos pre e remaining).ahead.toNat = pos.ahead.toNat - gone pos pre e ∧
    ((stepped pos pre e remaining).behindWhileQueued = pos.behindWhileQueued ∨
      suspicious pos pre e) := by
  unfold stepped gone suspicious
  cases he : e.type with
  | execute =>
    obtain ⟨h1, h2, h3⟩ := onExecution_spec pos pre.seq e.shares remaining
    exact ⟨h1, h2, h3.imp_right fun h => ⟨rfl, h⟩⟩
  | cancel =>
    obtain ⟨h1, h2, h3⟩ := shorten_spec pos pre.seq e.shares
    exact ⟨h1, h3, Or.inl h2⟩
  | delete =>
    obtain ⟨h1, h2, h3⟩ := shorten_spec pos pre.seq pre.qty
    exact ⟨h1, h3, Or.inl h2⟩
  | replace =>
    obtain ⟨h1, h2, h3⟩ := shorten_spec pos pre.seq pre.qty
    exact ⟨h1, h3, Or.inl h2⟩
  | add => exact ⟨rfl, rfl, Or.inl rfl⟩

theorem filled_pos (ts : Ts) (side : Side) (q : Quote) (pos : QueuePosition) (f : Qty)
    (swept : Bool) :
    ((filled ts side q pos f swept).1.active = true →
      q.active = true ∧ (filled ts side q pos f swept).1.px = q.px ∧
        (filled ts side q pos f swept).2.1 = pos) ∧
    (filled ts side q pos f swept).2.1.behindWhileQueued = pos.behindWhileQueued := by
  unfold filled take
  by_cases h0 : f = 0
  · rw [if_pos h0]
    exact ⟨fun h => ⟨h, rfl, rfl⟩, rfl⟩
  · rw [if_neg h0]
    by_cases hz : q.remaining - f = 0
    · simp only [hz, if_true]
      exact ⟨fun h => absurd h (by simp), rfl⟩
    · simp only [hz, if_false]
      exact ⟨fun h => ⟨h, trivial, trivial⟩, trivial⟩

/-- The affected order rests at the quote's own place. -/
def atPlace (side : Side) (q : Quote) (pre : Pre) : Prop := pre.side = side ∧ pre.px = q.px

theorem stepSide_stepped (q : Quote) (pos : QueuePosition) (side : Side) (pre : Pre)
    (e : BookEvent) :
    ((stepSide .queueAware q pos side pre e).1.active = true → q.active = true ∧
      (stepSide .queueAware q pos side pre e).1.px = q.px ∧
      ((¬atPlace side q pre ∧ (stepSide .queueAware q pos side pre e).2.1 = pos) ∨
        (atPlace side q pre ∧ (stepSide .queueAware q pos side pre e).2.1 =
          stepped pos pre e q.remaining))) ∧
    ((stepSide .queueAware q pos side pre e).2.1.behindWhileQueued = pos.behindWhileQueued ∨
      (q.active = true ∧ atPlace side q pre ∧ suspicious pos pre e)) := by
  unfold stepSide
  by_cases h1 : ¬q.active = true ∨ pre.side ≠ side
  · rw [if_pos h1]
    refine ⟨fun h => ⟨h, rfl, Or.inl ⟨fun hp => ?_, rfl⟩⟩, Or.inl rfl⟩
    rcases h1 with h1 | h1
    · exact h1 h
    · exact h1 hp.1
  · rw [if_neg h1]
    rw [not_or, not_not, not_not] at h1
    by_cases h2 : e.type = .execute ∧ strictlyBetter side q.px pre.px = true
    · rw [if_pos h2]
      obtain ⟨ha, hb⟩ := filled_pos e.ts side q pos
        (if e.shares < q.remaining then e.shares else q.remaining) true
      refine ⟨fun h => ?_, Or.inl hb⟩
      obtain ⟨g1, g2, g3⟩ := ha h
      refine ⟨g1, g2, Or.inl ⟨fun hp => ?_, g3⟩⟩
      rw [hp.2, strictlyBetter_irrefl] at h2
      exact absurd h2.2 (by simp)
    · rw [if_neg h2]
      by_cases h3 : pre.px ≠ q.px
      · rw [if_pos h3]
        exact ⟨fun h => ⟨h, rfl, Or.inl ⟨fun hp => h3 hp.2, rfl⟩⟩, Or.inl rfl⟩
      · rw [if_neg h3]
        have hp : atPlace side q pre := ⟨h1.2, not_not.mp h3⟩
        have hb := (stepped_spec pos pre e q.remaining).2.2
        unfold stepAtPrice
        unfold stepped at hb ⊢
        cases he : e.type with
        | execute =>
          rw [he] at hb
          obtain ⟨ga, gb⟩ := filled_pos e.ts side q (pos.onExecution pre.seq e.shares q.remaining).2
            (pos.onExecution pre.seq e.shares q.remaining).1 false
          refine ⟨fun h => ?_, ?_⟩
          · obtain ⟨g1, g2, g3⟩ := ga h
            exact ⟨g1, g2, Or.inr ⟨hp, g3⟩⟩
          · rw [gb]
            exact hb.imp_right fun h => ⟨h1.1, hp, h⟩
        | cancel =>
          rw [he] at hb
          exact ⟨fun h => ⟨h, rfl, Or.inr ⟨hp, rfl⟩⟩, hb.imp_right fun h => ⟨h1.1, hp, h⟩⟩
        | delete =>
          rw [he] at hb
          exact ⟨fun h => ⟨h, rfl, Or.inr ⟨hp, rfl⟩⟩, hb.imp_right fun h => ⟨h1.1, hp, h⟩⟩
        | replace =>
          rw [he] at hb
          exact ⟨fun h => ⟨h, rfl, Or.inr ⟨hp, rfl⟩⟩, hb.imp_right fun h => ⟨h1.1, hp, h⟩⟩
        | add =>
          rw [he] at hb
          exact ⟨fun h => ⟨h, rfl, Or.inr ⟨hp, rfl⟩⟩, Or.inl rfl⟩

/-! ### A quote in its queue -/

variable {b b' : HybridBook} {Q Q' : Queues} {used : List OrderId} {members : List OrderId}
  {E : Prop} {k : ℕ}

/-- The orders of a queue stamped below `seq`, and their total. -/
def ahead (queue : List Resting) (seq : UInt32) : List Resting :=
  before Resting.stamp seq.toNat queue

def aheadTotal (queue : List Resting) (seq : UInt32) : ℕ := mass Resting.shares (ahead queue seq)

/-- What holds of a side's quote and of the refs noted when it joined. `E` stands
for a run in time priority, in which the counter is exact. -/
structure Standing (E : Prop) (b : HybridBook) (Q : Queues) (used : List OrderId) (s : Side)
    (q : Quote) (pos : QueuePosition) (members : List OrderId) : Prop where
  noted : ∀ r ∈ members, r ∈ used
  stamp : q.active = true → pos.joinSeq.toNat ≤ b.nextSeq.toNat
  le : q.active = true → pos.ahead.toNat ≤ aheadTotal (queueOf b Q s q.px) pos.joinSeq
  names : q.active = true → (ahead (queueOf b Q s q.px) pos.joinSeq).map Resting.id =
    members.filter b.isLive
  exact : E → q.active = true → pos.ahead.toNat = aheadTotal (queueOf b Q s q.px) pos.joinSeq
  behind : E → pos.behindWhileQueued = 0

theorem Standing.inactive {q' : Quote} {pos' : QueuePosition}
    (hs : Standing E b Q used s q pos members) (hq : q'.active = false)
    (hb : pos'.behindWhileQueued = pos.behindWhileQueued) :
    Standing E b Q used s q' pos' members := by
  have hno : ¬q'.active = true := by simp [hq]
  exact ⟨hs.noted, fun h => absurd h hno, fun h => absurd h hno, fun h => absurd h hno,
    fun _ h => absurd h hno, fun hE => hb.trans (hs.behind hE)⟩

theorem Standing.congr {q' : Quote} (hs : Standing E b Q used s q pos members)
    (ha : q'.active = q.active) (hp : q'.px = q.px) : Standing E b Q used s q' pos members := by
  obtain ⟨h1, h2, h3, h4, h5, h6⟩ := hs
  exact ⟨h1, by rwa [ha], by rwa [ha, hp], by rwa [ha, hp], by rwa [ha, hp], h6⟩

/-- The book changes in nothing the queues show. -/
theorem Standing.book (hs : Standing E b Q used s q pos members) (hn : b'.nextSeq = b.nextSeq)
    (hq : queueOf b' Q = queueOf b Q) (hl : b'.isLive = b.isLive) :
    Standing E b' Q used s q pos members := by
  obtain ⟨h1, h2, h3, h4, h5, h6⟩ := hs
  exact ⟨h1, by rwa [hn], by rwa [hq], by rwa [hq, hl], by rwa [hq], h6⟩

theorem total_eq_mass (b : HybridBook) (Q : Queues) (s : Side) (p : Price) :
    b.total (Q s p) = mass Resting.shares (queueOf b Q s p) := by
  simp only [HybridBook.total, mass, queueOf, List.map_map]
  rfl

theorem resting_eq (hr : Rep b Q) (s : Side) (p : Price) :
    resting b s p = some (UInt32.ofNat (mass Resting.shares (queueOf b Q s p))) := by
  have hlook := hr.grid.lookupLevel_eq s p
  rw [← total_eq_mass]
  by_cases hx : 0 ≤ b.levelIx s p
  · obtain ⟨n, hn, hlt, -, hl⟩ := hr.level s p hx
    have hneg : ¬(n : ℤ) < 0 := by omega
    have hsub : Support.subscript b.levels (n : ℤ) = some (b.lev n) := subscript_cast hlt _
    have hlv : b.levelFor s p = some (some (b.lev n)) := by
      simp only [levelFor, hlook, hn, Option.bind_eq_bind, Option.bind_some, if_neg hneg, hsub]
      rfl
    rw [resting, hlv]
    exact congrArg some hl.qty
  · have hlv : b.levelFor s p = some none := by
      simp only [levelFor, hlook, Option.bind_eq_bind, Option.bind_some, if_pos (not_le.mp hx)]
      rfl
    rw [resting, hlv, hr.absent s p (by omega)]
    rfl

/-- A landing: a quote that joins stands behind all that rests at its price. -/
theorem Standing.landed {target : Price} {now : Ts} {q' : Quote} {pos' : QueuePosition}
    (hl : Ledger mm.book Q used k) (h0 : mm.book.rejected = 0)
    (hsmall : E → mass Resting.shares (queueOf mm.book Q s target) < 2 ^ 32)
    (hs : Standing E mm.book Q used s (mm.quote s) (mm.pos s) members)
    (h : Landed mm s target now q' pos') :
    Standing E mm.book Q used s q' pos' (Watched.noted mm s target now members) := by
  unfold Watched.noted
  cases h with
  | wait hw =>
    rw [if_neg fun h => hw h.1]
    exact hs
  | gone hd hw =>
    rw [if_neg fun h => absurd h.2 (by simp [hw])]
    exact hs.inactive rfl rfl
  | joined r hd hw hr =>
    rw [if_pos ⟨hd, hw⟩, hl.rep.fifo_eq]
    have hall : ahead (queueOf mm.book Q s target) mm.book.nextSeq =
        queueOf mm.book Q s target := before_all (hl.below s target)
    have hr' := hr.symm.trans (resting_eq hl.rep s target)
    have hqty : r.toNat = mass Resting.shares (queueOf mm.book Q s target) % 2 ^ 32 := by
      rw [Option.some.inj hr']
      exact UInt32.toNat_ofNat'
    have hlive : ∀ i ∈ (queueOf mm.book Q s target).map Resting.id,
        mm.book.isLive i = true ∧ i ∈ used := by
      intro i hi
      obtain ⟨o, ho, rfl⟩ := List.mem_map.mp hi
      obtain ⟨m, hm, rfl⟩ := mem_queueOf ho
      obtain ⟨h1, h2⟩ := hl.named h0 s target m hm
      have h3 : (mm.book.ord m).resting.id = (mm.book.ord m).id := rfl
      rw [h3, hl.isLive_eq h1, h2]
      exact ⟨rfl, hl.known _ h1 (by rw [h2]; simp)⟩
    refine ⟨fun i hi => (hlive i hi).2, fun _ => le_rfl, fun _ => ?_, fun _ => ?_, fun hE _ => ?_,
      fun hE => hs.behind hE⟩
    · show r.toNat ≤ mass Resting.shares (ahead (queueOf mm.book Q s target) mm.book.nextSeq)
      rw [hall, hqty]
      exact Nat.mod_le ..
    · show (ahead (queueOf mm.book Q s target) mm.book.nextSeq).map _ = _
      rw [hall]
      exact (List.filter_eq_self.mpr fun i hi => (hlive i hi).1).symm
    · show r.toNat = mass Resting.shares (ahead (queueOf mm.book Q s target) mm.book.nextSeq)
      rw [hall, hqty]
      exact Nat.mod_eq_of_lt (hsmall hE)

/-! ### Orders that come and go -/

/-- Shares `w` of the order `d` leave its queue, and the order with them if they
are all it has. -/
structure Departed (used : List OrderId) (b : HybridBook) (Q : Queues) (b' : HybridBook)
    (Q' : Queues) (s0 : Side) (p0 : Price) (d : Resting) (w : ℕ) : Prop where
  member : d ∈ queueOf b Q s0 p0
  total : ∀ seq, aheadTotal (queueOf b Q s0 p0) seq =
    aheadTotal (queueOf b' Q' s0 p0) seq + if d.stamp < seq.toNat then w else 0
  others : ∀ s p, ¬(s = s0 ∧ p = p0) → queueOf b' Q' s p = queueOf b Q s p
  nextSeq : b'.nextSeq = b.nextSeq
  names : ∀ s p seq, ∀ members : List OrderId, (∀ r ∈ members, r ∈ used) →
    (ahead (queueOf b Q s p) seq).map Resting.id = members.filter b.isLive →
    (ahead (queueOf b' Q' s p) seq).map Resting.id = members.filter b'.isLive

theorem isAhead_iff (pos : QueuePosition) (seq : UInt32) :
    pos.isAhead seq = true ↔ seq.toNat < pos.joinSeq.toNat := by
  simp only [QueuePosition.isAhead, decide_eq_true_eq, UInt32.lt_iff_toNat_lt]

/-- The counter of each side follows its queue through a departure. -/
theorem Standing.departed {s0 : Side} {p0 : Price} {d : Resting} {w : ℕ}
    (hd : Departed used b Q b' Q' s0 p0 d w) (hl : Ledger b Q used k)
    (hs : Standing E b Q used s q pos members)
    (hw : ∀ pos : QueuePosition, pos.isAhead d.seq = true →
      w ≤ gone pos ⟨s0, p0, d.seq, d.qty⟩ e)
    (hE : E → (∀ pos : QueuePosition, pos.isAhead d.seq = true →
        gone pos ⟨s0, p0, d.seq, d.qty⟩ e = w) ∧
      (e.type = .execute → (queueOf b Q s0 p0).head? = some d)) :
    Standing E b' Q' used s (stepSide .queueAware q pos s ⟨s0, p0, d.seq, d.qty⟩ e).1
      (stepSide .queueAware q pos s ⟨s0, p0, d.seq, d.qty⟩ e).2.1 members := by
  obtain ⟨hact, hbehind⟩ := stepSide_stepped q pos s ⟨s0, p0, d.seq, d.qty⟩ e
  generalize (stepSide .queueAware q pos s ⟨s0, p0, d.seq, d.qty⟩ e).1 = q' at *
  generalize (stepSide .queueAware q pos s ⟨s0, p0, d.seq, d.qty⟩ e).2.1 = pos' at *
  have hstamp : pos.isAhead d.seq = true ↔ d.stamp < pos.joinSeq.toNat := isAhead_iff pos d.seq
  -- in time priority an execution of an order behind finds nothing ahead
  have hfront : E → e.type = .execute → ¬pos.isAhead d.seq = true →
      aheadTotal (queueOf b Q s0 p0) pos.joinSeq = 0 := by
    intro h he hnot
    have hinc := hl.stamps s0 p0
    cases hq : queueOf b Q s0 p0 with
    | nil => rfl
    | cons x rest =>
      have hhead := (hE h).2 he
      rw [hq] at hhead hinc
      obtain rfl := Option.some.inj hhead
      rw [aheadTotal, ahead, before_front hinc (by rw [hstamp] at hnot; omega)]
      rfl
  have hmove : q'.active = true → q.active = true ∧ q'.px = q.px ∧ pos'.joinSeq = pos.joinSeq ∧
      pos'.ahead.toNat ≤ aheadTotal (queueOf b' Q' s q.px) pos.joinSeq ∧
      (E → pos'.ahead.toNat = aheadTotal (queueOf b' Q' s q.px) pos.joinSeq) := by
    intro h
    obtain ⟨ha, hpx, hcase⟩ := hact h
    have hle := hs.le ha
    rcases hcase with ⟨hnot, rfl⟩ | ⟨⟨hs0, hp0⟩, rfl⟩
    · have hne : ¬(s = s0 ∧ q.px = p0) := fun hc => hnot ⟨hc.1.symm, hc.2.symm⟩
      rw [hd.others s q.px hne]
      exact ⟨ha, hpx, rfl, hle, fun hEt => hs.exact hEt ha⟩
    · obtain rfl : s0 = s := hs0
      obtain rfl : p0 = q.px := hp0
      obtain ⟨hj, hah, -⟩ := stepped_spec pos ⟨s0, q.px, d.seq, d.qty⟩ e q.remaining
      have htot := hd.total pos.joinSeq
      refine ⟨ha, hpx, hj, ?_, fun hEt => ?_⟩
      · rw [hah]
        by_cases hb : pos.isAhead d.seq = true
        · rw [if_pos (hstamp.mp hb)] at htot
          have := hw pos hb
          omega
        · rw [if_neg (mt hstamp.mpr hb)] at htot
          omega
      · have hex := hs.exact hEt ha
        rw [hah]
        by_cases hb : pos.isAhead d.seq = true
        · rw [if_pos (hstamp.mp hb)] at htot
          rw [(hE hEt).1 pos hb]
          omega
        · rw [if_neg (mt hstamp.mpr hb)] at htot
          by_cases hx : e.type = .execute
          · have := hfront hEt hx hb
            omega
          · have hg : gone pos ⟨s0, q.px, d.seq, d.qty⟩ e = 0 := by
              unfold gone
              cases he : e.type with
              | execute => exact absurd he hx
              | add => rfl
              | cancel => exact if_neg hb
              | delete => exact if_neg hb
              | replace => exact if_neg hb
            omega
  refine ⟨hs.noted, fun h => ?_, fun h => ?_, fun h => ?_, fun hEt h => ?_, fun hEt => ?_⟩
  · obtain ⟨ha, -, hj, -⟩ := hmove h
    rw [hj, hd.nextSeq]
    exact hs.stamp ha
  · obtain ⟨-, hpx, hj, hle, -⟩ := hmove h
    rwa [hpx, hj]
  · obtain ⟨ha, hpx, hj, -⟩ := hmove h
    rw [hpx, hj]
    exact hd.names s q.px pos.joinSeq members hs.noted (hs.names ha)
  · obtain ⟨-, hpx, hj, -, hex⟩ := hmove h
    rw [hpx, hj]
    exact hex hEt
  · rcases hbehind with hb | ⟨ha, ⟨hs0, hp0⟩, hx, hpos, hnot⟩
    · exact hb.trans (hs.behind hEt)
    · obtain rfl : s0 = s := hs0
      obtain rfl : p0 = q.px := hp0
      have h0 := hfront hEt hx (by simpa using hnot)
      have := hs.exact hEt ha
      omega

theorem Departed.pulled {ref : OrderId} {s0 : Side} {p0 : Price} {n : ℕ} {l r : List ℕ}
    (hl : Ledger b Q used k) (h0 : b.rejected = 0) (hl' : Ledger b' (set2 Q s0 p0 (l ++ r)) used k)
    (hq : Q s0 p0 = l ++ n :: r) (hlk : OpenHashMap.lookup b.ids ref = some (n : ℤ))
    (hid : (b.ord n).id = ref) (hp : Pulled b b' ref s0 p0 (l ++ r = [])) :
    Departed used b Q b' (set2 Q s0 p0 (l ++ r)) s0 p0 (b.ord n).resting
      (b.ord n).resting.shares := by
  have hqs := hp.queues (Q := Q)
  have hold : queueOf b Q s0 p0 = l.map (fun o => (b.ord o).resting) ++ (b.ord n).resting ::
      r.map fun o => (b.ord o).resting := by
    rw [queueOf, hq, List.map_append, List.map_cons]
  refine ⟨by rw [hold]; simp, fun seq => ?_, fun s p hsp => by rw [hqs, set2_other hsp], hp.nextSeq,
    fun s p seq members hm hnames => ?_⟩
  · rw [hqs, set2_same, hold]
    exact mass_before_remove
  · -- the ref that left is the one name missing
    have hfilter : members.filter b'.isLive =
        (members.filter b.isLive).filter fun i => i ≠ ref := by
      rw [List.filter_filter]
      refine List.filter_congr fun i hi => ?_
      have hi0 := hl.real i (hm i hi)
      rw [hl'.isLive_eq hi0, hl.isLive_eq hi0, hp.ids i hi0]
      by_cases hir : i = ref
      · simp [hir]
      · simp [hir]
    rw [hfilter, ← hnames]
    by_cases hsp : s = s0 ∧ p = p0
    · obtain ⟨rfl, rfl⟩ := hsp
      have hdist := hl.names_distinct h0 s p
      rw [hold] at hdist
      rw [hqs, set2_same, hold, ← hid]
      exact (names_remove hdist).symm
    · rw [hqs, set2_other hsp]
      symm
      apply List.filter_eq_self.mpr
      intro i hi
      obtain ⟨o, ho, rfl⟩ := List.mem_map.mp hi
      obtain ⟨m, hm', rfl⟩ := mem_queueOf (mem_before.mp ho).1
      refine decide_eq_true fun he => hsp ?_
      have hmn := hl.slot_unique h0 hlk hm' he
      exact hl.rep.queue_unique (by rw [hq]; simp) (hmn ▸ hm')

theorem Departed.cut {s0 : Side} {p0 : Price} {n : ℕ} {l r : List ℕ} {take : Qty}
    (hr : Rep b Q) (hq : Q s0 p0 = l ++ n :: r) (hc : Cut b b' n take)
    (hlt : take < (b.ord n).qty) :
    Departed used b Q b' Q s0 p0 (b.ord n).resting take.toNat := by
  have hqs := hc.queues hr hq
  have hold : queueOf b Q s0 p0 = l.map (fun o => (b.ord o).resting) ++ (b.ord n).resting ::
      r.map fun o => (b.ord o).resting := by
    rw [queueOf, hq, List.map_append, List.map_cons]
  have hsub : ((b.ord n).qty - take).toNat + take.toNat = (b.ord n).qty.toNat := by
    have hle := UInt32.lt_iff_toNat_lt.mp hlt
    rw [UInt32.toNat_sub_of_le _ _ (UInt32.le_of_lt hlt)]
    omega
  have hlive : b'.isLive = b.isLive := by
    funext i
    rw [isLive, isLive, hc.ids]
  refine ⟨by rw [hold]; simp, fun seq => ?_, fun s p hsp => by rw [hqs, set2_other hsp], hc.nextSeq,
    fun s p seq members _ hnames => ?_⟩
  · rw [hqs, set2_same, hold]
    have hchange := @mass_before_change Resting Resting.stamp Resting.shares seq.toNat
      (l.map fun o => (b.ord o).resting) (r.map fun o => (b.ord o).resting) (b.ord n).resting
      ⟨(b.ord n).id, (b.ord n).seq, (b.ord n).qty - take⟩ rfl
    have h1 : (b.ord n).resting.shares = (b.ord n).qty.toNat := rfl
    have h2 : Resting.shares ⟨(b.ord n).id, (b.ord n).seq, (b.ord n).qty - take⟩ =
        ((b.ord n).qty - take).toNat := rfl
    rw [h1, h2] at hchange
    unfold aheadTotal ahead
    split at hchange
    · rename_i hb
      rw [if_pos hb]
      omega
    · rename_i hb
      rw [if_neg hb]
      omega
  · rw [hlive, ← hnames, hqs]
    by_cases hsp : s = s0 ∧ p = p0
    · rw [hsp.1, hsp.2, set2_same, hold, ahead, ahead, before_append, before_append, before_cons,
        before_cons]
      have hst : Resting.stamp ⟨(b.ord n).id, (b.ord n).seq, (b.ord n).qty - take⟩ =
          (b.ord n).resting.stamp := rfl
      rw [hst, List.map_append, List.map_append]
      split <;> rfl
    · rw [set2_other hsp]

/-- What arrives stands behind every quote. -/
theorem Standing.pushed {ref : OrderId} {s0 : Side} {p0 : Price} {qty : Qty} {n : ℕ}
    (hl : Ledger b Q used k) (hnew : ref ∉ used)
    (hl' : Ledger b' (set2 Q s0 p0 (Q s0 p0 ++ [n])) (ref :: used) (k + 1))
    (hp : Pushed b b' n ref s0 p0 qty) (hfresh : ∀ s' p', n ∉ Q s' p')
    (hseq : b'.nextSeq.toNat = b.nextSeq.toNat + 1)
    (hlk : ∀ i ≠ OpenHashMap.kEmpty, OpenHashMap.lookup b'.ids i =
      if i = ref then some (n : ℤ) else OpenHashMap.lookup b.ids i)
    (hs : Standing E b Q used s q pos members) :
    Standing E b' (set2 Q s0 p0 (Q s0 p0 ++ [n])) (ref :: used) s q pos members := by
  have hahead : q.active = true →
      ahead (queueOf b' (set2 Q s0 p0 (Q s0 p0 ++ [n])) s q.px) pos.joinSeq =
        ahead (queueOf b Q s q.px) pos.joinSeq := by
    intro ha
    rw [hp.queues hfresh]
    by_cases hsp : s = s0 ∧ q.px = p0
    · rw [hsp.1, hsp.2, set2_same]
      exact before_push (hs.stamp ha)
    · rw [set2_other hsp]
  refine ⟨fun i hi => List.mem_cons_of_mem _ (hs.noted i hi), fun h => ?_, fun h => ?_, fun h => ?_,
    fun hE h => ?_, hs.behind⟩
  · have := hs.stamp h
    omega
  · rw [aheadTotal, hahead h]
    exact hs.le h
  · rw [hahead h, hs.names h]
    refine List.filter_congr fun i hi => ?_
    have hu := hs.noted i hi
    have hi0 := hl.real i hu
    rw [hl.isLive_eq hi0, hl'.isLive_eq hi0, hlk i hi0, if_neg fun (he : i = ref) => hnew (he ▸ hu)]
  · rw [aheadTotal, hahead h]
    exact hs.exact hE h

theorem Standing.mono {used' : List OrderId} (hs : Standing E b Q used s q pos members)
    (h : ∀ i ∈ used, i ∈ used') : Standing E b Q used' s q pos members :=
  ⟨fun i hi => h i (hs.noted i hi), hs.stamp, hs.le, hs.names, hs.exact, hs.behind⟩

/-! ### One event -/

/-- The ref an event brings into the book. -/
def newRef (e : BookEvent) : Option OrderId :=
  match e.type with
  | .add => some e.order_ref
  | .replace => some e.new_ref
  | _ => none

/-- Time priority: the executed order is the front of its queue, and no event
takes more shares than its order has. -/
structure InPriority (b : HybridBook) (e : BookEvent) : Prop where
  front : e.type = .execute → ∀ s p, ∀ o ∈ b.fifo s p, o.id = e.order_ref →
    (b.fifo s p).head? = some o
  within : e.type = .execute ∨ e.type = .cancel → ∀ s p, ∀ o ∈ b.fifo s p, o.id = e.order_ref →
    e.shares.toNat ≤ o.qty.toNat

/-- Every level's total fits its 32-bit counter. -/
def SmallLevels (b : HybridBook) : Prop := ∀ s p, mass Resting.shares (b.fifo s p) < 2 ^ 32

/-- Every quote that stands in `b` also stands in `b'`, stepped by the event. -/
def Follows (E : Prop) (e : BookEvent) (pre : Option Pre) (b : HybridBook) (Q : Queues)
    (used : List OrderId) (b' : HybridBook) (Q' : Queues) (used' : List OrderId) : Prop :=
  ∀ s q pos members, Standing E b Q used s q pos members →
    Standing E b' Q' used' s
      (match pre with | none => q | some pre => (stepSide .queueAware q pos s pre e).1)
      (match pre with | none => pos | some pre => (stepSide .queueAware q pos s pre e).2.1) members

theorem resolve_none (hr : Rep mm.book Q) (he : e.type ≠ .add)
    (href : e.order_ref ≠ OpenHashMap.kEmpty)
    (hlk : OpenHashMap.lookup mm.book.ids e.order_ref = none) : mm.resolve e = some none := by
  have hfind := hr.table.find_spec href
  rw [hlk] at hfind
  simp only [resolve, if_neg he, findOrder, hfind, Option.bind_eq_bind, Option.bind_some]
  rfl

theorem resolve_some {s0 : Side} {p0 : Price} {n : ℕ} {l r : List ℕ} (hr : Rep mm.book Q)
    (he : e.type ≠ .add) (href : e.order_ref ≠ OpenHashMap.kEmpty)
    (hlk : OpenHashMap.lookup mm.book.ids e.order_ref = some (n : ℤ))
    (hq : Q s0 p0 = l ++ n :: r) :
    mm.resolve e = some (some ⟨s0, p0, (mm.book.ord n).resting.seq, (mm.book.ord n).resting.qty⟩) := by
  have hfind := hr.table.find_spec href
  rw [hlk] at hfind
  have hmem : n ∈ Q s0 p0 := by simp [hq]
  obtain ⟨hpool, -, hlevel, hside, -⟩ := hr.order s0 p0 n hmem
  obtain ⟨m, hm, hlt, -, hlv⟩ := hr.level s0 p0 (hr.absent_of hmem)
  have hsub : subscript mm.book.orders (n : ℤ) = some (mm.book.ord n) := subscript_cast hpool _
  have hsubl : subscript mm.book.levels (m : ℤ) = some (mm.book.lev m) := subscript_cast hlt _
  have hneg : ¬(m : ℤ) < 0 := by omega
  simp only [resolve, if_neg he, findOrder, hfind, hsub, Option.bind_eq_bind, Option.bind_some,
    Option.pure_def, hlevel, hm, if_neg hneg, levelByIndex, hsubl, hside, hlv.price]
  rfl

theorem Ledger.add {ref : OrderId} {s0 : Side} {p0 : Price} {qty : Qty} (hl : Ledger b Q used k)
    (href : ref ≠ OpenHashMap.kEmpty) (hnew : ref ∉ used) (hk : k + 2 < 2 ^ 32)
    (h : b.add ref s0 p0 qty = some b') :
    ∃ Q', Ledger b' Q' (ref :: used) (k + 1) ∧ (b'.rejected = 0 → b.rejected = 0 ∧
      ∀ E s q pos members, Standing E b Q used s q pos members →
        Standing E b' Q' (ref :: used) s q pos members) := by
  have hreal : ∀ i ∈ ref :: used, i ≠ OpenHashMap.kEmpty := by
    intro i hi
    cases hi with
    | head => exact href
    | tail _ hi => exact hl.real i hi
  have hsub : ∀ i ∈ used, i ∈ ref :: used := fun i hi => List.mem_cons_of_mem _ hi
  by_cases hqty : qty = 0
  · rw [hqty, add_zero] at h
    obtain rfl := Option.some.inj h
    exact ⟨Q, hl.mono (by omega) hsub hreal, fun h0 => ⟨h0, fun _ _ _ _ _ hs => hs.mono hsub⟩⟩
  · rcases hl.rep.add_cases href s0 p0 hqty with ⟨-, h'⟩ | ⟨-, h'⟩ | ⟨n, b1, h', hr', hfresh, hp⟩
    · rw [h'] at h
      cases h
    · rw [h'] at h
      obtain rfl := Option.some.inj h
      exact ⟨Q, (hl.reject _).mono (by omega) hsub hreal, fun h0 => by cases h0⟩
    · rw [h'] at h
      obtain rfl := Option.some.inj h
      obtain ⟨hl', hseq, hlive⟩ := hl.push href hnew hk hfresh hp hr'
      refine ⟨_, hl', fun h0 => ?_⟩
      obtain ⟨hb0, hlk⟩ := hlive h0
      exact ⟨hb0, fun E s q pos members hs => hs.pushed hl hnew hl' hp hfresh hseq hlk⟩

/-- Executions and cancels. -/
theorem Ledger.reduce (hl : Ledger mm.book Q used k)
    (he : e.type = .execute ∨ e.type = .cancel) (href : e.order_ref ≠ OpenHashMap.kEmpty)
    (h : mm.book.reduce e.order_ref e.shares = some b') :
    ∃ Q' pre, mm.resolve e = some pre ∧ Ledger b' Q' used k ∧
      (b'.rejected = 0 → mm.book.rejected = 0 ∧
        ∀ E, (E → InPriority mm.book e) → Follows E e pre mm.book Q used b' Q' used) := by
  have hadd : e.type ≠ .add := by
    rcases he with he | he <;> rw [he] <;> simp
  rcases hl.rep.reduce_cases href e.shares with
    ⟨hlk, h'⟩ | ⟨n, s0, p0, l, r, hlk, hq, hid, -, hcase⟩
  · rw [h'] at h
    obtain rfl := Option.some.inj h
    exact ⟨Q, none, resolve_none hl.rep hadd href hlk, hl, fun h0 => ⟨h0, fun _ _ _ _ _ _ hs => hs⟩⟩
  · have hpre := resolve_some hl.rep hadd href hlk hq
    have hmem : (mm.book.ord n).resting ∈ mm.book.fifo s0 p0 := by
      rw [hl.rep.fifo_eq]
      exact List.mem_map_of_mem (by simp [hq])
    -- what time priority says of the order the event names
    have hprio : ∀ E : Prop, (E → InPriority mm.book e) → E →
        e.shares.toNat ≤ (mm.book.ord n).qty.toNat ∧ (e.type = .execute →
          (queueOf mm.book Q s0 p0).head? = some (mm.book.ord n).resting) := by
      intro E hE hEt
      refine ⟨(hE hEt).within he s0 p0 _ hmem hid, fun hx => ?_⟩
      rw [← hl.rep.fifo_eq]
      exact (hE hEt).front hx s0 p0 _ hmem hid
    have hgone : ∀ (pos : QueuePosition) (pre : Pre), pos.isAhead pre.seq = true →
        gone pos pre e = e.shares.toNat := by
      intro pos pre hb
      unfold gone
      rcases he with he | he
      · rw [he]
      · rw [he]
        exact if_pos hb
    rcases hcase with ⟨hge, b1, h', hr', hp⟩ | ⟨hlt, b1, h', hr', hc⟩
    · rw [h'] at h
      obtain rfl := Option.some.inj h
      have hl' := hl.pull hq hlk hp hr'
      have hge' : (mm.book.ord n).qty.toNat ≤ e.shares.toNat := by
        rw [UInt32.lt_iff_toNat_lt] at hge
        omega
      refine ⟨_, _, hpre, hl', fun h0 => ?_⟩
      have hb0 : mm.book.rejected = 0 := by rw [← hp.rejected]; exact h0
      refine ⟨hb0, fun E hE s q pos members hs => ?_⟩
      refine hs.departed (Departed.pulled hl hb0 hl' hq hlk hid hp) hl (fun pos' hb => ?_)
        fun hEt => ⟨fun pos' hb => ?_, (hprio E hE hEt).2⟩
      · rw [hgone _ _ hb]
        exact hge'
      · rw [hgone _ _ hb]
        exact le_antisymm (hprio E hE hEt).1 hge'
    · rw [h'] at h
      obtain rfl := Option.some.inj h
      have hl' := hl.cut hc hr'
      refine ⟨_, _, hpre, hl', fun h0 => ?_⟩
      have hb0 : mm.book.rejected = 0 := by rw [← hc.rejected]; exact h0
      refine ⟨hb0, fun E hE s q pos members hs => ?_⟩
      exact hs.departed (Departed.cut hl.rep hq hc hlt) hl (fun pos' hb => (hgone _ _ hb).ge)
        fun hEt => ⟨fun pos' hb => hgone _ _ hb, (hprio E hE hEt).2⟩

/-- Deletions, and the first half of a replacement. -/
theorem Ledger.retire {n : ℕ} {s0 : Side} {p0 : Price} {l r : List ℕ} (hl : Ledger mm.book Q used k)
    (he : e.type = .delete ∨ e.type = .replace)
    (hlk : OpenHashMap.lookup mm.book.ids e.order_ref = some (n : ℤ))
    (hq : Q s0 p0 = l ++ n :: r) (hid : (mm.book.ord n).id = e.order_ref)
    (hr' : Rep b' (set2 Q s0 p0 (l ++ r)))
    (hp : Pulled mm.book b' e.order_ref s0 p0 (l ++ r = [])) :
    Ledger b' (set2 Q s0 p0 (l ++ r)) used k ∧ (b'.rejected = 0 → mm.book.rejected = 0 ∧
      ∀ E, Follows E e
        (some ⟨s0, p0, (mm.book.ord n).resting.seq, (mm.book.ord n).resting.qty⟩)
        mm.book Q used b' (set2 Q s0 p0 (l ++ r)) used) := by
  have hl' := hl.pull hq hlk hp hr'
  refine ⟨hl', fun h0 => ?_⟩
  have hb0 : mm.book.rejected = 0 := by rw [← hp.rejected]; exact h0
  refine ⟨hb0, fun E s q pos members hs => ?_⟩
  have hgone : ∀ (pos : QueuePosition) (pre : Pre), pos.isAhead pre.seq = true →
      gone pos pre e = pre.qty.toNat := by
    intro pos pre hb
    unfold gone
    rcases he with he | he <;> rw [he] <;> exact if_pos hb
  refine hs.departed (Departed.pulled hl hb0 hl' hq hlk hid hp) hl (fun pos' hb => ?_)
    fun _ => ⟨fun pos' hb => ?_, fun hx => ?_⟩
  · rw [hgone _ _ hb]
    exact le_rfl
  · rw [hgone _ _ hb]
    rfl
  · rcases he with he | he <;> rw [he] at hx <;> cases hx

theorem Ledger.event {pre : Option Pre} (hl : Ledger mm.book Q used k)
    (hreal : ∀ r ∈ e.op.refs, r ≠ OpenHashMap.kEmpty)
    (hnew : ∀ r, newRef e = some r → r ∉ used ∧ k + 2 < 2 ^ 32)
    (hpre : mm.resolve e = some pre) (h : mm.book.step e.op = some b') :
    ∃ Q', Ledger b' Q' ((newRef e).toList ++ used) (k + (newRef e).toList.length) ∧
      (b'.rejected = 0 → mm.book.rejected = 0 ∧ ∀ E, (E → InPriority mm.book e) →
        Follows E e pre mm.book Q used b' Q' ((newRef e).toList ++ used)) := by
  unfold BookEvent.op at hreal h
  unfold newRef at hnew ⊢
  cases he : e.type with
  | add =>
    rw [he] at hreal hnew h
    obtain ⟨hno, hk⟩ := hnew e.order_ref rfl
    obtain ⟨Q', hl', hs⟩ := Ledger.add hl (hreal _ (by simp [Op.refs])) hno hk h
    refine ⟨Q', hl', fun h0 => ⟨(hs h0).1, fun E _ s q pos members hst => ?_⟩⟩
    have hpre' : mm.resolve e = some none := by
      unfold resolve
      rw [if_pos he]
    rw [hpre] at hpre'
    obtain rfl := Option.some.inj hpre'
    exact (hs h0).2 E s q pos members hst
  | execute =>
    rw [he] at hreal h
    obtain ⟨Q', pre', hpre', hl', hs⟩ :=
      Ledger.reduce hl (Or.inl he) (hreal _ (by simp [Op.refs])) h
    rw [hpre] at hpre'
    obtain rfl := Option.some.inj hpre'
    exact ⟨Q', hl', hs⟩
  | cancel =>
    rw [he] at hreal h
    obtain ⟨Q', pre', hpre', hl', hs⟩ :=
      Ledger.reduce hl (Or.inr he) (hreal _ (by simp [Op.refs])) h
    rw [hpre] at hpre'
    obtain rfl := Option.some.inj hpre'
    exact ⟨Q', hl', hs⟩
  | delete =>
    rw [he] at hreal h
    have hadd : e.type ≠ .add := by rw [he]; simp
    have href := hreal e.order_ref (by simp [Op.refs])
    rcases hl.rep.remove_cases href with
      ⟨hlk, h'⟩ | ⟨n, s0, p0, l, r, b1, hlk, hq, hid, -, h', hr', hp⟩
    · have h1 : mm.book.remove e.order_ref = some b' := h
      rw [h'] at h1
      obtain rfl := Option.some.inj h1
      rw [resolve_none hl.rep hadd href hlk] at hpre
      obtain rfl := Option.some.inj hpre
      exact ⟨Q, hl, fun h0 => ⟨h0, fun _ _ _ _ _ _ hst => hst⟩⟩
    · have h1 : mm.book.remove e.order_ref = some b' := h
      rw [h'] at h1
      obtain rfl := Option.some.inj h1
      rw [resolve_some hl.rep hadd href hlk hq] at hpre
      obtain rfl := Option.some.inj hpre
      obtain ⟨hl', hs⟩ := Ledger.retire hl (Or.inl he) hlk hq hid hr' hp
      exact ⟨_, hl', fun h0 => ⟨(hs h0).1, fun E _ => (hs h0).2 E⟩⟩
  | replace =>
    rw [he] at hreal hnew h
    obtain ⟨hno, hk⟩ := hnew e.new_ref rfl
    have hadd : e.type ≠ .add := by rw [he]; simp
    have href := hreal e.order_ref (by simp [Op.refs])
    have hnref := hreal e.new_ref (by simp [Op.refs])
    have hsub : ∀ i ∈ used, i ∈ e.new_ref :: used := fun i hi => List.mem_cons_of_mem _ hi
    rcases hl.rep.replace_cases href e.new_ref e.price e.shares with
      ⟨hlk, h'⟩ | ⟨n, s0, p0, l, r, b1, hlk, hq, hid, -, -, hr1, hp, h'⟩
    · have h1 : mm.book.replace e.order_ref e.new_ref e.price e.shares = some b' := h
      rw [h'] at h1
      obtain rfl := Option.some.inj h1
      rw [resolve_none hl.rep hadd href hlk] at hpre
      obtain rfl := Option.some.inj hpre
      refine ⟨Q, hl.mono (by omega) hsub fun i hi => ?_,
        fun h0 => ⟨h0, fun _ _ _ _ _ _ hst => hst.mono hsub⟩⟩
      cases hi with
      | head => exact hnref
      | tail _ hi => exact hl.real i hi
    · have h1 : mm.book.replace e.order_ref e.new_ref e.price e.shares = some b' := h
      rw [h'] at h1
      rw [resolve_some hl.rep hadd href hlk hq] at hpre
      obtain rfl := Option.some.inj hpre
      obtain ⟨hl1, hs1⟩ := Ledger.retire hl (Or.inr he) hlk hq hid hr1 hp
      obtain ⟨Q', hl', hs⟩ := Ledger.add hl1 hnref hno hk h1
      refine ⟨Q', hl', fun h0 => ?_⟩
      obtain ⟨hb1, hadd'⟩ := hs h0
      obtain ⟨hb0, hret⟩ := hs1 hb1
      exact ⟨hb0, fun E _ s q pos members hst => hadd' E _ _ _ _ (hret E s q pos members hst)⟩

end MarketMaker

end Hotpath.Sim
