import Hotpath.Sim.Quoting
import Hotpath.Tools.Pipeline

/-!
# The pipeline does what one thread does

At every step each ring carries the next messages of one fixed sequence: the tape with
its end marker, and the fills of the single-threaded run with theirs.
-/

namespace Hotpath.Tools
open Hotpath.Book Hotpath.Sim Hotpath.Ipc Hotpath.Ipc.SpscRing Hotpath.Support

variable {tape : List BookEvent} {mm mm' : MarketMaker} {fills all log : List Fill}
variable {r1 r1' : SpscRing FeedMsg} {r2 r2' : SpscRing FillMsg} {s s' : Pipeline} {k i : ℕ}

/-! ### The single-threaded run -/

theorem maker_isSome : (maker 0 100 10).isSome = true := by decide +kernel

theorem runEvents_eq (mm : MarketMaker) (d : Sink) (tape : List BookEvent) :
    runEvents mm d tape =
      (mm.run (tape.map .event)).map fun (mm', fills) => (mm', fills.foldl Sink.feed d) := by
  induction tape generalizing mm d with
  | nil => rfl
  | cons e es ih =>
    have hinput : mm.input (.event e) = mm.onEvent e := rfl
    rw [runEvents, List.map_cons, MarketMaker.run, hinput]
    cases mm.onEvent e with
    | none => rfl
    | some r =>
      obtain ⟨mm1, f1⟩ := r
      show runEvents mm1 (f1.foldl Sink.feed d) es = ((mm1.run _).bind _).map _
      rw [ih]
      cases mm1.run (es.map .event) with
      | none => rfl
      | some r => exact congrArg (fun d => some (r.1, d)) List.foldl_append.symm

theorem foldl_feed_log (d : Sink) (fills : List Fill) :
    (fills.foldl Sink.feed d).log = d.log ++ fills := by
  induction fills generalizing d with
  | nil => exact (List.append_nil _).symm
  | cons f fs ih =>
    rw [List.foldl_cons, ih]
    exact List.append_assoc ..

/-! ### Messages and end markers -/

/-- The first `i` messages of the feed. -/
def feedMsgs (tape : List BookEvent) (i : ℕ) : List FeedMsg := (List.range i).map (feedMsg tape)

theorem feedMsgs_length (tape : List BookEvent) (i : ℕ) : (feedMsgs tape i).length = i := by
  rw [feedMsgs, List.length_map, List.length_range]

theorem feedMsgs_succ (tape : List BookEvent) (i : ℕ) :
    feedMsgs tape (i + 1) = feedMsgs tape i ++ [feedMsg tape i] := by
  rw [feedMsgs, List.range_succ, List.map_append]
  rfl

theorem feedMsgs_mono {i j : ℕ} (h : i ≤ j) : feedMsgs tape i <+: feedMsgs tape j := by
  induction j, h using Nat.le_induction with
  | base => exact List.prefix_rfl
  | succ j _ ih =>
    rw [feedMsgs_succ]
    exact ih.trans (List.prefix_append ..)

/-- What comes after the first `i` messages is message `i`. -/
theorem feedMsgs_next {n : ℕ} {m : FeedMsg} (h : feedMsgs tape i ++ [m] <+: feedMsgs tape n) :
    i < n ∧ m = feedMsg tape i := by
  have hlen := h.length_le
  rw [List.length_append, feedMsgs_length, feedMsgs_length, List.length_singleton] at hlen
  have hpre : feedMsgs tape (i + 1) <+: feedMsgs tape n := feedMsgs_mono hlen
  have heq := List.prefix_of_prefix_length_le h hpre (by
    rw [List.length_append, feedMsgs_length, feedMsgs_length, List.length_singleton])
  rw [feedMsgs_succ] at heq
  have heq := heq.eq_of_length (by rw [List.length_append, List.length_append]; rfl)
  exact ⟨hlen, List.singleton_inj.mp (List.append_cancel_left heq)⟩

theorem feedMsg_of_lt (h : i < tape.length) : feedMsg tape i = ⟨tape[i], 0⟩ := by
  rw [feedMsg, List.getElem?_eq_getElem h]

theorem feedMsg_length (tape : List BookEvent) :
    feedMsg tape tape.length = { FeedMsg.zero with eof := 1 } := by
  rw [feedMsg, List.getElem?_eq_none le_rfl]

theorem fillMsg_ne_eof (f : Fill) : fillMsg f ≠ fillEof := by
  intro h
  have heof : (0 : UInt32) = 1 := congrArg FillMsg.eof h
  exact absurd heof (by decide)

/-- Fills in front of the end marker are fills of the run. -/
theorem fills_initial (h : log.map fillMsg <+: all.map fillMsg ++ [fillEof]) : log <+: all := by
  induction log generalizing all with
  | nil => exact List.nil_prefix
  | cons f log ih =>
    cases all with
    | nil =>
      obtain ⟨heq, -⟩ := List.cons_prefix_cons.mp h
      exact absurd heq (fillMsg_ne_eof f)
    | cons g all =>
      obtain ⟨heq, htail⟩ := List.cons_prefix_cons.mp h
      obtain rfl : f = g := congrArg FillMsg.fill heq
      exact List.cons_prefix_cons.mpr ⟨rfl, ih htail⟩

/-- The end marker comes after all fills. -/
theorem fills_complete (h : log.map fillMsg ++ [fillEof] <+: all.map fillMsg ++ [fillEof]) :
    log = all := by
  induction log generalizing all with
  | nil =>
    cases all with
    | nil => rfl
    | cons g all =>
      obtain ⟨heq, -⟩ := List.cons_prefix_cons.mp h
      exact absurd heq.symm (fillMsg_ne_eof g)
  | cons f log ih =>
    cases all with
    | nil =>
      obtain ⟨heq, -⟩ := List.cons_prefix_cons.mp h
      exact absurd heq (fillMsg_ne_eof f)
    | cons g all =>
      obtain ⟨heq, htail⟩ := List.cons_prefix_cons.mp h
      obtain rfl : f = g := congrArg FillMsg.fill heq
      rw [ih htail]

/-! ### The three threads -/

/-- What the feed thread has made of its ring after `sent` messages. -/
structure FeedOk (tape : List BookEvent) (r1 : SpscRing FeedMsg) (sent : ℕ) : Prop where
  le : sent ≤ tape.length + 1
  sending : r1.Sending (feedMsgs tape sent) (feedMsg tape sent)
  ended : sent = tape.length + 1 → r1.producer.at_ = .idle

/-- Where the strategy stands in the run that ends in `last` with the fills `all`. -/
def StrategyOk (tape : List BookEvent) (last : MarketMaker) (all : List Fill)
    (r1 : SpscRing FeedMsg) (r2 : SpscRing FillMsg) (st : Strategy) : Prop :=
  match st.at_ with
  | .popping => ∃ j sent rest, j ≤ tape.length ∧
      st.mm.run ((tape.drop j).map .event) = some (last, rest) ∧ all = sent ++ rest ∧
      r1.Receiving (feedMsgs tape j) ∧ r2.producer.at_ = .idle ∧ r2.pushed = sent.map fillMsg
  | .pushing f more => ∃ j sent rest, j ≤ tape.length ∧
      st.mm.run ((tape.drop j).map .event) = some (last, rest) ∧
      all = sent ++ (f :: more ++ rest) ∧
      (r1.consumer.at_ = .idle ∧ r1.popped = feedMsgs tape j) ∧
      r2.Sending (sent.map fillMsg) (fillMsg f)
  | .pushingEof =>
      st.overflowStrategy = last.book.overflowOps ∧ r1.popped = feedMsgs tape (tape.length + 1) ∧
      r2.Sending (all.map fillMsg) fillEof
  | .done =>
      st.overflowStrategy = last.book.overflowOps ∧ r1.popped = feedMsgs tape (tape.length + 1) ∧
      r2.producer.at_ = .idle ∧ r2.pushed = all.map fillMsg ++ [fillEof]

structure GatewayOk (r2 : SpscRing FillMsg) (g : Gateway) : Prop where
  sink : g.sink = g.sink.log.foldl Sink.feed {}
  going : g.done = false → r2.Receiving (g.sink.log.map fillMsg)
  ended : g.done = true → r2.popped = g.sink.log.map fillMsg ++ [fillEof]

structure PipelineOk (tape : List BookEvent) (last : MarketMaker) (all : List Fill)
    (s : Pipeline) : Prop where
  ring1 : Sound False .cached s.ring1
  closed1 : s.ring1.Closed
  room1 : 0 < s.ring1.mask
  ring2 : Sound False .cached s.ring2
  closed2 : s.ring2.Closed
  room2 : 0 < s.ring2.mask
  feed : FeedOk tape s.ring1 s.sent
  strategy : StrategyOk tape last all s.ring1 s.ring2 s.strategy
  gateway : GatewayOk s.ring2 s.gateway

variable {last : MarketMaker} {st : Strategy} {sent : ℕ} {g : Gateway}

theorem FeedOk.congr (h : FeedOk tape r1 sent) (hp : r1'.producer = r1.producer)
    (hpushed : r1'.pushed = r1.pushed) : FeedOk tape r1' sent :=
  ⟨h.le, h.sending.congr hp hpushed, fun hs => hp ▸ h.ended hs⟩

theorem StrategyOk.congr (h : StrategyOk tape last all r1 r2 st)
    (hc : r1'.consumer = r1.consumer) (hpopped : r1'.popped = r1.popped)
    (hp : r2'.producer = r2.producer) (hpushed : r2'.pushed = r2.pushed) :
    StrategyOk tape last all r1' r2' st := by
  unfold StrategyOk at h ⊢
  cases hat : st.at_ with
  | popping =>
    rw [hat] at h
    obtain ⟨j, sent, rest, hj, hrun, hall, hrecv, hidle, hsent⟩ := h
    exact ⟨j, sent, rest, hj, hrun, hall, hrecv.congr hc hpopped, hp ▸ hidle, hpushed ▸ hsent⟩
  | pushing f more =>
    rw [hat] at h
    obtain ⟨j, sent, rest, hj, hrun, hall, ⟨hidle, hgot⟩, hsend⟩ := h
    exact ⟨j, sent, rest, hj, hrun, hall, ⟨hc ▸ hidle, hpopped ▸ hgot⟩, hsend.congr hp hpushed⟩
  | pushingEof =>
    rw [hat] at h
    exact ⟨h.1, hpopped ▸ h.2.1, h.2.2.congr hp hpushed⟩
  | done =>
    rw [hat] at h
    exact ⟨h.1, hpopped ▸ h.2.1, hp ▸ h.2.2.1, hpushed ▸ h.2.2.2⟩

theorem GatewayOk.congr (h : GatewayOk r2 g) (hc : r2'.consumer = r2.consumer)
    (hpopped : r2'.popped = r2.popped) : GatewayOk r2' g :=
  ⟨h.sink, fun hg => (h.going hg).congr hc hpopped, fun hg => hpopped ▸ h.ended hg⟩

/-! ### What the rings carry -/

theorem FeedOk.prefix_pushed (h : FeedOk tape r1 sent) :
    r1.pushed <+: feedMsgs tape (tape.length + 1) := by
  cases h.sending.pushed_eq with
  | inl hpushed =>
    rw [hpushed]
    exact feedMsgs_mono h.le
  | inr hpushed =>
    obtain ⟨hpushed, hat⟩ := hpushed
    have hlt : sent ≠ tape.length + 1 := by
      intro heq
      exact nomatch (h.ended heq).symm.trans hat
    rw [hpushed, ← feedMsgs_succ]
    exact feedMsgs_mono (Nat.lt_of_le_of_ne h.le hlt)

theorem StrategyOk.prefix_pushed (h : StrategyOk tape last all r1 r2 st) :
    r2.pushed <+: all.map fillMsg ++ [fillEof] := by
  unfold StrategyOk at h
  cases hat : st.at_ with
  | popping =>
    rw [hat] at h
    obtain ⟨j, sent, rest, -, -, rfl, -, -, hpushed⟩ := h
    rw [hpushed, List.map_append, List.append_assoc]
    exact List.prefix_append ..
  | pushing f more =>
    rw [hat] at h
    obtain ⟨j, sent, rest, -, -, rfl, -, hsend⟩ := h
    rw [List.map_append, List.append_assoc]
    cases hsend.pushed_eq with
    | inl hpushed =>
      rw [hpushed]
      exact List.prefix_append ..
    | inr hpushed =>
      rw [hpushed.1, List.prefix_append_right_inj]
      exact List.cons_prefix_cons.mpr ⟨rfl, List.nil_prefix⟩
  | pushingEof =>
    rw [hat] at h
    cases h.2.2.pushed_eq with
    | inl hpushed =>
      rw [hpushed]
      exact List.prefix_append ..
    | inr hpushed => exact hpushed.1 ▸ List.prefix_rfl
  | done =>
    rw [hat] at h
    exact h.2.2.2 ▸ List.prefix_rfl

/-! ### Steps -/

/-- The strategy between two events, or at the next fill of one. -/
theorem StrategyOk.emit {j : ℕ} {sent rest : List Fill} {overflow : ℕ} (hj : j ≤ tape.length)
    (hrun : mm.run ((tape.drop j).map .event) = some (last, rest))
    (hall : all = sent ++ (fills ++ rest)) (hidle1 : r1.consumer.at_ = .idle)
    (hgot : r1.popped = feedMsgs tape j) (hidle2 : r2.producer.at_ = .idle)
    (hsent : r2.pushed = sent.map fillMsg) :
    StrategyOk tape last all r1 r2 ⟨Strategy.emit fills, mm, overflow⟩ := by
  cases fills with
  | nil => exact ⟨j, sent, rest, hj, hrun, hall, .of_idle hidle1 hgot, hidle2, hsent⟩
  | cons f more =>
    exact ⟨j, sent, rest, hj, hrun, hall, ⟨hidle1, hgot⟩, .of_idle hidle2 hsent⟩

/-- The strategy can take message `j` of the feed. -/
theorem StrategyOk.receive {j : ℕ} {sent rest : List Fill} (overflow : ℕ)
    (hj : j ≤ tape.length) (hrun : mm.run ((tape.drop j).map .event) = some (last, rest))
    (hall : all = sent ++ rest) :
    ∃ st, Strategy.receive ⟨.popping, mm, overflow⟩ (feedMsg tape j) = some st ∧
      ∀ (r1 : SpscRing FeedMsg) (r2 : SpscRing FillMsg), r1.consumer.at_ = .idle →
        r1.popped = feedMsgs tape (j + 1) → r2.producer.at_ = .idle →
        r2.pushed = sent.map fillMsg → StrategyOk tape last all r1 r2 st := by
  rcases Nat.lt_or_eq_of_le hj with hlt | rfl
  · rw [List.drop_eq_getElem_cons hlt, List.map_cons] at hrun
    obtain ⟨mm1, f1, f2, hevent, hrest, rfl⟩ := MarketMaker.run_cons hrun
    have hevent : mm.onEvent tape[j] = some (mm1, f1) := hevent
    refine ⟨⟨Strategy.emit f1, mm1, overflow⟩, ?_, ?_⟩
    · rw [Strategy.receive, feedMsg_of_lt hlt, if_neg (fun h => h rfl), hevent]
      rfl
    · exact fun r1 r2 hidle1 hgot hidle2 hsent =>
        .emit hlt hrest hall hidle1 hgot hidle2 hsent
  · rw [List.drop_length] at hrun
    obtain ⟨rfl, rfl⟩ := Prod.mk.inj (Option.some.inj hrun)
    rw [List.append_nil] at hall
    obtain rfl := hall
    refine ⟨⟨.pushingEof, mm, mm.book.overflowOps⟩, ?_, ?_⟩
    · rw [Strategy.receive, feedMsg_length, if_pos (by decide : (1 : UInt32) ≠ 0)]
    · exact fun r1 r2 _ hgot hidle2 hsent => ⟨rfl, hgot, .of_idle hidle2 hsent⟩

theorem GatewayOk.receive {m : FillMsg} (h : GatewayOk r2 g) (hdone : g.done = false)
    (hm : m ∈ all.map fillMsg ++ [fillEof]) (hidle : r2'.consumer.at_ = .idle)
    (hpopped : r2'.popped = g.sink.log.map fillMsg ++ [m]) : GatewayOk r2' (g.receive m) := by
  cases List.mem_append.mp hm with
  | inl hm =>
    obtain ⟨f, -, rfl⟩ := List.mem_map.mp hm
    have hlog : (g.sink.feed f).log.map fillMsg = g.sink.log.map fillMsg ++ [fillMsg f] :=
      List.map_append
    have hg : g.receive (fillMsg f) = { g with sink := g.sink.feed f } := if_neg (fun h => h rfl)
    rw [hg]
    constructor
    case sink =>
      show g.sink.feed f = (g.sink.log ++ [f]).foldl Sink.feed {}
      rw [List.foldl_append, ← h.sink]
      rfl
    case going => exact fun _ => .of_idle hidle (hpopped.trans hlog.symm)
    case ended => exact fun hg => nomatch hdone.symm.trans hg
  | inr hm =>
    obtain rfl := List.mem_singleton.mp hm
    have hg : g.receive fillEof = { g with done := true } :=
      if_pos (by decide : (1 : UInt32) ≠ 0)
    rw [hg]
    exact ⟨h.sink, nofun, fun _ => hpopped⟩

namespace PipelineOk

theorem stepFeed (h : PipelineOk tape last all s) (hs : s.stepFeed tape k = some s') :
    PipelineOk tape last all s' := by
  obtain ⟨hle, hs⟩ := Option.ite_none_right_eq_some.mp hs
  obtain ⟨⟨r1, ok⟩, hspin, hs⟩ := Option.bind_eq_some_iff.mp hs
  obtain rfl := Option.some.inj hs
  obtain ⟨a, hstep⟩ := spinPush_step hspin
  have hp := h.feed.sending.spinPush hspin
  have hring := h.ring1.step False.elim hstep
  have hclosed := h.closed1.step hstep
  have hroom : 0 < r1.mask := hp.mask ▸ h.room1
  have hstrategy := h.strategy.congr hp.consumer hp.popped rfl rfl
  cases ok with
  | false =>
    have hfeed : FeedOk tape r1 s.sent := ⟨h.feed.le, hp.going rfl, by omega⟩
    exact { h with ring1 := hring, closed1 := hclosed, room1 := hroom, feed := hfeed,
                   strategy := hstrategy }
  | true =>
    obtain ⟨hidle, hpushed⟩ := hp.left rfl
    rw [← feedMsgs_succ] at hpushed
    have hfeed : FeedOk tape r1 (s.sent + 1) :=
      ⟨Nat.succ_le_succ hle, .of_idle hidle hpushed, fun _ => hidle⟩
    exact { h with ring1 := hring, closed1 := hclosed, room1 := hroom, feed := hfeed,
                   strategy := hstrategy }

/-- A step of the strategy on its second ring. -/
theorem stepEmit {m : FillMsg} {sent : List FillMsg} {next : StrategyAt}
    (h : PipelineOk tape last all s) (hsend : s.ring2.Sending sent m)
    (hgo : ∀ r2 : SpscRing FillMsg, r2.Sending sent m →
      StrategyOk tape last all s.ring1 r2 s.strategy)
    (hnext : ∀ r2 : SpscRing FillMsg, r2.producer.at_ = .idle → r2.pushed = sent ++ [m] →
      StrategyOk tape last all s.ring1 r2 { s.strategy with at_ := next })
    (hs : s.stepEmit m next k = some s') : PipelineOk tape last all s' := by
  obtain ⟨⟨r2, ok⟩, hspin, hs⟩ := Option.bind_eq_some_iff.mp hs
  obtain rfl := Option.some.inj hs
  obtain ⟨a, hstep⟩ := spinPush_step hspin
  have hp := hsend.spinPush hspin
  have hring := h.ring2.step False.elim hstep
  have hclosed := h.closed2.step hstep
  have hroom : 0 < r2.mask := hp.mask ▸ h.room2
  have hgateway := h.gateway.congr hp.consumer hp.popped
  cases ok with
  | false =>
    exact { h with ring2 := hring, closed2 := hclosed, room2 := hroom,
                   strategy := hgo r2 (hp.going rfl), gateway := hgateway }
  | true =>
    obtain ⟨hidle, hpushed⟩ := hp.left rfl
    exact { h with ring2 := hring, closed2 := hclosed, room2 := hroom,
                   strategy := hnext r2 hidle hpushed, gateway := hgateway }

theorem stepStrategy (h : PipelineOk tape last all s) (hs : s.stepStrategy k = some s') :
    PipelineOk tape last all s' := by
  obtain ⟨ring1, ring2, sent, ⟨at_, mm, overflow⟩, gateway, calls⟩ := s
  have hst := h.strategy
  cases at_ with
  | popping =>
    obtain ⟨j, out, rest, hj, hrun, hall, hrecv, hidle, hsent⟩ := hst
    obtain ⟨⟨r1, got⟩, hspin, hs⟩ := Option.bind_eq_some_iff.mp hs
    obtain ⟨a, hstep⟩ := spinPop_step hspin
    have hp := hrecv.spinPop hspin
    have hring := h.ring1.step False.elim hstep
    have hclosed := h.closed1.step hstep
    have hroom : 0 < r1.mask := hp.mask ▸ h.room1
    have hfeed := h.feed.congr hp.producer hp.pushed
    cases got with
    | none =>
      obtain rfl := Option.some.inj hs
      exact { h with ring1 := hring, closed1 := hclosed, room1 := hroom, feed := hfeed,
                     strategy := ⟨j, out, rest, hj, hrun, hall, hp.going rfl, hidle, hsent⟩ }
    | some m =>
      obtain ⟨st, hst, hs⟩ := Option.bind_eq_some_iff.mp hs
      obtain rfl := Option.some.inj hs
      obtain ⟨hidle1, hgot⟩ := hp.left m rfl
      have hpre : feedMsgs tape j ++ [m] <+: feedMsgs tape (tape.length + 1) :=
        hgot ▸ hring.fifo.trans hfeed.prefix_pushed
      obtain ⟨-, rfl⟩ := feedMsgs_next hpre
      rw [← feedMsgs_succ] at hgot
      obtain ⟨st', hst', hok⟩ := StrategyOk.receive overflow hj hrun hall
      obtain rfl := Option.some.inj (hst.symm.trans hst')
      exact { h with ring1 := hring, closed1 := hclosed, room1 := hroom, feed := hfeed,
                     strategy := hok r1 ring2 hidle1 hgot hidle hsent }
  | pushing f more =>
    obtain ⟨j, out, rest, hj, hrun, hall, hgot, hsend⟩ := hst
    apply h.stepEmit hsend _ _ hs
    · exact fun r2 hsend => ⟨j, out, rest, hj, hrun, hall, hgot, hsend⟩
    · intro r2 hidle hpushed
      apply StrategyOk.emit hj hrun _ hgot.1 hgot.2 hidle
      · rw [hpushed, ← List.map_singleton, ← List.map_append]
      · rw [hall, List.append_assoc]
        rfl
  | pushingEof =>
    obtain ⟨hover, hgot, hsend⟩ := hst
    apply h.stepEmit hsend _ _ hs
    · exact fun r2 hsend => ⟨hover, hgot, hsend⟩
    · exact fun r2 hidle hpushed => ⟨hover, hgot, hidle, hpushed⟩
  | done => cases hs

theorem stepGateway (h : PipelineOk tape last all s) (hs : s.stepGateway k = some s') :
    PipelineOk tape last all s' := by
  obtain ⟨hdone, hs⟩ := Option.ite_none_left_eq_some.mp hs
  obtain ⟨⟨r2, got⟩, hspin, hs⟩ := Option.bind_eq_some_iff.mp hs
  obtain rfl := Option.some.inj hs
  have hdone : s.gateway.done = false := Bool.eq_false_iff.mpr hdone
  obtain ⟨a, hstep⟩ := spinPop_step hspin
  have hp := (h.gateway.going hdone).spinPop hspin
  have hring := h.ring2.step False.elim hstep
  have hclosed := h.closed2.step hstep
  have hroom : 0 < r2.mask := hp.mask ▸ h.room2
  have hstrategy := h.strategy.congr rfl rfl hp.producer hp.pushed
  cases got with
  | none =>
    have hgateway : GatewayOk r2 s.gateway :=
      ⟨h.gateway.sink, fun _ => hp.going rfl, fun hg => nomatch hdone.symm.trans hg⟩
    exact { h with ring2 := hring, closed2 := hclosed, room2 := hroom, strategy := hstrategy,
                   gateway := hgateway }
  | some m =>
    obtain ⟨hidle, hpopped⟩ := hp.left m rfl
    have hpre : s.gateway.sink.log.map fillMsg ++ [m] <+: all.map fillMsg ++ [fillEof] :=
      hpopped ▸ hring.fifo.trans hstrategy.prefix_pushed
    have hm : m ∈ all.map fillMsg ++ [fillEof] :=
      hpre.subset (List.mem_append_right _ (List.mem_singleton_self m))
    exact { h with ring2 := hring, closed2 := hclosed, room2 := hroom, strategy := hstrategy,
                   gateway := h.gateway.receive hdone hm hidle hpopped }

theorem step {a : Thread × ℕ} (h : PipelineOk tape last all s) (hs : s.step tape a = some s') :
    PipelineOk tape last all s' := by
  obtain ⟨t, k⟩ := a
  cases t with
  | feed => exact h.stepFeed hs
  | strategy => exact h.stepStrategy hs
  | gateway => exact h.stepGateway hs

end PipelineOk

end Hotpath.Tools
