import Hotpath.Ipc.SpscQueue
import Hotpath.Sim.Total
import Hotpath.Tools.PipelineRun

/-!
# The pipeline comes to its end

No schedule leads into a deadlock of the two rings: as long as a thread has not
finished, one that has not finished can complete its call by itself.
-/

namespace Hotpath.Tools
open Hotpath.Book Hotpath.Sim Hotpath.Ipc Hotpath.Ipc.SpscRing Hotpath.Support

variable {tape : List BookEvent} {last : MarketMaker} {all : List Fill} {s s' : Pipeline}

/-- Steps of thread `t` alone complete a push or a pop. -/
def Pipeline.CanComplete (tape : List BookEvent) (s : Pipeline) (t : Thread) : Prop :=
  ∃ ks s', runs (Pipeline.stepThread tape t) s ks = some s' ∧ s.calls < s'.calls

namespace PipelineOk

/-! ### One thread by itself -/

theorem feed_completes (h : PipelineOk tape last all s) (hsent : s.sent ≤ tape.length)
    (hroom : s.sent + 1 < s.ring1.popped.length + (s.ring1.mask + 1)) :
    s.CanComplete tape .feed := by
  have hlen : (feedMsgs tape s.sent).length + 1 <
      s.ring1.popped.length + (s.ring1.mask + 1) := by
    rw [feedMsgs_length]
    exact hroom
  let put (r : SpscRing FeedMsg) : Pipeline := { s with ring1 := r }
  apply @Sound.push_left _ _ _ _ (Pipeline.stepThread tape .feed) put _ _
    h.ring1 h.closed1 h.feed.sending hlen
  · intro r k r' hspin
    show Pipeline.stepFeed tape (put r) k = some (put r')
    rw [Pipeline.stepFeed, if_pos hsent, Option.bind_eq_bind, hspin]
    rfl
  · intro r k r' hspin
    refine ⟨{ put r' with sent := s.sent + 1, calls := s.calls + 1 }, ?_, Nat.lt_succ_self _⟩
    show Pipeline.stepFeed tape (put r) k = _
    rw [Pipeline.stepFeed, if_pos hsent, Option.bind_eq_bind, hspin]
    rfl

theorem emit_completes {m : FillMsg} {sent : List FillMsg} {next : StrategyAt}
    (h : PipelineOk tape last all s) (hsend : s.ring2.Sending sent m)
    (hroom : sent.length + 1 < s.ring2.popped.length + (s.ring2.mask + 1))
    (hstep : ∀ s' : Pipeline, s'.strategy = s.strategy →
      ∀ k, s'.stepStrategy k = s'.stepEmit m next k) :
    s.CanComplete tape .strategy := by
  let put (r : SpscRing FillMsg) : Pipeline := { s with ring2 := r }
  apply @Sound.push_left _ _ _ _ (Pipeline.stepThread tape .strategy) put _ _
    h.ring2 h.closed2 hsend hroom
  · intro r k r' hspin
    show (put r).stepStrategy k = some (put r')
    rw [hstep (put r) rfl k, Pipeline.stepEmit, Option.bind_eq_bind, hspin]
    rfl
  · intro r k r' hspin
    refine ⟨{ put r' with
      strategy := { s.strategy with at_ := next }, calls := s.calls + 1 }, ?_, Nat.lt_succ_self _⟩
    show (put r).stepStrategy k = _
    rw [hstep (put r) rfl k, Pipeline.stepEmit, Option.bind_eq_bind, hspin]
    rfl

theorem receive_completes {j : ℕ} {sent rest : List Fill} (h : PipelineOk tape last all s)
    (hat : s.strategy.at_ = .popping) (hj : j ≤ tape.length)
    (hrun : s.strategy.mm.run ((tape.drop j).map .event) = some (last, rest))
    (hall : all = sent ++ rest) (hrecv : s.ring1.Receiving (feedMsgs tape j))
    (hsome : j < s.ring1.pushed.length) : s.CanComplete tape .strategy := by
  obtain ⟨ring1, ring2, isent, ⟨at_, mm, overflow⟩, gateway, calls⟩ := s
  obtain rfl : at_ = .popping := hat
  have hlen : (feedMsgs tape j).length < ring1.pushed.length := by
    rw [feedMsgs_length]
    exact hsome
  let put (r : SpscRing FeedMsg) : Pipeline :=
    ⟨r, ring2, isent, ⟨.popping, mm, overflow⟩, gateway, calls⟩
  apply @Sound.pop_left _ _ _ (Pipeline.stepThread tape .strategy) put _ _ _
    h.ring1 h.closed1 hrecv rfl hlen
  · intro r k r' hspin
    show (put r).stepStrategy k = some (put r')
    rw [Pipeline.stepStrategy, Option.bind_eq_bind, hspin]
    rfl
  · intro r k r' m hspin hpre
    obtain ⟨-, rfl⟩ := feedMsgs_next (hpre.trans h.feed.prefix_pushed)
    obtain ⟨st, hst, -⟩ := StrategyOk.receive overflow hj hrun hall
    refine ⟨⟨r', ring2, isent, st, gateway, calls + 1⟩, ?_, Nat.lt_succ_self _⟩
    show (put r).stepStrategy k = _
    rw [Pipeline.stepStrategy, Option.bind_eq_bind, hspin, Option.bind_some]
    show (Strategy.receive _ _).bind _ = _
    rw [hst]
    rfl

theorem gateway_completes (h : PipelineOk tape last all s) (hdone : s.gateway.done = false)
    (hsome : s.gateway.sink.log.length < s.ring2.pushed.length) :
    s.CanComplete tape .gateway := by
  have hlen : (s.gateway.sink.log.map fillMsg).length < s.ring2.pushed.length := by
    rw [List.length_map]
    exact hsome
  let put (r : SpscRing FillMsg) : Pipeline := { s with ring2 := r }
  apply @Sound.pop_left _ _ _ (Pipeline.stepThread tape .gateway) put _ _ _
    h.ring2 h.closed2 (h.gateway.going hdone) rfl hlen
  · intro r k r' hspin
    show (put r).stepGateway k = some (put r')
    rw [Pipeline.stepGateway, if_neg (Bool.eq_false_iff.mp hdone), Option.bind_eq_bind, hspin]
    rfl
  · intro r k r' m hspin hpre
    refine ⟨{ put r' with gateway := s.gateway.receive m, calls := s.calls + 1 }, ?_,
      Nat.lt_succ_self _⟩
    show (put r).stepGateway k = _
    rw [Pipeline.stepGateway, if_neg (Bool.eq_false_iff.mp hdone), Option.bind_eq_bind, hspin]
    rfl

/-! ### All three -/

theorem prefix_consumed (h : PipelineOk tape last all s) : s.gateway.sink.log <+: all := by
  have hpre : s.ring2.popped <+: all.map fillMsg ++ [fillEof] :=
    h.ring2.fifo.trans h.strategy.prefix_pushed
  cases hdone : s.gateway.done with
  | true =>
    rw [h.gateway.ended hdone] at hpre
    exact fills_initial ((List.prefix_append ..).trans hpre)
  | false =>
    exact fills_initial ((h.gateway.going hdone).prefix_got.trans hpre)

/-- A gateway that has met the end marker has all fills. -/
theorem consumed_all (h : PipelineOk tape last all s) (hdone : s.gateway.done = true) :
    s.gateway.sink.log = all := by
  apply fills_complete
  rw [← h.gateway.ended hdone]
  exact h.ring2.fifo.trans h.strategy.prefix_pushed

/-- The strategy gets its message out, or the gateway takes one. -/
theorem emit_or_gateway {m : FillMsg} {sent : List Fill} {next : StrategyAt}
    (h : PipelineOk tape last all s) (hsend : s.ring2.Sending (sent.map fillMsg) m)
    (hle : sent.length ≤ all.length) (hunfinished : s.finished tape .strategy = false)
    (hstep : ∀ s' : Pipeline, s'.strategy = s.strategy →
      ∀ k, s'.stepStrategy k = s'.stepEmit m next k) :
    ∃ t, s.finished tape t = false ∧ s.CanComplete tape t := by
  have hroom2 := h.room2
  have hlen : (sent.map fillMsg).length = sent.length := List.length_map ..
  have hpushed := hsend.prefix_sent.length_le
  cases hdone : s.gateway.done with
  | true =>
    have hpopped := congrArg List.length (h.gateway.ended hdone)
    rw [h.consumed_all hdone, List.length_append, List.length_map] at hpopped
    exact ⟨.strategy, hunfinished, h.emit_completes hsend (by omega) hstep⟩
  | false =>
    rcases Nat.lt_or_ge s.gateway.sink.log.length s.ring2.pushed.length with hlt | hge
    · exact ⟨.gateway, hdone, h.gateway_completes hdone hlt⟩
    · have hpopped := (h.gateway.going hdone).prefix_got.length_le
      rw [List.length_map] at hpopped
      exact ⟨.strategy, hunfinished, h.emit_completes hsend (by omega) hstep⟩

/-- The strategy gets its next message, or the feed gets one out. -/
theorem receive_or_feed {j : ℕ} {sent rest : List Fill} (h : PipelineOk tape last all s)
    (hat : s.strategy.at_ = .popping) (hj : j ≤ tape.length)
    (hrun : s.strategy.mm.run ((tape.drop j).map .event) = some (last, rest))
    (hall : all = sent ++ rest) (hrecv : s.ring1.Receiving (feedMsgs tape j)) :
    ∃ t, s.finished tape t = false ∧ s.CanComplete tape t := by
  have hroom1 := h.room1
  rcases Nat.lt_or_ge j s.ring1.pushed.length with hlt | hge
  · refine ⟨.strategy, ?_, h.receive_completes hat hj hrun hall hrecv hlt⟩
    rw [Pipeline.finished, hat]
  · have hpushed := h.feed.sending.prefix_sent.length_le
    have hpopped := hrecv.prefix_got.length_le
    rw [feedMsgs_length] at hpushed hpopped
    have hsent : s.sent ≤ tape.length := by omega
    exact ⟨.feed, decide_eq_false (Nat.not_lt.mpr hsent),
      h.feed_completes hsent (by omega)⟩

/-- No deadlock. -/
theorem progress (h : PipelineOk tape last all s) {t : Thread} (ht : s.finished tape t = false) :
    ∃ t, s.finished tape t = false ∧ s.CanComplete tape t := by
  have hst := h.strategy
  unfold StrategyOk at hst
  cases hat : s.strategy.at_ with
  | popping =>
    rw [hat] at hst
    obtain ⟨j, sent, rest, hj, hrun, hall, hrecv, -, -⟩ := hst
    exact h.receive_or_feed hat hj hrun hall hrecv
  | pushing f more =>
    rw [hat] at hst
    obtain ⟨j, sent, rest, -, -, rfl, -, hsend⟩ := hst
    have hle : sent.length ≤ (sent ++ (f :: more ++ rest)).length :=
      (List.prefix_append ..).length_le
    apply @emit_or_gateway tape last _ s (fillMsg f) sent (Strategy.emit more) h hsend hle
    · rw [Pipeline.finished, hat]
    · intro s' hs' k
      rw [Pipeline.stepStrategy, hs', hat]
  | pushingEof =>
    rw [hat] at hst
    apply @emit_or_gateway tape last _ s fillEof all .done h hst.2.2 le_rfl
    · rw [Pipeline.finished, hat]
    · intro s' hs' k
      rw [Pipeline.stepStrategy, hs', hat]
  | done =>
    rw [hat] at hst
    obtain ⟨-, hpopped, -, hpushed⟩ := hst
    cases hdone : s.gateway.done with
    | false =>
      have hlen := congrArg List.length hpushed
      have hle := h.prefix_consumed.length_le
      rw [List.length_append, List.length_map, List.length_singleton] at hlen
      exact ⟨.gateway, hdone, h.gateway_completes hdone (by omega)⟩
    | true =>
      have hsent : s.sent ≤ tape.length := by
        cases t with
        | feed => exact Nat.not_lt.mp (of_decide_eq_false ht)
        | strategy =>
          rw [Pipeline.finished, hat] at ht
          exact nomatch ht
        | gateway => exact nomatch hdone.symm.trans ht
      have hlen := congrArg List.length hpopped
      rw [feedMsgs_length] at hlen
      exact ⟨.feed, decide_eq_false (Nat.not_lt.mpr hsent),
        h.feed_completes hsent (by omega)⟩

/-- At the end all that `run_pipelined` returns is what one thread computes. -/
theorem ended (h : PipelineOk tape last all s) (hfinished : ∀ t, s.finished tape t = true) :
    s.result = { sink := all.foldl Sink.feed {}, overflowLevels := last.book.overflowOps } := by
  have hst := h.strategy
  have hdone := hfinished .strategy
  unfold StrategyOk at hst
  rw [Pipeline.finished] at hdone
  have hover : s.strategy.overflowStrategy = last.book.overflowOps := by
    cases hat : s.strategy.at_ with
    | done =>
      rw [hat] at hst
      exact hst.1
    | _ =>
      rw [hat] at hdone
      exact nomatch hdone
  have hsink := h.gateway.sink
  rw [h.consumed_all (hfinished .gateway)] at hsink
  rw [Pipeline.result, hsink, hover]

end PipelineOk

/-! ### Whole runs -/

theorem start_ok {lo hi : Price} {size : Qty} {n : ℕ} {single : Run} {s₀ : Pipeline}
    (hn : 1 ≤ n) (hsingle : runSingle tape lo hi size = some single)
    (h₀ : Pipeline.start lo hi size (2 ^ n) = some s₀) :
    ∃ last all, PipelineOk tape last all s₀ ∧
      single = { sink := all.foldl Sink.feed {}, overflowLevels := last.book.overflowOps } := by
  obtain ⟨mm, hmm, hsingle⟩ := Option.bind_eq_some_iff.mp hsingle
  obtain ⟨⟨last, d⟩, hrun, hsingle⟩ := Option.bind_eq_some_iff.mp hsingle
  obtain rfl := Option.some.inj hsingle
  rw [runEvents_eq] at hrun
  obtain ⟨⟨mm1, all⟩, hall, hrun⟩ := Option.map_eq_some_iff.mp hrun
  obtain ⟨rfl, rfl⟩ := Prod.mk.inj hrun
  obtain ⟨ring1, h1, h₀⟩ := Option.bind_eq_some_iff.mp h₀
  obtain ⟨ring2, h2, h₀⟩ := Option.bind_eq_some_iff.mp h₀
  obtain ⟨mm', hmm', h₀⟩ := Option.bind_eq_some_iff.mp h₀
  obtain rfl := Option.some.inj (hmm.symm.trans hmm')
  obtain rfl := Option.some.inj h₀
  have hroom : 0 < 2 ^ n - 1 := Nat.sub_pos_of_lt (Nat.one_lt_two_pow (by omega))
  have hclosed1 := create_closed h1
  have hclosed2 := create_closed h2
  have hring1 : Sound False .cached ring1 := create_sound h1
  have hring2 : Sound False .cached ring2 := create_sound h2
  obtain ⟨-, h1⟩ := Option.ite_none_left_eq_some.mp h1
  obtain ⟨-, h2⟩ := Option.ite_none_left_eq_some.mp h2
  obtain rfl := Option.some.inj h1
  obtain rfl := Option.some.inj h2
  refine ⟨mm1, all, ?_, rfl⟩
  constructor
  case ring1 => exact hring1
  case closed1 => exact hclosed1
  case room1 => exact hroom
  case ring2 => exact hring2
  case closed2 => exact hclosed2
  case room2 => exact hroom
  case feed => exact ⟨Nat.zero_le _, rfl, fun _ => rfl⟩
  case strategy => exact ⟨0, [], all, Nat.zero_le _, hall, rfl, rfl, rfl, rfl⟩
  case gateway => exact ⟨rfl, fun _ => rfl, nofun⟩

/-- Under every schedule the gateway's fills are those of one thread so far, no
deadlock is reached, and at the end the two runs agree in all they return. -/
theorem pipelined_eq_single (tape : List BookEvent) (lo hi : Price) (size : Qty) (n : ℕ)
    (hn : 1 ≤ n) {single : Run} (hsingle : runSingle tape lo hi size = some single)
    {s₀ : Pipeline} (h₀ : Pipeline.start lo hi size (2 ^ n) = some s₀)
    (as : List (Thread × ℕ)) (s : Pipeline) (hrun : runs (Pipeline.step tape) s₀ as = some s) :
    s.gateway.sink.log <+: single.sink.log ∧
    ((∃ t, s.finished tape t = false) →
      ∃ t, s.finished tape t = false ∧ s.CanComplete tape t) ∧
    ((∀ t, s.finished tape t = true) → s.result = single) := by
  obtain ⟨last, all, hok, rfl⟩ := start_ok hn hsingle h₀
  have h := runs_keeps (fun _ _ _ h hs => PipelineOk.step h hs) hok hrun
  have hlog : (all.foldl Sink.feed {}).log = all := foldl_feed_log {} all
  refine ⟨?_, fun ⟨t, ht⟩ => h.progress ht, h.ended⟩
  rw [hlog]
  exact h.prefix_consumed

/-- The strategy leaves its loop with an event and goes on with its fills. -/
theorem stepStrategy_handles {k : ℕ} {ring1 : SpscRing FeedMsg} {m : FeedMsg} {mm : MarketMaker}
    {fills : List Fill} (hat : s.strategy.at_ = .popping)
    (hpop : s.ring1.spinPop k = some (ring1, some m)) (heof : m.eof = 0)
    (hon : s.strategy.mm.onEvent m.ev = some (mm, fills)) :
    s.stepStrategy k = some { s with
      ring1 := ring1
      strategy := { s.strategy with at_ := Strategy.emit fills, mm := mm }
      calls := s.calls + 1 } := by
  simp only [Pipeline.stepStrategy, hat, hpop, Option.bind_eq_bind, Option.bind_some,
    Strategy.receive, heof, ne_eq, not_true_eq_false, if_false, hon]
  rfl

/-- On a tape of real orders the single thread runs to its end. -/
theorem runSingle_total {lo hi : Price} {size : Qty} {mm : MarketMaker}
    (hmm : maker lo hi size = some mm) (hreal : ∀ e ∈ tape, ∀ r ∈ e.op.refs, r ≠ 0) :
    ∃ single, runSingle tape lo hi size = some single := by
  obtain ⟨last, fills, hrun⟩ := MarketMaker.run_total lo hi size 0 .queueAware (2 ^ 21) (2 ^ 20)
    (by decide) (by decide) mm hmm (tape.map .event) (by
      intro x hx
      obtain ⟨e, he, rfl⟩ := List.mem_map.mp hx
      exact hreal e he)
  have hevents : runEvents mm {} tape = some (last, fills.foldl Sink.feed {}) := by
    rw [runEvents_eq, hrun]
    rfl
  exact ⟨_, Option.bind_eq_some_iff.mpr ⟨mm, hmm, Option.bind_eq_some_iff.mpr ⟨_, hevents, rfl⟩⟩⟩

def firstAdd : BookEvent := ⟨1, 5, 0, 100, 10, .add, .buy⟩

/-- An add of ten shares, of which four are executed. -/
def partlyExecuted : List BookEvent := [firstAdd, ⟨2, 5, 0, 100, 4, .execute, .buy⟩]

/-- The add goes through the ring and the strategy handles it. -/
theorem pipelined_eq_single_handled : ∃ single mm fills s₀ s,
    runSingle partlyExecuted 0 100 10 = some single ∧
    (∃ mm₀, maker 0 100 10 = some mm₀ ∧ mm₀.onEvent firstAdd = some (mm, fills)) ∧
    Pipeline.start 0 100 10 (2 ^ 1) = some s₀ ∧
    runs (Pipeline.step partlyExecuted) s₀ ([0, 0, 0, 0, 0, 0].map (.feed, ·) ++
      [0, 0, 0, 1, 0, 0, 1, 0].map (.strategy, ·) ++ [(.strategy, 0)]) = some s ∧
    s.sent = 1 ∧ s.ring1.popped = [⟨firstAdd, 0⟩] ∧ s.strategy.mm = mm ∧
    s.gateway.sink.log <+: single.sink.log := by
  have hmm := Option.some_get maker_isSome
  obtain ⟨single, hsingle⟩ := @runSingle_total partlyExecuted 0 100 10 _ hmm.symm
    (by simp [partlyExecuted, firstAdd, BookEvent.op, Op.refs])
  obtain ⟨⟨mm, fills⟩, hon⟩ : ∃ x, ((maker 0 100 10).get maker_isSome).onEvent firstAdd =
      some x := by
    have hrun := hsingle
    rw [runSingle, ← hmm, Option.bind_eq_bind, Option.bind_some, Option.bind_eq_bind,
      Option.bind_eq_some_iff] at hrun
    obtain ⟨_, hevents, _⟩ := hrun
    rw [partlyExecuted, runEvents, Option.bind_eq_bind, Option.bind_eq_some_iff] at hevents
    exact hevents.imp fun _ => And.left
  have hstart : ∀ mm, maker 0 100 10 = some mm → Pipeline.start 0 100 10 (2 ^ 1) = some
      { ring1 := (create FeedMsg.zero (2 ^ 1)).get rfl
        ring2 := (create FillMsg.zero (2 ^ 1)).get rfl
        strategy := { mm := mm } } := by
    intro mm hmm
    rw [Pipeline.start, hmm]
    rfl
  have h₀ := hstart _ hmm.symm
  -- the step that leaves the loop is the one that calls `on_event`
  obtain ⟨s₁, hs₁, hat, hsent, hstrategy, ring1, hpop, hpopped⟩ : ∃ s₁, runs (Pipeline.step partlyExecuted)
      { ring1 := (create FeedMsg.zero (2 ^ 1)).get rfl
        ring2 := (create FillMsg.zero (2 ^ 1)).get rfl
        strategy := { mm := (maker 0 100 10).get maker_isSome } }
      ([0, 0, 0, 0, 0, 0].map (.feed, ·) ++ [0, 0, 0, 1, 0, 0, 1, 0].map (.strategy, ·)) = some s₁ ∧
      s₁.strategy.at_ = .popping ∧ s₁.sent = 1 ∧
      s₁.strategy.mm = (maker 0 100 10).get maker_isSome ∧
      ∃ ring1, s₁.ring1.spinPop 0 = some (ring1, some ⟨firstAdd, 0⟩) ∧
        ring1.popped = [⟨firstAdd, 0⟩] := by
    exact ⟨_, rfl, rfl, rfl, rfl, _, rfl, rfl⟩
  rw [← hstrategy] at hon
  have hlast : runs (Pipeline.step partlyExecuted) s₁ [(.strategy, 0)] = some _ :=
    runs_next (stepStrategy_handles hat hpop rfl hon) rfl
  have hrun := (runs_append hs₁).trans hlast
  exact ⟨single, mm, fills, _, _, hsingle, ⟨_, hmm.symm, hstrategy ▸ hon⟩, h₀, hrun, hsent, hpopped,
    rfl, (pipelined_eq_single partlyExecuted 0 100 10 1 le_rfl hsingle h₀ _ _ hrun).1⟩

end Hotpath.Tools
