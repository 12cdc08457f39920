import Hotpath.Ipc.SpscSteps

/-!
# Spinning on the ring

The loops `while (!ring.try_push(v)) {}` and `while (!ring.try_pop(out)) {}`, and what
one step of them does to the values pushed and popped. A loop that is left alone ends
if there is room, or a value.
-/

namespace Hotpath.Ipc.SpscRing

open Hotpath.Support

variable {T : Type}

/-- A step of the loop; `true` when it is left. -/
def spinPush (r : SpscRing T) (v : T) (k : ℕ) : Option (SpscRing T × Bool) :=
  match r.producer.at_ with
  | .idle => (r.step .acqRel .cached (.push v)).map fun r => (r, false)
  | .returning ok => (r.step .acqRel .cached (.producer k)).map fun r => (r, ok)
  | _ => (r.step .acqRel .cached (.producer k)).map fun r => (r, false)

/-- A step of the loop; it is left with what was popped. -/
def spinPop (r : SpscRing T) (k : ℕ) : Option (SpscRing T × Option T) :=
  match r.consumer.at_ with
  | .idle => (r.step .acqRel .cached .pop).map fun r => (r, none)
  | .returning out => (r.step .acqRel .cached (.consumer k)).map fun r => (r, out)
  | _ => (r.step .acqRel .cached (.consumer k)).map fun r => (r, none)

/-- A producer that spins on `v` after `sent`: what it has published is `sent`, and `v`
once the call is about to return. -/
def Sending (r : SpscRing T) (sent : List T) (v : T) : Prop :=
  match r.producer.at_ with
  | .idle => r.pushed = sent
  | .loadTail w => r.pushed = sent ∧ w = v
  | .readCached w _ => r.pushed = sent ∧ w = v
  | .loadHead w _ => r.pushed = sent ∧ w = v
  | .writeCached w _ _ => r.pushed = sent ∧ w = v
  | .readAgain w _ => r.pushed = sent ∧ w = v
  | .storeSlot w _ => r.pushed = sent ∧ w = v
  | .storeTail w _ => r.pushed = sent ∧ w = v
  | .returning false => r.pushed = sent
  | .returning true => r.pushed = sent ++ [v]

/-- A consumer that spins after it has got `got`. -/
def Receiving (r : SpscRing T) (got : List T) : Prop :=
  match r.consumer.at_ with
  | .returning (some v) => r.popped = got ++ [v]
  | _ => r.popped = got

/-- No view runs ahead of the memory. -/
structure Closed (r : SpscRing T) : Prop where
  mem : r.mem.Closed
  producer : r.producer.view.Within r.mem
  consumer : r.consumer.view.Within r.mem

variable {r r' : SpscRing T} {v : T} {k : ℕ} {sent got : List T} {done : Bool} {out : Option T}

theorem Sending.congr (h : r.Sending sent v) (hp : r'.producer = r.producer)
    (hpushed : r'.pushed = r.pushed) : r'.Sending sent v := by
  unfold Sending at h ⊢
  rw [hp, hpushed]
  exact h

theorem Receiving.congr (h : r.Receiving got) (hc : r'.consumer = r.consumer)
    (hpopped : r'.popped = r.popped) : r'.Receiving got := by
  unfold Receiving at h ⊢
  rw [hc, hpopped]
  exact h

theorem Sending.of_idle (h : r.producer.at_ = .idle) (hpushed : r.pushed = sent) :
    r.Sending sent v := by
  unfold Sending
  rw [h]
  exact hpushed

/-- The value counts as published only when its call is about to return. -/
theorem Sending.pushed_eq (h : r.Sending sent v) :
    r.pushed = sent ∨ r.pushed = sent ++ [v] ∧ r.producer.at_ = .returning true := by
  unfold Sending at h
  split at h
  case h_10 hat => exact .inr ⟨h, hat⟩
  case h_1 => exact .inl h
  case h_9 => exact .inl h
  all_goals exact .inl h.1

theorem Sending.prefix_sent (h : r.Sending sent v) : sent <+: r.pushed := by
  cases h.pushed_eq with
  | inl hpushed => exact hpushed ▸ List.prefix_rfl
  | inr hpushed => exact hpushed.1 ▸ List.prefix_append ..

theorem Receiving.prefix_got (h : r.Receiving got) : got <+: r.popped := by
  unfold Receiving at h
  split at h
  case h_1 => exact h ▸ List.prefix_append ..
  case h_2 => exact h ▸ List.prefix_rfl

theorem Receiving.of_idle (h : r.consumer.at_ = .idle) (hpopped : r.popped = got) :
    r.Receiving got := by
  unfold Receiving
  rw [h]
  exact hpopped

/-! ### Views -/

theorem create_closed {zero : T} {n : ℕ} (h : create zero n = some r) : r.Closed := by
  obtain ⟨-, h⟩ := Option.ite_none_left_eq_some.mp h
  obtain rfl := Option.some.inj h
  refine ⟨fun x s hs => ?_, fun _ => le_rfl, fun _ => le_rfl⟩
  obtain rfl := List.mem_singleton.mp hs
  exact fun _ => le_rfl

theorem Closed.pushStep (h : r.Closed) (hs : r.pushStep .acqRel .cached k = some r') :
    r'.Closed := by
  obtain ⟨mask, mem, ⟨at_, view, cached, unread⟩, q, pushed, popped⟩ := r
  obtain ⟨hm, hp, hq⟩ := h
  cases at_ with
  | idle => cases hs
  | loadTail v =>
    obtain ⟨⟨i, w⟩, hl, hs⟩ := Option.bind_eq_some_iff.mp hs
    obtain rfl := Option.some.inj hs
    exact ⟨hm, Memory.within_loadRelaxed hp hl, hq⟩
  | loadHead v tail =>
    obtain ⟨⟨i, w⟩, hl, hs⟩ := Option.bind_eq_some_iff.mp hs
    obtain rfl := Option.some.inj hs
    exact ⟨hm, Memory.within_loadAcquire hm hp hl, hq⟩
  | storeSlot v tail =>
    obtain rfl := Option.some.inj hs
    exact ⟨hm.put .unseen, hp.stored _, hq.put _⟩
  | storeTail v tail =>
    obtain rfl := Option.some.inj hs
    exact ⟨hm.put (hp.stored _), hp.stored _, hq.put _⟩
  | _ =>
    obtain rfl := Option.some.inj hs
    exact ⟨hm, hp, hq⟩

theorem Closed.popStep (h : r.Closed) (hs : r.popStep .acqRel .cached k = some r') :
    r'.Closed := by
  obtain ⟨mask, mem, p, ⟨at_, view, cached, unread⟩, pushed, popped⟩ := r
  obtain ⟨hm, hp, hq⟩ := h
  cases at_ with
  | idle => cases hs
  | loadHead =>
    obtain ⟨⟨i, w⟩, hl, hs⟩ := Option.bind_eq_some_iff.mp hs
    obtain rfl := Option.some.inj hs
    exact ⟨hm, hp, Memory.within_loadRelaxed hq hl⟩
  | loadTail head =>
    obtain ⟨⟨i, w⟩, hl, hs⟩ := Option.bind_eq_some_iff.mp hs
    obtain rfl := Option.some.inj hs
    exact ⟨hm, hp, Memory.within_loadAcquire hm hq hl⟩
  | loadSlot head =>
    obtain ⟨⟨out, w, m⟩, hl, hs⟩ := Option.bind_eq_some_iff.mp hs
    obtain rfl := Option.some.inj hs
    obtain ⟨s, -, -, rfl, -⟩ := Memory.loadPlain_spec hl
    exact ⟨hm, hp, Memory.within_loadPlain hq hl⟩
  | storeHead out head =>
    obtain rfl := Option.some.inj hs
    exact ⟨hm.put (hq.stored _), hp.put _, hq.stored _⟩
  | _ =>
    obtain rfl := Option.some.inj hs
    exact ⟨hm, hp, hq⟩

theorem Closed.step (h : r.Closed) {a : Action T} (hs : r.step .acqRel .cached a = some r') :
    r'.Closed := by
  cases a with
  | push v =>
    obtain ⟨mask, mem, ⟨at_, view, cached, unread⟩, q, pushed, popped⟩ := r
    cases at_ with
    | idle =>
      obtain rfl := Option.some.inj hs
      exact ⟨h.mem, h.producer, h.consumer⟩
    | _ => cases hs
  | producer k => exact h.pushStep hs
  | pop =>
    obtain ⟨mask, mem, p, ⟨at_, view, cached, unread⟩, pushed, popped⟩ := r
    cases at_ with
    | idle =>
      obtain rfl := Option.some.inj hs
      exact ⟨h.mem, h.producer, h.consumer⟩
    | _ => cases hs
  | consumer k => exact h.popStep hs

/-! ### One step of a loop -/

theorem spinPush_step (hs : r.spinPush v k = some (r', done)) :
    ∃ a, r.step .acqRel .cached a = some r' := by
  unfold SpscRing.spinPush at hs
  split at hs
  all_goals
    obtain ⟨r1, hstep, heq⟩ := Option.map_eq_some_iff.mp hs
    obtain ⟨rfl, -⟩ := Prod.mk.inj heq
    exact ⟨_, hstep⟩

theorem spinPop_step (hs : r.spinPop k = some (r', out)) :
    ∃ a, r.step .acqRel .cached a = some r' := by
  unfold SpscRing.spinPop at hs
  split at hs
  all_goals
    obtain ⟨r1, hstep, heq⟩ := Option.map_eq_some_iff.mp hs
    obtain ⟨rfl, -⟩ := Prod.mk.inj heq
    exact ⟨_, hstep⟩

/-- What the loop of the producer makes of its own side. -/
structure Pushed (r : SpscRing T) (sent : List T) (v : T) (r' : SpscRing T) (done : Bool) : Prop where
  mask : r'.mask = r.mask
  consumer : r'.consumer = r.consumer
  popped : r'.popped = r.popped
  going : done = false → r'.Sending sent v
  left : done = true → r'.producer.at_ = .idle ∧ r'.pushed = sent ++ [v]

theorem Sending.compare {p : Side (PushAt T)} {a b : PushAt T} {full : Prop} [Decidable full]
    (ha : ({ r with producer := { p with at_ := a } } : SpscRing T).Sending sent v)
    (hb : ({ r with producer := { p with at_ := b } } : SpscRing T).Sending sent v) :
    ({ r with producer := { p with at_ := if full then a else b } } : SpscRing T).Sending sent v := by
  split
  · exact ha
  · exact hb

theorem Sending.spinPush (h : r.Sending sent v) (hs : r.spinPush v k = some (r', done)) :
    Pushed r sent v r' done := by
  obtain ⟨mask, mem, ⟨at_, view, cached, unread⟩, q, pushed, popped⟩ := r
  cases at_ with
  | idle =>
    obtain ⟨rfl, rfl⟩ := Prod.mk.inj (Option.some.inj hs)
    exact ⟨rfl, rfl, rfl, fun _ => ⟨h, rfl⟩, nofun⟩
  | loadTail w =>
    obtain ⟨r1, hstep, heq⟩ := Option.map_eq_some_iff.mp hs
    obtain ⟨⟨i, w⟩, -, hstep⟩ := Option.bind_eq_some_iff.mp hstep
    obtain rfl := Option.some.inj hstep
    obtain ⟨rfl, rfl⟩ := Prod.mk.inj heq
    exact ⟨rfl, rfl, rfl, fun _ => h, nofun⟩
  | readCached w tail =>
    obtain ⟨rfl, rfl⟩ := Prod.mk.inj (Option.some.inj hs)
    obtain ⟨hpushed, rfl⟩ := h
    exact ⟨rfl, rfl, rfl, fun _ => .compare ⟨hpushed, rfl⟩ ⟨hpushed, rfl⟩, nofun⟩
  | loadHead w tail =>
    obtain ⟨r1, hstep, heq⟩ := Option.map_eq_some_iff.mp hs
    obtain ⟨⟨i, w⟩, -, hstep⟩ := Option.bind_eq_some_iff.mp hstep
    obtain rfl := Option.some.inj hstep
    obtain ⟨rfl, rfl⟩ := Prod.mk.inj heq
    exact ⟨rfl, rfl, rfl, fun _ => h, nofun⟩
  | writeCached w tail head =>
    obtain ⟨rfl, rfl⟩ := Prod.mk.inj (Option.some.inj hs)
    exact ⟨rfl, rfl, rfl, fun _ => h, nofun⟩
  | readAgain w tail =>
    obtain ⟨rfl, rfl⟩ := Prod.mk.inj (Option.some.inj hs)
    obtain ⟨hpushed, rfl⟩ := h
    exact ⟨rfl, rfl, rfl, fun _ => .compare hpushed ⟨hpushed, rfl⟩, nofun⟩
  | storeSlot w tail =>
    obtain ⟨rfl, rfl⟩ := Prod.mk.inj (Option.some.inj hs)
    exact ⟨rfl, rfl, rfl, fun _ => h, nofun⟩
  | storeTail w tail =>
    obtain ⟨rfl, rfl⟩ := Prod.mk.inj (Option.some.inj hs)
    obtain ⟨hpushed, rfl⟩ := h
    exact ⟨rfl, rfl, rfl, fun _ => congrArg (· ++ [w]) hpushed, nofun⟩
  | returning ok =>
    obtain ⟨rfl, rfl⟩ := Prod.mk.inj (Option.some.inj hs)
    cases ok with
    | true => exact ⟨rfl, rfl, rfl, nofun, fun _ => ⟨rfl, h⟩⟩
    | false => exact ⟨rfl, rfl, rfl, fun _ => h, nofun⟩

/-- What the loop of the consumer makes of its own side. -/
structure Popped (r : SpscRing T) (got : List T) (r' : SpscRing T) (out : Option T) : Prop where
  mask : r'.mask = r.mask
  producer : r'.producer = r.producer
  pushed : r'.pushed = r.pushed
  going : out = none → r'.Receiving got
  left : ∀ v, out = some v → r'.consumer.at_ = .idle ∧ r'.popped = got ++ [v]

theorem Receiving.compare {q : Side (PopAt T)} {a b : PopAt T} {empty : Prop} [Decidable empty]
    (ha : ({ r with consumer := { q with at_ := a } } : SpscRing T).Receiving got)
    (hb : ({ r with consumer := { q with at_ := b } } : SpscRing T).Receiving got) :
    ({ r with consumer := { q with at_ := if empty then a else b } } : SpscRing T).Receiving got := by
  split
  · exact ha
  · exact hb

theorem Receiving.spinPop (h : r.Receiving got) (hs : r.spinPop k = some (r', out)) :
    Popped r got r' out := by
  obtain ⟨mask, mem, p, ⟨at_, view, cached, unread⟩, pushed, popped⟩ := r
  cases at_ with
  | idle =>
    obtain ⟨rfl, rfl⟩ := Prod.mk.inj (Option.some.inj hs)
    exact ⟨rfl, rfl, rfl, fun _ => h, nofun⟩
  | loadHead =>
    obtain ⟨r1, hstep, heq⟩ := Option.map_eq_some_iff.mp hs
    obtain ⟨⟨i, w⟩, -, hstep⟩ := Option.bind_eq_some_iff.mp hstep
    obtain rfl := Option.some.inj hstep
    obtain ⟨rfl, rfl⟩ := Prod.mk.inj heq
    exact ⟨rfl, rfl, rfl, fun _ => h, nofun⟩
  | readCached head =>
    obtain ⟨rfl, rfl⟩ := Prod.mk.inj (Option.some.inj hs)
    exact ⟨rfl, rfl, rfl, fun _ => .compare h h, nofun⟩
  | loadTail head =>
    obtain ⟨r1, hstep, heq⟩ := Option.map_eq_some_iff.mp hs
    obtain ⟨⟨i, w⟩, -, hstep⟩ := Option.bind_eq_some_iff.mp hstep
    obtain rfl := Option.some.inj hstep
    obtain ⟨rfl, rfl⟩ := Prod.mk.inj heq
    exact ⟨rfl, rfl, rfl, fun _ => h, nofun⟩
  | writeCached head tail =>
    obtain ⟨rfl, rfl⟩ := Prod.mk.inj (Option.some.inj hs)
    exact ⟨rfl, rfl, rfl, fun _ => h, nofun⟩
  | readAgain head =>
    obtain ⟨rfl, rfl⟩ := Prod.mk.inj (Option.some.inj hs)
    exact ⟨rfl, rfl, rfl, fun _ => .compare h h, nofun⟩
  | loadSlot head =>
    obtain ⟨r1, hstep, heq⟩ := Option.map_eq_some_iff.mp hs
    obtain ⟨a, -, hstep⟩ := Option.bind_eq_some_iff.mp hstep
    obtain rfl := Option.some.inj hstep
    obtain ⟨rfl, rfl⟩ := Prod.mk.inj heq
    exact ⟨rfl, rfl, rfl, fun _ => h, nofun⟩
  | storeHead w head =>
    obtain ⟨rfl, rfl⟩ := Prod.mk.inj (Option.some.inj hs)
    exact ⟨rfl, rfl, rfl, fun _ => congrArg (· ++ [w]) h, nofun⟩
  | returning o =>
    obtain ⟨rfl, rfl⟩ := Prod.mk.inj (Option.some.inj hs)
    cases o with
    | some w =>
      refine ⟨rfl, rfl, rfl, nofun, fun v hv => ?_⟩
      obtain rfl := Option.some.inj hv
      exact ⟨rfl, h⟩
    | none => exact ⟨rfl, rfl, rfl, fun _ => h, nofun⟩

/-- Where a push finds room whatever it knows of the consumer, it is not refused. -/
theorem spinPush_accepts (h : Sound False .cached r) (hs : r.Sending sent v)
    (hroom : sent.length + 1 < r.mask + 1) (hat : r.producer.at_ ≠ .returning false)
    (hspin : r.spinPush v k = some (r', done)) : r'.producer.at_ ≠ .returning false := by
  obtain ⟨mask, mem, ⟨at_, view, cached, unread⟩, q, pushed, popped⟩ := r
  cases at_ with
  | idle =>
    obtain ⟨rfl, -⟩ := Prod.mk.inj (Option.some.inj hspin)
    exact nofun
  | loadTail w =>
    obtain ⟨r₁, hstep, heq⟩ := Option.map_eq_some_iff.mp hspin
    obtain ⟨⟨i, w⟩, -, hstep⟩ := Option.bind_eq_some_iff.mp hstep
    obtain rfl := Option.some.inj hstep
    obtain ⟨rfl, -⟩ := Prod.mk.inj heq
    exact nofun
  | readCached w tail =>
    obtain ⟨rfl, -⟩ := Prod.mk.inj (Option.some.inj hspin)
    show (if _ then PushAt.loadHead w tail else .storeSlot w tail) ≠ .returning false
    split <;> exact nofun
  | loadHead w tail =>
    obtain ⟨r₁, hstep, heq⟩ := Option.map_eq_some_iff.mp hspin
    obtain ⟨⟨i, w⟩, -, hstep⟩ := Option.bind_eq_some_iff.mp hstep
    obtain rfl := Option.some.inj hstep
    obtain ⟨rfl, -⟩ := Prod.mk.inj heq
    exact nofun
  | writeCached w tail head =>
    obtain ⟨rfl, -⟩ := Prod.mk.inj (Option.some.inj hspin)
    exact nofun
  | readAgain w tail =>
    obtain ⟨rfl, -⟩ := Prod.mk.inj (Option.some.inj hspin)
    obtain ⟨head, hp⟩ := h.pushes
    have hlap := h.full_iff hp.le (Nat.lt_of_le_of_lt (Nat.le_add_right _ _) hp.room)
    obtain ⟨htail, hcached, -⟩ : tail = pushed.length % (mask + 1) ∧
      cached = head % (mask + 1) ∧ _ := hp.place
    obtain ⟨hpushed, rfl⟩ := hs
    have hpushed : pushed = sent := hpushed
    have hfree : ¬(tail + 1) &&& mask = cached := by
      rw [htail, hcached]
      intro hfull
      have heq : pushed.length + 1 = head + (mask + 1) := hlap.mp hfull
      rw [hpushed] at heq
      have hroom : sent.length + 1 < mask + 1 := hroom
      omega
    show (if (tail + 1) &&& mask = cached then PushAt.returning false else .storeSlot w tail) ≠ _
    rw [if_neg hfree]
    exact nofun
  | storeSlot w tail =>
    obtain ⟨rfl, -⟩ := Prod.mk.inj (Option.some.inj hspin)
    exact nofun
  | storeTail w tail =>
    obtain ⟨rfl, -⟩ := Prod.mk.inj (Option.some.inj hspin)
    exact nofun
  | returning ok =>
    obtain ⟨rfl, -⟩ := Prod.mk.inj (Option.some.inj hspin)
    exact nofun

/-! ### A loop that is left alone -/

/-- How many steps the loop still needs when every load returns the latest value: a
comparison with an index loaded before there was room costs another call. -/
def PushAt.rank (mask cached : ℕ) : PushAt T → ℕ
  | .writeCached _ tail head => if (tail + 1) &&& mask = head then 11 else 4
  | .readAgain _ tail => if (tail + 1) &&& mask = cached then 10 else 3
  | .returning false => 9
  | .idle => 8
  | .loadTail _ => 7
  | .readCached _ _ => 6
  | .loadHead _ _ => 5
  | .storeSlot _ _ => 2
  | .storeTail _ _ => 1
  | .returning true => 0

def PopAt.rank (cached : ℕ) : PopAt T → ℕ
  | .writeCached head tail => if head = tail then 11 else 4
  | .readAgain head => if head = cached then 10 else 3
  | .returning none => 9
  | .idle => 8
  | .loadHead => 7
  | .readCached _ => 6
  | .loadTail _ => 5
  | .loadSlot _ => 2
  | .storeHead _ _ => 1
  | .returning (some _) => 0

def pushRank (r : SpscRing T) : ℕ := r.producer.at_.rank r.mask r.producer.cached

def popRank (r : SpscRing T) : ℕ := r.consumer.at_.rank r.consumer.cached

variable {fresh : Prop} {r : SpscRing T} {v : T} {sent got : List T}

theorem Sending.room (hs : r.Sending sent v)
    (hroom : sent.length + 1 < r.popped.length + (r.mask + 1)) :
    r.pushed.length + 1 < r.popped.length + (r.mask + 1) ∨
      r.producer.at_ = .returning true := by
  cases hs.pushed_eq with
  | inl hpushed => exact .inl (hpushed ▸ hroom)
  | inr hpushed => exact .inr hpushed.2

theorem Receiving.some (hg : r.Receiving got) (hsome : got.length < r.pushed.length) :
    r.popped.length < r.pushed.length ∨ ∃ x, r.consumer.at_ = .returning (some x) := by
  unfold SpscRing.Receiving at hg
  split at hg
  case h_1 v hat => exact .inr ⟨v, hat⟩
  case h_2 => exact .inl (hg ▸ hsome)

namespace Sound

/-- With room for a value, or one about to be acknowledged, the producer gets on. -/
theorem push_proceeds (h : Sound fresh .cached r) (hc : r.Closed)
    (hroom : r.pushed.length + 1 < r.popped.length + (r.mask + 1) ∨
      r.producer.at_ = .returning true) :
    ∃ k r' done, r.spinPush v k = some (r', done) ∧
      (done = false → r'.pushRank < r.pushRank) := by
  have hlap := h.full_iff le_rfl h.unread_lt
  obtain ⟨mask, mem, ⟨at_, view, cached, unread⟩, q, pushed, popped⟩ := r
  obtain ⟨head, hp⟩ := h.pushes
  cases at_ with
  | idle => exact ⟨0, _, _, rfl, fun _ => Nat.lt_succ_self 7⟩
  | loadTail w =>
    obtain ⟨s, hs⟩ := Memory.pick_last hc.producer h.kept.tails.symm
    have hl := Memory.loadRelaxed_eq hs
    exact ⟨_, _, _, Option.map_eq_some_iff.mpr ⟨_, Option.bind_eq_some_iff.mpr ⟨_, hl, rfl⟩, rfl⟩,
      fun _ => Nat.lt_succ_self 6⟩
  | readCached w tail =>
    refine ⟨0, _, _, rfl, fun _ => ?_⟩
    show (if (tail + 1) &&& mask = cached then PushAt.loadHead w tail
      else .storeSlot w tail).rank mask cached < 6
    split
    · exact Nat.lt_succ_self 5
    · exact Nat.lt_of_sub_pos (by decide : 0 < 6 - 2)
  | loadHead w tail =>
    obtain ⟨s, hs⟩ := Memory.pick_last hc.producer h.kept.heads.symm
    have hl := Memory.loadAcquire_eq hs
    obtain ⟨hvalue, -⟩ := h.kept.head _ s (Memory.pick_eq_some.mp hs).2
    obtain rfl : tail = pushed.length % (mask + 1) := hp.place
    refine ⟨_, _, _, Option.map_eq_some_iff.mpr ⟨_, Option.bind_eq_some_iff.mpr ⟨_, hl, rfl⟩, rfl⟩,
      fun _ => ?_⟩
    have hfree : ¬(pushed.length % (mask + 1) + 1) &&& mask = s.value := by
      rw [hvalue]
      have hroom := hroom.resolve_right nofun
      exact fun hfull => absurd (hlap.mp hfull) hroom.ne
    show (if (pushed.length % (mask + 1) + 1) &&& mask = s.value then 11 else 4) < 5
    rw [if_neg hfree]
    exact Nat.lt_succ_self 4
  | writeCached w tail head =>
    refine ⟨0, _, _, rfl, fun _ => ?_⟩
    show (if (tail + 1) &&& mask = head then 10 else 3) <
      if (tail + 1) &&& mask = head then 11 else 4
    split <;> exact Nat.lt_succ_self _
  | readAgain w tail =>
    refine ⟨0, _, _, rfl, fun _ => ?_⟩
    show (if (tail + 1) &&& mask = cached then PushAt.returning false
      else .storeSlot w tail).rank mask cached <
        if (tail + 1) &&& mask = cached then 10 else 3
    split <;> exact Nat.lt_succ_self _
  | storeSlot w tail => exact ⟨0, _, _, rfl, fun _ => Nat.lt_succ_self 1⟩
  | storeTail w tail => exact ⟨0, _, _, rfl, fun _ => Nat.lt_succ_self 0⟩
  | returning ok =>
    cases ok with
    | true => exact ⟨0, _, _, rfl, nofun⟩
    | false => exact ⟨0, _, _, rfl, fun _ => Nat.lt_succ_self 8⟩

/-- With a value that is not yet popped, or one about to be handed out, the consumer
gets on. -/
theorem pop_proceeds (h : Sound fresh .cached r) (hc : r.Closed)
    (hsome : r.popped.length < r.pushed.length ∨ ∃ x, r.consumer.at_ = .returning (some x)) :
    ∃ k r' out, r.spinPop k = some (r', out) ∧ (out = none → r'.popRank < r.popRank) := by
  have hlap := empty_iff (r := r) h.popped_le h.unread_lt
  obtain ⟨mask, mem, p, ⟨at_, view, cached, unread⟩, pushed, popped⟩ := r
  obtain ⟨tail, hq⟩ := h.pops
  cases at_ with
  | idle => exact ⟨0, _, _, rfl, fun _ => Nat.lt_succ_self 7⟩
  | loadHead =>
    obtain ⟨s, hs⟩ := Memory.pick_last hc.consumer h.kept.heads.symm
    have hl := Memory.loadRelaxed_eq hs
    exact ⟨_, _, _, Option.map_eq_some_iff.mpr ⟨_, Option.bind_eq_some_iff.mpr ⟨_, hl, rfl⟩, rfl⟩,
      fun _ => Nat.lt_succ_self 6⟩
  | readCached head =>
    refine ⟨0, _, _, rfl, fun _ => ?_⟩
    show (if head = cached then PopAt.loadTail head else .loadSlot head : PopAt T).rank cached < 6
    split
    · exact Nat.lt_succ_self 5
    · exact Nat.lt_of_sub_pos (by decide : 0 < 6 - 2)
  | loadTail head =>
    obtain ⟨s, hs⟩ := Memory.pick_last hc.consumer h.kept.tails.symm
    have hl := Memory.loadAcquire_eq hs
    obtain ⟨hvalue, -⟩ := h.kept.tail _ s (Memory.pick_eq_some.mp hs).2
    obtain rfl : head = popped.length % (mask + 1) := hq.place
    refine ⟨_, _, _, Option.map_eq_some_iff.mpr ⟨_, Option.bind_eq_some_iff.mpr ⟨_, hl, rfl⟩, rfl⟩,
      fun _ => ?_⟩
    have hfull : ¬popped.length % (mask + 1) = s.value := by
      rw [hvalue]
      have hlt := hsome.resolve_right nofun
      exact fun hempty => absurd (hlap.mp hempty) hlt.ne
    show (if popped.length % (mask + 1) = s.value then 11 else 4) < 5
    rw [if_neg hfull]
    exact Nat.lt_succ_self 4
  | writeCached head tail =>
    refine ⟨0, _, _, rfl, fun _ => ?_⟩
    show (if head = tail then 10 else 3) < if head = tail then 11 else 4
    split <;> exact Nat.lt_succ_self _
  | readAgain head =>
    refine ⟨0, _, _, rfl, fun _ => ?_⟩
    show (if head = cached then PopAt.returning none else .loadSlot head : PopAt T).rank cached <
      if head = cached then 10 else 3
    split <;> exact Nat.lt_succ_self _
  | loadSlot head =>
    obtain ⟨s, hs⟩ := Memory.pick_last hc.consumer (h.kept.slots head).symm
    obtain ⟨a, hl⟩ := Memory.loadPlain_eq hs
    exact ⟨_, _, _, Option.map_eq_some_iff.mpr ⟨_, Option.bind_eq_some_iff.mpr ⟨_, hl, rfl⟩, rfl⟩,
      fun _ => Nat.lt_succ_self 1⟩
  | storeHead w head => exact ⟨0, _, _, rfl, fun _ => Nat.lt_succ_self 0⟩
  | returning o =>
    cases o with
    | some w => exact ⟨0, _, _, rfl, nofun⟩
    | none => exact ⟨0, _, _, rfl, fun _ => Nat.lt_succ_self 8⟩

/-- A producer that is left alone pushes its value, if there is room. -/
theorem push_left {S : Type} {f : S → ℕ → Option S} {put : SpscRing T → S} {P : S → Prop}
    {sent : List T} (h : Sound False .cached r) (hc : r.Closed) (hs : r.Sending sent v)
    (hroom : sent.length + 1 < r.popped.length + (r.mask + 1))
    (hgo : ∀ r k r', r.spinPush v k = some (r', false) → f (put r) k = some (put r'))
    (hdone : ∀ r k r', r.spinPush v k = some (r', true) → ∃ s, f (put r) k = some s ∧ P s) :
    ∃ ks s, runs f (put r) ks = some s ∧ P s := by
  induction hn : r.pushRank using Nat.strong_induction_on generalizing r with
  | _ n ih =>
    obtain ⟨k, r', done, hspin, hrank⟩ := h.push_proceeds hc (hs.room hroom)
    have hpushed := hs.spinPush hspin
    cases done with
    | true =>
      obtain ⟨s, hs, hP⟩ := hdone r k r' hspin
      exact ⟨[k], s, by rw [runs, hs]; rfl, hP⟩
    | false =>
      obtain ⟨a, hstep⟩ := SpscRing.spinPush_step hspin
      have hroom' : sent.length + 1 < r'.popped.length + (r'.mask + 1) := by
        rw [hpushed.popped, hpushed.mask]
        exact hroom
      obtain ⟨ks, s, hrun, hP⟩ := ih _ (hn ▸ hrank rfl) (h.step False.elim hstep)
        (hc.step hstep) (hpushed.going rfl) hroom' rfl
      exact ⟨k :: ks, s, by rw [runs, hgo r k r' hspin]; exact hrun, hP⟩

/-- A consumer that is left alone pops a value, if there is one. -/
theorem pop_left {S : Type} {f : S → ℕ → Option S} {put : SpscRing T → S} {P : S → Prop}
    {got pushed : List T} (h : Sound False .cached r) (hc : r.Closed) (hg : r.Receiving got)
    (hpushed : r.pushed = pushed) (hsome : got.length < pushed.length)
    (hgo : ∀ r k r', r.spinPop k = some (r', none) → f (put r) k = some (put r'))
    (hdone : ∀ r k r' v, r.spinPop k = some (r', some v) → got ++ [v] <+: pushed →
      ∃ s, f (put r) k = some s ∧ P s) :
    ∃ ks s, runs f (put r) ks = some s ∧ P s := by
  induction hn : r.popRank using Nat.strong_induction_on generalizing r with
  | _ n ih =>
    obtain ⟨k, r', out, hspin, hrank⟩ := h.pop_proceeds hc (hg.some (hpushed ▸ hsome))
    have hpopped := hg.spinPop hspin
    obtain ⟨a, hstep⟩ := SpscRing.spinPop_step hspin
    have h' := h.step False.elim hstep
    cases out with
    | some v =>
      have hpre : got ++ [v] <+: pushed := by
        rw [← (hpopped.left v rfl).2, ← hpushed, ← hpopped.pushed]
        exact h'.fifo
      obtain ⟨s, hs, hP⟩ := hdone r k r' v hspin hpre
      exact ⟨[k], s, by rw [runs, hs]; rfl, hP⟩
    | none =>
      obtain ⟨ks, s, hrun, hP⟩ := ih _ (hn ▸ hrank rfl) h' (hc.step hstep) (hpopped.going rfl)
        (hpopped.pushed.trans hpushed) rfl
      exact ⟨k :: ks, s, by rw [runs, hgo r k r' hspin]; exact hrun, hP⟩

end Sound

end Hotpath.Ipc.SpscRing
