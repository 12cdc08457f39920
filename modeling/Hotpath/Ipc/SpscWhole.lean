import Hotpath.Ipc.SpscQueue
import Hotpath.Ipc.SpscWords

/-!
# Whole payloads

With release and acquire the rings of the single words go in step, so that a payload comes out
of the ring as it went in, however the copies of its words are interleaved.
-/

namespace Hotpath.Ipc.WordRing

open Hotpath.Support

variable {n : ℕ} {V : Type} {r r' : WordRing n V} {v : Fin n → V} {i : Fin n} {k : ℕ} {done : Bool}
variable {out : Option (Fin n → V)} {sent got : List (Fin n → V)}

/-- The invariant of the ring, for every word. -/
structure Whole (r : WordRing n V) : Prop where
  sound : ∀ j, SpscRing.Sound False .cached (r.word j)
  closed : ∀ j, (r.word j).Closed

/-- A producer that spins on `v` after `sent`. -/
def Sending (r : WordRing n V) (sent : List (Fin n → V)) (v : Fin n → V) : Prop :=
  ∀ j, (r.word j).Sending (sent.map fun w => w j) (v j)

/-- A consumer that spins after it has got `got`. -/
def Receiving (r : WordRing n V) (got : List (Fin n → V)) : Prop :=
  ∀ j, (r.word j).Receiving (got.map fun w => w j)

/-! ### A new ring -/

/-- The rings of the words of a new ring are new. -/
theorem create_word {zero : Fin n → V} {capacityPow2 : ℕ} (h : create zero capacityPow2 = some r)
    (j : Fin n) : SpscRing.create (zero j) capacityPow2 = some (r.word j) := by
  obtain ⟨hcap, h⟩ := Option.ite_none_left_eq_some.mp h
  obtain rfl := Option.some.inj h
  rw [SpscRing.create, if_neg hcap, word, Memory.initial_part]
  congr 3
  funext x
  cases x <;> rfl

theorem create_whole {zero : Fin n → V} {m : ℕ} (h : create zero (2 ^ m) = some r) : Whole r :=
  ⟨fun j => SpscRing.create_sound (create_word h j),
    fun j => SpscRing.create_closed (create_word h j)⟩

/-! ### One step of a loop -/

theorem PushAt.word_eq_idle {at_ : PushAt n V} (j : Fin n) : at_.word j = .idle ↔ at_ = .idle := by
  cases at_ with
  | storeWords v tail left =>
    rw [word]
    split <;> constructor <;> (intro h; cases h)
  | idle => exact ⟨fun _ => rfl, fun _ => rfl⟩
  | _ => constructor <;> (intro h; cases h)

theorem PushAt.word_eq_returning {at_ : PushAt n V} {ok : Bool} (j : Fin n) :
    at_.word j = .returning ok ↔ at_ = .returning ok := by
  cases at_ with
  | storeWords v tail left =>
    rw [word]
    split <;> constructor <;> (intro h; cases h)
  | returning ok =>
    rw [word, SpscRing.PushAt.returning.injEq, PushAt.returning.injEq]
  | _ => constructor <;> (intro h; cases h)

theorem PopAt.word_eq_idle {at_ : PopAt n V} (j : Fin n) : at_.word j = .idle ↔ at_ = .idle := by
  cases at_ with
  | loadWords head left w =>
    rw [word]
    split <;> constructor <;> (intro h; cases h)
  | idle => exact ⟨fun _ => rfl, fun _ => rfl⟩
  | _ => constructor <;> (intro h; cases h)

/-- A step of a copy takes one of the words that are left. -/
theorem mem_of_pushLoop {o : SpscRing.Ordering} {w : Fin n → V} {tail : ℕ} {left : Finset (Fin n)}
    (hat : r.producer.at_ = .storeWords w tail left) (hne : left ≠ ∅)
    (hs : r.pushLoop o v i k = some (r', done)) : i ∈ left := by
  simp only [pushLoop, pushStep, hat, if_neg hne] at hs
  obtain ⟨r₁, hs, -⟩ := Option.map_eq_some_iff.mp hs
  exact (Option.ite_none_right_eq_some.mp hs).1

/-- For each word the step is one of its ring, or none. -/
theorem pushLoop_cases (hs : r.pushLoop .acqRel v i k = some (r', done)) (j : Fin n) :
    r'.word j = r.word j ∧ done = false ∨
      (r.word j).spinPush (v j) k = some (r'.word j, done) := by
  by_cases hother : ∃ w tail left, r.producer.at_ = .storeWords w tail left ∧ i ∈ left ∧ i ≠ j
  · obtain ⟨w, tail, left, hat, hmem, hij⟩ := hother
    rw [pushLoop_storeWord hat hmem] at hs
    obtain ⟨rfl, rfl⟩ := Prod.mk.inj (Option.some.inj hs)
    exact .inl ⟨storeWord_other hat hij, rfl⟩
  · have hword : (r.pushLoop .acqRel v i k).map (fun x => (x.1.word j, x.2)) =
        (r.word j).spinPush (v j) k := by
      apply pushLoop_word
      intro w tail left hat
      refine or_iff_not_imp_left.mpr fun hne => ?_
      have hmem := mem_of_pushLoop hat hne hs
      exact ⟨hmem, by_contra fun hij => hother ⟨w, tail, left, hat, hmem, hij⟩⟩
    rw [hs] at hword
    exact .inr hword.symm

theorem pushLoop_frame (hs : r.pushLoop .acqRel v i k = some (r', done)) :
    r'.mask = r.mask ∧ r'.consumer = r.consumer ∧ r'.popped = r.popped := by
  obtain ⟨mask, mem, ⟨at_, view, cached, unread⟩, q, pushed, popped⟩ := r
  cases at_ with
  | loadTail _ | loadHead _ _ =>
    obtain ⟨r₁, hstep, heq⟩ := Option.map_eq_some_iff.mp hs
    obtain ⟨a, -, hstep⟩ := Option.bind_eq_some_iff.mp hstep
    obtain rfl := Option.some.inj hstep
    obtain ⟨rfl, -⟩ := Prod.mk.inj heq
    exact ⟨rfl, rfl, rfl⟩
  | storeWords w tail left =>
    obtain ⟨r₁, hstep, heq⟩ := Option.map_eq_some_iff.mp hs
    obtain ⟨rfl, -⟩ := Prod.mk.inj heq
    by_cases hnone : left = ∅
    · obtain rfl := Option.some.inj ((if_pos hnone).symm.trans hstep)
      exact ⟨rfl, rfl, rfl⟩
    · obtain ⟨-, hstep⟩ := Option.ite_none_right_eq_some.mp ((if_neg hnone).symm.trans hstep)
      obtain rfl := Option.some.inj hstep
      exact ⟨rfl, rfl, rfl⟩
  | _ =>
    obtain ⟨rfl, -⟩ := Prod.mk.inj (Option.some.inj hs)
    exact ⟨rfl, rfl, rfl⟩

theorem Whole.pushLoop (h : Whole r) (hs : r.pushLoop .acqRel v i k = some (r', done)) :
    Whole r' := by
  constructor
  case sound =>
    intro j
    rcases pushLoop_cases hs j with ⟨hsame, -⟩ | hspin
    · exact hsame ▸ h.sound j
    · obtain ⟨a, hstep⟩ := SpscRing.spinPush_step hspin
      exact (h.sound j).step False.elim hstep
  case closed =>
    intro j
    rcases pushLoop_cases hs j with ⟨hsame, -⟩ | hspin
    · exact hsame ▸ h.closed j
    · obtain ⟨a, hstep⟩ := SpscRing.spinPush_step hspin
      exact (h.closed j).step hstep

theorem Sending.of_idle (h : r.producer.at_ = .idle) (hpushed : r.pushed = sent) :
    r.Sending sent v := by
  intro j
  apply SpscRing.Sending.of_idle
  · show r.producer.at_.word j = .idle
    rw [h]
    rfl
  · exact congrArg (List.map fun w => w j) hpushed

theorem Sending.congr (h : r.Sending sent v) (hp : r'.producer = r.producer)
    (hpushed : r'.pushed = r.pushed) : r'.Sending sent v := by
  intro j
  apply (h j).congr
  · rw [word, hp]
    rfl
  · rw [word, hpushed]
    rfl

theorem Receiving.of_idle (h : r.consumer.at_ = .idle) (hpopped : r.popped = got) :
    r.Receiving got := by
  intro j
  apply SpscRing.Receiving.of_idle
  · show r.consumer.at_.word j = .idle
    rw [h]
    rfl
  · exact congrArg (List.map fun w => w j) hpopped

theorem Receiving.congr (h : r.Receiving got) (hc : r'.consumer = r.consumer)
    (hpopped : r'.popped = r.popped) : r'.Receiving got := by
  intro j
  apply (h j).congr
  · rw [word, hc]
    rfl
  · rw [word, hpopped]
    rfl

section Pop
variable [Inhabited V]

theorem mem_of_popLoop {o : SpscRing.Ordering} {w : Fin n → V} {head : ℕ}
    {left : Finset (Fin n)} (hat : r.consumer.at_ = .loadWords head left w) (hne : left ≠ ∅)
    (hs : r.popLoop o i k = some (r', out)) : i ∈ left := by
  simp only [popLoop, popStep, hat, if_neg hne] at hs
  obtain ⟨r₁, hs, -⟩ := Option.map_eq_some_iff.mp hs
  exact (Option.ite_none_right_eq_some.mp hs).1

theorem popLoop_cases (hs : r.popLoop .acqRel i k = some (r', out)) (j : Fin n) :
    r'.word j = r.word j ∧ out = none ∨
      (r.word j).spinPop k = some (r'.word j, out.map fun v => v j) := by
  by_cases hother : ∃ head left w, r.consumer.at_ = .loadWords head left w ∧ i ∈ left ∧ i ≠ j
  · obtain ⟨head, left, w, hat, hmem, hij⟩ := hother
    rw [popLoop_loadWord hat hmem] at hs
    obtain ⟨r₁, hload, heq⟩ := Option.map_eq_some_iff.mp hs
    obtain ⟨rfl, rfl⟩ := Prod.mk.inj heq
    exact .inl ⟨loadWord_other hat hij hload, rfl⟩
  · have hword : (r.popLoop .acqRel i k).map (fun x => (x.1.word j, x.2.map fun v => v j)) =
        (r.word j).spinPop k := by
      apply popLoop_word
      intro head left w hat
      refine or_iff_not_imp_left.mpr fun hne => ?_
      have hmem := mem_of_popLoop hat hne hs
      exact ⟨hmem, by_contra fun hij => hother ⟨head, left, w, hat, hmem, hij⟩⟩
    rw [hs] at hword
    exact .inr hword.symm

theorem popLoop_frame (hs : r.popLoop .acqRel i k = some (r', out)) :
    r'.mask = r.mask ∧ r'.producer = r.producer ∧ r'.pushed = r.pushed := by
  obtain ⟨mask, mem, p, ⟨at_, view, cached, unread⟩, pushed, popped⟩ := r
  cases at_ with
  | loadHead | loadTail _ =>
    obtain ⟨r₁, hstep, heq⟩ := Option.map_eq_some_iff.mp hs
    obtain ⟨a, -, hstep⟩ := Option.bind_eq_some_iff.mp hstep
    obtain rfl := Option.some.inj hstep
    obtain ⟨rfl, -⟩ := Prod.mk.inj heq
    exact ⟨rfl, rfl, rfl⟩
  | loadWords head left w =>
    obtain ⟨r₁, hstep, heq⟩ := Option.map_eq_some_iff.mp hs
    obtain ⟨rfl, -⟩ := Prod.mk.inj heq
    by_cases hnone : left = ∅
    · obtain rfl := Option.some.inj ((if_pos hnone).symm.trans hstep)
      exact ⟨rfl, rfl, rfl⟩
    · obtain ⟨-, hstep⟩ := Option.ite_none_right_eq_some.mp ((if_neg hnone).symm.trans hstep)
      obtain ⟨a, -, hstep⟩ := Option.bind_eq_some_iff.mp hstep
      obtain rfl := Option.some.inj hstep
      exact ⟨rfl, rfl, rfl⟩
  | _ =>
    obtain ⟨rfl, -⟩ := Prod.mk.inj (Option.some.inj hs)
    exact ⟨rfl, rfl, rfl⟩

theorem Whole.popLoop (h : Whole r) (hs : r.popLoop .acqRel i k = some (r', out)) : Whole r' := by
  constructor
  case sound =>
    intro j
    rcases popLoop_cases hs j with ⟨hsame, -⟩ | hspin
    · exact hsame ▸ h.sound j
    · obtain ⟨a, hstep⟩ := SpscRing.spinPop_step hspin
      exact (h.sound j).step False.elim hstep
  case closed =>
    intro j
    rcases popLoop_cases hs j with ⟨hsame, -⟩ | hspin
    · exact hsame ▸ h.closed j
    · obtain ⟨a, hstep⟩ := SpscRing.spinPop_step hspin
      exact (h.closed j).step hstep

end Pop

/-! ### What is left of a copy -/

/-- How many words of a copy are left. -/
def PushAt.left : PushAt n V → ℕ
  | .storeWords _ _ left => left.card
  | _ => 0

def PopAt.left : PopAt n V → ℕ
  | .loadWords _ left _ => left.card
  | _ => 0

theorem PushAt.left_le (at_ : PushAt n V) : at_.left ≤ n := by
  cases at_ with
  | storeWords w tail left => exact left.card_le_univ.trans_eq (Fintype.card_fin n)
  | _ => exact Nat.zero_le _

theorem PopAt.left_le (at_ : PopAt n V) : at_.left ≤ n := by
  cases at_ with
  | loadWords head left w => exact left.card_le_univ.trans_eq (Fintype.card_fin n)
  | _ => exact Nat.zero_le _

theorem rank_lt {a a' b b' : ℕ} (h : a' < a) (hb : b' ≤ n) :
    a' * (n + 1) + b' < a * (n + 1) + b := by
  have hmul := Nat.mul_le_mul_right (n + 1) (Nat.succ_le_of_lt h)
  rw [Nat.succ_mul] at hmul
  omega

/-! ### Payloads and their words -/

variable [NeZero n]

/-- Lists of payloads are equal when their words are. -/
theorem eq_of_words {l l' : List (Fin n → V)}
    (h : ∀ j, (l.map fun w => w j) = l'.map fun w => w j) : l = l' := by
  have hlen := congrArg List.length (h 0)
  rw [List.length_map, List.length_map] at hlen
  apply List.ext_getElem hlen
  intro q hq hq'
  funext j
  have hat := congrArg (fun l : List V => l[q]?) (h j)
  simpa only [List.getElem?_map, List.getElem?_eq_getElem hq, List.getElem?_eq_getElem hq',
    Option.map_some, Option.some.injEq] using hat

theorem prefix_of_words {l l' : List (Fin n → V)}
    (h : ∀ j, (l.map fun w => w j) <+: l'.map fun w => w j) : l <+: l' := by
  have htake : l = l'.take l.length := by
    apply eq_of_words
    intro j
    have heq := List.prefix_iff_eq_take.mp (h j)
    rw [List.length_map, ← List.map_take] at heq
    exact heq
  rw [htake]
  exact List.take_prefix ..

/-- No payload is torn: what came out is the beginning of what went in. -/
theorem Whole.fifo (h : Whole r) : r.popped <+: r.pushed :=
  prefix_of_words fun j => (h.sound j).fifo

/-- The payload counts as published only when its call is about to return. -/
theorem Sending.pushed_eq (h : r.Sending sent v) :
    r.pushed = sent ∨ r.pushed = sent ++ [v] ∧ r.producer.at_ = .returning true := by
  have hlen : ∀ j, (r.word j).pushed.length = r.pushed.length := fun j => List.length_map _
  have hsent : ∀ j : Fin n, (sent.map fun w => w j).length = sent.length :=
    fun j => List.length_map _
  have hone : ∀ j, ((sent.map fun w => w j) ++ [v j]).length = sent.length + 1 := by
    intro j
    rw [List.length_append, hsent, List.length_singleton]
  by_cases hsame : r.pushed.length = sent.length
  · refine .inl (eq_of_words fun j => ((h j).pushed_eq.resolve_right fun hmore => ?_))
    have hmore := (hlen j).symm.trans ((congrArg List.length hmore.1).trans (hone j))
    omega
  · have hmore : ∀ j, (r.word j).pushed = (sent.map fun w => w j) ++ [v j] ∧
        (r.word j).producer.at_ = .returning true := by
      intro j
      refine (h j).pushed_eq.resolve_left fun heq => hsame ?_
      exact (hlen j).symm.trans ((congrArg List.length heq).trans (hsent j))
    refine .inr ⟨eq_of_words fun j => ?_, (PushAt.word_eq_returning 0).mp (hmore 0).2⟩
    rw [List.map_append]
    exact (hmore j).1

theorem Sending.prefix_sent (h : r.Sending sent v) : sent <+: r.pushed :=
  prefix_of_words fun j => (h j).prefix_sent

/-- While the loop goes on the payload is being sent; when it is left, it is published. -/
theorem Sending.pushLoop (h : r.Sending sent v) (hs : r.pushLoop .acqRel v i k = some (r', done)) :
    (done = false → r'.Sending sent v) ∧
      (done = true → r'.producer.at_ = .idle ∧ r'.pushed = sent ++ [v]) := by
  constructor
  · intro hgoing j
    rcases pushLoop_cases hs j with ⟨hsame, -⟩ | hspin
    · exact hsame ▸ h j
    · exact ((h j).spinPush hspin).going hgoing
  · intro hdone
    have hleft : ∀ j, (r'.word j).producer.at_ = .idle ∧
        (r'.word j).pushed = (sent.map fun w => w j) ++ [v j] := by
      intro j
      rcases pushLoop_cases hs j with ⟨-, hgoing⟩ | hspin
      · exact absurd (hdone.symm.trans hgoing) Bool.noConfusion
      · exact ((h j).spinPush hspin).left hdone
    refine ⟨(PushAt.word_eq_idle 0).mp (hleft 0).1, eq_of_words fun j => ?_⟩
    rw [List.map_append]
    exact (hleft j).2

/-- Where a push finds room whatever it knows of the consumer, it is not refused. -/
theorem Whole.pushLoop_accepts (h : Whole r) (hs : r.Sending sent v)
    (hroom : sent.length + 1 < r.mask + 1) (hat : r.producer.at_ ≠ .returning false)
    (hloop : r.pushLoop .acqRel v i k = some (r', done)) : r'.producer.at_ ≠ .returning false := by
  have hword : (r.word 0).producer.at_ ≠ .returning false :=
    fun hno => hat ((PushAt.word_eq_returning 0).mp hno)
  have hword' : (r'.word 0).producer.at_ ≠ .returning false := by
    rcases pushLoop_cases hloop 0 with ⟨hsame, -⟩ | hspin
    · exact hsame ▸ hword
    · exact SpscRing.spinPush_accepts (h.sound 0) (hs 0)
        (by rw [List.length_map]; exact hroom) hword hspin
  exact fun hno => hword' ((PushAt.word_eq_returning 0).mpr hno)

theorem Receiving.prefix_got (h : r.Receiving got) : got <+: r.popped :=
  prefix_of_words fun j => (h j).prefix_got

/-! ### A loop that is left alone -/

/-- The steps of the ring of the first words, and the copies of the others between two of them. -/
def pushRank (r : WordRing n V) : ℕ := (r.word 0).pushRank * (n + 1) + r.producer.at_.left

def popRank (r : WordRing n V) : ℕ := (r.word 0).popRank * (n + 1) + r.consumer.at_.left

/-- With room for its payload the producer gets on. -/
theorem Whole.push_proceeds (h : Whole r) (hs : r.Sending sent v)
    (hroom : sent.length + 1 < r.popped.length + (r.mask + 1)) :
    ∃ i k r' done, r.pushLoop .acqRel v i k = some (r', done) ∧
      (done = false → r'.pushRank < r.pushRank) := by
  by_cases hother : ∃ w tail left i, r.producer.at_ = .storeWords w tail left ∧ i ∈ left ∧ i ≠ 0
  · obtain ⟨w, tail, left, i, hat, hmem, hi⟩ := hother
    refine ⟨i, 0, _, false, pushLoop_storeWord hat hmem, fun _ => ?_⟩
    rw [pushRank, pushRank, storeWord_other hat hi, hat]
    exact Nat.add_lt_add_left (Finset.card_erase_lt_of_mem hmem) _
  · have hroom' := (hs 0).room (by rw [List.length_map, word, List.length_map]; exact hroom)
    obtain ⟨k, r₁, done, hspin, hrank⟩ :=
      (h.sound 0).push_proceeds (v := v 0) (h.closed 0) hroom'
    have honly : ∀ w tail left, r.producer.at_ = .storeWords w tail left →
        left = ∅ ∨ 0 ∈ left ∧ (0 : Fin n) = 0 := by
      intro w tail left hat
      obtain rfl | ⟨i, hmem⟩ := left.eq_empty_or_nonempty
      · exact .inl rfl
      · have hi : i = 0 := by_contra fun hi => hother ⟨w, tail, left, i, hat, hmem, hi⟩
        exact .inr ⟨hi ▸ hmem, rfl⟩
    rw [← pushLoop_word honly] at hspin
    obtain ⟨⟨r', done'⟩, hloop, heq⟩ := Option.map_eq_some_iff.mp hspin
    obtain ⟨rfl, rfl⟩ := Prod.mk.inj heq
    exact ⟨0, k, r', _, hloop, fun hgoing => rank_lt (hrank hgoing) (PushAt.left_le _)⟩

/-- A producer that is left alone pushes its payload, if there is room. -/
theorem Whole.push_left {S : Type} {f : S → Fin n × ℕ → Option S} {g : WordRing n V → S}
    {P : S → Prop} (h : Whole r) (hs : r.Sending sent v)
    (hroom : sent.length + 1 < r.popped.length + (r.mask + 1))
    (hgo : ∀ r i k r', r.pushLoop .acqRel v i k = some (r', false) → f (g r) (i, k) = some (g r'))
    (hdone : ∀ r i k r', r.pushLoop .acqRel v i k = some (r', true) →
      ∃ s, f (g r) (i, k) = some s ∧ P s) :
    ∃ ks s, runs f (g r) ks = some s ∧ P s := by
  induction hn : r.pushRank using Nat.strong_induction_on generalizing r with
  | _ m ih =>
    obtain ⟨i, k, r', done, hloop, hrank⟩ := h.push_proceeds hs hroom
    cases done with
    | true =>
      obtain ⟨s, hs, hP⟩ := hdone r i k r' hloop
      exact ⟨[(i, k)], s, runs_next hs rfl, hP⟩
    | false =>
      obtain ⟨hmask, -, hpopped⟩ := pushLoop_frame hloop
      obtain ⟨ks, s, hrun, hP⟩ := ih _ (hn ▸ hrank rfl) (h.pushLoop hloop)
        ((hs.pushLoop hloop).1 rfl) (by rw [hpopped, hmask]; exact hroom) rfl
      exact ⟨(i, k) :: ks, s, runs_next (hgo r i k r' hloop) hrun, hP⟩

variable [Inhabited V]

/-- While the loop goes on nothing is received; when it is left, the payload is released. -/
theorem Receiving.popLoop (h : r.Receiving got) (hs : r.popLoop .acqRel i k = some (r', out)) :
    (out = none → r'.Receiving got) ∧
      ∀ v, out = some v → r'.consumer.at_ = .idle ∧ r'.popped = got ++ [v] := by
  constructor
  · rintro rfl j
    rcases popLoop_cases hs j with ⟨hsame, -⟩ | hspin
    · exact hsame ▸ h j
    · exact ((h j).spinPop hspin).going rfl
  · rintro v rfl
    have hleft : ∀ j, (r'.word j).consumer.at_ = .idle ∧
        (r'.word j).popped = (got.map fun w => w j) ++ [v j] := by
      intro j
      rcases popLoop_cases hs j with ⟨-, hgoing⟩ | hspin
      · cases hgoing
      · exact ((h j).spinPop hspin).left (v j) rfl
    refine ⟨(PopAt.word_eq_idle 0).mp (hleft 0).1, eq_of_words fun j => ?_⟩
    rw [List.map_append]
    exact (hleft j).2

/-- With a payload that is not yet popped the consumer gets on. -/
theorem Whole.pop_proceeds (h : Whole r) (hg : r.Receiving got)
    (hsome : got.length < r.pushed.length) :
    ∃ i k r' out, r.popLoop .acqRel i k = some (r', out) ∧
      (out = none → r'.popRank < r.popRank) := by
  have hsome' : ∀ j, _ := fun j =>
    (hg j).some (by rw [List.length_map, word, List.length_map]; exact hsome)
  by_cases hother : ∃ head left w i, r.consumer.at_ = .loadWords head left w ∧ i ∈ left ∧ i ≠ 0
  · obtain ⟨head, left, w, i, hat, hmem, hi⟩ := hother
    obtain ⟨k, r₁, out, hspin, -⟩ := (h.sound i).pop_proceeds (h.closed i) (hsome' i)
    have honly : ∀ head' left' w', r.consumer.at_ = .loadWords head' left' w' →
        left' = ∅ ∨ i ∈ left' ∧ i = i := by
      intro head' left' w' hat'
      obtain ⟨-, rfl, -⟩ := PopAt.loadWords.inj (hat.symm.trans hat')
      exact .inr ⟨hmem, rfl⟩
    rw [← popLoop_word honly, popLoop_loadWord hat hmem, Option.map_map] at hspin
    obtain ⟨r', hload, -⟩ := Option.map_eq_some_iff.mp hspin
    refine ⟨i, k, r', none, (popLoop_loadWord hat hmem).trans (hload ▸ rfl), fun _ => ?_⟩
    rw [popRank, popRank, loadWord_other hat hi hload, hat]
    obtain ⟨a, -, hload⟩ := Option.bind_eq_some_iff.mp hload
    obtain rfl := Option.some.inj hload
    exact Nat.add_lt_add_left (Finset.card_erase_lt_of_mem hmem) _
  · obtain ⟨k, r₁, out, hspin, hrank⟩ := (h.sound 0).pop_proceeds (h.closed 0) (hsome' 0)
    have honly : ∀ head left w, r.consumer.at_ = .loadWords head left w →
        left = ∅ ∨ 0 ∈ left ∧ (0 : Fin n) = 0 := by
      intro head left w hat
      obtain rfl | ⟨i, hmem⟩ := left.eq_empty_or_nonempty
      · exact .inl rfl
      · have hi : i = 0 := by_contra fun hi => hother ⟨head, left, w, i, hat, hmem, hi⟩
        exact .inr ⟨hi ▸ hmem, rfl⟩
    rw [← popLoop_word honly] at hspin
    obtain ⟨⟨r', out'⟩, hloop, heq⟩ := Option.map_eq_some_iff.mp hspin
    obtain ⟨rfl, rfl⟩ := Prod.mk.inj heq
    refine ⟨0, k, r', _, hloop, fun hgoing => rank_lt (hrank ?_) (PopAt.left_le _)⟩
    rw [hgoing]
    rfl

/-- A consumer that is left alone pops a payload, if there is one. -/
theorem Whole.pop_left {S : Type} {f : S → Fin n × ℕ → Option S} {g : WordRing n V → S}
    {P : S → Prop} (h : Whole r) (hg : r.Receiving got) (hsome : got.length < r.pushed.length)
    (hgo : ∀ r i k r', r.popLoop .acqRel i k = some (r', none) → f (g r) (i, k) = some (g r'))
    (hdone : ∀ r i k r' v, r.popLoop .acqRel i k = some (r', some v) →
      ∃ s, f (g r) (i, k) = some s ∧ P s) :
    ∃ ks s, runs f (g r) ks = some s ∧ P s := by
  induction hn : r.popRank using Nat.strong_induction_on generalizing r with
  | _ m ih =>
    obtain ⟨i, k, r', out, hloop, hrank⟩ := h.pop_proceeds hg hsome
    cases out with
    | some v =>
      obtain ⟨s, hs, hP⟩ := hdone r i k r' v hloop
      exact ⟨[(i, k)], s, runs_next hs rfl, hP⟩
    | none =>
      obtain ⟨-, -, hpushed⟩ := popLoop_frame hloop
      obtain ⟨ks, s, hrun, hP⟩ := ih _ (hn ▸ hrank rfl) (h.popLoop hloop)
        ((hg.popLoop hloop).1 rfl) (by rw [hpushed]; exact hsome) rfl
      exact ⟨(i, k) :: ks, s, runs_next (hgo r i k r' hloop) hrun, hP⟩

end Hotpath.Ipc.WordRing
