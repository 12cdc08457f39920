import Hotpath.Ipc.SpscWhole
import Hotpath.Support.Firsts

/-!
# The litmus test of the ring (litmus_ring.cpp)

A producer pushes payloads of eight equal words, 1 to `messages`, and a consumer says of
each one it gets whether it is the next. With release and acquire every schedule of the
two threads comes out clean; relaxed, the first payload can be a slot of which the consumer sees
nothing written yet, or one word and not the others.
-/

namespace Hotpath.Tools
open Hotpath.Ipc Hotpath.Ipc.WordRing Hotpath.Support

/-- The words `w`. -/
abbrev Payload : Type := Fin 8 → UInt64

/-- The payload that the producer makes of its loop variable. -/
def Payload.of (i : UInt64) : Payload := fun _ => i

/-- `Payload{}` -/
def Payload.zero : Payload := .of 0

structure Verdict where
  received : UInt64 := 0
  zeroSlots : UInt64 := 0
  torn : UInt64 := 0
  outOfOrder : UInt64 := 0
  deriving DecidableEq, Repr

namespace Verdict

/-- What the consumer makes of a payload, and its `last` after it. -/
def receive (v : Verdict) (last : UInt64) (p : Payload) : Verdict × UInt64 :=
  let v := { v with received := v.received + 1 }
  let first := p 0
  let uniform := ∀ j, p j = first
  if first = 0 ∧ uniform then ({ v with zeroSlots := v.zeroSlots + 1 }, last)
  else if ¬uniform then ({ v with torn := v.torn + 1 }, last)
  else if first ≤ last then ({ v with outOfOrder := v.outOfOrder + 1 }, first)
  else (v, first)

/-- A payload that comes after the last one. -/
theorem receive_of (v : Verdict) {last i : UInt64} (hlast : last < i) :
    v.receive last (.of i) = ({ v with received := v.received + 1 }, i) := by
  have huniform : ∀ j, Payload.of i j = Payload.of i 0 := fun _ => rfl
  have hzero : i ≠ 0 := by
    rintro rfl
    exact absurd (UInt64.lt_iff_toNat_lt.mp hlast) (Nat.not_lt_zero _)
  have hle : ¬i ≤ last := UInt64.not_le.mpr hlast
  show (if i = 0 ∧ (∀ j, Payload.of i j = Payload.of i 0) then _
    else if ¬∀ j, Payload.of i j = Payload.of i 0 then _ else if i ≤ last then _ else _) = _
  rw [if_neg fun h => hzero h.1, if_neg (not_not_intro huniform), if_neg hle]
  rfl

end Verdict

/-- `run_once` once both threads have seen `go`: `i` and `n` are their loop variables. -/
structure Litmus where
  ring : WordRing 8 UInt64
  i : UInt64 := 1
  n : UInt64 := 0
  last : UInt64 := 0
  verdict : Verdict := {}

namespace Litmus

inductive Side where
  | producer
  | consumer
  deriving DecidableEq

variable (o : SpscRing.Ordering) (messages : UInt64)

def stepProducer (s : Litmus) (j : Fin 8) (k : ℕ) : Option Litmus :=
  if s.i ≤ messages then do
    let (ring, ok) ← s.ring.pushLoop o (Payload.of s.i) j k
    return if ok then { s with ring := ring, i := s.i + 1 } else { s with ring := ring }
  else none

def stepConsumer (s : Litmus) (j : Fin 8) (k : ℕ) : Option Litmus :=
  if s.n < messages then do
    let (ring, out) ← s.ring.popLoop o j k
    return match out with
      | none => { s with ring := ring }
      | some p =>
        let (verdict, last) := s.verdict.receive s.last p
        { s with ring := ring, n := s.n + 1, last := last, verdict := verdict }
  else none

/-- One access of one thread: a copy of it goes on with word `j`, and a load takes the `k`th
store of its place. -/
def step (s : Litmus) (a : Side × Fin 8 × ℕ) : Option Litmus :=
  match a.1 with
  | .producer => s.stepProducer o messages a.2.1 a.2.2
  | .consumer => s.stepConsumer o messages a.2.1 a.2.2

def finished (s : Litmus) : Prop := messages < s.i ∧ messages ≤ s.n

/-! ### Release and acquire -/

/-- The payload after the first `j`. -/
def sent (j : ℕ) : Payload := Payload.of (UInt64.ofNat (j + 1))

variable {messages : UInt64} {s s' : Litmus} {j : Fin 8} {k mask : ℕ} {ring : WordRing 8 UInt64}

theorem sent_pred {i : UInt64} (h : 1 ≤ i.toNat) : sent (i.toNat - 1) = Payload.of i := by
  rw [sent, Nat.sub_add_cancel h, UInt64.ofNat_toNat]

/-- Both threads are where their loop variables say, and nothing that came out was wrong. -/
structure Clean (messages : UInt64) (mask : ℕ) (s : Litmus) : Prop where
  mask : s.ring.mask = mask
  ring : s.ring.Whole
  first : 1 ≤ s.i.toNat
  i_le : s.i.toNat ≤ messages.toNat + 1
  sending : s.ring.Sending (firsts sent (s.i.toNat - 1)) (Payload.of s.i)
  stopped : messages < s.i → s.ring.producer.at_ = .idle
  receiving : s.ring.Receiving (firsts sent s.n.toNat)
  last : s.last = s.n
  verdict : s.verdict = { received := s.n }

namespace Clean

/-- What was pushed are the first payloads. -/
theorem pushed_prefix (h : Clean messages mask s) :
    s.ring.pushed <+: firsts sent messages.toNat := by
  have hfirst := h.first
  have hi := h.i_le
  cases h.sending.pushed_eq with
  | inl hpushed =>
    rw [hpushed]
    exact firsts_mono (by omega)
  | inr hpushed =>
    obtain ⟨hpushed, hat⟩ := hpushed
    have hle : ¬messages < s.i := fun hlt => nomatch (h.stopped hlt).symm.trans hat
    have hle := UInt64.le_iff_toNat_le.mp (UInt64.not_lt.mp hle)
    rw [hpushed, ← sent_pred hfirst, ← firsts_succ]
    exact firsts_mono (by omega)

theorem n_le (h : Clean messages mask s) : s.n.toNat ≤ messages.toNat := by
  have hle := (h.receiving.prefix_got.trans (h.ring.fifo.trans h.pushed_prefix)).length_le
  rwa [firsts_length, firsts_length] at hle

theorem stepProducer (h : Clean messages mask s) (hm : messages.toNat < 2 ^ 64 - 1)
    (hs : s.stepProducer .acqRel messages j k = some s') : Clean messages mask s' := by
  obtain ⟨hle, hs⟩ := Option.ite_none_right_eq_some.mp hs
  obtain ⟨⟨r, ok⟩, hloop, hs⟩ := Option.bind_eq_some_iff.mp hs
  obtain rfl := Option.some.inj hs
  obtain ⟨hgoing, hleft⟩ := h.sending.pushLoop hloop
  obtain ⟨hmask, hconsumer, hpopped⟩ := pushLoop_frame hloop
  have hring := h.ring.pushLoop hloop
  have hmask := hmask.trans h.mask
  have hreceiving := h.receiving.congr hconsumer hpopped
  cases ok with
  | false =>
    exact { h with mask := hmask, ring := hring, sending := hgoing rfl,
                   receiving := hreceiving,
                   stopped := fun hlt => absurd hle (UInt64.not_le.mpr hlt) }
  | true =>
    obtain ⟨hidle, hpushed⟩ := hleft rfl
    have hfirst := h.first
    have hle := UInt64.le_iff_toNat_le.mp hle
    have hnext : (s.i + 1).toNat = s.i.toNat + 1 := by
      rw [UInt64.toNat_add]
      exact Nat.mod_eq_of_lt (by show s.i.toNat + 1 < 2 ^ 64; omega)
    have hsent : r.pushed = firsts sent ((s.i + 1).toNat - 1) := by
      have hsucc : (s.i + 1).toNat - 1 = s.i.toNat - 1 + 1 := by omega
      rw [hsucc, firsts_succ, sent_pred hfirst, hpushed]
    have hi : 1 ≤ (s.i + 1).toNat := by omega
    have hi_le : (s.i + 1).toNat ≤ messages.toNat + 1 := by omega
    exact { h with mask := hmask, ring := hring, first := hi,
                   i_le := hi_le, sending := .of_idle hidle hsent,
                   receiving := hreceiving, stopped := fun _ => hidle }

theorem stepConsumer (h : Clean messages mask s)
    (hs : s.stepConsumer .acqRel messages j k = some s') : Clean messages mask s' := by
  obtain ⟨hlt, hs⟩ := Option.ite_none_right_eq_some.mp hs
  obtain ⟨⟨r, out⟩, hloop, hs⟩ := Option.bind_eq_some_iff.mp hs
  obtain ⟨hgoing, hleft⟩ := h.receiving.popLoop hloop
  obtain ⟨hmask, hproducer, hpushed⟩ := popLoop_frame hloop
  have hring := h.ring.popLoop hloop
  have hmask := hmask.trans h.mask
  have hsending := h.sending.congr hproducer hpushed
  have hstopped : messages < s.i → r.producer.at_ = .idle := by
    rw [hproducer]
    exact h.stopped
  cases out with
  | none =>
    obtain rfl := Option.some.inj hs
    exact { h with mask := hmask, ring := hring, sending := hsending,
                   stopped := hstopped, receiving := hgoing rfl }
  | some p =>
    obtain ⟨hidle, hpopped⟩ := hleft p rfl
    have hpre : firsts sent s.n.toNat ++ [p] <+: firsts sent messages.toNat := by
      rw [← hpopped]
      exact hring.fifo.trans (hpushed ▸ h.pushed_prefix)
    obtain ⟨hn, rfl⟩ := firsts_next hpre
    have hbound := messages.toNat_lt
    have hnext : (s.n + 1).toNat = s.n.toNat + 1 := by
      rw [UInt64.toNat_add]
      exact Nat.mod_eq_of_lt (by show s.n.toNat + 1 < 2 ^ 64; omega)
    have hval : UInt64.ofNat (s.n.toNat + 1) = s.n + 1 := by
      rw [← hnext, UInt64.ofNat_toNat]
    have hlast : s.last < UInt64.ofNat (s.n.toNat + 1) := by
      rw [hval, h.last, UInt64.lt_iff_toNat_lt, hnext]
      exact Nat.lt_succ_self _
    have hreceive : s.verdict.receive s.last (sent s.n.toNat) =
        ({ received := s.n + 1 }, s.n + 1) := by
      rw [sent, Verdict.receive_of _ hlast, h.verdict, hval]
    simp only [hreceive] at hs
    obtain rfl := Option.some.inj hs
    have hgot : r.popped = firsts sent (s.n + 1).toNat := by
      rw [hnext, firsts_succ, hpopped]
    exact { h with mask := hmask, ring := hring, sending := hsending,
                   stopped := hstopped, receiving := .of_idle hidle hgot, last := rfl,
                   verdict := rfl }

theorem step (h : Clean messages mask s) (hm : messages.toNat < 2 ^ 64 - 1) {a : Side × Fin 8 × ℕ}
    (hs : s.step .acqRel messages a = some s') : Clean messages mask s' := by
  obtain ⟨t, j, k⟩ := a
  cases t with
  | producer => exact h.stepProducer hm hs
  | consumer => exact h.stepConsumer hs

theorem start (hc : WordRing.create Payload.zero (2 ^ k) = some ring) :
    Clean messages (2 ^ k - 1) { ring := ring } := by
  have hwhole := create_whole hc
  obtain ⟨-, hring⟩ := Option.ite_none_left_eq_some.mp hc
  obtain rfl := Option.some.inj hring
  constructor
  case mask => rfl
  case ring => exact hwhole
  case first => exact le_rfl
  case i_le => exact Nat.le_add_left ..
  case sending => exact .of_idle rfl rfl
  case stopped => exact fun _ => rfl
  case receiving => exact .of_idle rfl rfl
  case last => rfl
  case verdict => rfl

theorem run (h : Clean messages mask s) (hm : messages.toNat < 2 ^ 64 - 1)
    {as : List (Side × Fin 8 × ℕ)} (hrun : runs (Litmus.step .acqRel messages) s as = some s') :
    Clean messages mask s' :=
  runs_keeps (fun _ _ _ h hs => h.step hm hs) h hrun

end Clean

/-! ### A single lap -/

namespace Clean

theorem accepts (h : Clean messages mask s) (hlap : messages.toNat < mask + 1)
    (hat : s.ring.producer.at_ ≠ .returning false) {a : Side × Fin 8 × ℕ}
    (hs : s.step .acqRel messages a = some s') : s'.ring.producer.at_ ≠ .returning false := by
  obtain ⟨t, j, k⟩ := a
  cases t with
  | producer =>
    obtain ⟨hle, hs⟩ := Option.ite_none_right_eq_some.mp hs
    obtain ⟨⟨r, ok⟩, hloop, hs⟩ := Option.bind_eq_some_iff.mp hs
    obtain rfl := Option.some.inj hs
    have hle := UInt64.le_iff_toNat_le.mp hle
    have hfirst := h.first
    have hroom : (firsts sent (s.i.toNat - 1)).length + 1 < s.ring.mask + 1 := by
      rw [firsts_length, h.mask]
      omega
    have hr := h.ring.pushLoop_accepts h.sending hroom hat hloop
    cases ok <;> exact hr
  | consumer =>
    obtain ⟨-, hs⟩ := Option.ite_none_right_eq_some.mp hs
    obtain ⟨⟨r, out⟩, hloop, hs⟩ := Option.bind_eq_some_iff.mp hs
    obtain ⟨-, hproducer, -⟩ := popLoop_frame hloop
    obtain rfl := Option.some.inj hs
    cases out <;> exact hproducer ▸ hat

/-! ### The end -/

/-- A consumer that is left alone takes a payload that is there. -/
theorem consumer_proceeds (h : Clean messages mask s) (hlt : s.n < messages)
    (hsome : s.n.toNat < s.ring.pushed.length) :
    ∃ as s', runs (Litmus.step .acqRel messages) s as = some s' ∧
      s'.i.toNat + s'.n.toNat = s.i.toNat + s.n.toNat + 1 := by
  have hlt' := UInt64.lt_iff_toNat_lt.mp hlt
  have hbound := messages.toNat_lt
  have hnext : (s.n + 1).toNat = s.n.toNat + 1 := by
    rw [UInt64.toNat_add]
    exact Nat.mod_eq_of_lt (by show s.n.toNat + 1 < 2 ^ 64; omega)
  let put (r : WordRing 8 UInt64) : Litmus := { s with ring := r }
  obtain ⟨ks, s', hrun, hP⟩ := h.ring.pop_left
    (f := fun s k => Litmus.step .acqRel messages s (.consumer, k)) (g := put)
    (P := fun s' => s'.i = s.i ∧ s'.n = s.n + 1)
    h.receiving ((firsts_length ..).trans_lt hsome)
    (by
      intro r j k r' hloop
      show (put r).stepConsumer .acqRel messages j k = _
      rw [Litmus.stepConsumer, if_pos hlt, hloop]
      rfl)
    (by
      intro r j k r' p hloop
      refine ⟨⟨r', s.i, s.n + 1, (s.verdict.receive s.last p).2,
        (s.verdict.receive s.last p).1⟩, ?_, rfl, rfl⟩
      show (put r).stepConsumer .acqRel messages j k = _
      rw [Litmus.stepConsumer, if_pos hlt, hloop]
      rfl)
  refine ⟨ks.map (Prod.mk .consumer), s', (runs_map ..).trans hrun, ?_⟩
  rw [hP.1, hP.2, hnext]
  rfl

/-- A producer that is left alone gets its payload into a ring with room. -/
theorem producer_proceeds (h : Clean messages mask s) (hm : messages.toNat < 2 ^ 64 - 1)
    (hle : s.i ≤ messages)
    (hroom : (firsts sent (s.i.toNat - 1)).length + 1 <
      s.ring.popped.length + (s.ring.mask + 1)) :
    ∃ as s', runs (Litmus.step .acqRel messages) s as = some s' ∧
      s'.i.toNat + s'.n.toNat = s.i.toNat + s.n.toNat + 1 := by
  have hle' := UInt64.le_iff_toNat_le.mp hle
  have hnext : (s.i + 1).toNat = s.i.toNat + 1 := by
    rw [UInt64.toNat_add]
    exact Nat.mod_eq_of_lt (by show s.i.toNat + 1 < 2 ^ 64; omega)
  let put (r : WordRing 8 UInt64) : Litmus := { s with ring := r }
  obtain ⟨ks, s', hrun, hP⟩ := h.ring.push_left
    (f := fun s k => Litmus.step .acqRel messages s (.producer, k)) (g := put)
    (P := fun s' => s'.i = s.i + 1 ∧ s'.n = s.n) h.sending hroom
    (by
      intro r j k r' hloop
      show (put r).stepProducer .acqRel messages j k = _
      rw [Litmus.stepProducer, if_pos hle, hloop]
      rfl)
    (by
      intro r j k r' hloop
      refine ⟨⟨r', s.i + 1, s.n, s.last, s.verdict⟩, ?_, rfl, rfl⟩
      show (put r).stepProducer .acqRel messages j k = _
      rw [Litmus.stepProducer, if_pos hle, hloop]
      rfl)
  refine ⟨ks.map (Prod.mk .producer), s', (runs_map ..).trans hrun, ?_⟩
  rw [hP.1, hP.2, hnext]
  omega

/-- A thread that is left alone gets a payload into the ring, or out of it. -/
theorem proceeds (h : Clean messages mask s) (hm : messages.toNat < 2 ^ 64 - 1)
    (hmask : 0 < mask) (hgoing : ¬s.finished messages) :
    ∃ as s', runs (Litmus.step .acqRel messages) s as = some s' ∧
      s'.i.toNat + s'.n.toNat = s.i.toNat + s.n.toNat + 1 := by
  have hfirst := h.first
  have hpushed := h.sending.prefix_sent.length_le
  have hpopped := h.receiving.prefix_got.length_le
  rw [firsts_length] at hpushed hpopped
  by_cases hsome : s.n < messages ∧ s.n.toNat < s.ring.pushed.length
  · exact h.consumer_proceeds hsome.1 hsome.2
  · have hn := h.n_le
    have hi := h.i_le
    have hle : s.i ≤ messages := by
      rw [UInt64.le_iff_toNat_le]
      by_contra hgt
      have heq : s.i.toNat = messages.toNat + 1 := by omega
      refine hgoing ⟨UInt64.lt_iff_toNat_lt.mpr (by omega), UInt64.le_iff_toNat_le.mpr ?_⟩
      by_contra hlt
      exact hsome ⟨UInt64.lt_iff_toNat_lt.mpr (by omega), by omega⟩
    have hle' := UInt64.le_iff_toNat_le.mp hle
    apply h.producer_proceeds hm hle
    rw [firsts_length, h.mask]
    by_cases hlt : s.n < messages
    · have hfull : ¬s.n.toNat < s.ring.pushed.length := fun hsome' => hsome ⟨hlt, hsome'⟩
      omega
    · have hge := UInt64.le_iff_toNat_le.mp (UInt64.not_lt.mp hlt)
      omega

/-- Both threads come to their end. -/
theorem finishes (h : Clean messages mask s) (hm : messages.toNat < 2 ^ 64 - 1)
    (hmask : 0 < mask) :
    ∃ as s', runs (Litmus.step .acqRel messages) s as = some s' ∧ s'.finished messages := by
  induction hleft : 2 * messages.toNat + 1 - (s.i.toNat + s.n.toNat) using Nat.strong_induction_on
      generalizing s with
  | _ left ih =>
    by_cases hdone : s.finished messages
    · exact ⟨[], s, rfl, hdone⟩
    · obtain ⟨as, s₁, hrun, hnext⟩ := h.proceeds hm hmask hdone
      have h₁ := h.run hm hrun
      have hi := h₁.i_le
      have hn := h₁.n_le
      obtain ⟨bs, s', hrest, hfinished⟩ := ih _ (by omega) h₁ rfl
      exact ⟨as ++ bs, s', (runs_append hrun).trans hrest, hfinished⟩

end Clean

/-- With release and acquire, in every interleaving of the two threads: the verdict is clean
and counts what was received, both threads can come to their end, and in a single lap no
push is refused. -/
theorem litmus_clean {messages : UInt64} (hm : messages.toNat < 2 ^ 64 - 1) {k : ℕ}
    {ring : WordRing 8 UInt64} (hc : WordRing.create Payload.zero (2 ^ k) = some ring)
    (hk : 0 < k) {as : List (Side × Fin 8 × ℕ)} {s : Litmus}
    (hrun : runs (step .acqRel messages) { ring := ring } as = some s) :
    s.verdict = { received := s.n } ∧
    (∃ bs s', runs (step .acqRel messages) s bs = some s' ∧ s'.finished messages ∧
      s'.verdict = { received := messages }) ∧
    (messages.toNat < 2 ^ k → s.ring.producer.at_ ≠ .returning false) := by
  have h₀ := @Clean.start messages k ring hc
  have h := h₀.run hm hrun
  have hcap : 2 ^ 1 ≤ 2 ^ k := Nat.pow_le_pow_right Nat.two_pos hk
  refine ⟨h.verdict, ?_, fun hlap => ?_⟩
  · obtain ⟨bs, s', hrest, hfinished⟩ := h.finishes hm (by omega)
    have h' := h.run hm hrest
    have hn : s'.n = messages :=
      UInt64.le_antisymm (UInt64.le_iff_toNat_le.mpr h'.n_le) hfinished.2
    exact ⟨bs, s', hrest, hfinished, hn ▸ h'.verdict⟩
  · have hidle : ring.producer.at_ ≠ .returning false := by
      obtain ⟨-, hring⟩ := Option.ite_none_left_eq_some.mp hc
      rw [← Option.some.inj hring]
      exact nofun
    have hkeep : ∀ s a s', Clean messages (2 ^ k - 1) s ∧ s.ring.producer.at_ ≠ .returning false →
        s.step .acqRel messages a = some s' →
          Clean messages (2 ^ k - 1) s' ∧ s'.ring.producer.at_ ≠ .returning false :=
      fun s a s' h hs => ⟨h.1.step hm hs, h.1.accepts (by omega) h.2 hs⟩
    exact (runs_keeps hkeep ⟨h₀, hidle⟩ hrun).2

/-- One message goes through the smallest ring, its words in one order and in another. -/
theorem litmus_clean_one :
    let order : List (Fin 8) := [0, 2, 4, 6, 1, 3, 5, 7]
    let as : List (Side × Fin 8 × ℕ) := List.replicate 3 (.producer, 0, 0) ++
      order.map (.producer, ·, 0) ++ List.replicate 2 (.producer, 0, 0) ++
      [0, 0, 0, 1, 0, 0].map (.consumer, 0, ·) ++ order.reverse.map (.consumer, ·, 1) ++
      List.replicate 2 (.consumer, 0, 0)
    ∃ ring s, WordRing.create Payload.zero (2 ^ 1) = some ring ∧
      runs (step .acqRel 1) { ring := ring } as = some s ∧ s.n = 1 ∧
      s.verdict = { received := s.n } ∧
      (∃ bs s', runs (step .acqRel 1) s bs = some s' ∧ s'.finished 1 ∧
        s'.verdict = { received := 1 }) ∧
      ((1 : UInt64).toNat < 2 ^ 1 → s.ring.producer.at_ ≠ .returning false) := by
  intro order as
  have hrun : ∃ ring s, WordRing.create Payload.zero (2 ^ 1) = some ring ∧
      runs (step .acqRel 1) { ring := ring } as = some s ∧ s.n = 1 := ⟨_, _, rfl, rfl, rfl⟩
  obtain ⟨ring, s, hc, hrun, hn⟩ := hrun
  exact ⟨ring, s, hc, hrun, hn, litmus_clean (by decide) hc (by decide) hrun⟩

/-! ### Relaxed -/

def words : List (Fin 8) := [0, 1, 2, 3, 4, 5, 6, 7]

/-- One push, and one pop up to its copy, which has loaded the new index. -/
def earlyIndex : List (Side × Fin 8 × ℕ) :=
  List.replicate 3 (.producer, 0, 0) ++ words.map (.producer, ·, 0) ++
    List.replicate 2 (.producer, 0, 0) ++ [0, 0, 0, 1, 0, 0].map (.consumer, 0, ·)

/-- The copy, of which the load of each word takes a store, and the end of the pop. -/
def copied (ks : List ℕ) : List (Side × Fin 8 × ℕ) :=
  (words.zip ks).map (Prod.mk .consumer) ++ List.replicate 2 (.consumer, 0, 0)

/-- The copy can take the new or the old value of a word. -/
theorem relaxed_copies {messages : UInt64} (hm : 0 < messages) {k : ℕ}
    (hc : WordRing.create Payload.zero (2 ^ k) = some ring) (hk : 0 < k) :
    ∃ s, runs (step .relaxed messages) { ring := ring } earlyIndex = some s ∧
      (∃ s', runs (step .relaxed messages) s (copied (List.replicate 8 0)) = some s' ∧
        s'.verdict = { received := 1, zeroSlots := 1 }) ∧
      ∃ s', runs (step .relaxed messages) s (copied (1 :: List.replicate 7 0)) = some s' ∧
        s'.verdict = { received := 1, torn := 1 } := by
  obtain ⟨-, hring⟩ := Option.ite_none_left_eq_some.mp hc
  obtain rfl := Option.some.inj hring
  have hcap : 2 ^ 1 ≤ 2 ^ k := Nat.pow_le_pow_right Nat.two_pos hk
  have hnext : (0 + 1) &&& (2 ^ k - 1) = 1 := by
    rw [Nat.and_two_pow_sub_one_eq_mod]
    exact Nat.mod_eq_of_lt (by omega)
  generalize 2 ^ k - 1 = mask at hnext
  have hone : (1 : UInt64) ≤ messages := by
    rw [UInt64.le_iff_toNat_le]
    exact UInt64.lt_iff_toNat_lt.mp hm
  let p := Payload.of 1
  -- the ring has room for the push, and the pop finds it filled
  have hfree : (if (0 + 1) &&& mask = 0 then PushAt.loadHead p 0
      else .storeWords p 0 Finset.univ) = .storeWords p 0 Finset.univ := by
    rw [hnext]
    rfl
  have hfilled : (if 0 = (0 + 1) &&& mask then PopAt.returning none
      else .loadWords 0 Finset.univ default : PopAt 8 UInt64) =
        .loadWords 0 Finset.univ default := by
    rw [hnext]
    rfl
  let pushing mem view consumer at_ :=
    some (Litmus.mk ⟨mask, mem, ⟨at_, view, 0, 0⟩, consumer, [], []⟩ 1 0 0 {})
  let popping mem producer view cached unread at_ :=
    some (Litmus.mk ⟨mask, mem, producer, ⟨at_, view, cached, unread⟩, [p], []⟩ 2 0 0 {})
  refine ⟨?state, ?run, ⟨?zero, ?runZero, ?verdictZero⟩, ?torn, ?runTorn, ?verdictTorn⟩
  case run =>
    iterate 2 refine runs_next ((if_pos hone).trans rfl) ?_
    refine runs_next ((if_pos hone).trans (congrArg (pushing _ _ _) hfree)) ?_
    iterate 10 refine runs_next ((if_pos hone).trans rfl) ?_
    iterate 5 refine runs_next ((if_pos hm).trans rfl) ?_
    refine runs_next ((if_pos hm).trans (congrArg (popping _ _ _ _ _) hfilled)) ?_
    rfl
  case runZero =>
    iterate 10 refine runs_next ((if_pos hm).trans rfl) ?_
    rfl
  case verdictZero => rfl
  case runTorn =>
    iterate 10 refine runs_next ((if_pos hm).trans rfl) ?_
    rfl
  case verdictTorn => rfl

/-- Relaxed, every run has a schedule that reads the first payload as a slot not written, and one
that reads a word of it and not the others. -/
theorem relaxed_reads_zero {messages : UInt64} (hm : 0 < messages) {k : ℕ}
    {ring : WordRing 8 UInt64} (hc : WordRing.create Payload.zero (2 ^ k) = some ring)
    (hk : 0 < k) :
    (∃ s, runs (step .relaxed messages) { ring := ring }
        (earlyIndex ++ copied (List.replicate 8 0)) = some s ∧
      s.verdict = { received := 1, zeroSlots := 1 }) ∧
    ∃ s, runs (step .relaxed messages) { ring := ring }
        (earlyIndex ++ copied (1 :: List.replicate 7 0)) = some s ∧
      s.verdict = { received := 1, torn := 1 } := by
  obtain ⟨s, hrun, ⟨s₁, hzero, hverdict₁⟩, s₂, htorn, hverdict₂⟩ := relaxed_copies hm hc hk
  exact ⟨⟨s₁, (runs_append hrun).trans hzero, hverdict₁⟩,
    s₂, (runs_append hrun).trans htorn, hverdict₂⟩

theorem relaxed_reads_zero_one :
    ∃ ring, WordRing.create Payload.zero (2 ^ 1) = some ring ∧
      (∃ s, runs (step .relaxed 1) { ring := ring }
          (earlyIndex ++ copied (List.replicate 8 0)) = some s ∧
        s.verdict = { received := 1, zeroSlots := 1 }) ∧
      ∃ s, runs (step .relaxed 1) { ring := ring }
          (earlyIndex ++ copied (1 :: List.replicate 7 0)) = some s ∧
        s.verdict = { received := 1, torn := 1 } := by
  have hc : ∃ ring, WordRing.create Payload.zero (2 ^ 1) = some ring := ⟨_, rfl⟩
  obtain ⟨ring, hc⟩ := hc
  exact ⟨ring, hc, @relaxed_reads_zero 1 (by decide) 1 ring hc (by decide)⟩

end Litmus

end Hotpath.Tools
