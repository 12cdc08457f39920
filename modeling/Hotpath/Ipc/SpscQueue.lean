import Hotpath.Ipc.SpscSteps

/-!
# The ring is a bounded queue

What is popped is what was pushed, in its order, and the two sides never meet in a
slot, whatever published index each of their loads returns.
-/

namespace Hotpath.Ipc.SpscRing

open Hotpath.Support

variable {T : Type} {fresh : Prop} {c : Caching} {r r' : SpscRing T} {k : ℕ} {zero : T}

/-- The slots between `head_` and `tail_` are the consumer's, the other ones the
producer's: the values `popped.length`, … are published and not released. -/
structure Guarded (r : SpscRing T) : Prop where
  store : ∀ v tail, r.producer.at_ = .storeSlot v tail →
    tail ≤ r.mask ∧ r.mem.Exclusive r.producer.view (.slot tail) ∧
      ∀ n, r.popped.length ≤ n → n < r.pushed.length → n &&& r.mask ≠ tail
  load : ∀ head, r.consumer.at_ = .loadSlot head →
    head = r.popped.length &&& r.mask ∧ r.popped.length < r.pushed.length ∧
      r.mem.Settled r.consumer.view (.slot head)
  intact : ∀ n (v : T), r.popped.length ≤ n → r.pushed[n]? = some v →
    ∃ s, (r.mem.stores (.slot (n &&& r.mask))).getLast? = some s ∧ s.value = v

/-! ### The start -/

theorem create_sound (h : create zero (2 ^ k) = some r) : Sound fresh c r := by
  obtain ⟨-, h⟩ := Option.ite_none_left_eq_some.mp h
  obtain rfl := Option.some.inj h
  have hpos : 0 < 2 ^ k := Nat.two_pow_pos k
  have hcap : 2 ^ k - 1 + 1 = 2 ^ k := Nat.sub_add_cancel hpos
  have hlaps (j : ℕ) : laps (2 ^ k) j 0 = 0 := Nat.count_zero _
  have hview (j : ℕ) : laps (2 ^ k) j 0 < 1 := (hlaps j).trans_lt one_pos
  have hfirst {α : Type} {a b : α} {i : ℕ} (hi : [a][i]? = some b) : i = 0 ∧ b = a :=
    (getElem?_concat (l := []) hi).resolve_left nofun
  constructor
  case pow => exact ⟨k, hcap⟩
  case kept =>
    show Kept (2 ^ k - 1 + 1) (Memory.initial _) [] 0 0 0
    rw [hcap]
    constructor
    case tails => rfl
    case tail =>
      intro i s hs
      obtain ⟨rfl, rfl⟩ := hfirst hs
      exact ⟨(Nat.zero_mod _).symm, hview⟩
    case heads => rfl
    case head =>
      intro i s hs
      obtain ⟨rfl, rfl⟩ := hfirst hs
      exact ⟨(Nat.zero_mod _).symm, fun j => (hlaps j).le⟩
    case slots => exact fun j => congrArg (· + 1) (hlaps j).symm
    case reads => exact fun j => (hlaps j).symm
    case holds => exact fun q x hx => nomatch hx
  case pushes =>
    refine ⟨0, ?_⟩
    show Pushes fresh c (2 ^ k - 1 + 1) _ 0 0 0
    rw [hcap]
    exact ⟨⟨one_pos, one_pos, hview, fun j => (hlaps j).le⟩, le_rfl,
      (Nat.zero_add (2 ^ k)).symm ▸ hpos,
      fun _ => ⟨0, le_rfl, (Nat.zero_mod _).symm, (Nat.zero_add (2 ^ k)).symm ▸ hpos⟩, trivial⟩
  case pops =>
    refine ⟨0, ?_⟩
    show Pops fresh c (2 ^ k - 1 + 1) _ [] 0 0
    rw [hcap]
    exact ⟨⟨one_pos, one_pos, fun j => (hlaps j).le, hview⟩, le_rfl, le_rfl,
      fun _ => ⟨0, le_rfl, (Nat.zero_mod _).symm, le_rfl⟩, trivial⟩
  case fifo => exact List.nil_prefix

/-! ### Runs -/

theorem latestStep_step {a : Action T} (h : r.latestStep .acqRel c a = some r') :
    r.step .acqRel c a = some r' := by
  cases a with
  | push v => exact h
  | pop => exact h
  | producer k => exact (Option.ite_none_right_eq_some.mp h).2
  | consumer k => exact (Option.ite_none_right_eq_some.mp h).2

theorem runs_sound {as : List (Action T)} {r₀ : SpscRing T} (h₀ : Sound False c r₀)
    (hrun : runs (SpscRing.step .acqRel c) r₀ as = some r) : Sound False c r :=
  runs_keeps (fun _ _ _ h hs => h.step False.elim hs) h₀ hrun

theorem latest_sound {as : List (Action T)} {r₀ : SpscRing T} (h₀ : Sound True c r₀)
    (hrun : runs (SpscRing.latestStep .acqRel c) r₀ as = some r) : Sound True c r :=
  runs_keeps (fun _ _ _ h hs => h.step (fun _ => hs) (latestStep_step hs)) h₀ hrun

namespace Sound

theorem guarded (h : Sound fresh c r) : r.Guarded := by
  have hlap := h.unread_lt
  constructor
  case store =>
    intro v tail hat
    have hkept := h.kept
    obtain ⟨head, hp⟩ := h.pushes
    have hview := hp.view
    have hroom := hp.room
    have hplace := hp.place
    simp only [hat, PushAt.inHand, PushAt.storing, PushPlace, List.append_nil, List.length_nil,
      Nat.add_zero] at hkept hview hroom hplace
    obtain rfl := hplace
    refine ⟨Nat.lt_succ_iff.mp (Nat.mod_lt _ r.mask.succ_pos), ?_, ?_⟩
    · exact hkept.slot_exclusive hview rfl h.taken_le (hp.le.trans h.popped_le) (by omega)
    · intro n hn hlt
      rw [h.and_mask]
      exact slot_ne hlt (by omega)
  case load =>
    intro head hat
    obtain ⟨t, hq⟩ := h.pops
    have hview := hq.view
    have hsome := hq.some
    have hplace := hq.place
    simp only [hat, PopAt.loaded, PopAt.loading, PopPlace, Nat.add_zero] at hview hsome hplace
    obtain rfl := hplace
    have hlen : t ≤ (r.pushed ++ r.producer.at_.inHand).length := by
      rw [List.length_append]
      exact hq.le.trans (Nat.le_add_right ..)
    exact ⟨(h.and_mask _).symm, Nat.lt_of_lt_of_le hsome hq.le,
      h.kept.slot_settled hview hsome hlen h.written_lt.le⟩
  case intact =>
    intro n v hn hv
    obtain ⟨hlt, -⟩ := List.getElem?_eq_some_iff.mp hv
    have hwritten := h.written_lt
    rw [h.and_mask]
    exact h.kept.holds n v ((List.getElem?_append_left hlt).trans hv) (by omega)

end Sound

/-- Whatever is loaded, the ring is a queue of at most `mask_` values; and when every
load returns the latest value, `try_push` fails on a full ring and `try_pop` on an empty
one only. -/
theorem ring_is_queue (c : Caching) (zero : T) (k : ℕ) {r₀ : SpscRing T}
    (h₀ : create zero (2 ^ k) = some r₀) :
    (∀ as r, runs (SpscRing.step .acqRel c) r₀ as = some r →
      r.popped <+: r.pushed ∧ r.Guarded ∧ r.pushed.length ≤ r.popped.length + r.mask) ∧
    ∀ as r, runs (SpscRing.latestStep .acqRel c) r₀ as = some r →
      (r.producer.at_ = .returning false → r.producer.unread = r.mask) ∧
      (r.consumer.at_ = .returning none → r.consumer.unread = 0) := by
  constructor
  · intro as r hrun
    have h := runs_sound (create_sound h₀) hrun
    exact ⟨h.fifo, h.guarded, Nat.lt_succ_iff.mp h.unread_lt⟩
  · intro as r hrun
    have h := latest_sound (create_sound h₀) hrun
    constructor
    · intro hat
      obtain ⟨head, hp⟩ := h.pushes
      have hplace := hp.place
      simp only [hat, PushPlace] at hplace
      exact Nat.succ.inj (hplace trivial trivial)
    · intro hat
      obtain ⟨tail, hq⟩ := h.pops
      have hplace := hq.place
      simp only [hat, PopPlace] at hplace
      exact hplace trivial trivial

/-- Three values go through a ring of two slots, and a push that finds it full. -/
theorem ring_is_queue_wraps :
    let as : List (Action ℕ) :=
      .push 7 :: [0, 0, 0, 0, 0].map .producer ++ .pop :: [0, 0, 1, 0, 0, 1, 0, 0].map .consumer ++
        .push 8 :: [1, 0, 1, 0, 0, 0, 0, 0].map .producer ++
        .pop :: [1, 0, 2, 0, 0, 1, 0, 0].map .consumer ++
        .push 9 :: [2, 0, 2, 0, 0, 0, 0, 0].map .producer ++
        .pop :: [2, 0, 3, 0, 0, 2, 0].map .consumer
    let bs : List (Action ℕ) :=
      .push 7 :: [0, 0, 0, 0, 0].map .producer ++ .push 8 :: [1, 0, 0, 0, 0].map .producer
    ∃ r₀ r r' : SpscRing ℕ, create 0 (2 ^ 1) = some r₀ ∧
      runs (SpscRing.step .acqRel .cached) r₀ as = some r ∧ r.pushed = [7, 8, 9] ∧
      r.popped = [7, 8, 9] ∧ r.popped <+: r.pushed ∧
      runs (SpscRing.latestStep .acqRel .cached) r₀ bs = some r' ∧
      r'.producer.at_ = .returning false ∧ r'.producer.unread = r'.mask := by
  intro as bs
  exact ⟨_, _, _, rfl, rfl, rfl, rfl, ((ring_is_queue .cached 0 1 rfl).1 as _ rfl).1, rfl, rfl,
    ((ring_is_queue .cached 0 1 rfl).2 bs _ rfl).1 rfl⟩

end Hotpath.Ipc.SpscRing
