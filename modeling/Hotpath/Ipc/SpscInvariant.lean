import Hotpath.Ipc.SpscRing
import Hotpath.Support.Laps

/-!
# What the two sides of the ring know

The indices are the numbers of values pushed and popped, taken around the buffer. Each
side holds a number for the other that may be behind; what it knows of the slots goes
as far as that number.
-/

namespace Hotpath.Ipc.SpscRing

open Hotpath.Support

variable {T : Type}

/-! ### The invariant -/

/-- A value that is in its slot and not yet published. -/
def PushAt.inHand : PushAt T → List T
  | .storeTail v _ => [v]
  | _ => []

/-- The slot that a push has found free counts as used. -/
def PushAt.storing : PushAt T → ℕ
  | .storeSlot _ _ => 1
  | .storeTail _ _ => 1
  | _ => 0

def PopAt.loading : PopAt T → ℕ
  | .loadSlot _ => 1
  | .storeHead _ _ => 1
  | _ => 0

/-- A slot that has been read and not yet released. -/
def PopAt.loaded : PopAt T → ℕ
  | .storeHead _ _ => 1
  | _ => 0

/-- The memory after `pushed` values were published and `popped` released, when
`written` are in their slots and `taken` were read. -/
structure Kept (cap : ℕ) (m : Memory (Cell.Value T)) (written : List T)
    (pushed popped taken : ℕ) : Prop where
  tails : (m.stores .tail).length = pushed + 1
  tail : ∀ k s, (m.stores .tail)[k]? = some s →
    s.value = k % cap ∧ ∀ j, laps cap j k < s.view.stores (.slot j)
  heads : (m.stores .head).length = popped + 1
  head : ∀ k s, (m.stores .head)[k]? = some s →
    s.value = k % cap ∧ ∀ j, laps cap j k ≤ s.view.reads (.slot j)
  slots : ∀ j, (m.stores (.slot j)).length = laps cap j written.length + 1
  reads : ∀ j, m.reads (.slot j) = laps cap j taken
  holds : ∀ q (x : T), written[q]? = some x → written.length ≤ q + cap →
    ∃ s, (m.stores (.slot (q % cap))).getLast? = some s ∧ s.value = x

/-- The view of a producer that knows of its `n` stores into slots, of `tail` published
ones and of the release of `head` values. -/
structure PushView (cap : ℕ) (v : View Cell) (n tail head : ℕ) : Prop where
  published : tail < v.stores .tail
  released : head < v.stores .head
  slots : ∀ j, laps cap j n < v.stores (.slot j)
  reads : ∀ j, laps cap j head ≤ v.reads (.slot j)

/-- The view of a consumer that knows of its `n` reads of slots, of `head` released ones
and of the first `tail` published values. -/
structure PopView (cap : ℕ) (v : View Cell) (n head tail : ℕ) : Prop where
  released : head < v.stores .head
  published : tail < v.stores .tail
  reads : ∀ j, laps cap j n ≤ v.reads (.slot j)
  slots : ∀ j, laps cap j tail < v.stores (.slot j)

variable (fresh : Prop) (c : Caching) (cap : ℕ)

/-- The arguments of `try_push` where it stands; `fresh` when all loads so far returned
the latest value. -/
def PushPlace (p : Side (PushAt T)) (pushed head : ℕ) : Prop :=
  match p.at_ with
  | .idle => True
  | .loadTail _ => True
  | .readCached _ tail => c = .cached ∧ tail = pushed % cap
  | .loadHead _ tail => tail = pushed % cap
  | .writeCached _ tail h =>
    tail = pushed % cap ∧ h = head % cap ∧ (fresh → pushed = head + p.unread)
  | .readAgain _ tail =>
    tail = pushed % cap ∧ p.cached = head % cap ∧ (fresh → pushed = head + p.unread)
  | .storeSlot _ tail => tail = pushed % cap
  | .storeTail _ tail => tail = pushed % cap
  | .returning ok => fresh → ok = false → p.unread + 1 = cap

def PopPlace (q : Side (PopAt T)) (pushed : List T) (popped tail : ℕ) : Prop :=
  match q.at_ with
  | .idle => True
  | .loadHead => True
  | .readCached head => c = .cached ∧ head = popped % cap
  | .loadTail head => head = popped % cap
  | .writeCached head t =>
    head = popped % cap ∧ t = tail % cap ∧ (fresh → tail = popped + q.unread)
  | .readAgain head =>
    head = popped % cap ∧ q.cached = tail % cap ∧ (fresh → tail = popped + q.unread)
  | .loadSlot head => head = popped % cap
  | .storeHead out head => head = popped % cap ∧ pushed[popped]? = some out
  | .returning out => fresh → out = none → q.unread = 0

/-- A producer that counts on `head` released values. -/
structure Pushes (p : Side (PushAt T)) (pushed popped head : ℕ) : Prop where
  view : PushView cap p.view (pushed + p.at_.inHand.length) pushed head
  le : head ≤ popped
  room : pushed + p.at_.storing < head + cap
  cached : c = .cached → ∃ h ≤ head, p.cached = h % cap ∧ pushed + p.at_.storing < h + cap
  place : PushPlace fresh c cap p pushed head

/-- A consumer that counts on `tail` published values. -/
structure Pops (q : Side (PopAt T)) (pushed : List T) (popped tail : ℕ) : Prop where
  view : PopView cap q.view (popped + q.at_.loaded) popped tail
  le : tail ≤ pushed.length
  some : popped + q.at_.loading ≤ tail
  cached : c = .cached → ∃ t ≤ tail, q.cached = t % cap ∧ popped + q.at_.loading ≤ t
  place : PopPlace fresh c cap q pushed popped tail

structure Sound (r : SpscRing T) : Prop where
  pow : ∃ k, r.mask + 1 = 2 ^ k
  kept : Kept (r.mask + 1) r.mem (r.pushed ++ r.producer.at_.inHand) r.pushed.length
    r.popped.length (r.popped.length + r.consumer.at_.loaded)
  pushes : ∃ head,
    Pushes fresh c (r.mask + 1) r.producer r.pushed.length r.popped.length head
  pops : ∃ tail, Pops fresh c (r.mask + 1) r.consumer r.pushed r.popped.length tail
  fifo : r.popped <+: r.pushed

variable {fresh : Prop} {c : Caching} {cap : ℕ} {m : Memory (Cell.Value T)}
variable {v w : View Cell} {n k pushed popped taken tail head : ℕ} {written : List T}
variable {p : Side (PushAt T)} {q : Side (PopAt T)} {r r' : SpscRing T} {x : T}

/-- What stands where in a list that has grown by one. -/
theorem getElem?_concat {α : Type} {l : List α} {a b : α} (h : (l ++ [a])[k]? = some b) :
    l[k]? = some b ∨ k = l.length ∧ b = a := by
  rcases Nat.lt_or_ge k l.length with hk | hk
  · rw [List.getElem?_append_left hk] at h
    exact .inl h
  · obtain ⟨hlt, heq⟩ := List.getElem?_eq_some_iff.mp h
    rw [List.length_append, List.length_singleton] at hlt
    rw [List.getElem_append_right hk, List.getElem_singleton] at heq
    exact .inr ⟨by omega, heq.symm⟩

/-! ### The other side going on -/

theorem PushView.mono (h : PushView cap v n tail head) (hle : v ≤ w) :
    PushView cap w n tail head :=
  ⟨h.published.trans_le (hle.1 _), h.released.trans_le (hle.1 _),
    fun j => (h.slots j).trans_le (hle.1 _), fun j => (h.reads j).trans (hle.2 _)⟩

theorem PopView.mono (h : PopView cap v n head tail) (hle : v ≤ w) :
    PopView cap w n head tail :=
  ⟨h.released.trans_le (hle.1 _), h.published.trans_le (hle.1 _),
    fun j => (h.reads j).trans (hle.2 _), fun j => (h.slots j).trans_le (hle.1 _)⟩

/-- A release leaves what the producer counts on. -/
theorem Pushes.release {popped' : ℕ} (h : Pushes fresh c cap p pushed popped head)
    (hle : popped ≤ popped') : Pushes fresh c cap p pushed popped' head :=
  { h with le := h.le.trans hle }

/-- A publication leaves what the consumer counts on. -/
theorem Pops.publish {values values' : List T} (h : Pops fresh c cap q values popped tail)
    (hpre : values <+: values') : Pops fresh c cap q values' popped tail := by
  constructor
  case view => exact h.view
  case le => exact h.le.trans hpre.length_le
  case some => exact h.some
  case cached => exact h.cached
  case place =>
    have hplace := h.place
    unfold PopPlace at hplace ⊢
    cases hat : q.at_ with
    | storeHead out i =>
      rw [hat] at hplace
      obtain ⟨rest, rfl⟩ := hpre
      obtain ⟨hlt, -⟩ := List.getElem?_eq_some_iff.mp hplace.2
      exact ⟨hplace.1, (List.getElem?_append_left hlt).trans hplace.2⟩
    | _ =>
      rw [hat] at hplace
      exact hplace

/-! ### Accesses to the memory -/

namespace Kept

variable {i : ℕ} {s : Store Cell ℕ}

/-- An index that only its own side stores. -/
theorem own_tail (h : Kept cap m written pushed popped taken) (hv : pushed < v.stores .tail)
    (hl : m.loadRelaxed v .tail k = some (i, w)) : i = pushed % cap ∧ v ≤ w := by
  obtain ⟨s, hs, rfl, hle, -⟩ := Memory.loadRelaxed_spec hl
  have htails := h.tails
  have hset : m.Settled v .tail := htails.trans_le hv
  have hk := hset.pick_last hs
  obtain rfl : k = pushed := by omega
  exact ⟨(h.tail k s (Memory.pick_eq_some.mp hs).2).1, hle⟩

theorem own_head (h : Kept cap m written pushed popped taken) (hv : popped < v.stores .head)
    (hl : m.loadRelaxed v .head k = some (i, w)) : i = popped % cap ∧ v ≤ w := by
  obtain ⟨s, hs, rfl, hle, -⟩ := Memory.loadRelaxed_spec hl
  have hheads := h.heads
  have hset : m.Settled v .head := hheads.trans_le hv
  have hk := hset.pick_last hs
  obtain rfl : k = popped := by omega
  exact ⟨(h.head k s (Memory.pick_eq_some.mp hs).2).1, hle⟩

/-- With an index of the consumer come the reads that it made before. -/
theorem other_head (h : Kept cap m written pushed popped taken)
    (hv : PushView cap v n tail head) (hl : m.loadAcquire v .head k = some (i, w)) :
    i = k % cap ∧ head ≤ k ∧ k ≤ popped ∧ PushView cap w n tail k := by
  obtain ⟨s, hs, rfl, hle, hview, hk⟩ := Memory.loadAcquire_spec hl
  obtain ⟨hmin, hat⟩ := Memory.pick_eq_some.mp hs
  obtain ⟨hlt, -⟩ := List.getElem?_eq_some_iff.mp hat
  have hheads := h.heads
  have hreleased := hv.released
  obtain ⟨hvalue, hreads⟩ := h.head k s hat
  have hw := hv.mono hle
  exact ⟨hvalue, by omega, by omega, hw.published, hk, hw.slots,
    fun j => (hreads j).trans (hview.2 _)⟩

/-- With an index of the producer come the values that it stored before. -/
theorem other_tail (h : Kept cap m written pushed popped taken)
    (hv : PopView cap v n head tail) (hl : m.loadAcquire v .tail k = some (i, w)) :
    i = k % cap ∧ tail ≤ k ∧ k ≤ pushed ∧ PopView cap w n head k := by
  obtain ⟨s, hs, rfl, hle, hview, hk⟩ := Memory.loadAcquire_spec hl
  obtain ⟨hmin, hat⟩ := Memory.pick_eq_some.mp hs
  obtain ⟨hlt, -⟩ := List.getElem?_eq_some_iff.mp hat
  have htails := h.tails
  have hpublished := hv.published
  obtain ⟨hvalue, hstores⟩ := h.tail k s hat
  have hw := hv.mono hle
  exact ⟨hvalue, by omega, by omega, hw.released, hk, hw.reads,
    fun j => (hstores j).trans_le (hview.1 _)⟩

/-- A value goes into its slot: the slots of the lap before it keep theirs. -/
theorem store_slot (h : Kept cap m written pushed popped taken) (view : View Cell) :
    Kept cap (m.put (.slot (written.length % cap)) ⟨x, view⟩) (written ++ [x])
      pushed popped taken := by
  constructor
  case tails => exact h.tails
  case tail => exact h.tail
  case heads => exact h.heads
  case head => exact h.head
  case reads => exact h.reads
  case slots =>
    intro j
    rw [List.length_append, List.length_singleton, laps_succ, ← Nat.add_right_comm, ← h.slots j]
    by_cases hj : written.length % cap = j
    · rw [if_pos hj, hj, Memory.put_stores_self, List.length_append, List.length_singleton]
    · have hne : Cell.slot j ≠ .slot (written.length % cap) := by
        intro heq
        exact hj (Cell.slot.inj heq).symm
      rw [if_neg hj, Memory.put_stores_of_ne hne, Nat.add_zero]
  case holds =>
    intro q y hy hlap
    rw [List.length_append, List.length_singleton] at hlap
    cases getElem?_concat hy with
    | inl hy =>
      obtain ⟨hq, -⟩ := List.getElem?_eq_some_iff.mp hy
      have hne : Cell.slot (q % cap) ≠ .slot (written.length % cap) := by
        intro heq
        exact slot_ne hq (by omega) (Cell.slot.inj heq)
      rw [Memory.put_stores_of_ne hne]
      exact h.holds q y hy (by omega)
    | inr hy =>
      obtain ⟨rfl, rfl⟩ := hy
      rw [Memory.put_stores_self, List.getLast?_concat]
      exact ⟨⟨y, view⟩, rfl, rfl⟩

theorem store_tail (h : Kept cap m written pushed popped taken)
    (hview : ∀ j, laps cap j (pushed + 1) < v.stores (.slot j)) :
    Kept cap (m.put .tail ⟨(pushed + 1) % cap, v⟩) written (pushed + 1) popped taken := by
  constructor
  case tails => rw [Memory.put_stores_self, List.length_append, h.tails]; rfl
  case tail =>
    intro k s hs
    rw [Memory.put_stores_self] at hs
    cases getElem?_concat hs with
    | inl hs => exact h.tail k s hs
    | inr hs =>
      obtain ⟨rfl, rfl⟩ := hs
      rw [h.tails]
      exact ⟨rfl, hview⟩
  case heads => exact h.heads
  case head => exact h.head
  case slots => exact h.slots
  case reads => exact h.reads
  case holds => exact h.holds

theorem store_head (h : Kept cap m written pushed popped taken)
    (hview : ∀ j, laps cap j (popped + 1) ≤ v.reads (.slot j)) :
    Kept cap (m.put .head ⟨(popped + 1) % cap, v⟩) written pushed (popped + 1) taken := by
  constructor
  case tails => exact h.tails
  case tail => exact h.tail
  case heads => rw [Memory.put_stores_self, List.length_append, h.heads]; rfl
  case head =>
    intro k s hs
    rw [Memory.put_stores_self] at hs
    cases getElem?_concat hs with
    | inl hs => exact h.head k s hs
    | inr hs =>
      obtain ⟨rfl, rfl⟩ := hs
      rw [h.heads]
      exact ⟨rfl, hview⟩
  case slots => exact h.slots
  case reads => exact h.reads
  case holds => exact h.holds

/-- A producer that found room knows of all that was done to the slot it stores into. -/
theorem slot_exclusive (h : Kept cap m written pushed popped taken)
    (hv : PushView cap v pushed tail head) (hlen : written.length = pushed)
    (htaken : taken ≤ pushed) (hle : head ≤ pushed) (hroom : pushed < head + cap) :
    m.Exclusive v (.slot (pushed % cap)) := by
  constructor
  · have hslots := hv.slots (pushed % cap)
    rw [Memory.Settled, h.slots, hlen]
    exact hslots
  · calc m.reads (.slot (pushed % cap))
      _ = laps cap (pushed % cap) taken := h.reads _
      _ ≤ laps cap (pushed % cap) pushed := laps_mono cap _ htaken
      _ = laps cap (pushed % cap) head := laps_gap hle le_rfl hroom
      _ ≤ v.reads (.slot (pushed % cap)) := hv.reads _

/-- A consumer that found a value knows of every store into its slot. -/
theorem slot_settled (h : Kept cap m written pushed popped taken)
    (hv : PopView cap v n head tail) (hlt : head < tail) (hle : tail ≤ written.length)
    (hlap : written.length ≤ head + cap) : m.Settled v (.slot (head % cap)) := by
  have hslots := hv.slots (head % cap)
  rw [laps_lap hlt (hle.trans hlap)] at hslots
  rw [Memory.Settled, h.slots, laps_lap (hlt.trans_le hle) hlap]
  exact hslots

/-- It reads the value that was pushed. -/
theorem load_slot {a : Access (Cell.Value T) T} (h : Kept cap m written pushed popped popped)
    (hv : PopView cap v popped popped tail) (hset : m.Settled v (.slot (popped % cap)))
    (hx : written[popped]? = some x) (hlap : written.length ≤ popped + cap)
    (hl : m.loadPlain v (.slot (popped % cap)) k = some a) :
    a.value = x ∧ Kept cap a.mem written pushed popped (popped + 1) ∧
      PopView cap a.view (popped + 1) popped tail := by
  obtain ⟨s, hs, hvalue, hmem, hle, hcount⟩ := Memory.loadPlain_spec hl
  have hk := hset.pick_last hs
  have hat := (Memory.pick_eq_some.mp hs).2
  obtain ⟨last, hlast, hlastx⟩ := h.holds popped x hx hlap
  rw [List.getLast?_eq_getElem?, ← hk, Nat.add_sub_cancel, hat] at hlast
  obtain rfl := Option.some.inj hlast
  have hw := hv.mono hle
  have hread := h.reads (popped % cap)
  refine ⟨hvalue.trans hlastx, ?_, ?_⟩
  · rw [hmem]
    constructor
    case tails => exact h.tails
    case tail => exact h.tail
    case heads => exact h.heads
    case head => exact h.head
    case slots => exact h.slots
    case holds => exact h.holds
    case reads =>
      intro j
      rw [laps_succ, ← h.reads j]
      show raise m.reads _ _ _ = _
      by_cases hj : popped % cap = j
      · obtain rfl := hj
        rw [if_pos rfl, raise_self]
        omega
      · have hne : Cell.slot j ≠ .slot (popped % cap) := by
          intro heq
          exact hj (Cell.slot.inj heq).symm
        rw [if_neg hj, raise_of_ne hne, Nat.add_zero]
  · constructor
    case released => exact hw.released
    case published => exact hw.published
    case slots => exact hw.slots
    case reads =>
      intro j
      rw [laps_succ]
      by_cases hj : popped % cap = j
      · obtain rfl := hj
        rw [if_pos rfl]
        omega
      · rw [if_neg hj]
        exact hw.reads j

end Kept

namespace Sound

theorem popped_le (h : Sound fresh c r) : r.popped.length ≤ r.pushed.length :=
  h.fifo.length_le

/-- One slot stays free. -/
theorem unread_lt (h : Sound fresh c r) : r.pushed.length < r.popped.length + (r.mask + 1) := by
  obtain ⟨head, hp⟩ := h.pushes
  have hle := hp.le
  have hroom := hp.room
  omega

theorem and_mask (h : Sound fresh c r) (i : ℕ) : i &&& r.mask = i % (r.mask + 1) := by
  obtain ⟨k, hk⟩ := h.pow
  rw [hk, ← Nat.and_two_pow_sub_one_eq_mod, ← hk, Nat.add_sub_cancel]

end Sound

end Hotpath.Ipc.SpscRing
