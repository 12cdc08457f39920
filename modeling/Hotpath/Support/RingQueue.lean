import Hotpath.Support.Laps

/-!
# A queue in a circle of slots

The slots are a power of two, so that a position wraps by a mask. What the filled ones
hold is a list, the longest waiting first; what the others hold does not matter.
-/

namespace Hotpath.Support

structure RingQueue (α : Type) where
  slots : List α
  head : ℕ := 0
  filled : ℕ := 0

namespace RingQueue

variable {α : Type} {w : RingQueue α} {q : List α} {x : α}

def mask (w : RingQueue α) : ℕ := w.slots.length - 1

/-- At the end; `none` is a subscript outside the slots. -/
def push (w : RingQueue α) (x : α) : Option (RingQueue α) :=
  let slot := (w.head + w.filled) &&& w.mask
  if slot < w.slots.length then
    some { w with slots := w.slots.set slot x, filled := w.filled + 1 }
  else none

/-- From the front. -/
def pop (w : RingQueue α) : Option (α × RingQueue α) := do
  let x ← w.slots[w.head]?
  return (x, { w with head := (w.head + 1) &&& w.mask, filled := w.filled - 1 })

structure Holds (w : RingQueue α) (q : List α) : Prop where
  pow : ∃ k, w.slots.length = 2 ^ k
  head : w.head < w.slots.length
  filled : w.filled = q.length
  room : q.length ≤ w.slots.length
  cells : ∀ i < q.length, w.slots[(w.head + i) % w.slots.length]? = q[i]?

theorem Holds.and_mask (h : Holds w q) (n : ℕ) : n &&& w.mask = n % w.slots.length := by
  obtain ⟨k, hk⟩ := h.pow
  rw [mask, hk, Nat.and_two_pow_sub_one_eq_mod]

theorem Holds.pos (h : Holds w q) : 0 < w.slots.length := Nat.zero_lt_of_lt h.head

theorem Holds.empty {k : ℕ} (x : α) : Holds ⟨List.replicate (2 ^ k) x, 0, 0⟩ [] where
  pow := ⟨k, List.length_replicate⟩
  head := by
    show 0 < (List.replicate (2 ^ k) x).length
    rw [List.length_replicate]
    exact Nat.two_pow_pos k
  filled := rfl
  room := Nat.zero_le _
  cells := fun i hi => absurd hi (Nat.not_lt_zero i)

theorem Holds.push (h : Holds w q) (hroom : q.length < w.slots.length) (x : α) :
    ∃ w', w.push x = some w' ∧ Holds w' (q ++ [x]) ∧ w'.slots.length = w.slots.length := by
  have hslot : (w.head + w.filled) &&& w.mask = (w.head + q.length) % w.slots.length := by
    rw [h.and_mask, h.filled]
  have hlt := Nat.mod_lt (w.head + q.length) h.pos
  refine ⟨_, by rw [RingQueue.push, hslot, if_pos hlt], ?_, List.length_set⟩
  have hlen : (w.slots.set ((w.head + q.length) % w.slots.length) x).length = w.slots.length :=
    List.length_set
  constructor
  case pow =>
    obtain ⟨k, hk⟩ := h.pow
    exact ⟨k, hlen.trans hk⟩
  case head => exact h.head.trans_eq hlen.symm
  case filled =>
    show w.filled + 1 = _
    rw [h.filled, List.length_append, List.length_singleton]
  case room =>
    show _ ≤ (w.slots.set _ x).length
    rw [List.length_append, List.length_singleton, hlen]
    exact hroom
  case cells =>
    intro i hi
    show (w.slots.set _ x)[(w.head + i) % (w.slots.set _ x).length]? = _
    rw [List.length_append, List.length_singleton] at hi
    rw [hlen]
    by_cases hold : i < q.length
    · have hne : (w.head + q.length) % w.slots.length ≠ (w.head + i) % w.slots.length :=
        (slot_ne (by omega) (by omega)).symm
      rw [List.getElem?_set_ne hne, h.cells i hold, List.getElem?_append_left hold]
    · obtain rfl : i = q.length := by omega
      rw [List.getElem?_set_self hlt, List.getElem?_concat_length]

theorem Holds.pop (h : Holds w (x :: q)) :
    ∃ w', w.pop = some (x, w') ∧ Holds w' q ∧ w'.slots.length = w.slots.length := by
  have hfront : w.slots[w.head]? = some x := by
    have hcell := h.cells 0 (Nat.succ_pos _)
    rwa [Nat.add_zero, Nat.mod_eq_of_lt h.head] at hcell
  have hpop : w.pop = some (x, ⟨w.slots, (w.head + 1) % w.slots.length, w.filled - 1⟩) := by
    rw [RingQueue.pop, hfront, h.and_mask]
    rfl
  refine ⟨_, hpop, ?_, rfl⟩
  have hroom := h.room
  rw [List.length_cons] at hroom
  constructor
  case pow => exact h.pow
  case head => exact Nat.mod_lt _ h.pos
  case filled =>
    show w.filled - 1 = q.length
    rw [h.filled]
    rfl
  case room => exact Nat.le_of_succ_le hroom
  case cells =>
    intro i hi
    show w.slots[((w.head + 1) % w.slots.length + i) % w.slots.length]? = q[i]?
    have hcell := h.cells (i + 1) (Nat.succ_lt_succ hi)
    rw [Nat.mod_add_mod, Nat.add_assoc, Nat.add_comm 1 i]
    exact hcell

end RingQueue

end Hotpath.Support
