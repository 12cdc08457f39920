import Mathlib

/-!
# Laps around a ring

Numbers that take turns around the `cap` slots of a ring, one slot each.
-/

namespace Hotpath.Support

variable {q q' n cap : ℕ}

/-- Two numbers less than a lap apart have different slots. -/
theorem slot_ne (h : q < q') (hcap : q' < q + cap) : q % cap ≠ q' % cap := by
  intro heq
  have hdvd := (Nat.modEq_iff_dvd' h.le).mp heq
  have hle := Nat.le_of_dvd (by omega) hdvd
  omega

/-- Two numbers at most a lap apart that share their slot are a lap apart, or one. -/
theorem slot_eq_iff (hle : q ≤ q') (hcap : q' ≤ q + cap) :
    q' % cap = q % cap ↔ q' = q ∨ q' = q + cap := by
  constructor
  · intro heq
    by_contra hne
    push Not at hne
    exact slot_ne (by omega) (by omega) heq.symm
  · intro h
    cases h with
    | inl h => rw [h]
    | inr h => rw [h, Nat.add_mod_right]

/-- How many of the first `n` numbers fall on slot `j`. -/
abbrev laps (cap j n : ℕ) : ℕ := Nat.count (fun q => q % cap = j) n

theorem laps_succ (cap j n : ℕ) :
    laps cap j (n + 1) = laps cap j n + if n % cap = j then 1 else 0 :=
  Nat.count_succ _ n

theorem laps_mono (cap j : ℕ) : Monotone (laps cap j) :=
  Nat.count_monotone _

/-- Within a lap after `q`, its slot is not visited again. -/
theorem laps_lap (hlt : q < n) (hcap : n ≤ q + cap) :
    laps cap (q % cap) n = laps cap (q % cap) q + 1 := by
  induction n, hlt using Nat.le_induction with
  | base => rw [laps_succ, if_pos rfl]
  | succ n hlt ih =>
    have hne : n % cap ≠ q % cap := (slot_ne hlt (by omega)).symm
    rw [laps_succ, if_neg hne, ih (by omega)]

/-- Nor was the slot of `n` visited within a lap before. -/
theorem laps_gap (hle : q ≤ q') (hn : q' ≤ n) (hcap : n < q + cap) :
    laps cap (n % cap) q' = laps cap (n % cap) q := by
  induction q', hle using Nat.le_induction with
  | base => rfl
  | succ q' hle ih =>
    have hne : q' % cap ≠ n % cap := slot_ne (by omega) (by omega)
    rw [laps_succ, if_neg hne, ih (by omega), Nat.add_zero]

end Hotpath.Support
