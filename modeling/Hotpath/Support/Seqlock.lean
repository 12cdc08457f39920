import Mathlib

/-!
# Data under a version

A writer makes the version odd before it touches the data and even again after it.
What a reader saw under one even version is true of the data while that version stands.
-/

namespace Hotpath.Support

variable {S : Type} (version : S → ℕ)

/-- From one state of the data to a later one. -/
structure Steady (s s' : S) : Prop where
  le : version s ≤ version s'
  same : Even (version s) → version s' = version s → s' = s

/-- What is known of the data `s` after version `v` was loaded. -/
structure Seen (v : ℕ) (P : S → Prop) (s : S) : Prop where
  even : Even v
  le : v ≤ version s
  holds : version s = v → P s

variable {version} {s s' s'' : S} {v : ℕ} {P Q : S → Prop}

theorem Steady.refl (s : S) : Steady version s s :=
  ⟨le_rfl, fun _ _ => rfl⟩

/-- A store of a greater version, whatever else it changes. -/
theorem Steady.of_lt (h : version s < version s') : Steady version s s' :=
  ⟨h.le, fun _ heq => absurd heq h.ne'⟩

/-- A change of the data under an odd version. -/
theorem Steady.of_odd (h : version s' = version s) (hodd : ¬ Even (version s)) :
    Steady version s s' :=
  ⟨h.ge, fun heven => absurd heven hodd⟩

theorem Seen.load (h : Even (version s)) : Seen version (version s) (fun _ => True) s :=
  ⟨h, le_rfl, fun _ => trivial⟩

theorem Seen.imp (h : Seen version v P s) (hP : version s = v → P s → Q s) :
    Seen version v Q s :=
  ⟨h.even, h.le, fun heq => hP heq (h.holds heq)⟩

/-- The rule of the reader: what it saw outlives every step of the writer. -/
theorem Seen.steady (h : Seen version v P s) (hs : Steady version s s') :
    Seen version v P s' := by
  constructor
  case even => exact h.even
  case le => exact h.le.trans hs.le
  case holds =>
    intro heq
    have h1 : version s = v := le_antisymm (heq ▸ hs.le) h.le
    obtain rfl := hs.same (h1 ▸ h.even) (heq.trans h1.symm)
    exact h.holds h1

end Hotpath.Support
