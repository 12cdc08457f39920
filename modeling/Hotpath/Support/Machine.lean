import Mathlib

/-!
# Runs of a machine

A machine takes one action at a time; `none` is an action that is not possible in
its state. What every action keeps holds after every run.
-/

namespace Hotpath.Support

variable {S A : Type} {step : S → A → Option S} {s s' : S}

def runs (step : S → A → Option S) : S → List A → Option S
  | s, [] => some s
  | s, a :: as => (step s a).bind fun s => runs step s as

/-- One action first. -/
theorem runs_next {s₁ : S} {a : A} {as : List A} (h : step s a = some s₁)
    (hrest : runs step s₁ as = some s') : runs step s (a :: as) = some s' := by
  rw [runs, h]
  exact hrest

/-- Actions of one kind. -/
theorem runs_map {B : Type} (f : B → A) (bs : List B) :
    runs step s (bs.map f) = runs (fun s b => step s (f b)) s bs := by
  induction bs generalizing s with
  | nil => rfl
  | cons b bs ih =>
    rw [List.map_cons, runs, runs]
    exact congrArg _ (funext fun _ => ih)

/-- One run after another. -/
theorem runs_append {as bs : List A} (h : runs step s as = some s') :
    runs step s (as ++ bs) = runs step s' bs := by
  induction as generalizing s with
  | nil =>
    obtain rfl := Option.some.inj h
    rfl
  | cons a as ih =>
    obtain ⟨s1, h1, h⟩ := Option.bind_eq_some_iff.mp h
    rw [List.cons_append, runs, h1]
    exact ih h

/-- An invariant of one action is an invariant of a run. -/
theorem runs_keeps {I : S → Prop} (hstep : ∀ s a s', I s → step s a = some s' → I s')
    (h : I s) {as : List A} (hrun : runs step s as = some s') : I s' := by
  induction as generalizing s with
  | nil =>
    obtain rfl := Option.some.inj hrun
    exact h
  | cons a as ih =>
    obtain ⟨s1, h1, hrun⟩ := Option.bind_eq_some_iff.mp hrun
    exact ih (hstep s a s1 h h1) hrun

end Hotpath.Support
