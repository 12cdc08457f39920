import Mathlib

/-!
# Two computations side by side

Rules for computations that may fail: what one bind, one branch or one traversal
keeps of a relation between two of them, or of a map from the results of one to
the results of the other.
-/

namespace Hotpath.Support

section Maps
variable {α α' β γ : Type} {h : β → γ}

theorem bind_ext {x : Option α} {f g : α → Option β} (h : ∀ a, f a = g a) :
    x.bind f = x.bind g :=
  congrArg (Option.bind x) (funext h)

/-- Two computations that differ in what they carry along differ so in the end. -/
theorem bind_eq_map {x : Option α} {f : α → Option β} {g : α → Option γ}
    (hfg : ∀ a, g a = (f a).map h) : x.bind g = (x.bind f).map h := by
  cases x with
  | none => rfl
  | some a => exact hfg a

theorem map_bind_eq_map {x : Option α} {x' : Option α'} {k : α → α'} {f : α → Option β}
    {g : α' → Option γ} (hx : x' = x.map k) (hfg : ∀ a, g (k a) = (f a).map h) :
    x'.bind g = (x.bind f).map h := by
  rw [hx]
  cases x with
  | none => rfl
  | some a => exact hfg a

theorem ite_eq_map {c : Prop} [Decidable c] {x y : Option β} {x' y' : Option γ}
    (hx : x' = x.map h) (hy : y' = y.map h) :
    (if c then x' else y') = (if c then x else y).map h := by
  rw [hx, hy]
  split
  · rfl
  · rfl

theorem mapM_map_some {g : α → β} {f : β → Option γ} {v : α → γ} (xs : List α)
    (h : ∀ x ∈ xs, f (g x) = some (v x)) : (xs.map g).mapM f = some (xs.map v) := by
  induction xs with
  | nil => rfl
  | cons x xs ih =>
    have hrec := ih fun y hy => h y (List.mem_cons_of_mem _ hy)
    have hx := h x (List.mem_cons_self ..)
    rw [List.map_cons, List.mapM_cons, hx, hrec]
    rfl

theorem mapM_some_id (xs : List α) : (xs.map some).mapM id = some xs := by
  have h : (xs.map some).mapM id = some (xs.map id) := mapM_map_some xs fun _ _ => rfl
  rwa [List.map_id] at h

theorem mapM_congr {f g : α → Option β} (xs : List α) (h : ∀ x ∈ xs, g x = f x) :
    xs.mapM g = xs.mapM f := by
  induction xs with
  | nil => rfl
  | cons x xs ih =>
    rw [List.mapM_cons, List.mapM_cons, h x (List.mem_cons_self ..),
      ih fun y hy => h y (List.mem_cons_of_mem _ hy)]

end Maps

section Relations
variable {α β γ δ : Type} {R : α → β → Prop} {R' : γ → δ → Prop}

theorem rel_bind {x : Option α} {y : Option β} {f : α → Option γ} {g : β → Option δ}
    (hxy : Option.Rel R x y) (hfg : ∀ a b, R a b → Option.Rel R' (f a) (g b)) :
    Option.Rel R' (x.bind f) (y.bind g) := by
  cases hxy with
  | some hab => exact hfg _ _ hab
  | none => exact Option.Rel.none

theorem rel_bind_eq {x : Option α} {y : Option β} {f : α → Option γ} {g : β → Option δ}
    (hxy : Option.Rel R x y)
    (hfg : ∀ a b, x = some a → y = some b → R a b → Option.Rel R' (f a) (g b)) :
    Option.Rel R' (x.bind f) (y.bind g) := by
  cases hxy with
  | some hab => exact hfg _ _ rfl rfl hab
  | none => exact Option.Rel.none

theorem rel_bind_self (x : Option α) {f : α → Option γ} {g : α → Option δ}
    (hfg : ∀ a, Option.Rel R' (f a) (g a)) : Option.Rel R' (x.bind f) (x.bind g) := by
  cases x with
  | none => exact Option.Rel.none
  | some a => exact hfg a

theorem rel_ite {c : Prop} [Decidable c] {x y : Option α} {x' y' : Option β}
    (hx : c → Option.Rel R x x') (hy : ¬c → Option.Rel R y y') :
    Option.Rel R (if c then x else y) (if c then x' else y') := by
  split
  · exact hx ‹_›
  · exact hy ‹_›

theorem rel_imp {R' : α → β → Prop} {x : Option α} {y : Option β} (hxy : Option.Rel R x y)
    (himp : ∀ a b, x = some a → y = some b → R a b → R' a b) : Option.Rel R' x y := by
  cases hxy with
  | some hab => exact Option.Rel.some (himp _ _ rfl rfl hab)
  | none => exact Option.Rel.none

theorem rel_left {x : Option α} {b : β} (hxy : Option.Rel R x (some b)) :
    ∃ a, x = some a ∧ R a b := by
  cases hxy with
  | some hab => exact ⟨_, rfl, hab⟩

theorem rel_right {a : α} {y : Option β} (hxy : Option.Rel R (some a) y) :
    ∃ b, y = some b ∧ R a b := by
  cases hxy with
  | some hab => exact ⟨_, rfl, hab⟩

theorem rel_map_eq {x : Option α} {y : Option β} {f : α → γ} {g : β → γ}
    (hxy : Option.Rel R x y) (hR : ∀ a b, R a b → g b = f a) : y.map g = x.map f := by
  cases hxy with
  | some hab => exact congrArg some (hR _ _ hab)
  | none => rfl

theorem rel_map {R : α → γ → Prop} {h : α → γ} (hR : ∀ a, R a (h a)) (x : Option α) :
    Option.Rel R x (x.map h) := by
  cases x with
  | none => exact Option.Rel.none
  | some a => exact Option.Rel.some (hR a)

/-- Two relations along a square: what runs on one side runs on the other. -/
theorem rel_trans {R₁ : α → γ → Prop} {R₂ : β → δ → Prop} {S : α → β → Prop} {S' : γ → δ → Prop}
    {x : Option α} {y : Option β} {x' : Option γ} {y' : Option δ} (hxy : Option.Rel S x y)
    (hx : Option.Rel R₁ x x') (hy : Option.Rel R₂ y y')
    (hS : ∀ a b c d, S a b → R₁ a c → R₂ b d → S' c d) : Option.Rel S' x' y' := by
  cases hxy with
  | some hab =>
    obtain ⟨c, rfl, hc⟩ := rel_right hx
    obtain ⟨d, rfl, hd⟩ := rel_right hy
    exact Option.Rel.some (hS _ _ _ _ hab hc hd)
  | none =>
    cases hx with
    | none =>
      cases hy with
      | none => exact Option.Rel.none

end Relations

end Hotpath.Support
