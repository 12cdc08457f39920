import Hotpath.Support.RingQueue

/-!
# Reading ahead

A loop takes items from a source and does something with each. Where it keeps a number of
them waiting, so that something can be started for an item when it comes in, it does the
same as where it takes them one at a time.
-/

namespace Hotpath.Support

/-- What one call of `next` hands out is the first of what is pending. A source that has
said that there is nothing more is done, and goes on saying so. -/
structure Source (R M : Type) where
  next : R → Option (Option M × R)
  pending : R → List M
  done : R → Prop
  next_spec : ∀ r, ∃ x r', next r = some (x, r') ∧ pending r = x.toList ++ pending r' ∧
    (x = none → done r')
  pending_done : ∀ r, done r → pending r = []

namespace Source

variable {R M S : Type} (src : Source R M)

section Loops
variable (next : R → Option (Option M × R)) (note : M → Option Unit) (process : S → M → Option S)

/-- One item at a time, with a bound on the items. -/
def plain : ℕ → R → S → Option (S × R)
  | 0, _, _ => none
  | fuel + 1, r, s => do
    match ← next r with
    | (none, r) => return (s, r)
    | (some m, r) => plain fuel r (← process s m)

/-- Takes items until none is left or the window is full, and notes each. -/
def fill : ℕ → R → RingQueue M → Option (R × RingQueue M)
  | 0, _, _ => none
  | fuel + 1, r, w =>
    if w.filled < w.slots.length then do
      match ← next r with
      | (none, r) => return (r, w)
      | (some m, r) =>
        let w ← w.push m
        note m
        fill fuel r w
    else some (r, w)

/-- Fills the window before each item. -/
def ahead : ℕ → R → RingQueue M → S → Option (S × R)
  | 0, _, _, _ => none
  | fuel + 1, r, w, s => do
    let (r, w) ← fill next note (w.slots.length + 1) r w
    if w.filled = 0 then return (s, r)
    else
      let (m, w) ← w.pop
      ahead fuel r w (← process s m)

end Loops

variable {src} {note : M → Option Unit} {process : S → M → Option S} {P : R → Prop}
  {r : R} {s : S} {w : RingQueue M} {q : List M} {fuel : ℕ}

/-- What a loop comes to: the items processed in turn, and a source that is done. -/
structure Ends (src : Source R M) (P : R → Prop) (all : Option S) (out : Option (S × R)) :
    Prop where
  processed : out.map Prod.fst = all
  source : ∀ s' r', out = some (s', r') → src.done r' ∧ P r'

theorem Ends.none : Ends src P (none : Option S) none :=
  ⟨rfl, fun _ _ h => nomatch h⟩

theorem Ends.some (hdone : src.done r) (hP : P r) : Ends src P (some s) (some (s, r)) := by
  refine ⟨rfl, fun s' r' h => ?_⟩
  obtain ⟨-, rfl⟩ := Prod.mk.inj (Option.some.inj h)
  exact ⟨hdone, hP⟩

variable (hstep : ∀ r x r', P r → src.next r = some (x, r') → P r')
include hstep

theorem plain_ends (hfuel : (src.pending r).length < fuel) (hP : P r) :
    Ends src P ((src.pending r).foldlM process s) (plain src.next process fuel r s) := by
  induction fuel generalizing r s with
  | zero => exact absurd hfuel (Nat.not_lt_zero _)
  | succ fuel ih =>
    obtain ⟨x, r₁, hnext, hpending, hdone⟩ := src.next_spec r
    have hP₁ := hstep r x r₁ hP hnext
    simp only [plain, hnext, hpending, Option.bind_eq_bind, Option.bind_some]
    cases x with
    | none =>
      rw [src.pending_done r₁ (hdone rfl)]
      exact .some (hdone rfl) hP₁
    | some m =>
      rw [hpending] at hfuel
      have hfuel₁ : (src.pending r₁).length < fuel := Nat.lt_of_succ_lt_succ hfuel
      show Ends src P ((process s m).bind _) ((process s m).bind _)
      cases process s m with
      | none => exact .none
      | some s₁ => exact ih hfuel₁ hP₁

/-- A filled window holds what waited before and the next of the source. -/
theorem fill_spec (hw : w.Holds q) (hfuel : w.slots.length < fuel + q.length) (hP : P r)
    (hnote : ∀ m ∈ src.pending r, note m = some ()) :
    ∃ r' w' ms, fill src.next note fuel r w = some (r', w') ∧
      src.pending r = ms ++ src.pending r' ∧ w'.Holds (q ++ ms) ∧
      w'.slots.length = w.slots.length ∧
      ((q ++ ms).length < w.slots.length → src.done r') ∧ P r' := by
  induction fuel generalizing r w q with
  | zero =>
    have hroom := hw.room
    omega
  | succ fuel ih =>
    rw [fill]
    by_cases hlt : w.filled < w.slots.length
    · obtain ⟨x, r₁, hnext, hpending, hdone⟩ := src.next_spec r
      have hP₁ := hstep r x r₁ hP hnext
      simp only [if_pos hlt, hnext, Option.bind_eq_bind, Option.bind_some]
      rw [hpending] at hnote
      cases x with
      | none =>
        refine ⟨r₁, w, [], rfl, hpending, ?_, rfl, fun _ => hdone rfl, hP₁⟩
        rwa [List.append_nil]
      | some m =>
        rw [hw.filled] at hlt
        obtain ⟨w₁, hpush, hw₁, hlen⟩ := hw.push hlt m
        have hfuel₁ : w₁.slots.length < fuel + (q ++ [m]).length := by
          rw [hlen, List.length_append, List.length_singleton]
          omega
        obtain ⟨r', w', ms, hfill, hrest, hw', hlen', hfull, hP'⟩ := ih hw₁ hfuel₁ hP₁
          fun m' hm' => hnote m' (List.mem_cons_of_mem _ hm')
        refine ⟨r', w', m :: ms, ?_, ?_, ?_, hlen'.trans hlen, ?_, hP'⟩
        · simp only [hpush, hnote m List.mem_cons_self, Option.bind_some]
          exact hfill
        · rw [hpending, hrest]
          rfl
        · rwa [List.append_assoc] at hw'
        · rwa [List.append_assoc, hlen] at hfull
    · rw [if_neg hlt]
      refine ⟨r, w, [], rfl, rfl, ?_, rfl, fun h => ?_, hP⟩
      · rwa [List.append_nil]
      · rw [List.append_nil, ← hw.filled] at h
        exact absurd h hlt

theorem ahead_ends (hw : w.Holds q) (hfuel : q.length + (src.pending r).length < fuel) (hP : P r)
    (hnote : ∀ m ∈ src.pending r, note m = some ()) :
    Ends src P ((q ++ src.pending r).foldlM process s) (ahead src.next note process fuel r w s) := by
  induction fuel generalizing r w q s with
  | zero => exact absurd hfuel (Nat.not_lt_zero _)
  | succ fuel ih =>
    obtain ⟨r₁, w₁, ms, hfill, hpending, hw₁, hlen₁, hdone, hP₁⟩ :=
      fill_spec hstep hw (Nat.lt_of_lt_of_le (Nat.lt_succ_self _) (Nat.le_add_right _ _)) hP hnote
    rw [hpending, List.length_append] at hfuel
    rw [hpending] at hnote
    simp only [ahead, hfill, Option.bind_eq_bind, Option.bind_some, hpending, ← List.append_assoc]
    cases hall : q ++ ms with
    | nil =>
      have hdone₁ : src.done r₁ := hdone (by
        rw [hall]
        exact hw.pos)
      have hempty : w₁.filled = 0 := by
        rw [hw₁.filled, hall]
        rfl
      rw [if_pos hempty, src.pending_done r₁ hdone₁]
      exact .some hdone₁ hP₁
    | cons m q₁ =>
      rw [hall] at hw₁
      have hsome : w₁.filled ≠ 0 := by
        rw [hw₁.filled]
        exact Nat.succ_ne_zero _
      obtain ⟨w₂, hpop, hw₂, -⟩ := hw₁.pop
      have hcount := congrArg List.length hall
      rw [List.length_append, List.length_cons] at hcount
      have hfuel₁ : q₁.length + (src.pending r₁).length < fuel := by omega
      rw [if_neg hsome, hpop]
      show Ends src P ((process s m).bind _) ((process s m).bind _)
      cases process s m with
      | none => exact .none
      | some s₁ =>
        exact ih hw₂ hfuel₁ hP₁ fun m' hm' => hnote m' (List.mem_append_right _ hm')

end Source

end Hotpath.Support
