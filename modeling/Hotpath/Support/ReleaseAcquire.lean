import Mathlib

/-!
# Release and acquire

The memory of threads that publish by release stores. Each place keeps all of its
stores in order, each with what its thread knew when it released it; a load takes any
store that is not older than the last one its thread knows of. Every place has one
writer, and a plain place one reader.
-/

namespace Hotpath.Support

variable {Loc : Type} {Val : Loc → Type}

/-- What a thread knows: how many stores of each place, and how many reads. -/
structure View (Loc : Type) where
  stores : Loc → ℕ
  reads : Loc → ℕ

namespace View

def unseen : View Loc := ⟨fun _ => 0, fun _ => 0⟩

/-- What every thread starts with: it knows the first store of each place. -/
def initial : View Loc := ⟨fun _ => 1, fun _ => 0⟩

instance : LE (View Loc) where
  le v w := (∀ x, v.stores x ≤ w.stores x) ∧ ∀ x, v.reads x ≤ w.reads x

def join (v w : View Loc) : View Loc :=
  ⟨fun x => max (v.stores x) (w.stores x), fun x => max (v.reads x) (w.reads x)⟩

end View

structure Store (Loc V : Type) where
  value : V
  view : View Loc

structure Memory (Val : Loc → Type) where
  stores : (x : Loc) → List (Store Loc (Val x))
  reads : Loc → ℕ

/-- What one access leaves behind. -/
structure Access (Val : Loc → Type) (A : Type) where
  value : A
  view : View Loc
  mem : Memory Val

variable [DecidableEq Loc]

/-- `f` with no less than `n` at `x`. -/
def raise (f : Loc → ℕ) (x : Loc) (n : ℕ) : Loc → ℕ := Function.update f x (max (f x) n)

def View.saw (v : View Loc) (x : Loc) (n : ℕ) : View Loc :=
  { v with stores := raise v.stores x n }

def View.counted (v : View Loc) (x : Loc) (n : ℕ) : View Loc :=
  { v with reads := raise v.reads x n }

namespace Memory

variable (m : Memory Val) (v : View Loc) (x : Loc) (k : ℕ) (a : Val x)

/-- All places with one store each. -/
def initial (value : (x : Loc) → Val x) : Memory Val where
  stores := fun x => [⟨value x, View.initial⟩]
  reads := fun _ => 0

/-- The `k`th store of `x`, for a thread that may still read it. -/
def pick : Option (Store Loc (Val x)) :=
  if v.stores x ≤ k + 1 then (m.stores x)[k]? else none

def loadRelaxed : Option (Val x × View Loc) :=
  (m.pick v x k).map fun s => (s.value, v.saw x (k + 1))

def loadAcquire : Option (Val x × View Loc) :=
  (m.pick v x k).map fun s => (s.value, (v.saw x (k + 1)).join s.view)

/-- A read of a plain place, which a later store of it has to know of. -/
def loadPlain : Option (Access Val (Val x)) :=
  (m.pick v x k).map fun s => {
    value := s.value
    view := (v.saw x (k + 1)).counted x (m.reads x + 1)
    mem := { m with reads := raise m.reads x (m.reads x + 1) } }

def put (s : Store Loc (Val x)) : Memory Val :=
  { m with stores := Function.update m.stores x (m.stores x ++ [s]) }

/-- A store that nothing is learnt from, of an atomic or of a plain place. -/
def storeRelaxed : View Loc × Memory Val :=
  (v.saw x ((m.stores x).length + 1), m.put x ⟨a, View.unseen⟩)

def storeRelease : View Loc × Memory Val :=
  (v.saw x ((m.stores x).length + 1), m.put x ⟨a, v.saw x ((m.stores x).length + 1)⟩)

/-- No store of `x` is unknown to the thread: it can read one of them only. -/
def Settled : Prop := (m.stores x).length ≤ v.stores x

/-- Nothing that was done to `x` is unknown to the thread: it may store there. -/
def Exclusive : Prop := m.Settled v x ∧ m.reads x ≤ v.reads x

end Memory

variable {m : Memory Val} {v w : View Loc} {x y : Loc} {k n : ℕ} {a : Val x}
variable {s : Store Loc (Val x)}

/-! ### Views -/

theorem raise_self (f : Loc → ℕ) (x : Loc) (n : ℕ) : raise f x n x = max (f x) n :=
  Function.update_self ..

theorem raise_of_ne {f : Loc → ℕ} (h : y ≠ x) : raise f x n y = f y :=
  Function.update_of_ne h ..

theorem le_raise (f : Loc → ℕ) (x : Loc) (n : ℕ) (y : Loc) : f y ≤ raise f x n y := by
  by_cases h : y = x
  · obtain rfl := h
    rw [raise_self]
    exact le_max_left ..
  · exact (raise_of_ne h).ge

theorem lt_raise (f : Loc → ℕ) (x : Loc) (n : ℕ) : n < raise f x (n + 1) x := by
  rw [raise_self]
  exact lt_max_of_lt_right n.lt_succ_self

namespace View

omit [DecidableEq Loc] in
theorem le_trans {u : View Loc} (h : u ≤ v) (h' : v ≤ w) : u ≤ w :=
  ⟨fun x => (h.1 x).trans (h'.1 x), fun x => (h.2 x).trans (h'.2 x)⟩

omit [DecidableEq Loc] in
theorem le_join_left (v w : View Loc) : v ≤ v.join w :=
  ⟨fun _ => le_max_left .., fun _ => le_max_left ..⟩

omit [DecidableEq Loc] in
theorem le_join_right (v w : View Loc) : w ≤ v.join w :=
  ⟨fun _ => le_max_right .., fun _ => le_max_right ..⟩

theorem le_saw (v : View Loc) (x : Loc) (n : ℕ) : v ≤ v.saw x n :=
  ⟨le_raise v.stores x n, fun _ => le_rfl⟩

theorem le_counted (v : View Loc) (x : Loc) (n : ℕ) : v ≤ v.counted x n :=
  ⟨fun _ => le_rfl, le_raise v.reads x n⟩

end View

/-! ### Loads and stores -/

namespace Memory

omit [DecidableEq Loc] in
theorem pick_eq_some :
    m.pick v x k = some s ↔ v.stores x ≤ k + 1 ∧ (m.stores x)[k]? = some s :=
  Option.ite_none_right_eq_some

omit [DecidableEq Loc] in
/-- What a thread that knows of every store reads is the last one. -/
theorem Settled.pick_last (h : m.Settled v x) (hs : m.pick v x k = some s) :
    k + 1 = (m.stores x).length := by
  obtain ⟨hle, hk⟩ := pick_eq_some.mp hs
  obtain ⟨hlt, -⟩ := List.getElem?_eq_some_iff.mp hk
  unfold Settled at h
  omega

/-- The rule of a relaxed load: it brings the number of the store. -/
theorem loadRelaxed_spec {b : Val x} (h : m.loadRelaxed v x k = some (b, w)) :
    ∃ s, m.pick v x k = some s ∧ b = s.value ∧ v ≤ w ∧ k < w.stores x := by
  obtain ⟨s, hs, heq⟩ := Option.map_eq_some_iff.mp h
  obtain ⟨rfl, rfl⟩ := Prod.mk.inj heq
  exact ⟨s, hs, rfl, v.le_saw .., lt_raise ..⟩

/-- The rule of an acquire load: it brings besides all that the storing thread knew. -/
theorem loadAcquire_spec {b : Val x} (h : m.loadAcquire v x k = some (b, w)) :
    ∃ s, m.pick v x k = some s ∧ b = s.value ∧ v ≤ w ∧ s.view ≤ w ∧ k < w.stores x := by
  obtain ⟨s, hs, heq⟩ := Option.map_eq_some_iff.mp h
  obtain ⟨rfl, rfl⟩ := Prod.mk.inj heq
  have hle := View.le_join_left (v.saw x (k + 1)) s.view
  exact ⟨s, hs, rfl, View.le_trans (v.le_saw ..) hle, View.le_join_right ..,
    (lt_raise ..).trans_le (hle.1 x)⟩

/-- The rule of a plain read: the thread counts it as the last one of its place. -/
theorem loadPlain_spec {b : Access Val (Val x)} (h : m.loadPlain v x k = some b) :
    ∃ s, m.pick v x k = some s ∧ b.value = s.value ∧
      b.mem = { m with reads := raise m.reads x (m.reads x + 1) } ∧
      v ≤ b.view ∧ m.reads x < b.view.reads x := by
  obtain ⟨s, hs, rfl⟩ := Option.map_eq_some_iff.mp h
  exact ⟨s, hs, rfl, rfl, View.le_trans (v.le_saw ..) (View.le_counted ..), lt_raise ..⟩

@[simp] theorem put_stores_self : (m.put x s).stores x = m.stores x ++ [s] :=
  Function.update_self ..

theorem put_stores_of_ne (h : y ≠ x) : (m.put x s).stores y = m.stores y :=
  Function.update_of_ne h ..

end Memory

/-! ### Views of what there is -/

/-- Every store the view knows of is in the memory. -/
def View.Within (v : View Loc) (m : Memory Val) : Prop :=
  ∀ x, v.stores x ≤ (m.stores x).length

def Memory.Closed (m : Memory Val) : Prop := ∀ x, ∀ s ∈ m.stores x, s.view.Within m

namespace View.Within

omit [DecidableEq Loc] in
theorem unseen : (View.unseen : View Loc).Within m := fun _ => Nat.zero_le _

omit [DecidableEq Loc] in
theorem join (h : v.Within m) (h' : w.Within m) : (v.join w).Within m :=
  fun x => max_le (h x) (h' x)

theorem put (h : v.Within m) (s : Store Loc (Val x)) : v.Within (m.put x s) := by
  intro y
  by_cases hy : y = x
  · obtain rfl := hy
    rw [Memory.put_stores_self, List.length_append]
    exact (h y).trans (Nat.le_add_right ..)
  · rw [Memory.put_stores_of_ne hy]
    exact h y

theorem saw (h : v.Within m) (hn : n ≤ (m.stores x).length) : (v.saw x n).Within m := by
  intro y
  show raise v.stores x n y ≤ _
  by_cases hy : y = x
  · obtain rfl := hy
    rw [raise_self]
    exact max_le (h y) hn
  · rw [raise_of_ne hy]
    exact h y

/-- A thread knows of its own store. -/
theorem stored (h : v.Within m) (s : Store Loc (Val x)) :
    (v.saw x ((m.stores x).length + 1)).Within (m.put x s) := by
  apply (h.put s).saw
  rw [Memory.put_stores_self, List.length_append, List.length_singleton]

end View.Within

namespace Memory

theorem Closed.put (h : m.Closed) (hs : s.view.Within (m.put x s)) : (m.put x s).Closed := by
  intro y t ht
  by_cases hy : y = x
  · obtain rfl := hy
    rw [put_stores_self] at ht
    cases List.mem_append.mp ht with
    | inl ht => exact (h y t ht).put s
    | inr ht =>
      obtain rfl := List.mem_singleton.mp ht
      exact hs
  · rw [put_stores_of_ne hy] at ht
    exact (h y t ht).put s

omit [DecidableEq Loc] in
theorem pick_lt (hs : m.pick v x k = some s) : k + 1 ≤ (m.stores x).length ∧ s ∈ m.stores x := by
  have hat := (pick_eq_some.mp hs).2
  obtain ⟨hlt, -⟩ := List.getElem?_eq_some_iff.mp hat
  exact ⟨hlt, List.mem_of_getElem? hat⟩

omit [DecidableEq Loc] in
/-- The last store of a place can be read at any time. -/
theorem pick_last (h : v.Within m) (hk : k + 1 = (m.stores x).length) :
    ∃ s, m.pick v x k = some s := by
  have hlt : k < (m.stores x).length := by omega
  exact ⟨_, pick_eq_some.mpr ⟨hk ▸ h x, List.getElem?_eq_getElem hlt⟩⟩

theorem loadRelaxed_eq (h : m.pick v x k = some s) :
    m.loadRelaxed v x k = some (s.value, v.saw x (k + 1)) :=
  congrArg (Option.map _) h

theorem loadAcquire_eq (h : m.pick v x k = some s) :
    m.loadAcquire v x k = some (s.value, (v.saw x (k + 1)).join s.view) :=
  congrArg (Option.map _) h

theorem loadPlain_eq (h : m.pick v x k = some s) :
    ∃ b, m.loadPlain v x k = some b :=
  ⟨_, congrArg (Option.map _) h⟩

theorem within_loadRelaxed {b : Val x} (h : v.Within m)
    (hl : m.loadRelaxed v x k = some (b, w)) : w.Within m := by
  obtain ⟨s, hs, heq⟩ := Option.map_eq_some_iff.mp hl
  obtain ⟨-, rfl⟩ := Prod.mk.inj heq
  exact h.saw (pick_lt hs).1

theorem within_loadAcquire {b : Val x} (hm : m.Closed) (h : v.Within m)
    (hl : m.loadAcquire v x k = some (b, w)) : w.Within m := by
  obtain ⟨s, hs, heq⟩ := Option.map_eq_some_iff.mp hl
  obtain ⟨-, rfl⟩ := Prod.mk.inj heq
  exact (h.saw (pick_lt hs).1).join (hm x s (pick_lt hs).2)

theorem within_loadPlain {b : Access Val (Val x)} (h : v.Within m)
    (hl : m.loadPlain v x k = some b) : b.view.Within m := by
  obtain ⟨s, hs, rfl⟩ := Option.map_eq_some_iff.mp hl
  exact h.saw (pick_lt hs).1

end Memory

end Hotpath.Support
