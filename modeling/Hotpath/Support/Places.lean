import Hotpath.Support.ReleaseAcquire

/-!
# Some of the places

A part of a memory: the places `f x`, each under the name `x` and with its values under `g x`.
What a thread does at one of them it does in the part, and what it does elsewhere leaves the
part as it was.
-/

namespace Hotpath.Support

variable {Loc Loc' : Type} {Val : Loc → Type} {Val' : Loc' → Type}

def View.part (v : View Loc) (f : Loc' → Loc) : View Loc' :=
  ⟨fun x => v.stores (f x), fun x => v.reads (f x)⟩

def Store.part {A B : Type} (s : Store Loc A) (f : Loc' → Loc) (g : A → B) : Store Loc' B :=
  ⟨g s.value, s.view.part f⟩

def Memory.part (m : Memory Val) (f : Loc' → Loc) (g : ∀ x, Val (f x) → Val' x) : Memory Val' where
  stores := fun x => (m.stores (f x)).map fun s => s.part f (g x)
  reads := fun x => m.reads (f x)

variable {f : Loc' → Loc} {g : ∀ x, Val (f x) → Val' x} {m : Memory Val} {v : View Loc}
variable {x : Loc'} {y : Loc} {k : ℕ}

theorem Memory.pick_part :
    (m.part f g).pick (v.part f) x k = (m.pick v (f x) k).map fun s => s.part f (g x) := by
  show (if v.stores (f x) ≤ k + 1 then ((m.stores (f x)).map _)[k]? else none) =
    (if v.stores (f x) ≤ k + 1 then (m.stores (f x))[k]? else none).map _
  split
  · exact List.getElem?_map ..
  · rfl

theorem Memory.initial_part (a : ∀ y, Val y) :
    (Memory.initial a).part f g = Memory.initial fun x => g x (a (f x)) := rfl

theorem Memory.length_part : ((m.part f g).stores x).length = (m.stores (f x)).length :=
  List.length_map ..

variable [DecidableEq Loc]

/-! ### Elsewhere -/

theorem raise_elsewhere (hy : ∀ x, f x ≠ y) (h : Loc → ℕ) (n : ℕ) :
    (fun x => raise h y n (f x)) = fun x => h (f x) :=
  funext fun x => raise_of_ne (hy x)

theorem View.saw_elsewhere (hy : ∀ x, f x ≠ y) (v : View Loc) (n : ℕ) :
    (v.saw y n).part f = v.part f :=
  congrArg (View.mk · _) (raise_elsewhere hy v.stores n)

/-- A plain read of another place. -/
theorem Memory.loadPlain_elsewhere (hy : ∀ x, f x ≠ y) {a : Access Val (Val y)}
    (h : m.loadPlain v y k = some a) :
    a.view.part f = v.part f ∧ a.mem.part f g = m.part f g := by
  obtain ⟨s, -, rfl⟩ := Option.map_eq_some_iff.mp h
  constructor
  · exact (congrArg (View.mk _) (raise_elsewhere hy _ _)).trans (View.saw_elsewhere hy v _)
  · exact congrArg (Memory.mk _) (raise_elsewhere hy _ _)

theorem Memory.put_elsewhere (hy : ∀ x, f x ≠ y) (s : Store Loc (Val y)) :
    (m.put y s).part f g = m.part f g := by
  have hstores : ∀ x, (m.put y s).stores (f x) = m.stores (f x) := fun x => put_stores_of_ne (hy x)
  exact congrArg (Memory.mk · _) (funext fun x => congrArg (List.map _) (hstores x))

/-! ### At one of the places -/

variable [DecidableEq Loc']

theorem raise_part (hf : f.Injective) (h : Loc → ℕ) (x : Loc') (n : ℕ) :
    (fun z => raise h (f x) n (f z)) = raise (fun z => h (f z)) x n := by
  funext z
  by_cases hz : z = x
  · obtain rfl := hz
    rw [raise_self, raise_self]
  · rw [raise_of_ne hz, raise_of_ne fun heq => hz (hf heq)]

theorem View.saw_part (hf : f.Injective) (v : View Loc) (x : Loc') (n : ℕ) :
    (v.saw (f x) n).part f = (v.part f).saw x n :=
  congrArg (View.mk · _) (raise_part hf v.stores x n)

theorem View.counted_part (hf : f.Injective) (v : View Loc) (x : Loc') (n : ℕ) :
    (v.counted (f x) n).part f = (v.part f).counted x n :=
  congrArg (View.mk _) (raise_part hf v.reads x n)

namespace Memory

theorem loadRelaxed_part (hf : f.Injective) :
    (m.part f g).loadRelaxed (v.part f) x k =
      (m.loadRelaxed v (f x) k).map fun a => (g x a.1, a.2.part f) := by
  rw [loadRelaxed, loadRelaxed, pick_part, Option.map_map, Option.map_map, ← View.saw_part hf]
  rfl

theorem loadAcquire_part (hf : f.Injective) :
    (m.part f g).loadAcquire (v.part f) x k =
      (m.loadAcquire v (f x) k).map fun a => (g x a.1, a.2.part f) := by
  rw [loadAcquire, loadAcquire, pick_part, Option.map_map, Option.map_map, ← View.saw_part hf]
  rfl

theorem loadPlain_part (hf : f.Injective) :
    (m.part f g).loadPlain (v.part f) x k =
      (m.loadPlain v (f x) k).map fun a => ⟨g x a.value, a.view.part f, a.mem.part f g⟩ := by
  have hreads : Memory.part { m with reads := raise m.reads (f x) (m.reads (f x) + 1) } f g =
      { m.part f g with reads := raise (m.part f g).reads x (m.reads (f x) + 1) } :=
    congrArg (Memory.mk _) (raise_part hf m.reads x _)
  rw [loadPlain, loadPlain, pick_part, Option.map_map, Option.map_map, ← View.saw_part hf]
  refine congrArg (Option.map · _) (funext fun s => ?_)
  rw [Function.comp_apply, Function.comp_apply, hreads, View.counted_part hf]
  rfl

theorem put_part (hf : f.Injective) (s : Store Loc (Val (f x))) :
    (m.put (f x) s).part f g = (m.part f g).put x (s.part f (g x)) := by
  refine congrArg (Memory.mk · _) (funext fun z => ?_)
  by_cases hz : z = x
  · obtain rfl := hz
    rw [put_stores_self, Function.update_self, List.map_append]
    rfl
  · rw [put_stores_of_ne fun heq => hz (hf heq), Function.update_of_ne hz]
    rfl

theorem storeRelaxed_part (hf : f.Injective) (a : Val (f x)) :
    (m.part f g).storeRelaxed (v.part f) x (g x a) =
      ((m.storeRelaxed v (f x) a).1.part f, (m.storeRelaxed v (f x) a).2.part f g) := by
  rw [storeRelaxed, storeRelaxed, View.saw_part hf, put_part hf, length_part]
  rfl

theorem storeRelease_part (hf : f.Injective) (a : Val (f x)) :
    (m.part f g).storeRelease (v.part f) x (g x a) =
      ((m.storeRelease v (f x) a).1.part f, (m.storeRelease v (f x) a).2.part f g) := by
  rw [storeRelease, storeRelease, put_part hf, length_part, ← View.saw_part hf]
  rfl

end Memory

end Hotpath.Support
