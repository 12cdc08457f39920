import Hotpath.Support.OrderedMap
import Hotpath.Core.OpenHashSpec

/-!
# Runs of the table against a finite map (core/open_hash.hpp)

A run is any sequence of `find`, `insert`, `erase` and `clear`. The reference
is an ordered finite map that refuses a new key past the load limit; the table
returns its replies, call by call, and every call returns.
-/

namespace Hotpath.OpenHashMap
open Hotpath.Support

variable {V : Type}

inductive Call (V : Type) where
  | find (key : OrderId)
  | insert (key : OrderId) (v : V)
  | erase (key : OrderId)
  | clear

inductive Reply (V : Type) where
  | value (v : Option V)
  | stored (ok : Bool)
  | removed (present : Bool)
  | done

def Call.NonZero : Call V → Prop
  | .find key => key ≠ kEmpty
  | .insert key _ => key ≠ kEmpty
  | .erase key => key ≠ kEmpty
  | .clear => True

def call (h : OrderId → OrderId) (m : OpenHashMap V) : Call V → Option (OpenHashMap V × Reply V)
  | .find key => do
    let v ← m.find h key
    return (m, .value v)
  | .insert key v => do
    let (m, ok) ← m.insert h key v
    return (m, .stored ok)
  | .erase key => do
    let (m, present) ← m.erase h key
    return (m, .removed present)
  | .clear => some (m.clear, .done)

def run (h : OrderId → OrderId) :
    OpenHashMap V → List (Call V) → Option (OpenHashMap V × List (Reply V))
  | m, [] => some (m, [])
  | m, c :: cs => do
    let (m, r) ← m.call h c
    let (m, rs) ← run h m cs
    return (m, r :: rs)

/-! ### The reference map -/

abbrev RefMap (V : Type) := Std.TreeMap OrderId V

/-- `limit` is the number of keys the map may hold. -/
def RefMap.call (limit : ℕ) (r : RefMap V) : Call V → RefMap V × Reply V
  | .find key => (r, .value r[key]?)
  | .insert key v =>
    if r[key]? = none ∧ limit < r.size + 1 then (r, .stored false)
    else (r.insert key v, .stored true)
  | .erase key => (r.erase key, .removed r[key]?.isSome)
  | .clear => (∅, .done)

def RefMap.run (limit : ℕ) : RefMap V → List (Call V) → RefMap V × List (Reply V)
  | r, [] => (r, [])
  | r, c :: cs =>
    let (r, reply) := RefMap.call limit r c
    let (r, rs) := RefMap.run limit r cs
    (r, reply :: rs)

/-! ### Simulation -/

structure Sim (h : OrderId → OrderId) (c : ℕ) (m : OpenHashMap V) (r : RefMap V) : Prop where
  wf : WF h m
  length : m.slots.length = c
  lookup : ∀ k ≠ kEmpty, lookup m k = r[k]?
  size : m.size = r.size

variable {h : OrderId → OrderId} {c : ℕ} {m : OpenHashMap V} {r : RefMap V}

theorem Sim.limit (hs : Sim h c m r) : m.limit = c * 7 / 10 := by
  simp only [OpenHashMap.limit, hs.length]

theorem Sim.insert (hs : Sim h c m r) {key : OrderId} (hk : key ≠ kEmpty) (v : V) :
    ∃ m', m.call h (.insert key v) = some (m', (RefMap.call (c * 7 / 10) r (.insert key v)).2) ∧
      Sim h c m' (RefMap.call (c * 7 / 10) r (.insert key v)).1 := by
  have hlim := hs.limit
  rcases hs.wf.insert_spec hk v with ⟨hnone, hfull, hi⟩ | ⟨m', hi, hw', hlen, hlook, hcase⟩
  · have hr : r[key]? = none ∧ c * 7 / 10 < r.size + 1 := by
      rw [← hs.lookup key hk, ← hs.size, ← hlim]
      exact ⟨hnone, hfull⟩
    refine ⟨m, ?_, ?_⟩
    · simp only [call, hi, RefMap.call, if_pos hr]
      rfl
    · simpa only [RefMap.call, if_pos hr] using hs
  · have hr : ¬(r[key]? = none ∧ c * 7 / 10 < r.size + 1) := by
      rw [← hs.lookup key hk, ← hs.size, ← hlim]
      rcases hcase with ⟨hsome, -⟩ | ⟨-, hle, -⟩
      · exact fun hc => hsome hc.1
      · exact fun hc => Nat.not_lt.mpr hle hc.2
    refine ⟨m', ?_, ?_⟩
    · simp only [call, hi, RefMap.call, if_neg hr]
      rfl
    · simp only [RefMap.call, if_neg hr]
      refine ⟨hw', hlen.trans hs.length, fun k hk0 => ?_, ?_⟩
      · rw [hlook k hk0, getElem?_insert_if, hs.lookup k hk0]
      · rw [size_insert_if, ← hs.lookup key hk, ← hs.size]
        rcases hcase with ⟨hsome, hsz⟩ | ⟨hnone, -, hsz⟩
        · rw [if_pos (Option.isSome_iff_ne_none.mpr hsome), hsz]
        · rw [hnone, hsz]
          rfl

theorem Sim.erase (hs : Sim h c m r) {key : OrderId} (hk : key ≠ kEmpty) :
    ∃ m', m.call h (.erase key) = some (m', (RefMap.call (c * 7 / 10) r (.erase key)).2) ∧
      Sim h c m' (RefMap.call (c * 7 / 10) r (.erase key)).1 := by
  have hlk := hs.lookup key hk
  rcases hs.wf.erase_spec hk with ⟨hnone, he⟩ | ⟨hsome, m', he, hw', hlen, hsz, hlook⟩
  · rw [hlk] at hnone
    refine ⟨m, by simp [call, he, RefMap.call, hnone], hs.wf, hs.length, fun k hk0 => ?_, ?_⟩
    · simp only [RefMap.call, getElem?_erase_if]
      split
      · rename_i hkk
        rw [hkk, hlk, hnone]
      · exact hs.lookup k hk0
    · simp only [RefMap.call, size_erase_if, hnone]
      exact hs.size
  · rw [hlk] at hsome
    refine ⟨m', ?_, hw', hlen.trans hs.length, fun k hk0 => ?_, ?_⟩
    · have hsome' : r[key]?.isSome = true := Option.isSome_iff_ne_none.mpr hsome
      simp [call, he, RefMap.call, hsome']
    · simp only [RefMap.call, getElem?_erase_if, hlook k hk0, hs.lookup k hk0]
    · simp only [RefMap.call, size_erase_if, Option.isSome_iff_ne_none.mpr hsome, if_true,
        ← hs.size]
      omega

theorem Sim.call (hs : Sim h c m r) (x : Call V) (hx : x.NonZero) :
    ∃ m', m.call h x = some (m', (RefMap.call (c * 7 / 10) r x).2) ∧
      Sim h c m' (RefMap.call (c * 7 / 10) r x).1 := by
  cases x with
  | find key =>
    refine ⟨m, ?_, hs⟩
    simp only [OpenHashMap.call, hs.wf.find_spec hx, hs.lookup key hx, RefMap.call]
    rfl
  | insert key v => exact hs.insert hx v
  | erase key => exact hs.erase hx
  | clear =>
    obtain ⟨hw', hlen, hsz, hlook⟩ := hs.wf.clear
    refine ⟨m.clear, rfl, hw', hlen.trans hs.length, fun k hk0 => ?_, ?_⟩
    · rw [hlook k hk0]
      rfl
    · rw [hsz]
      rfl

theorem Sim.run (calls : List (Call V)) (hc : ∀ x ∈ calls, x.NonZero) (hs : Sim h c m r) :
    ∃ m', OpenHashMap.run h m calls = some (m', (RefMap.run (c * 7 / 10) r calls).2) ∧
      Sim h c m' (RefMap.run (c * 7 / 10) r calls).1 := by
  induction calls generalizing m r with
  | nil => exact ⟨m, rfl, hs⟩
  | cons x xs ih =>
    obtain ⟨m1, h1, hs1⟩ := hs.call x (hc x (List.mem_cons_self ..))
    obtain ⟨m2, h2, hs2⟩ := ih (fun y hy => hc y (List.mem_cons_of_mem _ hy)) hs1
    refine ⟨m2, ?_, hs2⟩
    simp only [OpenHashMap.run, h1, h2, Option.bind_eq_bind, Option.bind_some, RefMap.run]
    rfl

theorem Sim.make [Inhabited V] {c : ℕ} {m : OpenHashMap V} (hm : make c = some m) :
    Sim h c m (∅ : RefMap V) := by
  obtain ⟨hw, hlen, hsz, hlook⟩ := WF.make (h := h) hm
  refine ⟨hw, hlen, fun k hk0 => ?_, ?_⟩
  · rw [hlook k hk0]
    rfl
  · rw [hsz]
    rfl

/-- Every call of every run with non-zero keys returns, and the replies are
those of a finite map with at most `⌊7c/10⌋` keys. -/
theorem table_is_finite_map [Inhabited V] (h : OrderId → OrderId) (c : ℕ) (m : OpenHashMap V)
    (hm : make c = some m) (calls : List (Call V)) (hc : ∀ x ∈ calls, x.NonZero) :
    ∃ m' r replies, run h m calls = some (m', replies) ∧
      RefMap.run (c * 7 / 10) ∅ calls = (r, replies) ∧
      m'.size = r.size ∧ r.size ≤ c * 7 / 10 ∧
      (∀ k ≠ kEmpty, m'.find h k = some r[k]?) ∧
      ∀ k ≠ kEmpty, ∀ v,
        (m'.insert h k v = some (m', false) ↔ r[k]? = none ∧ c * 7 / 10 < r.size + 1) := by
  obtain ⟨m', hrun, hs⟩ := Sim.run calls hc (Sim.make (h := h) hm)
  refine ⟨m', _, _, hrun, rfl, hs.size, ?_, fun k hk => ?_, fun k hk v => ?_⟩
  · rw [← hs.size, ← hs.limit]
    exact hs.wf.load
  · rw [hs.wf.find_spec hk, hs.lookup k hk]
  · rw [← hs.lookup k hk, ← hs.size, ← hs.limit]
    rcases hs.wf.insert_spec hk v with ⟨hnone, hfull, hi⟩ | ⟨m2, hi, -, -, -, hcase⟩
    · exact ⟨fun _ => ⟨hnone, hfull⟩, fun _ => hi⟩
    · constructor
      · intro hf
        rw [hi] at hf
        cases hf
      · rintro ⟨hnone, hfull⟩
        rcases hcase with ⟨hsome, -⟩ | ⟨-, hle, -⟩
        · exact absurd hnone hsome
        · omega

theorem table_is_finite_map_two : ∃ m' r replies,
    run (fun k => k) ⟨[⟨0, 0⟩, ⟨0, 0⟩], 1, 0⟩ [.insert 4 (7 : ℕ), .insert 6 8, .find 4, .erase 4] =
      some (m', replies) ∧
    RefMap.run (2 * 7 / 10) ∅ [.insert 4 7, .insert 6 8, .find 4, .erase 4] = (r, replies) ∧
    m'.size = r.size ∧ r.size ≤ 2 * 7 / 10 ∧
    (∀ k ≠ kEmpty, m'.find (fun k => k) k = some r[k]?) ∧
    ∀ k ≠ kEmpty, ∀ v,
      (m'.insert (fun k => k) k v = some (m', false) ↔ r[k]? = none ∧ 2 * 7 / 10 < r.size + 1) :=
  table_is_finite_map (fun k => k) 2 _ rfl _ (by simp [Call.NonZero, kEmpty])

end Hotpath.OpenHashMap
