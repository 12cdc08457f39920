import Hotpath.Core.OpenHashSpec

/-!
# Values do not steer the hash table

Which slots an operation reads and writes depends on the keys alone, so two
tables with the same keys stay so under the same operations, and a function of
the values commutes with all of them.
-/

namespace Hotpath.OpenHashMap

variable {V W : Type} (f : V → W) {h : OrderId → OrderId}

def Slot.map (s : Slot V) : Slot W := ⟨s.key, f s.value⟩

def mapValues (m : OpenHashMap V) : OpenHashMap W := ⟨m.slots.map (Slot.map f), m.mask, m.size⟩

@[simp] theorem mapValues_size (m : OpenHashMap V) : (m.mapValues f).size = m.size := rfl

theorem slot_mapValues (m : OpenHashMap V) (i : ℕ) :
    (m.mapValues f).slots[i]? = (m.slots[i]?).map (Slot.map f) :=
  List.getElem?_map ..

theorem probe_mapValues (m : OpenHashMap V) (key : OrderId) (n i : ℕ) :
    (m.mapValues f).probe key n i = m.probe key n i := by
  induction n generalizing i with
  | zero => rfl
  | succ n ih =>
    simp only [probe, slot_mapValues, Option.bind_eq_bind]
    cases m.slots[i]? with
    | none => rfl
    | some s =>
      show (if s.key = key ∨ s.key = kEmpty then some i else _) =
        if s.key = key ∨ s.key = kEmpty then some i else _
      congr 1
      exact ih _

theorem probe_start (m : OpenHashMap V) (key : OrderId) :
    (m.mapValues f).probe key (m.mapValues f).slots.length ((m.mapValues f).start h key) =
      m.probe key m.slots.length (m.start h key) := by
  rw [probe_mapValues]
  congr 1
  exact List.length_map _

theorem find_mapValues (m : OpenHashMap V) (key : OrderId) :
    (m.mapValues f).find h key = (m.find h key).map (Option.map f) := by
  simp only [find, probe_start, Option.bind_eq_bind]
  cases m.probe key m.slots.length (m.start h key) with
  | none => rfl
  | some i =>
    simp only [Option.bind_some, slot_mapValues]
    cases m.slots[i]? with
    | none => rfl
    | some s =>
      show some (if s.key = key then some (f s.value) else none) = _
      split <;> simp_all

theorem set_mapValues (m : OpenHashMap V) (i : ℕ) (s : Slot V) :
    (m.mapValues f).slots.set i (Slot.map f s) = (m.slots.set i s).map (Slot.map f) :=
  (List.map_set ..).symm

theorem write_mapValues (m : OpenHashMap V) (key : OrderId) (v : V) :
    (m.mapValues f).write h key (f v) = (m.write h key v).map (mapValues f) := by
  simp only [write, probe_start, Option.bind_eq_bind]
  cases m.probe key m.slots.length (m.start h key) with
  | none => rfl
  | some i =>
    simp only [Option.bind_some, slot_mapValues]
    cases m.slots[i]? with
    | none => rfl
    | some s =>
      show some (if s.key = key then { m.mapValues f with
        slots := (m.mapValues f).slots.set i (Slot.map f ⟨s.key, v⟩) } else m.mapValues f) = _
      rw [set_mapValues]
      by_cases hk : s.key = key
      · simp only [Option.bind_some, if_pos hk]
        rfl
      · simp only [Option.bind_some, if_neg hk]
        rfl

theorem insert_mapValues (m : OpenHashMap V) (key : OrderId) (v : V) :
    (m.mapValues f).insert h key (f v) =
      (m.insert h key v).map fun x => (x.1.mapValues f, x.2) := by
  simp only [insert, probe_start, Option.bind_eq_bind]
  cases m.probe key m.slots.length (m.start h key) with
  | none => rfl
  | some i =>
    simp only [Option.bind_some, slot_mapValues]
    cases m.slots[i]? with
    | none => rfl
    | some s =>
      have hset := set_mapValues f m i ⟨key, v⟩
      have hlimit : (m.mapValues f).limit = m.limit := by
        rw [limit, limit]
        congr 2
        exact List.length_map _
      simp only [Option.map_some, Option.bind_some, hlimit, mapValues_size]
      by_cases hk : s.key = key
      · have hk' : (Slot.map f s).key = key := hk
        rw [if_pos hk, if_pos hk']
        exact congrArg (fun l => some ((⟨l, m.mask, m.size⟩ : OpenHashMap W), true)) hset
      · have hk' : ¬(Slot.map f s).key = key := hk
        rw [if_neg hk, if_neg hk']
        by_cases hfull : (m.size + 1) % 2 ^ 64 > m.limit
        · rw [if_pos hfull, if_pos hfull]
          rfl
        · rw [if_neg hfull, if_neg hfull]
          exact congrArg (fun l =>
            some ((⟨l, m.mask, (m.size + 1) % 2 ^ 64⟩ : OpenHashMap W), true)) hset

theorem shift_mapValues (mask n : ℕ) (slots : List (Slot V)) (i j : ℕ) :
    shift h mask n (slots.map (Slot.map f)) i j =
      (shift h mask n slots i j).map fun x => (x.1.map (Slot.map f), x.2) := by
  induction n generalizing slots i j with
  | zero => rfl
  | succ n ih =>
    simp only [shift, List.getElem?_map, Option.bind_eq_bind]
    cases slots[(j + 1) &&& mask]? with
    | none => rfl
    | some s =>
      simp only [Option.map_some, Option.bind_some]
      have hkey : (Slot.map f s).key = s.key := rfl
      rw [hkey]
      by_cases he : s.key = kEmpty
      · rw [if_pos he, if_pos he]
        rfl
      · rw [if_neg he, if_neg he]
        have hset : (slots.map (Slot.map f)).set i (Slot.map f s) =
            (slots.set i s).map (Slot.map f) := (List.map_set ..).symm
        rw [hset]
        split
        · split
          · exact ih slots i _
          · exact ih (slots.set i s) _ _
        · split
          · exact ih slots i _
          · exact ih (slots.set i s) _ _

theorem erase_mapValues (m : OpenHashMap V) (key : OrderId) :
    (m.mapValues f).erase h key = (m.erase h key).map fun x => (x.1.mapValues f, x.2) := by
  simp only [erase, probe_start, Option.bind_eq_bind]
  cases m.probe key m.slots.length (m.start h key) with
  | none => rfl
  | some i =>
    simp only [Option.bind_some, slot_mapValues]
    cases m.slots[i]? with
    | none => rfl
    | some s =>
      have hlen : (m.mapValues f).slots.length = m.slots.length := List.length_map _
      have hkey : (Slot.map f s).key = s.key := rfl
      simp only [Option.map_some, Option.bind_some, hkey]
      by_cases hk : s.key ≠ key
      · rw [if_pos hk, if_pos hk]
        rfl
      · rw [if_neg hk, if_neg hk, hlen]
        show (shift h m.mask m.slots.length (m.slots.map (Slot.map f)) i i).bind _ = _
        rw [shift_mapValues]
        cases shift h m.mask m.slots.length m.slots i i with
        | none => rfl
        | some x =>
          obtain ⟨slots, i'⟩ := x
          simp only [Option.map_some, Option.bind_some, List.getElem?_map]
          cases slots[i']? with
          | none => rfl
          | some s' =>
            have hset : (slots.map (Slot.map f)).set i' (Slot.map f { s' with key := kEmpty }) =
                (slots.set i' { s' with key := kEmpty }).map (Slot.map f) :=
              (List.map_set ..).symm
            exact congrArg (fun l =>
              some ((⟨l, m.mask, (m.size + (2 ^ 64 - 1)) % 2 ^ 64⟩ : OpenHashMap W), true)) hset

theorem make_mapValues [Inhabited V] [Inhabited W] (hf : f default = default) (n : ℕ) :
    (make n : Option (OpenHashMap W)) = (make n : Option (OpenHashMap V)).map (mapValues f) := by
  unfold make
  split
  · rfl
  · split
    · rfl
    · rw [Option.map_some, mapValues, List.map_replicate]
      show _ = some (OpenHashMap.mk (List.replicate n ⟨kEmpty, f default⟩) _ _)
      rw [hf]

/-! ### Every value came from a write -/

section All
variable {P : V → Prop} {m m' : OpenHashMap V} {key : OrderId} {v : V}

def All (P : V → Prop) (m : OpenHashMap V) : Prop := ∀ s ∈ m.slots, P s.value

theorem All.make [Inhabited V] {n : ℕ} (hp : P default) (hm : OpenHashMap.make n = some m) :
    All P m := by
  obtain ⟨-, -, rfl⟩ := make_eq_some.mp hm
  intro s hs
  rw [List.eq_of_mem_replicate hs]
  exact hp

theorem All.set {slots : List (Slot V)} {i : ℕ} {s : Slot V} (ha : ∀ x ∈ slots, P x.value)
    (hs : P s.value) : ∀ x ∈ slots.set i s, P x.value := by
  intro x hx
  cases List.mem_or_eq_of_mem_set hx with
  | inl hmem => exact ha x hmem
  | inr heq => exact heq ▸ hs

theorem All.find (ha : All P m) (hf : m.find h key = some (some v)) : P v := by
  simp only [OpenHashMap.find, Option.bind_eq_bind, Option.bind_eq_some_iff] at hf
  obtain ⟨i, -, s, hs, hv⟩ := hf
  have hval : s.value = v := by
    split at hv
    · exact Option.some.inj (Option.some.inj hv)
    · cases hv
  exact hval ▸ ha s (List.mem_of_getElem? hs)

theorem All.write (ha : All P m) (hp : P v) (hw : m.write h key v = some m') : All P m' := by
  simp only [OpenHashMap.write, Option.bind_eq_bind, Option.bind_eq_some_iff] at hw
  obtain ⟨i, -, s, hs, hm⟩ := hw
  cases Option.some.inj hm
  split
  · exact All.set ha hp
  · exact ha

theorem All.insert {ok : Bool} (ha : All P m) (hp : P v)
    (hi : m.insert h key v = some (m', ok)) : All P m' := by
  simp only [OpenHashMap.insert, Option.bind_eq_bind, Option.bind_eq_some_iff] at hi
  obtain ⟨i, -, s, hs, hm⟩ := hi
  split at hm
  · cases hm
    exact All.set ha hp
  · split at hm
    · cases hm
      exact ha
    · cases hm
      exact All.set ha hp

theorem All.shift {mask n i j i' : ℕ} {slots slots' : List (Slot V)}
    (ha : ∀ x ∈ slots, P x.value) (hs : shift h mask n slots i j = some (slots', i')) :
    ∀ x ∈ slots', P x.value := by
  induction n generalizing slots i j with
  | zero => cases hs
  | succ n ih =>
    simp only [OpenHashMap.shift, Option.bind_eq_bind, Option.bind_eq_some_iff] at hs
    obtain ⟨s, hget, hm⟩ := hs
    have hset := All.set (i := i) ha (ha s (List.mem_of_getElem? hget))
    split at hm
    · cases hm
      exact ha
    · split at hm
      · split at hm
        · exact ih ha hm
        · exact ih hset hm
      · split at hm
        · exact ih ha hm
        · exact ih hset hm

theorem All.erase {ok : Bool} (ha : All P m) (he : m.erase h key = some (m', ok)) : All P m' := by
  simp only [OpenHashMap.erase, Option.bind_eq_bind, Option.bind_eq_some_iff] at he
  obtain ⟨i, -, s, -, hm⟩ := he
  split at hm
  · cases hm
    exact ha
  · obtain ⟨⟨slots, i'⟩, hshift, hm⟩ := Option.bind_eq_some_iff.mp hm
    obtain ⟨s', hs', hm⟩ := Option.bind_eq_some_iff.mp hm
    have hslots := All.shift ha hshift
    cases hm
    exact All.set hslots (hslots s' (List.mem_of_getElem? hs'))

end All

/-! ### Sizes, whatever the table holds -/

section Sizes
variable {m m' : OpenHashMap V} {key : OrderId} {v w : V} {ok : Bool}

theorem write_unit {m m' : OpenHashMap Unit} (hw : m.write h key () = some m') : m' = m := by
  simp only [OpenHashMap.write, Option.bind_eq_bind, Option.bind_eq_some_iff] at hw
  obtain ⟨i, -, s, hs, hm⟩ := hw
  cases Option.some.inj hm
  split
  · have hset : m.slots.set i s = m.slots := by
      obtain ⟨hi, rfl⟩ := List.getElem?_eq_some_iff.mp hs
      exact List.set_getElem_self hi
    exact congrArg (fun l => (⟨l, m.mask, m.size⟩ : OpenHashMap Unit)) hset
  · rfl

/-- A write leaves the size as it was, and the keys that are found. -/
theorem find_write (hw : m.write h key w = some m') (k : OrderId) :
    m'.size = m.size ∧ (m'.find h k).map Option.isSome = (m.find h k).map Option.isSome := by
  have hwrite := write_mapValues (h := h) (fun _ => ()) m key w
  rw [hw, Option.map_some] at hwrite
  have hsame := write_unit hwrite
  have hsize := congrArg OpenHashMap.size hsame
  have hfind := find_mapValues (h := h) (fun _ => ()) m k
  rw [← hsame, find_mapValues] at hfind
  have hsome := congrArg (Option.map Option.isSome) hfind
  simp only [Option.map_map, Function.comp_def, Option.isSome_map] at hsome
  exact ⟨hsize, hsome⟩

theorem erase_size (hf : (m.find h key).map Option.isSome = some true)
    (he : m.erase h key = some (m', ok)) : m'.size = (m.size + (2 ^ 64 - 1)) % 2 ^ 64 := by
  simp only [OpenHashMap.find, Option.bind_eq_bind, Option.map_eq_some_iff,
    Option.bind_eq_some_iff] at hf
  obtain ⟨o, ⟨i, hi, s, hs, ho⟩, hsome⟩ := hf
  have hkey : s.key = key := by
    by_contra hne
    rw [if_neg hne] at ho
    cases ho
    cases hsome
  simp only [OpenHashMap.erase, hi, hs, Option.bind_eq_bind, Option.bind_some,
    if_neg (not_not.mpr hkey), Option.bind_eq_some_iff] at he
  obtain ⟨x, -, s', -, hm⟩ := he
  cases hm
  rfl

/-- Only a key that is found is erased. -/
theorem find_of_erase (he : m.erase h key = some (m', true)) :
    ∃ v, m.find h key = some (some v) := by
  simp only [OpenHashMap.erase, Option.bind_eq_bind, Option.bind_eq_some_iff] at he
  obtain ⟨i, hi, s, hs, hm⟩ := he
  split at hm
  · cases hm
  · rename_i hkey
    refine ⟨s.value, ?_⟩
    simp only [OpenHashMap.find, hi, hs, Option.bind_eq_bind, Option.bind_some,
      if_pos (not_not.mp hkey)]
    rfl

theorem insert_size (hlt : m.size < 2 ^ 64) (hi : m.insert h key v = some (m', ok)) :
    m'.size < 2 ^ 64 := by
  simp only [OpenHashMap.insert, Option.bind_eq_bind, Option.bind_eq_some_iff] at hi
  obtain ⟨i, -, s, -, hm⟩ := hi
  have hmod : (m.size + 1) % 2 ^ 64 < 2 ^ 64 := Nat.mod_lt _ (by decide)
  split at hm
  · cases hm
    exact hlt
  · split at hm
    · cases hm
      exact hlt
    · cases hm
      exact hmod

theorem erase_size_lt (hlt : m.size < 2 ^ 64) (he : m.erase h key = some (m', ok)) :
    m'.size < 2 ^ 64 := by
  simp only [OpenHashMap.erase, Option.bind_eq_bind, Option.bind_eq_some_iff] at he
  obtain ⟨i, -, s, -, hm⟩ := he
  split at hm
  · cases hm
    exact hlt
  · obtain ⟨x, -, hm⟩ := Option.bind_eq_some_iff.mp hm
    obtain ⟨s', -, hm⟩ := Option.bind_eq_some_iff.mp hm
    cases hm
    exact Nat.mod_lt _ (by decide)

end Sizes

end Hotpath.OpenHashMap
