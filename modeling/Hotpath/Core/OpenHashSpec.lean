import Hotpath.Support.Cyclic
import Hotpath.Core.OpenHash

/-!
# The open-addressing table is a finite map (core/open_hash.hpp)

`WF` is the invariant of every table built by `make` and used with non-zero
keys. `find`, `insert` and `erase` are then described by `lookup`, the value
stored under a key, without mention of slots.
-/

namespace Hotpath.OpenHashMap
open Hotpath.Support

variable {V : Type} {h : OrderId → OrderId}

/-! ### Positions -/

/-- The key at a position, if the position is occupied. -/
def occ (slots : List (Slot V)) (p : ℕ) : Option OrderId :=
  slots[p]?.bind fun s => if s.key = kEmpty then none else some s.key

theorem occ_eq_some {slots : List (Slot V)} {p : ℕ} {k : OrderId} :
    occ slots p = some k ↔ ∃ v, slots[p]? = some ⟨k, v⟩ ∧ k ≠ kEmpty := by
  unfold occ
  cases hs : slots[p]? with
  | none => simp
  | some s =>
    obtain ⟨k', v⟩ := s
    simp only [Option.bind_some, Option.some.injEq, Slot.mk.injEq]
    split
    · rename_i he
      simp only [reduceCtorEq, false_iff, not_exists, not_and, not_not]
      rintro x ⟨rfl, rfl⟩
      exact he
    · rename_i he
      simp only [Option.some.injEq]
      constructor
      · rintro rfl
        exact ⟨v, ⟨rfl, rfl⟩, he⟩
      · rintro ⟨x, ⟨rfl, rfl⟩, -⟩
        rfl

theorem occ_eq_none {slots : List (Slot V)} {p : ℕ} {s : Slot V} (hs : slots[p]? = some s) :
    occ slots p = none ↔ s.key = kEmpty := by
  unfold occ
  rw [hs]
  simp only [Option.bind_some]
  split <;> simp_all

theorem occ_of_key {slots : List (Slot V)} {p : ℕ} {s : Slot V} (hs : slots[p]? = some s)
    (hk : s.key ≠ kEmpty) : occ slots p = some s.key := by
  simp [occ, hs, hk]

theorem occ_set {slots : List (Slot V)} {p : ℕ} (hp : p < slots.length) (s : Slot V) :
    occ (slots.set p s) =
      Function.update (occ slots) p (if s.key = kEmpty then none else some s.key) := by
  funext q
  by_cases hq : q = p
  · subst hq
    simp [occ, hp]
  · rw [Function.update_of_ne hq]
    simp [occ, List.getElem?_set_ne (Ne.symm hq)]

/-- Home slot of a key in a table of `c` slots. -/
def home (h : OrderId → OrderId) (c : ℕ) (k : OrderId) : ℕ := (h k).toNat &&& (c - 1)

theorem home_lt {c : ℕ} (hc : 0 < c) (k : OrderId) : home h c k < c := by
  have hle : (h k).toNat &&& (c - 1) ≤ c - 1 := Nat.and_le_right
  unfold home
  omega

theorem mask_succ {c i : ℕ} (hp : ∃ k, c = 2 ^ k) (hi : i < c) :
    (i + 1) &&& (c - 1) = succ c i := by
  obtain ⟨k, rfl⟩ := hp
  rw [Nat.and_two_pow_sub_one_eq_mod]
  unfold succ
  split
  · rename_i he
    rw [he, Nat.mod_self]
  · exact Nat.mod_eq_of_lt (by omega)

def occupied (slots : List (Slot V)) : ℕ :=
  ((Finset.range slots.length).filter fun p => occ slots p ≠ none).card

/-! ### The invariant -/

structure WF (h : OrderId → OrderId) (m : OpenHashMap V) : Prop where
  pow : ∃ k, m.slots.length = 2 ^ k
  small : m.slots.length ≤ maxSize
  mask : m.mask = m.slots.length - 1
  reach : Reach m.slots.length (home h m.slots.length) (occ m.slots)
  distinct : Distinct m.slots.length (occ m.slots)
  size : m.size = occupied m.slots
  load : m.size ≤ m.limit

/-- The value stored under a key. -/
def lookup (m : OpenHashMap V) (key : OrderId) : Option V :=
  (m.slots.find? fun s => s.key = key).map Slot.value

theorem WF.length_pos {m : OpenHashMap V} (hw : WF h m) : 0 < m.slots.length := by
  obtain ⟨k, hk⟩ := hw.pow
  rw [hk]
  exact Nat.two_pow_pos k

theorem WF.lookup_eq_some {m : OpenHashMap V} (hw : WF h m) {k : OrderId} (hk : k ≠ kEmpty)
    {v : V} : lookup m k = some v ↔ ∃ p : ℕ, m.slots[p]? = some ⟨k, v⟩ := by
  constructor
  · intro hl
    simp only [lookup, Option.map_eq_some_iff] at hl
    obtain ⟨s, hs, rfl⟩ := hl
    have hkey : s.key = k := by simpa using List.find?_some hs
    obtain ⟨p, hp⟩ := List.mem_iff_getElem?.mp (List.mem_of_find?_eq_some hs)
    exact ⟨p, by rw [hp, ← hkey]⟩
  · rintro ⟨p, hp⟩
    simp only [lookup, Option.map_eq_some_iff]
    cases hf : m.slots.find? fun s => s.key = k with
    | none =>
      have hall := List.find?_eq_none.mp hf _ (List.mem_of_getElem? hp)
      simp at hall
    | some s =>
      refine ⟨s, rfl, ?_⟩
      have hkey : s.key = k := by simpa using List.find?_some hf
      obtain ⟨q, hq⟩ := List.mem_iff_getElem?.mp (List.mem_of_find?_eq_some hf)
      have hoq : occ m.slots q = some k := occ_eq_some.mpr ⟨s.value, by rw [hq, ← hkey], hk⟩
      have hop : occ m.slots p = some k := occ_eq_some.mpr ⟨v, hp, hk⟩
      have hlt := (List.getElem?_eq_some_iff.mp hq).1
      have hlt' := (List.getElem?_eq_some_iff.mp hp).1
      have heq := hw.distinct q hlt p hlt' k hoq hop
      subst heq
      rw [hp] at hq
      cases hq
      rfl

theorem WF.exists_empty {m : OpenHashMap V} (hw : WF h m) :
    ∃ p < m.slots.length, occ m.slots p = none := by
  by_contra hne
  have hall : ∀ p < m.slots.length, occ m.slots p ≠ none := by
    intro p hp he
    exact hne ⟨p, hp, he⟩
  have hfull : occupied m.slots = m.slots.length := by
    unfold occupied
    rw [Finset.filter_true_of_mem fun p hp => hall p (Finset.mem_range.mp hp)]
    exact Finset.card_range _
  have hl := hw.load
  have hs := hw.size
  have hc := hw.length_pos
  unfold limit at hl
  omega

/-! ### New and cleared tables -/

theorem make_eq_some [Inhabited V] {c : ℕ} {m : OpenHashMap V} :
    make c = some m ↔ c ≤ maxSize ∧ (∃ k, c = 2 ^ k) ∧
      m = ⟨List.replicate c ⟨kEmpty, default⟩, c - 1, 0⟩ := by
  have hpow : (¬(c = 0 ∨ c &&& (c - 1) ≠ 0)) ↔ ∃ k, c = 2 ^ k := by
    rw [← Nat.isPowerOfTwo, ← Nat.ne_zero_and_sub_one_eq_zero_iff_isPowerOfTwo]
    tauto
  unfold make
  by_cases hc : maxSize < c
  · rw [if_pos hc]
    simp only [reduceCtorEq, false_iff, not_and]
    intro hle
    omega
  · rw [if_neg hc]
    by_cases hp : c = 0 ∨ c &&& (c - 1) ≠ 0
    · rw [if_pos hp]
      simp only [reduceCtorEq, false_iff, not_and]
      exact fun _ hk => absurd hp (hpow.mpr hk)
    · rw [if_neg hp]
      simp only [Option.some.injEq, Nat.not_lt.mp hc, hpow.mp hp, true_and]
      exact eq_comm

theorem wf_of_no_keys {m : OpenHashMap V} (hpow : ∃ k, m.slots.length = 2 ^ k)
    (hsmall : m.slots.length ≤ maxSize) (hmask : m.mask = m.slots.length - 1)
    (hnone : ∀ p, occ m.slots p = none) (hsize : m.size = 0) : WF h m where
  pow := hpow
  small := hsmall
  mask := hmask
  reach := fun p _ k hk => by simp [hnone p] at hk
  distinct := fun p _ q _ k hk => by simp [hnone p] at hk
  size := by simp [occupied, hnone, hsize]
  load := by omega

theorem lookup_of_no_keys {m : OpenHashMap V} (hnone : ∀ p, occ m.slots p = none) {k : OrderId}
    (hk : k ≠ kEmpty) : lookup m k = none := by
  simp only [lookup, Option.map_eq_none_iff, List.find?_eq_none, decide_eq_true_eq]
  intro s hs he
  obtain ⟨p, hp⟩ := List.mem_iff_getElem?.mp hs
  have hocc := occ_of_key hp (he ▸ hk)
  rw [hnone p] at hocc
  cases hocc

theorem WF.make [Inhabited V] {c : ℕ} {m : OpenHashMap V} (hm : make c = some m) : WF h m ∧
    m.slots.length = c ∧ m.size = 0 ∧ ∀ k ≠ kEmpty, lookup m k = none := by
  obtain ⟨hc, hpow, rfl⟩ := make_eq_some.mp hm
  have hlen : (List.replicate c (⟨kEmpty, default⟩ : Slot V)).length = c := List.length_replicate
  have hnone : ∀ p, occ (List.replicate c (⟨kEmpty, default⟩ : Slot V)) p = none := by
    intro p
    unfold occ
    rw [List.getElem?_replicate]
    split <;> simp
  refine ⟨wf_of_no_keys ?_ ?_ ?_ hnone rfl, hlen, rfl, fun k hk => lookup_of_no_keys hnone hk⟩
  · simpa only [hlen] using hpow
  · simpa only [hlen] using hc
  · simp only [hlen]

theorem WF.clear {m : OpenHashMap V} (hw : WF h m) : WF h m.clear ∧
    m.clear.slots.length = m.slots.length ∧ m.clear.size = 0 ∧
      ∀ k ≠ kEmpty, lookup m.clear k = none := by
  have hlen : m.clear.slots.length = m.slots.length := List.length_map _
  have hnone : ∀ p, occ m.clear.slots p = none := by
    intro p
    unfold occ
    simp only [OpenHashMap.clear, List.getElem?_map]
    cases m.slots[p]? <;> simp
  refine ⟨wf_of_no_keys ?_ ?_ ?_ hnone rfl, hlen, rfl, fun k hk => lookup_of_no_keys hnone hk⟩
  · rw [hlen]
    exact hw.pow
  · rw [hlen]
    exact hw.small
  · rw [hlen]
    exact hw.mask

/-! ### The probe loop -/

/-- Where a probe for `key` stops. -/
def stops (slots : List (Slot V)) (key : OrderId) (p : ℕ) : Bool :=
  occ slots p = none ∨ occ slots p = some key

theorem probe_eq_walk (m : OpenHashMap V) (hp : ∃ k, m.slots.length = 2 ^ k)
    (hm : m.mask = m.slots.length - 1) {key : OrderId} (hk : key ≠ kEmpty) (n i : ℕ)
    (hi : i < m.slots.length) :
    m.probe key n i = walk m.slots.length (stops m.slots key) n i := by
  induction n generalizing i with
  | zero => rfl
  | succ n ih =>
    obtain ⟨s, hs⟩ : ∃ s, m.slots[i]? = some s := ⟨m.slots[i], List.getElem?_eq_getElem hi⟩
    have hstop : stops m.slots key i = true ↔ s.key = key ∨ s.key = kEmpty := by
      simp only [stops, decide_eq_true_eq, occ_eq_none hs, occ_eq_some, hs]
      obtain ⟨k', v⟩ := s
      simp only [Option.some.injEq, Slot.mk.injEq]
      constructor
      · rintro (he | ⟨x, ⟨rfl, -⟩, -⟩)
        · exact Or.inr he
        · exact Or.inl rfl
      · rintro (rfl | he)
        · exact Or.inr ⟨v, ⟨rfl, rfl⟩, hk⟩
        · exact Or.inl he
    simp only [probe, hs, Option.bind_eq_bind, Option.bind_some, walk]
    by_cases hc : s.key = key ∨ s.key = kEmpty
    · rw [if_pos hc, if_pos (hstop.mpr hc)]
      rfl
    · rw [if_neg hc, if_neg fun ht => hc (hstop.mp ht), hm, mask_succ hp hi]
      exact ih _ (succ_lt hi)

/-- The probe ends, and it ends either on the slot holding the key or, when no
slot holds it, on the first empty slot from the key's home. -/
theorem WF.probe_spec {m : OpenHashMap V} (hw : WF h m) {key : OrderId} (hk : key ≠ kEmpty) :
    ∃ p s, m.probe key m.slots.length (m.start h key) = some p ∧ m.slots[p]? = some s ∧
      ((s.key = key ∧ lookup m key = some s.value) ∨
       (s.key = kEmpty ∧ lookup m key = none ∧
        ∀ q < m.slots.length, fwd m.slots.length (home h m.slots.length key) q <
          fwd m.slots.length (home h m.slots.length key) p → occ m.slots q ≠ none)) := by
  have hc := hw.length_pos
  have hstart : m.start h key = home h m.slots.length key := by
    simp only [start, home, hw.mask]
  have hi := home_lt (h := h) hc key
  obtain ⟨e, he, hempty⟩ := hw.exists_empty
  have hse : stops m.slots key e = true := by simp [stops, hempty]
  obtain ⟨p, hp⟩ := walk_returns hi he hse (fwd_lt hi he)
  rw [hstart, probe_eq_walk m hw.pow hw.mask hk _ _ hi]
  obtain ⟨hpc, hstop, hbefore⟩ := walk_spec hi hp
  have hnostop : ∀ q < m.slots.length, fwd m.slots.length (home h m.slots.length key) q <
      fwd m.slots.length (home h m.slots.length key) p →
      occ m.slots q ≠ none ∧ occ m.slots q ≠ some key := by
    intro q hq hlt
    have hf := hbefore q hq hlt
    simpa [stops] using hf
  refine ⟨p, m.slots[p], hp, List.getElem?_eq_getElem hpc, ?_⟩
  have hget : m.slots[p]? = some m.slots[p] := List.getElem?_eq_getElem hpc
  simp only [stops, decide_eq_true_eq] at hstop
  rcases hstop with hnone | hsome
  · refine Or.inr ⟨(occ_eq_none hget).mp hnone, ?_, fun q hq hlt => (hnostop q hq hlt).1⟩
    -- a slot holding the key would have stopped the probe, or be unreachable past `p`
    cases hl : lookup m key with
    | none => rfl
    | some v =>
      obtain ⟨r, hr⟩ := (hw.lookup_eq_some hk).mp hl
      have hrc := (List.getElem?_eq_some_iff.mp hr).1
      have hor : occ m.slots r = some key := occ_eq_some.mpr ⟨v, hr, hk⟩
      have hrp : r ≠ p := by
        rintro rfl
        rw [hor] at hnone
        cases hnone
      have hne : fwd m.slots.length (home h m.slots.length key) r ≠
          fwd m.slots.length (home h m.slots.length key) p :=
        fun he => hrp (fwd_inj hi hrc hpc he)
      rcases Nat.lt_or_gt_of_ne hne with hlt | hgt
      · exact absurd hor (hnostop r hrc hlt).2
      · exact absurd hnone (hw.reach r hrc key hor p hpc hgt)
  · obtain ⟨v, hv, -⟩ := occ_eq_some.mp hsome
    refine Or.inl ?_
    have hs : m.slots[p] = ⟨key, v⟩ := by
      rw [hget] at hv
      exact Option.some.inj hv
    rw [hs]
    exact ⟨rfl, (hw.lookup_eq_some hk).mpr ⟨p, hv⟩⟩

theorem WF.find_spec {m : OpenHashMap V} (hw : WF h m) {key : OrderId} (hk : key ≠ kEmpty) :
    m.find h key = some (lookup m key) := by
  obtain ⟨p, s, hp, hs, hcase⟩ := hw.probe_spec hk
  simp only [find, hp, hs, Option.bind_eq_bind, Option.bind_some]
  rcases hcase with ⟨hkey, hl⟩ | ⟨hkey, hl, -⟩
  · rw [if_pos hkey, hl]
    rfl
  · have hne : s.key ≠ key := fun he => hk (he.symm.trans hkey)
    rw [if_neg hne, hl]
    rfl

/-! ### Insertion -/

theorem card_occ_update {c p : ℕ} {f : ℕ → Option OrderId} (hp : p < c) (hf : f p = none)
    (k : OrderId) :
    ((Finset.range c).filter fun q => Function.update f p (some k) q ≠ none).card =
      ((Finset.range c).filter fun q => f q ≠ none).card + 1 := by
  have hset : (Finset.range c).filter (fun q => Function.update f p (some k) q ≠ none) =
      Insert.insert p ((Finset.range c).filter fun q => f q ≠ none) := by
    ext q
    by_cases hq : q = p
    · subst hq
      simp [hp]
    · simp [hq]
  rw [hset, Finset.card_insert_of_notMem]
  simp [hf]

theorem lookup_set {m m' : OpenHashMap V} (hw : WF h m) (hw' : WF h m') {p : ℕ} {s : Slot V}
    (hs : m.slots[p]? = some s) {key : OrderId} (hk : key ≠ kEmpty) {v : V}
    (hslot : s.key = key ∨ s.key = kEmpty) (hset : m'.slots = m.slots.set p ⟨key, v⟩)
    {k : OrderId} (hk0 : k ≠ kEmpty) :
    lookup m' k = if k = key then some v else lookup m k := by
  have hpc := (List.getElem?_eq_some_iff.mp hs).1
  apply Option.ext
  intro w
  rw [hw'.lookup_eq_some hk0, hset]
  by_cases hkk : k = key
  · subst hkk
    have hstored : lookup m' k = some v :=
      (hw'.lookup_eq_some hk).mpr ⟨p, by simp [hset, hpc]⟩
    rw [if_pos rfl, ← hset, ← hw'.lookup_eq_some hk, hstored]
  · rw [if_neg hkk, hw.lookup_eq_some hk0]
    refine exists_congr fun q => ?_
    by_cases hq : q = p
    · subst hq
      simp only [List.getElem?_set_self hpc, hs, Option.some.injEq]
      constructor
      · intro he
        cases he
        exact absurd rfl hkk
      · rintro rfl
        rcases hslot with he | he
        · exact absurd he hkk
        · exact absurd he hk0
    · rw [List.getElem?_set_ne (Ne.symm hq)]

theorem WF.insert_spec {m : OpenHashMap V} (hw : WF h m) {key : OrderId} (hk : key ≠ kEmpty)
    (v : V) :
    (lookup m key = none ∧ m.limit < m.size + 1 ∧ m.insert h key v = some (m, false)) ∨
    (∃ m', m.insert h key v = some (m', true) ∧ WF h m' ∧ m'.slots.length = m.slots.length ∧
      (∀ k ≠ kEmpty, lookup m' k = if k = key then some v else lookup m k) ∧
      ((lookup m key ≠ none ∧ m'.size = m.size) ∨
       (lookup m key = none ∧ m.size + 1 ≤ m.limit ∧ m'.size = m.size + 1))) := by
  obtain ⟨p, s, hp, hs, hcase⟩ := hw.probe_spec hk
  have hpc := (List.getElem?_eq_some_iff.mp hs).1
  have hlen : (m.slots.set p ⟨key, v⟩).length = m.slots.length := List.length_set
  have hocc := occ_set hpc ⟨key, v⟩
  simp only [hk, if_false] at hocc
  have hsmall : m.size + 1 < 2 ^ 64 := by
    have h1 := hw.load
    have h2 := hw.small
    unfold limit at h1
    unfold maxSize at h2
    omega
  simp only [insert, hp, hs, Option.bind_eq_bind, Option.bind_some]
  rcases hcase with ⟨hkey, hl⟩ | ⟨hkey, hl, hfirst⟩
  · -- the key is present: its value is replaced in place
    rw [if_pos hkey]
    have hsame : occ (m.slots.set p ⟨key, v⟩) = occ m.slots := by
      rw [hocc]
      apply Function.update_eq_self_iff.mpr
      rw [occ_of_key hs (hkey ▸ hk), hkey]
    have hw' : WF h { m with slots := m.slots.set p ⟨key, v⟩ } := by
      refine ⟨?_, ?_, ?_, ?_, ?_, ?_, ?_⟩
      · simpa only [hlen] using hw.pow
      · simpa only [hlen] using hw.small
      · simpa only [hlen] using hw.mask
      · simpa only [hlen, hsame] using hw.reach
      · simpa only [hlen, hsame] using hw.distinct
      · simpa only [occupied, hlen, hsame] using hw.size
      · simpa only [limit, hlen] using hw.load
    refine Or.inr ⟨_, rfl, hw', hlen, fun k hk0 => ?_, Or.inl ⟨by rw [hl]; simp, rfl⟩⟩
    exact lookup_set hw hw' hs hk (Or.inl hkey) rfl hk0
  · have hne : s.key ≠ key := fun he => hk (he.symm.trans hkey)
    rw [if_neg hne, Nat.mod_eq_of_lt hsmall]
    by_cases hfull : m.size + 1 > m.limit
    · rw [if_pos hfull]
      exact Or.inl ⟨hl, hfull, rfl⟩
    · rw [if_neg hfull]
      have hfree : occ m.slots p = none := (occ_eq_none hs).mpr hkey
      have hw' : WF h { m with slots := m.slots.set p ⟨key, v⟩, size := m.size + 1 } := by
        refine ⟨?_, ?_, ?_, ?_, ?_, ?_, ?_⟩
        · simpa only [hlen] using hw.pow
        · simpa only [hlen] using hw.small
        · simpa only [hlen] using hw.mask
        · simp only [hlen, hocc]
          exact hw.reach.fill hfirst
        · simp only [hlen, hocc]
          refine hw.distinct.fill fun q hq he => ?_
          obtain ⟨w, hwq, -⟩ := occ_eq_some.mp he
          have hsome := (hw.lookup_eq_some hk).mpr ⟨q, hwq⟩
          rw [hl] at hsome
          cases hsome
        · simp only [occupied, hlen, hocc]
          rw [card_occ_update hpc hfree key, hw.size]
          rfl
        · simpa only [limit, hlen] using Nat.not_lt.mp hfull
      refine Or.inr ⟨_, rfl, hw', hlen, fun k hk0 => ?_,
        Or.inr ⟨hl, Nat.not_lt.mp hfull, rfl⟩⟩
      exact lookup_set hw hw' hs hk (Or.inr hkey) rfl hk0

/-- Writing to a key that is present is the update in place of an insertion. -/
theorem WF.write_spec {m : OpenHashMap V} (hw : WF h m) {key : OrderId} (hk : key ≠ kEmpty)
    (hl : lookup m key ≠ none) (v : V) :
    ∃ m', m.write h key v = some m' ∧ WF h m' ∧ m'.slots.length = m.slots.length ∧
      m'.size = m.size ∧ ∀ k ≠ kEmpty, lookup m' k = if k = key then some v else lookup m k := by
  obtain ⟨p, s, hp, hs, hcase⟩ := hw.probe_spec hk
  cases hcase with
  | inr habsent => exact absurd habsent.2.1 hl
  | inl hfound =>
    obtain ⟨hkey, -⟩ := hfound
    have hwrite : m.write h key v = some { m with slots := m.slots.set p ⟨key, v⟩ } := by
      simp only [write, hp, hs, Option.bind_eq_bind, Option.bind_some, if_pos hkey]
      rw [← hkey]
      rfl
    have hinsert : m.insert h key v = some ({ m with slots := m.slots.set p ⟨key, v⟩ }, true) := by
      simp only [insert, hp, hs, Option.bind_eq_bind, Option.bind_some, if_pos hkey]
      rfl
    rcases hw.insert_spec hk v with ⟨hnone, -, -⟩ | ⟨m', hi, hw', hlen, hlook, hsize⟩
    · exact absurd hnone hl
    · rw [hinsert] at hi
      obtain ⟨rfl, -⟩ := Prod.mk.inj (Option.some.inj hi)
      exact ⟨_, hwrite, hw', hlen, rfl, hlook⟩

/-! ### Deletion -/

theorem inside_iff {c i j k : ℕ} (hi : i < c) (hj : j < c) (hk : k < c) :
    (if i ≤ j then i < k ∧ k ≤ j else i < k ∨ k ≤ j) ↔
      0 < fwd c i k ∧ fwd c i k ≤ fwd c i j := by
  unfold fwd
  split_ifs <;> omega

/-- Table contents with the gap left out. -/
def Kept (slots : List (Slot V)) (gap : ℕ) (k : OrderId) (v : V) : Prop :=
  ∃ q : ℕ, q ≠ gap ∧ slots[q]? = some ⟨k, v⟩

theorem kept_move {slots : List (Slot V)} {i j : ℕ} {s : Slot V} (hi : i < slots.length)
    (hs : slots[j]? = some s) (hne : j ≠ i) (k : OrderId) (v : V) :
    Kept (slots.set i s) j k v ↔ Kept slots i k v := by
  constructor
  · rintro ⟨q, hqj, hq⟩
    by_cases hqi : q = i
    · subst hqi
      rw [List.getElem?_set_self hi] at hq
      exact ⟨j, hne, hs.trans hq⟩
    · rw [List.getElem?_set_ne (Ne.symm hqi)] at hq
      exact ⟨q, hqi, hq⟩
  · rintro ⟨q, hqi, hq⟩
    by_cases hqj : q = j
    · subst hqj
      refine ⟨i, Ne.symm hne, ?_⟩
      rw [List.getElem?_set_self hi, ← hs, hq]
    · exact ⟨q, hqj, by rw [List.getElem?_set_ne (Ne.symm hqi)]; exact hq⟩

/-- The shift ends before it comes round to the gap: an empty slot `e` lies
ahead of it. It keeps every key but the one in the gap. -/
theorem shift_spec {c : ℕ} (hpow : ∃ k, c = 2 ^ k) {e : ℕ} (he : e < c) (n : ℕ)
    (slots : List (Slot V)) (i j : ℕ) (hlen : slots.length = c)
    (hole : Hole c (home h c) (Function.update (occ slots) i none) i j)
    (hdist : Distinct c (Function.update (occ slots) i none))
    (hgap : occ slots i ≠ none) (hscan : occ slots j ≠ none) (hempty : occ slots e = none)
    (hahead : fwd c i j < fwd c i e) (hn : fwd c j e ≤ n) :
    ∃ slots' i', shift h (c - 1) n slots i j = some (slots', i') ∧ slots'.length = c ∧
      i' < c ∧ Reach c (home h c) (Function.update (occ slots') i' none) ∧
      Distinct c (Function.update (occ slots') i' none) ∧ occ slots' i' ≠ none ∧
      (∀ q, occ slots' q = none ↔ occ slots q = none) ∧
      ∀ k v, Kept slots' i' k v ↔ Kept slots i k v := by
  induction n generalizing slots i j with
  | zero =>
    have hje : j = e := fwd_eq_zero hole.scan_lt (by omega)
    exact absurd (hje ▸ hempty) hscan
  | succ n ih =>
    have hi := hole.hole_lt
    have hj := hole.scan_lt
    have hc : 0 < c := by omega
    have hje : j ≠ e := fun hq => hscan (hq ▸ hempty)
    have hstep := fwd_succ hj he hje
    have hs1 := succ_lt hj
    have hback : succ c j ≠ i := by
      intro hq
      have h1 := fwd_lt hi he
      have h2 : fwd c i j + 1 = c := by
        unfold fwd succ at *
        split_ifs at * <;> omega
      omega
    obtain ⟨s, hs⟩ : ∃ s, slots[succ c j]? = some s :=
      ⟨_, List.getElem?_eq_getElem (by omega)⟩
    simp only [shift, mask_succ hpow hj, hs, Option.bind_eq_bind, Option.bind_some]
    by_cases hkey : s.key = kEmpty
    · -- an empty slot ends the scan: the gap stays where it is
      rw [if_pos hkey]
      have hfree : Function.update (occ slots) i none (succ c j) = none := by
        rw [Function.update_of_ne hback]
        exact (occ_eq_none hs).mpr hkey
      exact ⟨slots, i, rfl, hlen, hi, hole.finish hback hfree (home_lt hc), hdist, hgap,
        fun _ => Iff.rfl, fun _ _ => Iff.rfl⟩
    · rw [if_neg hkey]
      have hocc : occ slots (succ c j) = some s.key := occ_of_key hs hkey
      have hocc' : Function.update (occ slots) i none (succ c j) = some s.key := by
        rw [Function.update_of_ne hback, hocc]
      have hne : succ c j ≠ e := by
        intro hq
        rw [hq, hempty] at hocc
        cases hocc
      have hhome := home_lt (h := h) hc s.key
      have hiff := inside_iff hi hs1 hhome
      change ∃ slots' i', (if (if i ≤ succ c j then i < home h c s.key ∧ home h c s.key ≤ succ c j
        else i < home h c s.key ∨ home h c s.key ≤ succ c j) then _ else _) = _ ∧ _
      by_cases hin : 0 < fwd c i (home h c s.key) ∧
          fwd c i (home h c s.key) ≤ fwd c i (succ c j)
      · rw [if_pos (hiff.mpr hin)]
        have hto := fwd_to_succ hi hback
        have hnee : fwd c i (succ c j) ≠ fwd c i e := fun hq => hne (fwd_inj hi hs1 he hq)
        exact ih slots i (succ c j) hlen (hole.skip hback hocc' hhome hin) hdist hgap
          (by rw [hocc]; simp) hempty (by omega) (by omega)
      · rw [if_neg fun hq => hin (hiff.mp hq)]
        have hil : i < slots.length := by omega
        have hset : occ (slots.set i s) = Function.update (occ slots) i (some s.key) := by
          rw [occ_set hil, if_neg hkey]
        have hhole := hole.move hocc' hhome hin
        have hmoved := hdist.move (i := i) hs1 hocc'
        rw [Function.update_idem, ← hset] at hhole hmoved
        have hei : e ≠ i := fun hq => hgap (hq ▸ hempty)
        obtain ⟨slots', i', hr, hl, hi', hreach, hd, hg, hocc0, hkept⟩ :=
          ih (slots.set i s) (succ c j) (succ c j) (by simpa using hlen) hhole hmoved
            (by rw [hset, Function.update_of_ne hback, hocc]; simp)
            (by rw [hset, Function.update_of_ne hback, hocc]; simp)
            (by rw [hset, Function.update_of_ne hei, hempty])
            (by
              rw [fwd_self]
              exact Nat.pos_of_ne_zero fun h0 => hne (fwd_eq_zero hs1 h0))
            (by omega)
        refine ⟨slots', i', hr, hl, hi', hreach, hd, hg, fun q => ?_, fun k v => ?_⟩
        · rw [hocc0 q, hset]
          by_cases hq : q = i
          · subst hq
            simp [hgap]
          · rw [Function.update_of_ne hq]
        · exact (hkept k v).trans (kept_move hil hs hback k v)

theorem card_occ_erase {c p : ℕ} {f : ℕ → Option OrderId} (hp : p < c) (hf : f p ≠ none) :
    ((Finset.range c).filter fun q => Function.update f p none q ≠ none).card + 1 =
      ((Finset.range c).filter fun q => f q ≠ none).card := by
  have hset : (Finset.range c).filter (fun q => Function.update f p none q ≠ none) =
      ((Finset.range c).filter fun q => f q ≠ none).erase p := by
    ext q
    by_cases hq : q = p
    · subst hq
      simp
    · simp [hq]
  rw [hset, Finset.card_erase_add_one]
  simp [hp, hf]

theorem WF.erase_spec {m : OpenHashMap V} (hw : WF h m) {key : OrderId} (hk : key ≠ kEmpty) :
    (lookup m key = none ∧ m.erase h key = some (m, false)) ∨
    (lookup m key ≠ none ∧ ∃ m', m.erase h key = some (m', true) ∧ WF h m' ∧
      m'.slots.length = m.slots.length ∧ m'.size + 1 = m.size ∧
      ∀ k ≠ kEmpty, lookup m' k = if k = key then none else lookup m k) := by
  obtain ⟨p, s, hp, hs, hcase⟩ := hw.probe_spec hk
  have hpc := (List.getElem?_eq_some_iff.mp hs).1
  simp only [erase, hp, hs, Option.bind_eq_bind, Option.bind_some]
  rcases hcase with ⟨hkey, hl⟩ | ⟨hkey, hl, -⟩
  · refine Or.inr ⟨by rw [hl]; simp, ?_⟩
    rw [if_neg (by simpa using hkey)]
    have hoccp : occ m.slots p = some key := by
      rw [occ_of_key hs (hkey ▸ hk), hkey]
    have hgap : occ m.slots p ≠ none := by rw [hoccp]; simp
    have hcut : Distinct m.slots.length (Function.update (occ m.slots) p none) := by
      intro a ha b hb k hka hkb
      have hap : a ≠ p := fun hq => by simp [hq] at hka
      have hbp : b ≠ p := fun hq => by simp [hq] at hkb
      rw [Function.update_of_ne hap] at hka
      rw [Function.update_of_ne hbp] at hkb
      exact hw.distinct a ha b hb k hka hkb
    obtain ⟨e, he, hempty⟩ := hw.exists_empty
    have hpe : p ≠ e := fun hq => hgap (hq ▸ hempty)
    obtain ⟨slots', i', hr, hlen, hi', hreach, hd, hg, hocc0, hkept⟩ :=
      shift_spec hw.pow he m.slots.length m.slots p p rfl (Hole.start hw.reach hpc) hcut
        hgap hgap hempty
        (by
          rw [fwd_self]
          exact Nat.pos_of_ne_zero fun h0 => hpe (fwd_eq_zero hpc h0))
        (Nat.le_of_lt (fwd_lt hpc he))
    have hi'' : i' < slots'.length := by omega
    obtain ⟨s', hs'⟩ : ∃ s', slots'[i']? = some s' :=
      ⟨slots'[i'], List.getElem?_eq_getElem hi''⟩
    have hocc' : occ (slots'.set i' { s' with key := kEmpty }) =
        Function.update (occ slots') i' none := by
      rw [occ_set hi'', if_pos rfl]
    have hlen' : (slots'.set i' { s' with key := kEmpty }).length = m.slots.length := by
      simpa using hlen
    have hcount : occupied (slots'.set i' { s' with key := kEmpty }) + 1 = occupied m.slots := by
      unfold occupied
      rw [hlen', hocc', card_occ_erase hi' hg]
      congr 1
      ext q
      simp [hocc0 q]
    have hsz := hw.size
    have hsmall : m.size < 2 ^ 64 := by
      have h1 := hw.load
      have h2 := hw.small
      unfold limit at h1
      unfold maxSize at h2
      omega
    have hsize : (m.size + (2 ^ 64 - 1)) % 2 ^ 64 + 1 = m.size := by omega
    have hw' : WF h { m with slots := slots'.set i' { s' with key := kEmpty },
                             size := (m.size + (2 ^ 64 - 1)) % 2 ^ 64 } := by
      refine ⟨?_, ?_, ?_, ?_, ?_, ?_, ?_⟩
      · simpa only [hlen'] using hw.pow
      · simpa only [hlen'] using hw.small
      · simpa only [hlen'] using hw.mask
      · simpa only [hlen', hocc'] using hreach
      · simpa only [hlen', hocc'] using hd
      · show (m.size + (2 ^ 64 - 1)) % 2 ^ 64 =
          occupied (slots'.set i' { s' with key := kEmpty })
        omega
      · have hload := hw.load
        simp only [limit, hlen'] at hload ⊢
        omega
    refine ⟨_, by rw [hw.mask, hr]; simp only [Option.bind_some, hs']; rw [← hw.mask]; rfl,
      hw', hlen', hsize, fun k hk0 => ?_⟩
    apply Option.ext
    intro v
    rw [hw'.lookup_eq_some hk0]
    have hout : (∃ q : ℕ, (slots'.set i' { s' with key := kEmpty })[q]? = some ⟨k, v⟩) ↔
        Kept m.slots p k v := by
      rw [← hkept k v]
      constructor
      · rintro ⟨q, hq⟩
        by_cases hqi : q = i'
        · subst hqi
          rw [List.getElem?_set_self hi''] at hq
          cases hq
          exact absurd rfl hk0
        · rw [List.getElem?_set_ne (Ne.symm hqi)] at hq
          exact ⟨q, hqi, hq⟩
      · rintro ⟨q, hqi, hq⟩
        exact ⟨q, by rw [List.getElem?_set_ne (Ne.symm hqi)]; exact hq⟩
    refine hout.trans ?_
    by_cases hkk : k = key
    · subst hkk
      rw [if_pos rfl]
      simp only [reduceCtorEq, iff_false]
      rintro ⟨q, hqp, hq⟩
      have hqc := (List.getElem?_eq_some_iff.mp hq).1
      exact hqp (hw.distinct q hqc p hpc k (occ_eq_some.mpr ⟨v, hq, hk0⟩) hoccp)
    · rw [if_neg hkk, hw.lookup_eq_some hk0]
      constructor
      · rintro ⟨q, -, hq⟩
        exact ⟨q, hq⟩
      · rintro ⟨q, hq⟩
        refine ⟨q, ?_, hq⟩
        rintro rfl
        rw [hs] at hq
        cases hq
        exact hkk hkey
  · refine Or.inl ⟨hl, ?_⟩
    have hne : s.key ≠ key := fun he => hk (he.symm.trans hkey)
    rw [if_pos hne]
    rfl

end Hotpath.OpenHashMap
