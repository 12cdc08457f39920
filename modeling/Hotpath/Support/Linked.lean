import Mathlib

/-!
# Doubly linked segments

Nodes are natural numbers; `nx` and `pv` are their links, and a negative link
ends the list. `Seg nx pv a xs z` says that `xs` is linked in order, with `a`
before its first node and `z` after its last.
-/

namespace Hotpath.Support

variable {nx pv nx' pv' : ℕ → ℤ}

/-- An entry of a list without repetition is none of the others. -/
theorem ne_of_nodup {α : Type*} {l r : List α} {x y : α} (h : (l ++ x :: r).Nodup)
    (hy : y ∈ l ++ r) : y ≠ x := by
  rintro rfl
  exact (List.nodup_cons.mp (List.nodup_middle.mp h)).1 hy

/-- The first node of a segment, or the node after an empty one. -/
def first : List ℕ → ℤ → ℤ
  | [], z => z
  | x :: _, _ => x

/-- The last node of a segment, or the node before an empty one. -/
def last (a : ℤ) : List ℕ → ℤ
  | [] => a
  | x :: xs => last x xs

def Seg (nx pv : ℕ → ℤ) : ℤ → List ℕ → ℤ → Prop
  | _, [], _ => True
  | a, x :: xs, z => pv x = a ∧ nx x = first xs z ∧ Seg nx pv x xs z

theorem first_append (xs ys : List ℕ) (z : ℤ) : first (xs ++ ys) z = first xs (first ys z) := by
  cases xs <;> rfl

theorem last_append (a : ℤ) (xs ys : List ℕ) : last a (xs ++ ys) = last (last a xs) ys := by
  induction xs generalizing a with
  | nil => rfl
  | cons x xs ih => exact ih x

theorem last_mem (a : ℤ) {xs : List ℕ} (hx : xs ≠ []) : ∃ x ∈ xs, last a xs = x := by
  induction xs generalizing a with
  | nil => exact absurd rfl hx
  | cons x xs ih =>
    cases xs with
    | nil => exact ⟨x, List.mem_cons_self .., rfl⟩
    | cons y ys =>
      obtain ⟨w, hw, he⟩ := ih x (List.cons_ne_nil y ys)
      exact ⟨w, List.mem_cons_of_mem _ hw, he⟩

theorem seg_append (a : ℤ) (xs ys : List ℕ) (z : ℤ) :
    Seg nx pv a (xs ++ ys) z ↔ Seg nx pv a xs (first ys z) ∧ Seg nx pv (last a xs) ys z := by
  induction xs generalizing a with
  | nil => simp [Seg, last]
  | cons x xs ih =>
    simp only [List.cons_append, Seg, ih, first_append, last]
    tauto

theorem Seg.congr {a z : ℤ} {xs : List ℕ} (h : Seg nx pv a xs z)
    (hc : ∀ x ∈ xs, nx' x = nx x ∧ pv' x = pv x) : Seg nx' pv' a xs z := by
  induction xs generalizing a with
  | nil => trivial
  | cons x xs ih =>
    obtain ⟨hp, hn, ht⟩ := h
    obtain ⟨hnx, hpx⟩ := hc x (List.mem_cons_self ..)
    exact ⟨hpx.trans hp, hnx.trans hn, ih ht fun y hy => hc y (List.mem_cons_of_mem _ hy)⟩

/-- The node after a segment changes: only its last node is relinked. -/
theorem Seg.end_change {a z z' : ℤ} {xs : List ℕ} (h : Seg nx pv a xs z) (hd : xs.Nodup)
    (hn : ∀ x ∈ xs, nx' x = if (x : ℤ) = last a xs then z' else nx x)
    (hp : ∀ x ∈ xs, pv' x = pv x) : Seg nx' pv' a xs z' := by
  rcases List.eq_nil_or_concat xs with rfl | ⟨ys, y, rfl⟩
  · trivial
  · rw [List.concat_eq_append] at *
    rw [seg_append] at h ⊢
    obtain ⟨hys, hpy, -, -⟩ := h
    have hlast : last a (ys ++ [y]) = y := by rw [last_append]; rfl
    rw [hlast] at hn
    refine ⟨hys.congr fun x hx => ⟨?_, hp x (List.mem_append_left _ hx)⟩, ?_, ?_, trivial⟩
    · have hxy : (x : ℤ) ≠ y := by
        have hne := (List.nodup_append.mp hd).2.2 x hx y (List.mem_singleton_self y)
        exact_mod_cast hne
      rw [hn x (List.mem_append_left _ hx), if_neg hxy]
    · rw [hp y (by simp)]
      exact hpy
    · rw [hn y (by simp), if_pos rfl]
      rfl

/-- The node before a segment changes: only its first node is relinked. -/
theorem Seg.start_change {a a' z : ℤ} {xs : List ℕ} (h : Seg nx pv a xs z) (hd : xs.Nodup)
    (hn : ∀ x ∈ xs, nx' x = nx x)
    (hp : ∀ x ∈ xs, pv' x = if (x : ℤ) = first xs z then a' else pv x) : Seg nx' pv' a' xs z := by
  cases xs with
  | nil => trivial
  | cons x xs =>
    obtain ⟨-, hnx, ht⟩ := h
    refine ⟨?_, ?_, ht.congr fun y hy => ⟨hn y (List.mem_cons_of_mem _ hy), ?_⟩⟩
    · rw [hp x (List.mem_cons_self ..)]
      simp [first]
    · rw [hn x (List.mem_cons_self ..)]
      exact hnx
    · have hyx : (y : ℤ) ≠ x := by
        have hne : y ≠ x := fun he => (List.nodup_cons.mp hd).1 (he ▸ hy)
        exact_mod_cast hne
      rw [hp y (List.mem_cons_of_mem _ hy)]
      simp [first, hyx]

/-! ### Whole lists -/

/-- A list anchored by its head and tail; `-1` marks the ends. -/
structure Chain (nx pv : ℕ → ℤ) (head tail : ℤ) (xs : List ℕ) : Prop where
  nodup : xs.Nodup
  head : head = first xs (-1)
  tail : tail = last (-1) xs
  seg : Seg nx pv (-1) xs (-1)

theorem Chain.empty : Chain nx pv (-1) (-1) [] := ⟨List.nodup_nil, rfl, rfl, trivial⟩

variable {head tail : ℤ} {xs : List ℕ}

theorem Chain.congr (h : Chain nx pv head tail xs)
    (hc : ∀ x ∈ xs, nx' x = nx x ∧ pv' x = pv x) : Chain nx' pv' head tail xs :=
  ⟨h.nodup, h.head, h.tail, h.seg.congr hc⟩

theorem Chain.tail_cases (h : Chain nx pv head tail xs) :
    (xs = [] ∧ tail = -1) ∨ (xs ≠ [] ∧ ∃ x ∈ xs, tail = x) := by
  cases xs with
  | nil => exact Or.inl ⟨rfl, h.tail⟩
  | cons x xs =>
    obtain ⟨w, hw, he⟩ := last_mem (-1) (List.cons_ne_nil x xs)
    exact Or.inr ⟨by simp, w, hw, h.tail.trans he⟩

/-- Appending a new node at the tail. -/
theorem Chain.push (h : Chain nx pv head tail xs) {y : ℕ} (hy : y ∉ xs)
    (hny : nx' y = -1) (hpy : pv' y = tail)
    (hn : ∀ x ∈ xs, nx' x = if (x : ℤ) = tail then (y : ℤ) else nx x)
    (hp : ∀ x ∈ xs, pv' x = pv x) :
    Chain nx' pv' (if tail < 0 then (y : ℤ) else head) y (xs ++ [y]) where
  nodup := by
    refine List.nodup_append.mpr ⟨h.nodup, List.nodup_singleton y, fun a ha b hb => ?_⟩
    rw [List.mem_singleton] at hb
    exact fun he => hy (hb ▸ he ▸ ha)
  head := by
    rw [first_append, h.head]
    rcases h.tail_cases with ⟨rfl, ht⟩ | ⟨hne, x, -, ht⟩
    · simp [ht, first]
    · have hpos : ¬ tail < 0 := by omega
      rw [if_neg hpos]
      cases xs with
      | nil => exact absurd rfl hne
      | cons x xs => rfl
  tail := by rw [last_append]; rfl
  seg := by
    rw [seg_append]
    refine ⟨h.seg.end_change h.nodup (fun x hx => ?_) hp, ?_, hny, trivial⟩
    · rw [hn x hx, h.tail]
      rfl
    · rw [hpy, h.tail]

/-- Taking one node out: its neighbours, or the anchors, take over its links. -/
theorem Chain.remove {l r : List ℕ} {x : ℕ} (h : Chain nx pv head tail (l ++ x :: r))
    (hn : ∀ y ∈ l ++ r, nx' y = if (y : ℤ) = pv x then nx x else nx y)
    (hp : ∀ y ∈ l ++ r, pv' y = if (y : ℤ) = nx x then pv x else pv y) :
    Chain nx' pv' (if pv x < 0 then nx x else head) (if nx x < 0 then pv x else tail)
      (l ++ r) := by
  have hseg := (seg_append _ _ _ _).mp h.seg
  obtain ⟨hl, hpx, hnx, hr⟩ := hseg
  have hnd := List.nodup_append.mp h.nodup
  have hxr := List.nodup_cons.mp hnd.2.1
  -- a link of `x` into the left part is not a node of the right part, and conversely
  have hpv_r : ∀ y ∈ r, (y : ℤ) ≠ pv x := by
    intro y hy he
    rw [hpx] at he
    cases hlc : l with
    | nil =>
      rw [hlc] at he
      simp only [last] at he
      omega
    | cons w ws =>
      have hne : l ≠ [] := by simp [hlc]
      obtain ⟨v, hv, hlast⟩ := last_mem (-1) hne
      rw [hlast] at he
      have hvy : v = y := by exact_mod_cast he.symm
      exact hnd.2.2 v hv y (List.mem_cons_of_mem _ hy) hvy
  have hnx_l : ∀ y ∈ l, (y : ℤ) ≠ nx x := by
    intro y hy he
    rw [hnx] at he
    cases hrc : r with
    | nil =>
      rw [hrc] at he
      simp only [first] at he
      omega
    | cons w ws =>
      rw [hrc] at he
      have hwy : y = w := by simpa [first] using he
      exact hnd.2.2 y hy w (by simp [hrc]) hwy
  refine ⟨?_, ?_, ?_, (seg_append _ _ _ _).mpr ⟨?_, ?_⟩⟩
  · exact List.nodup_append.mpr ⟨hnd.1, hxr.2, fun a ha b hb =>
      hnd.2.2 a ha b (List.mem_cons_of_mem _ hb)⟩
  · rw [first_append, h.head, hpx, first_append]
    cases l with
    | nil => simp [last, first, hnx]
    | cons w ws =>
      obtain ⟨v, -, hlast⟩ := last_mem (-1) (List.cons_ne_nil w ws)
      have hpos : ¬ last (-1) (w :: ws) < 0 := by omega
      rw [if_neg hpos]
      rfl
  · rw [last_append, h.tail, hnx, last_append]
    cases r with
    | nil => simp [first, last, hpx]
    | cons w ws =>
      have hpos : ¬ first (w :: ws) (-1) < 0 := by simp only [first]; omega
      rw [if_neg hpos]
      rfl
  · refine hl.end_change hnd.1 (fun y hy => ?_) fun y hy => ?_
    · rw [hn y (List.mem_append_left _ hy), hpx, hnx]
    · rw [hp y (List.mem_append_left _ hy), if_neg (hnx_l y hy)]
  · refine hr.start_change hxr.2 (fun y hy => ?_) fun y hy => ?_
    · rw [hn y (List.mem_append_right _ hy), if_neg (hpv_r y hy)]
    · rw [hp y (List.mem_append_right _ hy), hnx, hpx]

theorem Chain.prev_cases {l r : List ℕ} {x : ℕ} (h : Chain nx pv head tail (l ++ x :: r)) :
    pv x = -1 ∨ ∃ y ∈ l, pv x = y := by
  obtain ⟨-, hpx, -, -⟩ := (seg_append _ _ _ _).mp h.seg
  cases l with
  | nil => exact Or.inl hpx
  | cons w ws =>
    obtain ⟨v, hv, hlast⟩ := last_mem (-1) (List.cons_ne_nil w ws)
    exact Or.inr ⟨v, hv, hpx.trans hlast⟩

theorem Chain.next_cases {l r : List ℕ} {x : ℕ} (h : Chain nx pv head tail (l ++ x :: r)) :
    nx x = -1 ∨ ∃ y ∈ r, nx x = y := by
  obtain ⟨-, -, hnx, -⟩ := (seg_append _ _ _ _).mp h.seg
  cases r with
  | nil => exact Or.inl hnx
  | cons w ws => exact Or.inr ⟨w, List.mem_cons_self .., hnx⟩

/-! ### Walking a list -/

/-- The nodes met from `i` on, `fuel` of them at most. -/
def follow (link : ℕ → ℤ) : ℕ → ℤ → List ℕ
  | 0, _ => []
  | fuel + 1, i => if i < 0 then [] else i.toNat :: follow link fuel (link i.toNat)

theorem follow_succ (link : ℕ → ℤ) (k x : ℕ) : follow link (k + 1) x = x :: follow link k (link x) := by
  have hneg : ¬(x : ℤ) < 0 := by omega
  rw [follow, if_neg hneg, Int.toNat_natCast]

theorem follow_neg (link : ℕ → ℤ) (k : ℕ) : follow link k (-1) = [] := by
  cases k <;> rfl

theorem Seg.follow_next {a : ℤ} {k : ℕ} (h : Seg nx pv a xs (-1)) (hk : xs.length ≤ k) :
    follow nx k (first xs (-1)) = xs := by
  induction xs generalizing a k with
  | nil => exact follow_neg nx k
  | cons x xs ih =>
    obtain ⟨-, hnext, hrest⟩ := h
    cases k with
    | zero => simp at hk
    | succ k =>
      have hrec := ih hrest (by simpa using hk)
      rw [← hnext] at hrec
      rw [first, follow_succ, hrec]

theorem Seg.follow_prev {k : ℕ} {z : ℤ} (h : Seg nx pv (-1) xs z) (hk : xs.length ≤ k) :
    follow pv k (last (-1) xs) = xs.reverse := by
  induction xs using List.reverseRecOn generalizing k z with
  | nil => exact follow_neg pv k
  | append_singleton xs x ih =>
    obtain ⟨hxs, hprev, -⟩ := (seg_append _ _ _ _).mp h
    cases k with
    | zero => simp at hk
    | succ k =>
      have hrec := ih hxs (by simpa using hk)
      rw [← hprev] at hrec
      rw [last_append, last, last, follow_succ, hrec, List.reverse_append]
      rfl

theorem Chain.follow_head {k : ℕ} (h : Chain nx pv head tail xs) (hk : xs.length ≤ k) :
    follow nx k head = xs := by
  rw [h.head]
  exact h.seg.follow_next hk

/-- The two links are each other's inverse. -/
theorem Chain.follow_tail {k : ℕ} (h : Chain nx pv head tail xs) (hk : xs.length ≤ k) :
    follow pv k tail = xs.reverse := by
  rw [h.tail]
  exact h.seg.follow_prev hk

end Hotpath.Support
