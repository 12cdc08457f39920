import Hotpath.Support.LowerBound

/-!
# Values recorded where they change

A value is read again and again at times that do not go back. A note is made only
where it differs from the note before. The notes still tell the value at every
time, and a bisection finds the one to ask.
-/

namespace Hotpath.Support

variable {α T V : Type}

/-- The elements that pass come first. -/
theorem filter_first {p : α → Bool} {l : List α}
    (hdown : l.Pairwise fun x y => p y = true → p x = true) :
    ∃ r, l = l.filter p ++ r ∧ ∀ x ∈ r, ¬p x = true := by
  induction l with
  | nil => exact ⟨[], rfl, by simp⟩
  | cons x l ih =>
    obtain ⟨hx, hl⟩ := List.pairwise_cons.mp hdown
    by_cases hp : p x = true
    · obtain ⟨r, hr, hno⟩ := ih hl
      refine ⟨r, ?_, hno⟩
      rw [List.filter_cons_of_pos hp, List.cons_append, ← hr]
    · have hnone : ∀ y ∈ x :: l, ¬p y = true := by
        intro y hy
        cases List.mem_cons.mp hy with
        | inl he => exact he ▸ hp
        | inr hy => exact fun hpy => hp (hx y hy hpy)
      exact ⟨x :: l, by rw [List.filter_eq_nil_iff.mpr hnone, List.nil_append], hnone⟩

/-- The bisection counts them, wherever it starts among them. -/
theorem lowerBound_filter {p : α → Bool} {l : List α}
    (hdown : l.Pairwise fun x y => p y = true → p x = true) {lo : ℕ}
    (hlo : lo ≤ (l.filter p).length) :
    lowerBound (fun i => (l[i]?).map p) l.length lo l.length = some (l.filter p).length := by
  obtain ⟨r, hr, hno⟩ := filter_first hdown
  have hlen : (l.filter p).length ≤ l.length := List.length_filter_le p l
  apply lowerBound_eq (n := l.length) _ _ _ _ (Nat.sub_le _ _) hlo hlen le_rfl
  intro j hj
  show (l[j]?).map p = _
  rw [List.getElem?_eq_getElem hj, Option.map_some, Option.some_inj]
  have hget : (l.filter p ++ r)[j]? = some l[j] := hr ▸ List.getElem?_eq_getElem hj
  by_cases hjl : j < (l.filter p).length
  · rw [List.getElem?_append_left hjl] at hget
    have hmem : l[j] ∈ l.filter p := List.mem_of_getElem? hget
    rw [decide_eq_true hjl]
    exact (List.mem_filter.mp hmem).2
  · rw [List.getElem?_append_right (not_lt.mp hjl)] at hget
    have hmem : l[j] ∈ r := List.mem_of_getElem? hget
    rw [decide_eq_false hjl]
    exact Bool.eq_false_iff.mpr (hno _ hmem)

/-- So the position it finds splits the list. -/
theorem take_filter {p : α → Bool} {l : List α}
    (hdown : l.Pairwise fun x y => p y = true → p x = true) :
    l.take (l.filter p).length = l.filter p := by
  obtain ⟨r, hr, -⟩ := filter_first hdown
  calc
    l.take (l.filter p).length = (l.filter p ++ r).take (l.filter p).length := congrArg _ hr
    _ = l.filter p := List.take_left

/-- `notes` are kept of `readings`: there is none before there is a value, and a
value is noted where the last note holds another one. -/
inductive Kept (stamp : α → T) (value : α → V) : List (T × Option V) → List α → Prop where
  | start : Kept stamp value [] []
  | unset {readings : List (T × Option V)} (t : T) (h : Kept stamp value readings []) :
      Kept stamp value (readings ++ [(t, none)]) []
  | same {readings : List (T × Option V)} {notes : List α} (t : T) (v : V)
      (h : Kept stamp value readings notes) (hlast : notes.getLast?.map value = some v) :
      Kept stamp value (readings ++ [(t, some v)]) notes
  | changed {readings : List (T × Option V)} {notes : List α} (a : α)
      (h : Kept stamp value readings notes) :
      Kept stamp value (readings ++ [(stamp a, some (value a))]) (notes ++ [a])

variable {stamp : α → T} {value : α → V} {readings : List (T × Option V)} {notes : List α}

/-- Every note was a reading. -/
theorem Kept.read (h : Kept stamp value readings notes) :
    ∀ a ∈ notes, (stamp a, some (value a)) ∈ readings := by
  induction h with
  | start => simp
  | unset t h ih => simp
  | same t v h hlast ih => exact fun a ha => List.mem_append_left _ (ih a ha)
  | changed a h ih =>
    intro b hb
    rw [List.mem_append, List.mem_singleton] at hb
    cases hb with
    | inl hb => exact List.mem_append_left _ (ih b hb)
    | inr hb => exact List.mem_append_right _ (by rw [hb]; exact List.mem_singleton_self _)

variable [LinearOrder T]

/-- The stamps of the notes do not go back either. -/
theorem Kept.sorted (h : Kept stamp value readings notes)
    (htime : readings.Pairwise fun x y => x.1 ≤ y.1) :
    notes.Pairwise fun a b => stamp a ≤ stamp b := by
  induction h with
  | start => exact List.Pairwise.nil
  | unset t h ih => exact List.Pairwise.nil
  | same t v h hlast ih => exact ih (List.pairwise_append.mp htime).1
  | changed a h ih =>
    obtain ⟨hpre, -, hlast⟩ := List.pairwise_append.mp htime
    refine List.pairwise_append.mpr ⟨ih hpre, List.pairwise_singleton _ _, ?_⟩
    intro b hb c hc
    rw [List.mem_singleton.mp hc]
    exact hlast _ (h.read b hb) _ (List.mem_singleton_self _)

/-- The last note no later than a time holds what was last read no later than it. -/
theorem Kept.stands (h : Kept stamp value readings notes)
    (htime : readings.Pairwise fun x y => x.1 ≤ y.1) (t : T) :
    (notes.filter fun a => stamp a ≤ t).getLast?.map value =
      (readings.filter fun x => x.1 ≤ t).getLast?.bind Prod.snd := by
  induction h with
  | start => rfl
  | unset u h ih =>
    rw [List.filter_append]
    by_cases hu : u ≤ t
    · have hone : ([(u, (none : Option V))].filter fun x => decide (x.1 ≤ t)) = [(u, none)] := by
        simp [hu]
      rw [hone, List.getLast?_concat]
      rfl
    · have hnone : ([(u, (none : Option V))].filter fun x => decide (x.1 ≤ t)) = [] := by
        simp [hu]
      rw [hnone, List.append_nil]
      exact ih (List.pairwise_append.mp htime).1
  | same u v h hlast ih =>
    obtain ⟨hpre, -, hback⟩ := List.pairwise_append.mp htime
    rw [List.filter_append]
    by_cases hu : u ≤ t
    · have hone : ([(u, some v)].filter fun x => decide (x.1 ≤ t)) = [(u, some v)] := by simp [hu]
      rw [hone, List.getLast?_concat]
      -- nothing is later than this reading, so the filter keeps every note
      have hall := List.filter_eq_self.mpr fun a ha => decide_eq_true
        ((hback _ (h.read a ha) _ (List.mem_singleton_self _)).trans hu)
      rw [hall, hlast]
      rfl
    · have hnone : ([(u, some v)].filter fun x => decide (x.1 ≤ t)) = [] := by simp [hu]
      rw [hnone, List.append_nil]
      exact ih hpre
  | changed a h ih =>
    obtain ⟨hpre, -, hback⟩ := List.pairwise_append.mp htime
    rw [List.filter_append, List.filter_append]
    by_cases hu : stamp a ≤ t
    · have hone : ([(stamp a, some (value a))].filter fun x => decide (x.1 ≤ t)) =
          [(stamp a, some (value a))] := by simp [hu]
      have hone' : ([a].filter fun a => decide (stamp a ≤ t)) = [a] := by simp [hu]
      rw [hone, hone', List.getLast?_concat, List.getLast?_concat]
      rfl
    · have hnone : ([(stamp a, some (value a))].filter fun x => decide (x.1 ≤ t)) = [] := by
        simp [hu]
      have hnone' : ([a].filter fun a => decide (stamp a ≤ t)) = [] := by simp [hu]
      rw [hnone, hnone', List.append_nil, List.append_nil]
      exact ih hpre

end Hotpath.Support
