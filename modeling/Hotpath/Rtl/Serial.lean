import Hotpath.Itch.Framing

/-!
# Framing one byte at a time

The framing of an input as a machine that is fed single bytes and reports a body
with its last byte. On an input that no zero length cuts off it reports the
frames of the input, each at the byte its frame ends with.
-/

namespace Hotpath.Rtl
open Hotpath.Itch Hotpath.Itch.Reader Hotpath.Support

inductive Phase where
  | lenHi
  | lenLo (hi : UInt8)
  | body (n : ℕ) (got : List UInt8)

/-- One byte, and the body it completes. -/
def feed : Phase → UInt8 → Phase × Option (List UInt8)
  | .lenHi, b => (.lenLo b, none)
  | .lenLo hi, b =>
    if bigEndian [hi, b] = 0 then (.lenHi, none) else (.body (bigEndian [hi, b]) [], none)
  | .body n got, b =>
    if got.length + 1 = n then (.lenHi, some (got ++ [b])) else (.body n (got ++ [b]), none)

/-- What each byte completes. -/
def outs : Phase → List UInt8 → List (Option (List UInt8))
  | _, [] => []
  | ph, b :: bs => (feed ph b).2 :: outs (feed ph b).1 bs

variable {n : ℕ} {got bs rest body l : List UInt8} {bodies : List (List UInt8)}

/-- The bytes of a body, the last of which completes it. -/
theorem outs_body (hne : bs ≠ []) (h : got.length + bs.length = n) :
    outs (.body n got) (bs ++ rest) =
      List.replicate (bs.length - 1) none ++ some (got ++ bs) :: outs .lenHi rest := by
  induction bs generalizing got with
  | nil => exact absurd rfl hne
  | cons b bs ih =>
    rw [List.length_cons] at h
    cases bs with
    | nil =>
      rw [List.singleton_append, outs, feed, if_pos (by simpa using h)]
      rfl
    | cons c cs =>
      have hmore : ¬got.length + 1 = n := by
        rw [List.length_cons] at h
        omega
      have hrec := @ih (got ++ [b]) (by simp) (by
        rw [List.length_append, List.length_singleton]
        omega)
      rw [List.cons_append, outs, feed, if_neg hmore]
      show none :: outs (.body n (got ++ [b])) (c :: cs ++ rest) = _
      rw [hrec, List.append_assoc]
      rfl

/-- The bytes of a body that stays incomplete. -/
theorem outs_cut (h : got.length + bs.length < n) :
    outs (.body n got) bs = List.replicate bs.length none := by
  induction bs generalizing got with
  | nil => rfl
  | cons b bs ih =>
    rw [List.length_cons] at h
    have hmore : ¬got.length + 1 = n := by omega
    rw [outs, feed, if_neg hmore]
    show none :: outs (.body n (got ++ [b])) bs = _
    rw [ih (by rw [List.length_append, List.length_singleton]; omega)]
    rfl


theorem outs_frame (h : frame l = some (body, rest)) :
    outs .lenHi l = List.replicate (1 + body.length) none ++ some body :: outs .lenHi rest := by
  obtain ⟨hi, lo, rfl, hn, hne⟩ := frame_some h
  have hpos := List.length_pos_of_ne_nil hne
  have hstart : ¬bigEndian [hi, lo] = 0 := by omega
  rw [outs, outs, feed]
  show none :: (feed (.lenLo hi) lo).2 :: outs (feed (.lenLo hi) lo).1 (body ++ rest) = _
  rw [feed, if_neg hstart]
  show none :: none :: outs (.body (bigEndian [hi, lo]) []) (body ++ rest) = _
  obtain ⟨k, hk⟩ : ∃ k, body.length = k + 1 := ⟨body.length - 1, by omega⟩
  rw [outs_body hne (by rw [hn]; simp), hk, Nat.add_comm 1 (k + 1)]
  rfl

/-- The reading of the bytes is not cut off by a zero length. -/
def Clean (l : List UInt8) : Prop := ending (l.drop (spanOf (frames l))) ≠ .zero

/-- Where the bodies are completed. -/
def slots (bodies : List (List UInt8)) : List (Option (List UInt8)) :=
  bodies.flatMap fun body => List.replicate (1 + body.length) none ++ [some body]

theorem slots_cons (body : List UInt8) (bodies : List (List UInt8)) :
    slots (body :: bodies) = List.replicate (1 + body.length) none ++ some body :: slots bodies := by
  rw [slots, List.flatMap_cons, List.append_assoc]
  rfl

/-- A clean input completes its frames, each with its last byte, and nothing else. -/
theorem outs_clean (hc : Clean l) :
    outs .lenHi l = slots (frames l) ++ List.replicate (l.length - spanOf (frames l)) none := by
  generalize hb : frames l = bodies
  induction bodies generalizing l with
  | nil =>
    have hnone : frame l = none := by
      cases hf : frame l with
      | none => rfl
      | some x =>
        obtain ⟨body, rest⟩ := x
        rw [frames_some hf] at hb
        cases hb
    have hend : ending l ≠ .zero := by
      have h : ending (l.drop (spanOf (frames l))) ≠ .zero := hc
      rw [hb] at h
      exact h
    show outs .lenHi l = List.replicate l.length none
    cases l with
    | nil => rfl
    | cons hi l =>
      cases l with
      | nil => rfl
      | cons lo tail =>
        rw [outs, outs, feed]
        show none :: (feed (.lenLo hi) lo).2 :: outs (feed (.lenLo hi) lo).1 tail = _
        rw [feed]
        rw [frame] at hnone
        by_cases h0 : bigEndian [hi, lo] = 0
        · rw [if_pos h0]
          rw [ending, if_pos h0] at hend
          have htail : tail = [] := by
            by_contra ht
            rw [if_neg ht] at hend
            exact hend rfl
          rw [htail]
          rfl
        · have hcut : tail.length < bigEndian [hi, lo] := by
            by_contra hlt
            rw [if_neg (by omega)] at hnone
            cases hnone
          rw [if_neg h0]
          show none :: none :: outs (.body (bigEndian [hi, lo]) []) tail = _
          rw [outs_cut (by simpa using hcut)]
          rfl
  | cons body bodies ih =>
    obtain ⟨rest, hf, hrest⟩ := frames_cons hb
    have hcr : Clean rest := by
      unfold Clean at hc ⊢
      rwa [hb, spanOf_cons, drop_frame hf, ← hrest] at hc
    have hlen := (frame_length hf).1
    have hdiff : l.length - spanOf (body :: bodies) = rest.length - spanOf bodies := by
      rw [spanOf_cons]
      omega
    rw [outs_frame hf, ih hcr hrest, slots_cons, hdiff, List.append_assoc]
    rfl

theorem slots_bodies (bodies : List (List UInt8)) (k : ℕ) :
    (slots bodies ++ List.replicate k none).filterMap id = bodies := by
  rw [List.filterMap_append]
  have hnone : ∀ j, (List.replicate j (none : Option (List UInt8))).filterMap id = [] := by
    intro j
    apply List.filterMap_eq_nil_iff.mpr
    intro x hx
    rw [List.eq_of_mem_replicate hx]
    rfl
  rw [hnone, List.append_nil]
  induction bodies with
  | nil => rfl
  | cons body bodies ih =>
    rw [slots_cons, List.filterMap_append, hnone, List.nil_append, List.filterMap_cons, ih]
    rfl

/-- A byte completes a body exactly where a frame ends. -/
theorem slots_ends (bodies : List (List UInt8)) (k m : ℕ) :
    (∃ body, (slots bodies ++ List.replicate k none)[m]? = some (some body)) ↔
      ∃ i < bodies.length, spanOf (bodies.take (i + 1)) = m + 1 := by
  induction bodies generalizing m with
  | nil =>
    constructor
    · rintro ⟨body, h⟩
      have hmem : some body ∈ List.replicate k (none : Option (List UInt8)) :=
        List.mem_of_getElem? h
      cases List.eq_of_mem_replicate hmem
    · rintro ⟨i, hi, -⟩
      exact absurd hi (Nat.not_lt_zero i)
  | cons body bodies ih =>
    have hhead : ∀ j, spanOf ((body :: bodies).take (j + 1)) =
        2 + body.length + spanOf (bodies.take j) := fun j => by
      rw [List.take_succ_cons, spanOf_cons]
    rw [slots_cons, List.append_assoc]
    rcases Nat.lt_trichotomy m (1 + body.length) with hm | hm | hm
    · -- inside the frame
      constructor
      · rintro ⟨x, h⟩
        rw [List.getElem?_append_left (by rwa [List.length_replicate])] at h
        cases List.eq_of_mem_replicate (List.mem_of_getElem? h)
      · rintro ⟨i, -, h⟩
        rw [hhead] at h
        omega
    · constructor
      · intro _
        refine ⟨0, by simp, ?_⟩
        rw [hhead]
        show 2 + body.length + 0 = m + 1
        omega
      · intro _
        refine ⟨body, ?_⟩
        rw [List.getElem?_append_right (by rw [List.length_replicate]; omega),
          List.length_replicate, hm, Nat.sub_self]
        rfl
    · -- past the frame
      obtain ⟨m', hm'⟩ : ∃ m', m = 2 + body.length + m' := ⟨m - (2 + body.length), by omega⟩
      have hget : (List.replicate (1 + body.length) none ++
          (some body :: slots bodies ++ List.replicate k none))[m]? =
          (slots bodies ++ List.replicate k none)[m']? := by
        rw [List.getElem?_append_right (by rw [List.length_replicate]; omega),
          List.length_replicate, List.cons_append]
        have hsub : m - (1 + body.length) = m' + 1 := by omega
        rw [hsub, List.getElem?_cons_succ]
      rw [hget, ih]
      constructor
      · rintro ⟨i, hi, h⟩
        refine ⟨i + 1, by simpa using hi, ?_⟩
        rw [hhead]
        omega
      · rintro ⟨i, hi, h⟩
        rw [hhead] at h
        cases i with
        | zero =>
          rw [List.take_zero] at h
          have h0 : spanOf [] = 0 := rfl
          omega
        | succ i => exact ⟨i, by simpa using hi, by omega⟩

end Hotpath.Rtl
