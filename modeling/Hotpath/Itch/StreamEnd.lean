import Hotpath.Itch.Framing

/-!
# The end of a stream (itch/reader.hpp)

How a pass over an input ends, and what the calls of `next` after its end do.
-/

namespace Hotpath.Itch.Reader
open Hotpath.Support

/-- `n` more calls of `next`; `none` if one of them hands out a message. -/
def callAgain : ℕ → Reader → Option Reader
  | 0, r => some r
  | n + 1, r => do
    match ← r.next with
    | (none, r) => callAgain n r
    | (some _, _) => none

/-- The whole input was consumed. -/
def Whole (r : Reader) : Prop :=
  r.stats.bytes = r.data.length ∧ r.stats.truncated = 0 ∧ r.stats.zeroLength = 0

/-- The input ended in the middle of a message. -/
def MidMessage (r : Reader) : Prop := r.stats.truncated = 1 ∧ r.stats.zeroLength = 0

/-- A zero length stands before the end of the input. -/
def AtZero (r : Reader) : Prop :=
  r.stats.zeroLength = 1 ∧ r.stats.truncated = 0 ∧ r.stats.bytes < r.data.length

/-- Exactly one of the three, and it stays so. -/
def EndsOnce (r : Reader) : Prop :=
  ((Whole r ∧ ¬MidMessage r ∧ ¬AtZero r) ∨ (¬Whole r ∧ MidMessage r ∧ ¬AtZero r) ∨
    (¬Whole r ∧ ¬MidMessage r ∧ AtZero r)) ∧
  ∀ n, ∃ r', callAgain n r = some r' ∧ r'.stats = r.stats

/-- The bytes no frame takes up. -/
def leftover (data : List UInt8) : List UInt8 := data.drop (spanOf (frames data))

/-- The reader when the loop ends. -/
def ended (data : List UInt8) : Reader :=
  (({ data := data } : Reader).pastAll (frames data)).finish (ending (leftover data))

/-- The reader after the last frame, as the next call finds it. -/
theorem rest_pastAll (data : List UInt8) :
    (({ data := data } : Reader).pastAll (frames data)).rest = leftover data := by
  obtain ⟨hdata, hcur⟩ := pastAll_cur (frames data) { data := data }
  rw [rest, hdata, hcur]
  exact congrArg (List.drop · data) (Nat.zero_add _)

theorem readAll_ended (data : List UInt8) :
    readAll data = some (messagesAt 0 (frames data), ended data) := by
  have hall := readAll_eq data
  rwa [rest_pastAll] at hall

variable {r : Reader} {data : List UInt8}

/-- Where there is no frame to read, a call only stops once more. -/
theorem next_stop (h : frame r.rest = none) :
    r.next = some (none, r.finish (ending r.rest)) := by
  rw [next, nextLoop, attempt_stop h]
  rfl

/-- A reader that stops where it stands stays as it is. -/
theorem callAgain_fixed (h : frame r.rest = none) (hfix : r.finish (ending r.rest) = r) (n : ℕ) :
    callAgain n r = some r := by
  induction n with
  | zero => rfl
  | succ n ih =>
    rw [callAgain, next_stop h, hfix]
    exact ih

/-- At the end of the input nothing is left to stop at. -/
theorem callAgain_past (h : r.cur = r.data.length) (n : ℕ) : callAgain n r = some r := by
  have hrest : r.rest = [] := List.drop_eq_nil_of_le (Nat.le_of_eq h.symm)
  apply callAgain_fixed
  · rw [hrest]
    rfl
  · rw [hrest]
    rfl

/-- What the frames leave in the counters. -/
theorem pastAll_counts (data : List UInt8) :
    (({ data := data } : Reader).pastAll (frames data)).stats.bytes = spanOf (frames data) ∧
    (({ data := data } : Reader).pastAll (frames data)).stats.truncated = 0 ∧
    (({ data := data } : Reader).pastAll (frames data)).stats.zeroLength = 0 := by
  obtain ⟨-, hbytes, -, -, htrunc, hzero, -⟩ := pastAll_stats (frames data) { data := data }
  exact ⟨hbytes.trans (Nat.zero_add _), htrunc, hzero⟩

theorem leftover_length (data : List UInt8) :
    (leftover data).length + spanOf (frames data) = data.length := by
  have hle := spanOf_le data
  rw [leftover, List.length_drop]
  omega

theorem exhausted_length {l : List UInt8} (h : ending l = .exhausted) : l.length < 2 := by
  cases l with
  | nil => exact Nat.zero_lt_two
  | cons hi l =>
    cases l with
    | nil => exact Nat.one_lt_two
    | cons lo tail =>
      rw [ending] at h
      split at h
      · split at h
        · cases h
        · cases h
      · cases h

/-- The bytes after the last frame decide how the pass ends. -/
theorem endsOnce_ended (data : List UInt8) : EndsOnce (ended data) ↔
    (leftover data).length ≠ 1 ∧ ending (leftover data) ≠ .zero := by
  obtain ⟨hbytes, htrunc, hzero⟩ := pastAll_counts data
  have hlen := leftover_length data
  have hdata := (pastAll_cur (frames data) { data := data }).1
  have hrest := rest_pastAll data
  have hframe : frame (leftover data) = none := frame_leftover data
  unfold ended
  generalize ({ data := data } : Reader).pastAll (frames data) = r at *
  cases hend : ending (leftover data) with
  | exhausted =>
    have hstay : ∀ n, ∃ r', callAgain n r = some r' ∧ r'.stats = r.stats := fun n =>
      ⟨r, callAgain_fixed (hrest ▸ hframe) (by rw [hrest, hend]; rfl) n, rfl⟩
    have hshort := exhausted_length hend
    have hmid : ¬MidMessage r := fun h => absurd (h.1.symm.trans htrunc) Nat.one_ne_zero
    have hat : ¬AtZero r := fun h => absurd (h.1.symm.trans hzero) Nat.one_ne_zero
    have hwhole : Whole r ↔ (leftover data).length ≠ 1 := by
      unfold Whole
      rw [hbytes, hdata, htrunc, hzero]
      show spanOf (frames data) = data.length ∧ _ ↔ _
      omega
    constructor
    · rintro ⟨hone, -⟩
      refine ⟨?_, Ending.noConfusion⟩
      rcases hone with ⟨h, -⟩ | ⟨-, h, -⟩ | ⟨-, -, h⟩
      · exact hwhole.mp h
      · exact absurd h hmid
      · exact absurd h hat
    · rintro ⟨hne, -⟩
      exact ⟨.inl ⟨hwhole.mpr hne, hmid, hat⟩, hstay⟩
  | terminator =>
    have htwo := terminator_length hend
    have hb : (r.finish .terminator).stats.bytes = data.length := by
      show r.stats.bytes + 2 = data.length
      omega
    refine ⟨fun _ => ⟨by omega, Ending.noConfusion⟩, fun _ => ⟨.inl ⟨⟨?_, htrunc, hzero⟩, ?_, ?_⟩, ?_⟩⟩
    · rw [hb]
      exact (congrArg List.length hdata).symm
    · exact fun h => absurd (h.1.symm.trans htrunc) Nat.one_ne_zero
    · exact fun h => absurd (h.1.symm.trans hzero) Nat.one_ne_zero
    · exact fun n => ⟨_, callAgain_past rfl n, rfl⟩
  | zero =>
    -- the cursor stays before the zero, and the next call counts it again
    constructor
    · rintro ⟨-, hstay⟩
      obtain ⟨r', hr', hstats⟩ := hstay 1
      have hrest' : (r.finish .zero).rest = leftover data := hrest
      rw [callAgain, next_stop (by rw [hrest']; exact hframe), hrest', hend] at hr'
      cases hr'
      have hcount := congrArg ReaderStats.zeroLength hstats
      exact absurd hcount (Nat.succ_ne_self _)
    · rintro ⟨-, hne⟩
      exact absurd rfl hne
  | cut =>
    refine ⟨fun _ => ⟨?_, Ending.noConfusion⟩, fun _ => ⟨.inr (.inl ⟨?_, ⟨?_, hzero⟩, ?_⟩), ?_⟩⟩
    · intro hone
      obtain ⟨x, hx⟩ := List.length_eq_one_iff.mp hone
      rw [hx] at hend
      cases hend
    · exact fun h => absurd h.2.1 (Nat.succ_ne_zero _)
    · exact congrArg (· + 1) htrunc
    · exact fun h => absurd h.2.1 (Nat.succ_ne_zero _)
    · exact fun n => ⟨_, callAgain_past rfl n, rfl⟩

/-- The pass ends in one of the three ways and stays there, except where one byte
is left over, which no counter shows, and where a zero length is, which every
further call counts again. -/
theorem ends_once (data : List UInt8) :
    (∃ ms r, readAll data = some (ms, r) ∧ EndsOnce r) ↔
      (leftover data).length ≠ 1 ∧ ending (leftover data) ≠ .zero := by
  rw [← endsOnce_ended, readAll_ended]
  constructor
  · rintro ⟨ms, r, hr, hends⟩
    cases hr
    exact hends
  · intro hends
    exact ⟨_, _, rfl, hends⟩

/-- One byte: not all of it is consumed, and nothing says so. -/
theorem lone_byte_unseen : ¬∃ ms r, readAll [0] = some (ms, r) ∧ EndsOnce r := by
  rintro ⟨ms, r, hr, hone, -⟩
  have hcounts : (readAll [0]).map (fun x =>
      (x.2.stats.bytes, x.2.stats.truncated, x.2.stats.zeroLength)) = some (0, 0, 0) := by
    decide +kernel
  rw [hr, Option.map_some] at hcounts
  simp only [Option.some.injEq, Prod.mk.injEq] at hcounts
  have hdata : (readAll [0]).map (fun x => x.2.data.length) = some 1 := by decide +kernel
  rw [hr, Option.map_some] at hdata
  have hlen : r.data.length = 1 := Option.some.inj hdata
  obtain ⟨hb, ht, hz⟩ := hcounts
  simp [Whole, MidMessage, AtZero, hb, ht, hz, hlen] at hone

end Hotpath.Itch.Reader
