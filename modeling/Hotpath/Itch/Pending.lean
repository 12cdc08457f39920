import Hotpath.Itch.Decode
import Hotpath.Support.ReadAhead

/-!
# What a reader has still to hand out (itch/reader.hpp)

The messages pending at a reader, as the frames that follow it, and what one call of `next`
does to them: the reader is a source that can be read one message at a time or ahead.
-/

namespace Hotpath.Itch.Reader
open Hotpath.Support

/-- The messages a reader has still to hand out. -/
def pending (r : Reader) : List RawMessage := messagesAt r.cur (frames r.rest)

theorem finish_rest {r : Reader} (h : frame r.rest = none) :
    frames (r.finish (ending r.rest)).rest = [] := by
  cases hend : ending r.rest with
  | exhausted => exact frames_none h
  | zero => exact frames_none h
  | terminator =>
    have hrest : (r.finish .terminator).rest = [] := List.drop_length
    rw [hrest]
    exact frames_none rfl
  | cut =>
    have hrest : (r.finish .cut).rest = [] := List.drop_length
    rw [hrest]
    exact frames_none rfl

/-- A reader of `data`, which has `n` frames: every frame passed is counted, with its bytes. -/
structure Counted (data : List UInt8) (n : ℕ) (r : Reader) : Prop where
  data : r.data = data
  messages : r.stats.messages + (frames r.rest).length = n
  bytes : r.stats.bytes ≤ r.cur
  cur : r.cur ≤ r.data.length

theorem Counted.start (data : List UInt8) : Counted data (frames data).length { data := data } where
  data := rfl
  messages := Nat.zero_add _
  bytes := le_rfl
  cur := Nat.zero_le _

variable {r : Reader} {data : List UInt8} {n : ℕ}

theorem Counted.pastAll (h : Counted data n r) {bodies more : List (List UInt8)}
    (hframes : frames r.rest = bodies ++ more) (hmore : frames (r.pastAll bodies).rest = more)
    (hcur : (r.pastAll bodies).cur ≤ r.data.length) : Counted data n (r.pastAll bodies) := by
  obtain ⟨hdata, hpast⟩ := pastAll_cur bodies r
  obtain ⟨hmessages, hbytes, -⟩ := pastAll_stats bodies r
  have hcount := h.messages
  have hle := h.bytes
  rw [hframes, List.length_append] at hcount
  constructor
  case data => exact hdata.trans h.data
  case messages =>
    rw [hmore, hmessages]
    omega
  case bytes => omega
  case cur => rwa [hdata]

theorem Counted.finish (h : Counted data n r) (hnone : frame r.rest = none) :
    Counted data n (r.finish (ending r.rest)) := by
  have hmessages := h.messages
  have hbytes := h.bytes
  rw [frames_none hnone, ← finish_rest hnone] at hmessages
  cases hend : ending r.rest with
  | exhausted =>
    rw [hend] at hmessages
    exact ⟨h.data, hmessages, hbytes, h.cur⟩
  | zero =>
    rw [hend] at hmessages
    exact ⟨h.data, hmessages, hbytes, h.cur⟩
  | cut =>
    rw [hend] at hmessages
    exact ⟨h.data, hmessages, hbytes.trans h.cur, le_rfl⟩
  | terminator =>
    rw [hend] at hmessages
    have hlen := terminator_length hend
    rw [rest, List.length_drop] at hlen
    have hlast : r.stats.bytes + 2 ≤ r.data.length := by omega
    exact ⟨h.data, hmessages, hlast, le_rfl⟩

/-- One call hands out the first of what is pending, or says that there is nothing more. -/
theorem next_spec (r : Reader) : ∃ x r', r.next = some (x, r') ∧
    pending r = x.toList ++ pending r' ∧ (x = none → frames r'.rest = []) ∧
    ∀ data n, Counted data n r → Counted data n r' := by
  obtain ⟨skipped, hall, hcase⟩ := nextLoop_spec (r.data.length + 1) r (by omega)
  cases hcase with
  | inl hcase =>
    obtain ⟨hframes, hnext⟩ := hcase
    obtain ⟨hdata, hcur⟩ := pastAll_cur skipped r
    have hleft : frame (r.pastAll skipped).rest = none := by
      have hdrop := frame_leftover r.rest
      rwa [hframes, rest, List.drop_drop, ← hcur, ← hdata] at hdrop
    have hdone := finish_rest hleft
    have hpending : pending r = [] := by
      have hskip := @messagesAt_skip skipped [] r hall
      rw [List.append_nil] at hskip
      rw [pending, hframes, hskip]
      rfl
    refine ⟨none, _, hnext, ?_, fun _ => hdone, fun data n h => ?_⟩
    · rw [hpending, pending, hdone]
      rfl
    · have hspan := spanOf_le r.rest
      have hle := h.cur
      rw [hframes, rest, List.length_drop] at hspan
      have hpast := h.pastAll (hframes.trans (List.append_nil _).symm) (frames_none hleft) (by omega)
      exact hpast.finish hleft
  | inr hcase =>
    obtain ⟨body, more, hk, hframes, hmore, hdata, -, hcur, hnext⟩ := hcase
    refine ⟨_, _, hnext, ?_, fun h => absurd h (Option.some_ne_none _), fun data n h => ?_⟩
    · rw [pending, hframes, messagesAt_skip hall, messagesAt, hk, if_pos rfl, pending,
        hmore, pastAll_append]
      rfl
    · have hsplit : frames r.rest = (skipped ++ [body]) ++ more := by
        rw [hframes, List.append_assoc]
        rfl
      exact h.pastAll hsplit hmore hcur

/-- `next`, for the loops that read ahead. -/
def reading : Source Reader RawMessage where
  next := next
  pending := pending
  done r := frames r.rest = []
  next_spec r := by
    obtain ⟨x, r', hnext, hpending, hdone, -⟩ := next_spec r
    exact ⟨x, r', hnext, hpending, hdone⟩
  pending_done r h := by
    rw [pending, h]
    rfl

theorem Counted.next {x : Option RawMessage} {r' : Reader} (h : Counted data n r)
    (hnext : r.next = some (x, r')) : Counted data n r' := by
  obtain ⟨x₁, r₁, hnext₁, -, -, hcounted⟩ := next_spec r
  obtain ⟨rfl, rfl⟩ := Prod.mk.inj (Option.some.inj (hnext₁.symm.trans hnext))
  exact hcounted data n h

/-- What is pending lies in the file, and is a frame that decodes. -/
theorem pending_decodes {r : Reader} {m : RawMessage} (hm : m ∈ pending r) :
    ∃ x, (bytesAt r.data m.body m.length.toNat).bind Message.decode = some x ∧
      ∃ body ∈ (frames r.rest).filter kept, Message.decode body = some x := by
  have hbytes : bytesAt r.data m.body m.length.toNat ∈
      (pending r).map fun m => bytesAt r.data m.body m.length.toNat :=
    List.mem_map_of_mem hm
  rw [pending, messagesAt_bodies] at hbytes
  obtain ⟨body, hbody, heq⟩ := List.mem_map.mp hbytes
  obtain ⟨x, hx⟩ :=
    Option.isSome_iff_exists.mp (Message.decode_isSome (List.mem_filter.mp hbody).2)
  exact ⟨x, by rw [← heq, Option.bind_some, hx], body, hbody, hx⟩

/-- Each message has a length before it. -/
theorem pending_length (data : List UInt8) :
    2 * (pending { data := data }).length ≤ data.length := by
  have hrest : ({ data := data } : Reader).rest = data := rfl
  have hmap := congrArg List.length (messagesAt_frames data)
  have hfilter := List.length_filter_le kept (frames data)
  have hspan : 2 * (frames data).length ≤ spanOf (frames data) := by
    generalize frames data = bodies
    induction bodies with
    | nil => exact le_rfl
    | cons body bodies ih =>
      rw [spanOf_cons, List.length_cons]
      omega
  have hle := spanOf_le data
  rw [List.length_map, List.length_map] at hmap
  rw [pending, hrest]
  show 2 * (messagesAt 0 (frames data)).length ≤ _
  omega

end Hotpath.Itch.Reader
