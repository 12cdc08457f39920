import Hotpath.Itch.Reader

/-!
# The reader against its framing

The frames of an input, as a definition on byte lists; what one pass of `next`
makes of them, and from it what the whole loop reads, counts and leaves behind.
-/

namespace Hotpath.Itch
open Hotpath.Support

/-- The first frame of the bytes: its body and what follows it. -/
def frame : List UInt8 → Option (List UInt8 × List UInt8)
  | hi :: lo :: rest =>
    if bigEndian [hi, lo] = 0 ∨ rest.length < bigEndian [hi, lo] then none
    else some (rest.take (bigEndian [hi, lo]), rest.drop (bigEndian [hi, lo]))
  | _ => none

theorem frame_length {l body rest : List UInt8} (h : frame l = some (body, rest)) :
    l.length = 2 + body.length + rest.length ∧ 0 < body.length := by
  unfold frame at h
  split at h
  · split at h
    · cases h
    · rename_i hn
      obtain ⟨rfl, rfl⟩ := Prod.mk.inj (Option.some.inj h)
      simp only [List.length_cons, List.length_take, List.length_drop]
      omega
  · cases h

theorem frame_some {l body rest : List UInt8} (h : frame l = some (body, rest)) : ∃ hi lo, l = hi :: lo :: (body ++ rest) ∧
    bigEndian [hi, lo] = body.length ∧ body ≠ [] := by
  have hpos := (frame_length h).2
  unfold frame at h
  split at h
  · rename_i hi lo tail
    split at h
    · cases h
    · rename_i hn
      obtain ⟨hb, hr⟩ := Prod.mk.inj (Option.some.inj h)
      refine ⟨hi, lo, ?_, ?_, List.length_pos_iff.mp hpos⟩
      · rw [← hb, ← hr, List.take_append_drop]
      · rw [← hb, List.length_take]
        omega
  · cases h

theorem frame_append {hi lo : UInt8} {body rest : List UInt8} (hn : bigEndian [hi, lo] = body.length) (hne : body ≠ []) :
    frame (hi :: lo :: (body ++ rest)) = some (body, rest) := by
  have hpos := List.length_pos_of_ne_nil hne
  have hin : ¬(bigEndian [hi, lo] = 0 ∨ (body ++ rest).length < bigEndian [hi, lo]) := by
    rw [hn, List.length_append]
    omega
  rw [frame, if_neg hin, hn, List.take_left, List.drop_left]

/-- The bodies of the frames, up to the first zero length, incomplete frame or
lone byte. -/
def frames (l : List UInt8) : List (List UInt8) :=
  match _h : frame l with
  | none => []
  | some (body, rest) => body :: frames rest
termination_by l.length
decreasing_by
  have := frame_length _h
  omega

theorem frames_none {l : List UInt8} (h : frame l = none) : frames l = [] := by
  rw [frames]
  split
  · rfl
  · rename_i h'
    rw [h] at h'
    cases h'

theorem frames_some {l body rest : List UInt8} (h : frame l = some (body, rest)) :
    frames l = body :: frames rest := by
  rw [frames]
  split
  · rename_i h'
    rw [h] at h'
    cases h'
  · rename_i h'
    rw [h] at h'
    obtain ⟨rfl, rfl⟩ := Prod.mk.inj (Option.some.inj h')
    rfl

theorem frames_cons {l body : List UInt8} {bodies : List (List UInt8)}
    (h : frames l = body :: bodies) : ∃ rest, frame l = some (body, rest) ∧ frames rest = bodies := by
  cases hf : frame l with
  | none =>
    rw [frames_none hf] at h
    cases h
  | some x =>
    obtain ⟨body', rest⟩ := x
    rw [frames_some hf] at h
    obtain ⟨rfl, hrest⟩ := List.cons.inj h
    exact ⟨rest, rfl, hrest⟩

/-! ### What a frame counts as -/

def typeOf (body : List UInt8) : UInt8 := body.headD 0

/-- Long enough for the header and for its type. -/
def kept (body : List UInt8) : Bool :=
  kHeaderLength.toNat ≤ body.length ∧ (specLength (typeOf body)).toNat ≤ body.length

def unknown (body : List UInt8) : Bool :=
  kHeaderLength.toNat ≤ body.length ∧ specLength (typeOf body) = 0

def mismatched (body : List UInt8) : Bool :=
  kHeaderLength.toNat ≤ body.length ∧ specLength (typeOf body) ≠ 0 ∧
    (specLength (typeOf body)).toNat ≠ body.length

/-- The counters after one more frame. -/
def tally (s : ReaderStats) (body : List UInt8) : ReaderStats :=
  { s with
    messages := s.messages + 1
    bytes := s.bytes + (2 + body.length)
    unknownType := s.unknownType + if unknown body then 1 else 0
    lengthMismatch := s.lengthMismatch + if mismatched body then 1 else 0
    shortMessage := s.shortMessage + if kept body then 0 else 1
    perType := Function.update s.perType (typeOf body).toFin (s.perType (typeOf body).toFin + 1) }

/-- Why the reading stops. -/
inductive Ending where
  | exhausted
  | terminator
  | zero
  | cut
  deriving DecidableEq, Repr

def ending : List UInt8 → Ending
  | hi :: lo :: rest =>
    if bigEndian [hi, lo] = 0 then (if rest = [] then .terminator else .zero) else .cut
  | _ => .exhausted

theorem terminator_length {l : List UInt8} (h : ending l = .terminator) : l.length = 2 := by
  cases l with
  | nil => cases h
  | cons hi l =>
    cases l with
    | nil => cases h
    | cons lo tail =>
      cases tail with
      | nil => rfl
      | cons x xs =>
        rw [ending, if_neg (List.cons_ne_nil x xs)] at h
        split at h
        · cases h
        · cases h

namespace Reader

def rest (r : Reader) : List UInt8 := r.data.drop r.cur

/-- The reader past one more frame. -/
def past (r : Reader) (body : List UInt8) : Reader :=
  { r with cur := r.cur + (2 + body.length), stats := tally r.stats body }

/-- The reader once it has stopped. -/
def finish (r : Reader) : Ending → Reader
  | .exhausted => r
  | .terminator => { r with cur := r.data.length, stats := { r.stats with bytes := r.stats.bytes + 2 } }
  | .zero => { r with stats := { r.stats with zeroLength := r.stats.zeroLength + 1 } }
  | .cut =>
    { r with cur := r.data.length, stats := { r.stats with truncated := r.stats.truncated + 1 } }

/-- The message a body is handed out as. -/
def handed (off : ℕ) (body : List UInt8) : RawMessage := ⟨off + 2, UInt16.ofNat body.length⟩

variable {r : Reader} {body rest : List UInt8}

theorem rest_cons {hi lo : UInt8} {tail : List UInt8} (h : r.rest = hi :: lo :: tail) :
    r.data.length = r.cur + (2 + tail.length) ∧
      rdU16 r.data r.cur = some (UInt16.ofNat (bigEndian [hi, lo])) ∧
      r.data.drop (r.cur + 2) = tail := by
  have hlen := congrArg List.length h
  rw [Reader.rest, List.length_drop] at hlen
  simp only [List.length_cons] at hlen
  refine ⟨by omega, ?_, ?_⟩
  · rw [rdU16, bytesAt_of_le (by omega), window]
    have hdrop : r.data.drop r.cur = hi :: lo :: tail := h
    rw [hdrop]
    rfl
  · have hdrop : r.data.drop r.cur = hi :: lo :: tail := h
    rw [← List.drop_drop, hdrop]
    rfl

theorem prefix_toNat (hi lo : UInt8) :
    (UInt16.ofNat (bigEndian [hi, lo])).toNat = bigEndian [hi, lo] := by
  have h : bigEndian [hi, lo] < 256 ^ 2 := bigEndian_lt [hi, lo]
  rw [UInt16.toNat_ofNat']
  exact Nat.mod_eq_of_lt h

/-- A pass that finds no frame. -/
theorem attempt_stop (h : frame r.rest = none) :
    r.attempt = some (.stop (r.finish (ending r.rest))) := by
  cases hr : r.rest with
  | nil =>
    have hlen : r.data.length < r.cur + 2 := by
      have := congrArg List.length hr
      rw [Reader.rest, List.length_drop, List.length_nil] at this
      omega
    rw [attempt, if_pos hlen]
    rfl
  | cons hi l =>
    cases l with
    | nil =>
      have hlen : r.data.length < r.cur + 2 := by
        have := congrArg List.length hr
        rw [Reader.rest, List.length_drop, List.length_singleton] at this
        omega
      rw [attempt, if_pos hlen]
      rfl
    | cons lo tail =>
      obtain ⟨hlen, hrd, -⟩ := rest_cons hr
      have hn := prefix_toNat hi lo
      have hge : ¬r.data.length < r.cur + 2 := by omega
      rw [hr, frame] at h
      simp only [attempt, if_neg hge, hrd, Option.bind_eq_bind, Option.bind_some]
      by_cases h0 : bigEndian [hi, lo] = 0
      · have hz : UInt16.ofNat (bigEndian [hi, lo]) = 0 := by rw [h0]; rfl
        rw [if_pos hz, ending, if_pos h0]
        by_cases ht : tail = []
        · rw [ht, List.length_nil] at hlen
          rw [if_pos hlen.symm, if_pos ht]
          rfl
        · have hne : ¬r.cur + 2 = r.data.length := by
            have := List.length_pos_of_ne_nil ht
            omega
          rw [if_neg hne, if_neg ht]
          rfl
      · have hz : ¬UInt16.ofNat (bigEndian [hi, lo]) = 0 := by
          intro hc
          rw [hc] at hn
          exact h0 hn.symm
        have hcut : r.data.length < r.cur + 2 + (UInt16.ofNat (bigEndian [hi, lo])).toNat := by
          rw [hn]
          by_contra hc
          rw [if_neg (by omega)] at h
          cases h
        rw [if_neg hz, if_pos hcut, ending, if_neg h0]
        rfl

/-- A pass over a frame: the message is handed out or skipped. -/
theorem attempt_frame (h : frame r.rest = some (body, rest)) :
    (r.past body).rest = rest ∧ window r.data (r.cur + 2) body.length = body ∧
    r.cur + 2 + body.length ≤ r.data.length ∧ body.length < 2 ^ 16 ∧
    r.attempt = some (if kept body then .out (handed r.cur body) (r.past body)
      else .skip (r.past body)) := by
  cases hr : r.rest with
  | nil =>
    rw [hr] at h
    cases h
  | cons hi l =>
    cases l with
    | nil =>
      rw [hr] at h
      cases h
    | cons lo tail =>
      obtain ⟨hlen, hrd, hdrop⟩ := rest_cons hr
      rw [hr, frame] at h
      have hn := prefix_toNat hi lo
      have hlt := bigEndian_lt [hi, lo]
      generalize hlv : UInt16.ofNat (bigEndian [hi, lo]) = len at hrd hn
      rw [← hn] at h hlt
      by_cases hstop : len.toNat = 0 ∨ tail.length < len.toNat
      · rw [if_pos hstop] at h
        cases h
      rw [if_neg hstop] at h
      obtain ⟨hbody, hrest⟩ := Prod.mk.inj (Option.some.inj h)
      have hbl : body.length = len.toNat := by
        rw [← hbody, List.length_take]
        omega
      refine ⟨?_, ?_, by omega, by rw [hbl]; exact UInt16.toNat_lt len, ?_⟩
      · show r.data.drop (r.cur + (2 + body.length)) = rest
        rw [← Nat.add_assoc, ← List.drop_drop, hdrop, hbl, hrest]
      · rw [window, hdrop, hbl, hbody]
      · -- the checks of the source, in its order
        have hge : ¬r.data.length < r.cur + 2 := by omega
        have hz : ¬len = 0 := by
          intro hc
          rw [hc] at hstop
          exact hstop (Or.inl rfl)
        have hcut : ¬r.data.length < r.cur + 2 + len.toNat := by omega
        have htype : r.data[r.cur + 2]? = some (typeOf body) := by
          have hget : (r.data.drop (r.cur + 2))[0]? = r.data[r.cur + 2]? := by
            rw [List.getElem?_drop, Nat.add_zero]
          rw [← hget, hdrop, ← hbody, typeOf]
          cases tail with
          | nil =>
            simp only [List.length_nil] at hstop
            omega
          | cons x xs =>
            obtain ⟨k, hk⟩ : ∃ k, len.toNat = k + 1 := ⟨len.toNat - 1, by omega⟩
            rw [hk]
            rfl
        have hhead : len < kHeaderLength ↔ ¬kHeaderLength.toNat ≤ body.length := by
          rw [UInt16.lt_iff_toNat_lt, hbl]
          omega
        have hspec : len < specLength (typeOf body) ↔
            ¬(specLength (typeOf body)).toNat ≤ body.length := by
          rw [UInt16.lt_iff_toNat_lt, hbl]
          omega
        have hsame : specLength (typeOf body) = len ↔
            (specLength (typeOf body)).toNat = body.length := by
          rw [hbl, UInt16.toNat_inj]
        simp only [attempt, if_neg hge, hrd, if_neg hz, if_neg hcut, htype, Option.bind_eq_bind,
          Option.bind_some]
        by_cases h1 : len < kHeaderLength
        · have hs := hhead.mp h1
          have hk : kept body = false := by simp [kept, hs]
          have hu : unknown body = false := by simp [unknown, hs]
          have hm : mismatched body = false := by simp [mismatched, hs]
          rw [if_pos h1]
          simp only [Reader.past, tally, hk, hu, hm, hbl]
          rfl
        · rw [if_neg h1]
          have hs : kHeaderLength.toNat ≤ body.length := not_not.mp fun hc => h1 (hhead.mpr hc)
          by_cases h2 : specLength (typeOf body) = 0
          · have hk : kept body = true := by simp [kept, hs, h2]
            have hu : unknown body = true := by simp [unknown, hs, h2]
            have hm : mismatched body = false := by simp [mismatched, h2]
            rw [if_pos h2]
            simp only [Reader.past, tally, handed, hk, hu, hm, hbl, UInt16.ofNat_toNat]
            rfl
          · rw [if_neg h2]
            have hu : unknown body = false := by simp [unknown, h2]
            by_cases h3 : specLength (typeOf body) = len
            · have he := hsame.mp h3
              have hk : kept body = true := by simp [kept, hs, he]
              have hm : mismatched body = false := by simp [mismatched, he]
              rw [if_neg (not_not.mpr h3)]
              simp only [Reader.past, tally, handed, hk, hu, hm, hbl, UInt16.ofNat_toNat]
              rfl
            · have he : ¬(specLength (typeOf body)).toNat = body.length := fun hc => h3 (hsame.mpr hc)
              have hm : mismatched body = true := by simp [mismatched, hs, h2, he]
              rw [if_pos h3]
              by_cases h4 : len < specLength (typeOf body)
              · have hk : kept body = false := by simp [kept, hspec.mp h4]
                rw [if_pos h4]
                simp only [Reader.past, tally, hk, hu, hm, hbl]
                rfl
              · have hk : kept body = true := by
                  simp only [kept, decide_eq_true_eq]
                  exact ⟨hs, not_not.mp fun hc => h4 (hspec.mpr hc)⟩
                rw [if_neg h4]
                simp only [Reader.past, tally, handed, hk, hu, hm, hbl, UInt16.ofNat_toNat]
                rfl

/-! ### Runs -/

/-- The messages of the frames from offset `off` on. -/
def messagesAt (off : ℕ) : List (List UInt8) → List RawMessage
  | [] => []
  | body :: bodies =>
    if kept body then handed off body :: messagesAt (off + (2 + body.length)) bodies
    else messagesAt (off + (2 + body.length)) bodies

/-- The reader past all of these frames. -/
def pastAll (r : Reader) (bodies : List (List UInt8)) : Reader := bodies.foldl past r

/-- One call of `next`: the frames it skips, then what it returns. -/
theorem nextLoop_spec (fuel : ℕ) (r : Reader) (hfuel : r.data.length - r.cur < fuel) :
    ∃ skipped, (∀ body ∈ skipped, kept body = false) ∧
      ((frames r.rest = skipped ∧ nextLoop fuel r =
          some (none, (r.pastAll skipped).finish (ending (r.pastAll skipped).rest))) ∨
        ∃ body more, kept body = true ∧ frames r.rest = skipped ++ body :: more ∧
          frames (r.pastAll (skipped ++ [body])).rest = more ∧
          (r.pastAll (skipped ++ [body])).data = r.data ∧
          r.cur < (r.pastAll (skipped ++ [body])).cur ∧
          (r.pastAll (skipped ++ [body])).cur ≤ r.data.length ∧
          nextLoop fuel r = some (some (handed (r.pastAll skipped).cur body),
            r.pastAll (skipped ++ [body]))) := by
  induction fuel generalizing r with
  | zero => omega
  | succ fuel ih =>
    cases hf : frame r.rest with
    | none =>
      refine ⟨[], by simp, Or.inl ⟨frames_none hf, ?_⟩⟩
      rw [nextLoop, attempt_stop hf]
      rfl
    | some x =>
      obtain ⟨body, rest⟩ := x
      obtain ⟨hrest, -, hin, -, hatt⟩ := attempt_frame hf
      have hframes := frames_some hf
      have hpos := (frame_length hf).2
      cases hk : kept body with
      | true =>
        rw [hk, if_pos rfl] at hatt
        refine ⟨[], by simp, Or.inr ⟨body, frames rest, hk, hframes, ?_, rfl, ?_, ?_, ?_⟩⟩
        · exact congrArg frames hrest
        · show r.cur < r.cur + (2 + body.length)
          omega
        · show r.cur + (2 + body.length) ≤ r.data.length
          omega
        · rw [nextLoop, hatt]
          rfl
      | false =>
        rw [hk, if_neg (by simp)] at hatt
        have hcur : (r.past body).cur = r.cur + (2 + body.length) := rfl
        have hdata : (r.past body).data = r.data := rfl
        obtain ⟨skipped, hall, hcase⟩ := ih (r.past body) (by rw [hcur, hdata]; omega)
        have hstep : nextLoop (fuel + 1) r = nextLoop fuel (r.past body) := by
          rw [nextLoop, hatt]
          rfl
        refine ⟨body :: skipped, fun b hb => ?_, ?_⟩
        · cases hb with
          | head => exact hk
          | tail _ hb => exact hall b hb
        · rw [hframes, hstep, ← hrest]
          cases hcase with
          | inl hcase => exact Or.inl ⟨by rw [hcase.1], hcase.2⟩
          | inr hcase =>
            obtain ⟨b, more, h1, h2, h3, h4, h5, h6, h7⟩ := hcase
            have hlt : r.cur < (r.past body).cur := by omega
            exact Or.inr ⟨b, more, h1, by rw [h2]; rfl, h3, h4, hlt.trans h5, h6, h7⟩

theorem messagesAt_skip {skipped bodies : List (List UInt8)} {r : Reader}
    (h : ∀ body ∈ skipped, kept body = false) :
    messagesAt r.cur (skipped ++ bodies) = messagesAt (r.pastAll skipped).cur bodies := by
  induction skipped generalizing r with
  | nil => rfl
  | cons body skipped ih =>
    have hk := h body (List.mem_cons_self ..)
    rw [List.cons_append, messagesAt, hk, if_neg (by simp)]
    exact ih (r := r.past body) fun b hb => h b (List.mem_cons_of_mem _ hb)

theorem pastAll_append (r : Reader) (xs ys : List (List UInt8)) :
    r.pastAll (xs ++ ys) = (r.pastAll xs).pastAll ys := List.foldl_append ..

/-- The whole loop: it hands out the kept frames and counts them all. -/
theorem readLoop_spec (fuel : ℕ) (r : Reader) (hfuel : r.data.length - r.cur < fuel) :
    readLoop fuel r = some (messagesAt r.cur (frames r.rest),
      (r.pastAll (frames r.rest)).finish (ending (r.pastAll (frames r.rest)).rest)) := by
  induction fuel generalizing r with
  | zero => omega
  | succ fuel ih =>
    obtain ⟨skipped, hall, hcase⟩ := nextLoop_spec (r.data.length + 1) r (by omega)
    cases hcase with
    | inl hcase =>
      obtain ⟨hframes, hnext⟩ := hcase
      have hnone : messagesAt r.cur skipped = [] := by
        have h := @messagesAt_skip skipped [] r hall
        rwa [List.append_nil] at h
      rw [hframes, hnone, readLoop, next, hnext]
      rfl
    | inr hcase =>
      obtain ⟨body, more, hk, hframes, hmore, hdata, hcur, hin, hnext⟩ := hcase
      have hrec := ih (r.pastAll (skipped ++ [body])) (by rw [hdata]; omega)
      rw [hmore] at hrec
      have hmsgs : messagesAt r.cur (skipped ++ body :: more) =
          handed (r.pastAll skipped).cur body ::
            messagesAt (r.pastAll (skipped ++ [body])).cur more := by
        rw [messagesAt_skip hall, messagesAt, hk, if_pos rfl, pastAll_append]
        rfl
      have hall' : r.pastAll (skipped ++ body :: more) = (r.pastAll (skipped ++ [body])).pastAll more := by
        rw [← pastAll_append, List.append_assoc]
        rfl
      rw [hframes, hmsgs, hall', readLoop, next, hnext]
      simp only [Option.bind_eq_bind, Option.bind_some, hrec]
      rfl

/-! ### Counters and bodies -/

/-- The bytes that frames take up. -/
def spanOf (bodies : List (List UInt8)) : ℕ := (bodies.map fun body => 2 + body.length).sum

theorem spanOf_cons (body : List UInt8) (bodies : List (List UInt8)) :
    spanOf (body :: bodies) = 2 + body.length + spanOf bodies := by
  rw [spanOf, List.map_cons, List.sum_cons, spanOf]

theorem drop_frame {l : List UInt8} (h : frame l = some (body, rest)) (k : ℕ) :
    l.drop (2 + body.length + k) = rest.drop k := by
  obtain ⟨hi, lo, rfl, -⟩ := frame_some h
  have hadd : 2 + body.length + k = body.length + k + 1 + 1 := by omega
  rw [hadd, List.drop_succ_cons, List.drop_succ_cons, ← List.drop_drop, List.drop_left]

theorem spanOf_le (l : List UInt8) : spanOf (frames l) ≤ l.length := by
  generalize hb : frames l = bodies
  induction bodies generalizing l with
  | nil => exact Nat.zero_le _
  | cons body bodies ih =>
    obtain ⟨rest, hf, hrest⟩ := frames_cons hb
    have hlen := (frame_length hf).1
    have hrec := ih rest hrest
    rw [spanOf_cons]
    omega

/-- After the last frame there is no other. -/
theorem frame_leftover (l : List UInt8) : frame (l.drop (spanOf (frames l))) = none := by
  generalize hb : frames l = bodies
  induction bodies generalizing l with
  | nil =>
    cases hf : frame l with
    | none => exact hf
    | some x => rw [frames_some hf] at hb; cases hb
  | cons body bodies ih =>
    obtain ⟨rest, hf, hrest⟩ := frames_cons hb
    have hrec := ih rest hrest
    rwa [spanOf_cons, drop_frame hf]

theorem pastAll_cur (bodies : List (List UInt8)) (r : Reader) :
    (r.pastAll bodies).data = r.data ∧ (r.pastAll bodies).cur = r.cur + spanOf bodies := by
  induction bodies generalizing r with
  | nil => exact ⟨rfl, rfl⟩
  | cons body bodies ih =>
    obtain ⟨hdata, hcur⟩ := ih (r.past body)
    refine ⟨hdata, hcur.trans ?_⟩
    show r.cur + (2 + body.length) + spanOf bodies = _
    rw [spanOf, spanOf, List.map_cons, List.sum_cons, Nat.add_assoc]

theorem pastAll_stats (bodies : List (List UInt8)) (r : Reader) :
    (r.pastAll bodies).stats.messages = r.stats.messages + bodies.length ∧
    (r.pastAll bodies).stats.bytes = r.stats.bytes + spanOf bodies ∧
    (r.pastAll bodies).stats.unknownType = r.stats.unknownType + bodies.countP unknown ∧
    (r.pastAll bodies).stats.lengthMismatch = r.stats.lengthMismatch + bodies.countP mismatched ∧
    (r.pastAll bodies).stats.truncated = r.stats.truncated ∧
    (r.pastAll bodies).stats.zeroLength = r.stats.zeroLength ∧
    (r.pastAll bodies).stats.shortMessage =
      r.stats.shortMessage + bodies.countP (fun body => !kept body) := by
  induction bodies generalizing r with
  | nil => exact ⟨rfl, rfl, rfl, rfl, rfl, rfl, rfl⟩
  | cons body bodies ih =>
    obtain ⟨h1, h2, h3, h4, h5, h6, h7⟩ := ih (r.past body)
    refine ⟨h1.trans ?_, h2.trans ?_, h3.trans ?_, h4.trans ?_, h5, h6, h7.trans ?_⟩
    · show r.stats.messages + 1 + bodies.length = r.stats.messages + (bodies.length + 1)
      omega
    · show r.stats.bytes + (2 + body.length) + spanOf bodies = _
      rw [spanOf, spanOf, List.map_cons, List.sum_cons, Nat.add_assoc]
    · show r.stats.unknownType + (if unknown body then 1 else 0) + bodies.countP unknown = _
      rw [List.countP_cons]
      omega
    · show r.stats.lengthMismatch + (if mismatched body then 1 else 0) +
        bodies.countP mismatched = _
      rw [List.countP_cons]
      omega
    · show r.stats.shortMessage + (if kept body then 0 else 1) +
        bodies.countP (fun body => !kept body) = _
      rw [List.countP_cons]
      cases kept body with
      | true => simp
      | false =>
        simp only [Bool.false_eq_true, if_false, Bool.not_false, if_true]
        omega

theorem pastAll_total (bodies : List (List UInt8)) (r : Reader) :
    ∑ t, (r.pastAll bodies).stats.perType t = ∑ t, r.stats.perType t + bodies.length := by
  induction bodies generalizing r with
  | nil => exact (Nat.add_zero _).symm
  | cons body bodies ih =>
    refine (ih (r.past body)).trans ?_
    have hone : ∀ t, (r.past body).stats.perType t =
        r.stats.perType t + if t = (typeOf body).toFin then 1 else 0 := by
      intro t
      show Function.update r.stats.perType (typeOf body).toFin
        (r.stats.perType (typeOf body).toFin + 1) t = _
      rw [Function.update_apply]
      split
      · rename_i ht
        rw [ht]
      · rfl
    simp only [hone, Finset.sum_add_distrib, Finset.sum_ite_eq', Finset.mem_univ, if_true,
      List.length_cons]
    omega

/-- The messages handed out are the kept bodies, each where it lies. -/
theorem messagesAt_bodies (r : Reader) :
    (messagesAt r.cur (frames r.rest)).map (fun m => bytesAt r.data m.body m.length.toNat) =
      ((frames r.rest).filter kept).map some := by
  generalize hb : frames r.rest = bodies
  induction bodies generalizing r with
  | nil => rfl
  | cons body bodies ih =>
    obtain ⟨rest, hf, hrest⟩ := frames_cons hb
    obtain ⟨hr, hw, hin, hlt, -⟩ := attempt_frame hf
    have hrec := ih (r.past body) (by rw [hr, hrest])
    have hat : bytesAt r.data (handed r.cur body).body (handed r.cur body).length.toNat =
        some body := by
      have hlen : (handed r.cur body).length.toNat = body.length := by
        show (UInt16.ofNat body.length).toNat = body.length
        rw [UInt16.toNat_ofNat', Nat.mod_eq_of_lt hlt]
      rw [hlen]
      show bytesAt r.data (r.cur + 2) body.length = some body
      rw [bytesAt_of_le hin, hw]
    rw [messagesAt, List.filter_cons]
    cases kept body with
    | true =>
      rw [if_pos rfl, if_pos rfl, List.map_cons, List.map_cons, hat]
      exact congrArg _ hrec
    | false => exact hrec

/-- The loop on a whole input. -/
theorem readAll_eq (data : List UInt8) :
    readAll data = some (messagesAt 0 (frames data),
      (({ data := data } : Reader).pastAll (frames data)).finish
        (ending (({ data := data } : Reader).pastAll (frames data)).rest)) := by
  have hrun := readLoop_spec (data.length + 1) { data := data } (by show data.length - 0 < _; omega)
  have hrest : ({ data := data } : Reader).rest = data := rfl
  rw [hrest] at hrun
  exact hrun

/-- What it hands out are the kept frames. -/
theorem messagesAt_frames (data : List UInt8) :
    (messagesAt 0 (frames data)).map (fun m => bytesAt data m.body m.length.toNat) =
      ((frames data).filter kept).map some := by
  have hbodies := messagesAt_bodies { data := data }
  have hrest : ({ data := data } : Reader).rest = data := rfl
  rw [hrest] at hbodies
  exact hbodies

/-- A read for each message of the bytes it spans, and a use of them. -/
theorem mapM_some {α β γ : Type} {xs : List α} {ys : List β} {f : α → Option β}
    {g : α → β → Option γ} {h : β → γ} (hf : xs.map f = ys.map some)
    (hg : ∀ x y, f x = some y → y ∈ ys → g x y = some (h y)) :
    (xs.mapM fun x => do g x (← f x)) = some (ys.map h) := by
  induction xs generalizing ys with
  | nil =>
    cases ys with
    | nil => rfl
    | cons y ys => cases hf
  | cons x xs ih =>
    cases ys with
    | nil => cases hf
    | cons y ys =>
      obtain ⟨hx, hrest⟩ := List.cons.inj hf
      have hrec := ih hrest fun x y hxy hy => hg x y hxy (List.mem_cons_of_mem _ hy)
      rw [List.mapM_cons, hrec, hx]
      simp only [Option.bind_eq_bind, Option.bind_some, hg x y hx (List.mem_cons_self ..),
        List.map_cons, Option.pure_def]

theorem kept_reads {body : List UInt8} (h : kept body = true) :
    HeaderReads body ∧ ∃ t, Header.type body = some t ∧ viewReads t body := by
  simp only [kept, decide_eq_true_eq] at h
  obtain ⟨hhead, hspec⟩ := h
  refine ⟨headerReads_of_le hhead, typeOf body, ?_, viewReads_of_le hspec⟩
  cases body with
  | nil => exact absurd hhead (by decide)
  | cons x l => rfl

/-- For every input the loop over `next` ends, having handed out the kept frames
of the input, with every accessor of their views inside them, and counted all. -/
theorem reads_frames (data : List UInt8) : ∃ msgs r, readAll data = some (msgs, r) ∧
    msgs.map (fun m => bytesAt data m.body m.length.toNat) = ((frames data).filter kept).map some ∧
    (∀ m ∈ msgs, ∃ body, bytesAt data m.body m.length.toNat = some body ∧ HeaderReads body ∧
      ∃ t, Header.type body = some t ∧ viewReads t body) ∧
    r.stats.messages = (frames data).length ∧ ∑ t, r.stats.perType t = r.stats.messages ∧
    r.stats.shortMessage = (frames data).countP (fun body => !kept body) ∧
    r.stats.unknownType = (frames data).countP unknown ∧
    r.stats.lengthMismatch = (frames data).countP mismatched := by
  have hrun := readAll_eq data
  have hbodies := messagesAt_frames data
  obtain ⟨h1, -, h3, h4, -, -, h7⟩ := pastAll_stats (frames data) { data := data }
  have htotal := pastAll_total (frames data) { data := data }
  have hzero : ∑ t : Fin 256, ({ data := data } : Reader).stats.perType t = 0 := by
    show ∑ t : Fin 256, 0 = 0
    rw [Finset.sum_const_zero]
  rw [hzero] at htotal
  -- stopping changes none of these counters
  have hfinish : ∀ (r : Reader) (e : Ending), (r.finish e).stats.messages = r.stats.messages ∧
      (r.finish e).stats.perType = r.stats.perType ∧
      (r.finish e).stats.shortMessage = r.stats.shortMessage ∧
      (r.finish e).stats.unknownType = r.stats.unknownType ∧
      (r.finish e).stats.lengthMismatch = r.stats.lengthMismatch := by
    intro r e
    cases e with
    | exhausted => exact ⟨rfl, rfl, rfl, rfl, rfl⟩
    | terminator => exact ⟨rfl, rfl, rfl, rfl, rfl⟩
    | zero => exact ⟨rfl, rfl, rfl, rfl, rfl⟩
    | cut => exact ⟨rfl, rfl, rfl, rfl, rfl⟩
  obtain ⟨f1, f2, f3, f4, f5⟩ := hfinish (({ data := data } : Reader).pastAll (frames data))
    (ending (({ data := data } : Reader).pastAll (frames data)).rest)
  refine ⟨_, _, hrun, hbodies, fun m hm => ?_, ?_, ?_, ?_, ?_, ?_⟩
  · have hmem := List.mem_map_of_mem (f := fun m => bytesAt data m.body m.length.toNat) hm
    have hmem' : bytesAt data m.body m.length.toNat ∈ ((frames data).filter kept).map some := by
      rw [← hbodies]
      exact hmem
    obtain ⟨body, hb, heq⟩ := List.mem_map.mp hmem'
    exact ⟨body, heq.symm, kept_reads (List.mem_filter.mp hb).2⟩
  · rw [f1, h1]
    exact Nat.zero_add _
  · rw [f1, f2, htotal, h1]
  · rw [f3, h7]
    exact Nat.zero_add _
  · rw [f4, h3]
    exact Nat.zero_add _
  · rw [f5, h4]
    exact Nat.zero_add _

/- An 11-byte message of no known type, then the end-of-file marker. -/
example : (readAll [0, 11, 122, 0, 1, 0, 0, 0, 0, 0, 0, 0, 0, 0, 0]).map
    (fun x => (x.1, x.2.stats.bytes, x.2.stats.unknownType)) = some ([⟨2, 11⟩], 15, 1) := by
  decide +kernel

end Reader

end Hotpath.Itch
