import Hotpath.Rtl.Refine

/-!
# The co-simulation on every stream

What `run_cpp` reads from an input, and that the hardware strobes the same
messages from the part of it the reader consumed, however the bytes are spaced.
-/

namespace Hotpath.Rtl
open Hotpath.Itch Hotpath.Itch.Reader Hotpath.Support

variable {l rest body : List UInt8}

/-! ### The software side -/

/-- The reader once its loop over `b` has ended. -/
def readerAfter (b : List UInt8) : Reader :=
  (({ data := b } : Reader).pastAll (frames b)).finish (ending (b.drop (spanOf (frames b))))

/-- The software side decodes the kept frames. -/
theorem runCpp_eq (b : List UInt8) :
    runCpp b = some (((frames b).filter kept).map decodeBody, (readerAfter b).stats) := by
  have hrun := readAll_eq b
  have hbodies := messagesAt_frames b
  obtain ⟨hdata, hcur⟩ := pastAll_cur (frames b) { data := b }
  have hend : (({ data := b } : Reader).pastAll (frames b)).rest = b.drop (spanOf (frames b)) := by
    rw [Reader.rest, hdata, hcur]
    show b.drop (0 + spanOf (frames b)) = _
    rw [Nat.zero_add]
  rw [hend] at hrun
  have hdecode := @mapM_some _ _ _ (messagesAt 0 (frames b)) ((frames b).filter kept)
    (fun m => bytesAt b m.body m.length.toNat) (fun m body => decode m.length body) decodeBody
    hbodies (fun m body hm hk => by
      have hin : m.body + m.length.toNat ≤ b.length := by
        rw [← bytesAt_isSome, hm]
        rfl
      have hlen : body.length = m.length.toNat := by
        rw [bytesAt_of_le hin] at hm
        rw [← Option.some.inj hm, window_length]
        omega
      have hdec := decode_kept (List.mem_filter.mp hk).2
      rwa [hlen, UInt16.ofNat_toNat] at hdec)
  rw [runCpp, hrun]
  simp only [Option.bind_eq_bind, Option.bind_some] at hdecode ⊢
  rw [hdecode]
  rfl

/-! ### The part of the stream that is compared -/

theorem readerAfter_stats (b : List UInt8) :
    (readerAfter b).stats.shortMessage = (frames b).countP (fun body => !kept body) ∧
    (readerAfter b).stats.bytes = spanOf (frames b) +
      (if ending (b.drop (spanOf (frames b))) = .terminator then 2 else 0) ∧
    (readerAfter b).stats.zeroLength =
      (if ending (b.drop (spanOf (frames b))) = .zero then 1 else 0) := by
  obtain ⟨-, h2, -, -, -, h6, h7⟩ := pastAll_stats (frames b) { data := b }
  have hbytes : (({ data := b } : Reader).pastAll (frames b)).stats.bytes = spanOf (frames b) :=
    h2.trans (Nat.zero_add _)
  have hshort := h7.trans (Nat.zero_add _)
  unfold readerAfter
  cases ending (b.drop (spanOf (frames b))) with
  | exhausted => exact ⟨hshort, hbytes, h6⟩
  | terminator => exact ⟨hshort, congrArg (· + 2) hbytes, h6⟩
  | zero => exact ⟨hshort, hbytes, congrArg (· + 1) h6⟩
  | cut => exact ⟨hshort, hbytes, h6⟩

/-- The frames alone are framed the same. -/
theorem frames_take (l : List UInt8) : frames (l.take (spanOf (frames l))) = frames l := by
  generalize hb : frames l = bodies
  induction bodies generalizing l with
  | nil => exact frames_none rfl
  | cons body bodies ih =>
    obtain ⟨rest, hf, hrest⟩ := frames_cons hb
    have hrec := ih rest hrest
    obtain ⟨hi, lo, rfl, hn, hne⟩ := frame_some hf
    have hspan : spanOf (body :: bodies) = body.length + spanOf bodies + 1 + 1 := by
      rw [spanOf_cons]
      omega
    rw [hspan, List.take_succ_cons, List.take_succ_cons, List.take_length_add_append,
      frames_some (frame_append hn hne), hrec]

/-- Neither the consumed part of a stream nor one without a misplaced zero length
is cut off by one, and its frames are the stream's. -/
theorem clean_consumed {b p : List UInt8} (hp : p = b.take (readerAfter b).stats.bytes ∨
    (readerAfter b).stats.zeroLength = 0 ∧ p = b) : frames p = frames b ∧ Clean p := by
  obtain ⟨-, hbytes, hzero⟩ := readerAfter_stats b
  cases hp with
  | inl hp =>
    by_cases ht : ending (b.drop (spanOf (frames b))) = .terminator
    · have hle := spanOf_le b
      have htwo := terminator_length ht
      rw [List.length_drop] at htwo
      have hall : b.length ≤ (readerAfter b).stats.bytes := by
        rw [hbytes, if_pos ht]
        omega
      rw [hp, List.take_of_length_le hall]
      refine ⟨rfl, ?_⟩
      unfold Clean
      rw [ht]
      decide
    · rw [if_neg ht, Nat.add_zero] at hbytes
      have hframes := frames_take b
      rw [hp, hbytes]
      refine ⟨hframes, ?_⟩
      unfold Clean
      rw [hframes, List.drop_eq_nil_of_le (by rw [List.length_take]; omega)]
      decide
  | inr hp =>
    obtain ⟨hz, rfl⟩ := hp
    refine ⟨rfl, fun hc => ?_⟩
    rw [hz, if_pos hc] at hzero
    cases hzero

/-! ### Every schedule -/

/-- For every stream and every schedule that presents the consumed part of it
after a reset, with any idle edges between its bytes and some at its end: the
strobed messages are those of the software parser, the rejects are counted the
same, and each strobe comes on the edge after the one that accepted the last
byte of a frame. -/
theorem strobes_reader (b : List UInt8) :
    ∃ msgs stats, runCpp b = some (msgs, stats) ∧
      ∀ (r : Regs) (reset : Cycle) (cs idle : List Cycle), reset.rst = true →
        (∀ c ∈ cs ++ idle, c.rst = false) → (∀ c ∈ idle, c.valid = false) → idle ≠ [] →
        (accepted cs = b.take stats.bytes ∨ stats.zeroLength = 0 ∧ accepted cs = b) →
        strobed (Regs.trace (Regs.step reset r) (cs ++ idle)) = msgs ∧
        (Regs.trace (Regs.step reset r) (cs ++ idle)).countP Regs.eShort = stats.shortMessage ∧
        ∀ j r', (Regs.trace (Regs.step reset r) (cs ++ idle))[j]? = some r' →
          ((r'.mValid = true ∨ r'.eShort = true) ↔
            ∃ i, j = i + 1 ∧ EndsFrame b (cs ++ idle) i) := by
  refine ⟨_, _, runCpp_eq b, ?_⟩
  intro r reset cs idle hreset hrst hidle hne hpart
  obtain ⟨hframes, hclean⟩ := clean_consumed hpart
  -- the registers the machine needs are cleared, the others hold anything
  have hstep : Regs.step reset r = r.reset := if_pos hreset
  obtain ⟨idle, d, rfl⟩ := (List.eq_nil_or_concat idle).resolve_left hne
  rw [List.concat_eq_append] at hrst hidle ⊢
  rw [← List.append_assoc] at hrst ⊢
  have hd : d.valid = false := hidle d (by simp)
  have hacc : accepted (cs ++ idle) = accepted cs := by
    rw [accepted_append, accepted_idle fun c hc => hidle c (List.mem_append_left _ hc),
      List.append_nil]
  rw [← hacc] at hframes hclean
  obtain ⟨h1, h2, h3⟩ := @clean_strobes (Regs.step reset r) (cs ++ idle) d hrst hd hclean
    (by rw [hstep]; rfl) (by rw [hstep]; rfl)
  rw [hframes] at h1 h2
  refine ⟨h1, h2.trans (readerAfter_stats b).1.symm, fun j r' hj => ?_⟩
  have h := h3 j r' hj
  unfold EndsFrame at h ⊢
  rwa [hframes] at h

/-- An 11-byte body of no known type, with an idle edge inside its length. -/
def stalled : List Cycle :=
  [⟨false, true, 0⟩, ⟨false, false, 7⟩] ++
    ([11, 122, 0, 1, 0, 0, 0, 0, 0, 0, 0, 0].map fun x => ⟨false, true, x⟩)

theorem strobes_reader_stalled :
    strobed (Regs.trace (Regs.step ⟨true, false, 0⟩ default) (stalled ++ [⟨false, false, 0⟩])) =
      [{ type := 122, length := 11, locate := 1, timestamp := 0 }] := by
  obtain ⟨msgs, stats, hrun, h⟩ := strobes_reader (accepted stalled)
  have heval : (runCpp (accepted stalled)).map (fun x => (x.1, x.2.bytes)) =
      some ([{ type := 122, length := 11, locate := 1, timestamp := 0 }], 13) := by
    decide +kernel
  rw [hrun] at heval
  obtain ⟨hmsgs, hbytes⟩ := Prod.mk.inj (Option.some.inj heval)
  obtain ⟨hout, -⟩ := h default ⟨true, false, 0⟩ stalled [⟨false, false, 0⟩] rfl (by decide)
    (by decide) (by decide) (Or.inl (by rw [hbytes]; decide))
  exact hout.trans hmsgs

end Hotpath.Rtl
