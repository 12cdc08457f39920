import Hotpath.Ipc.ShmRead

/-!
# A reader is never stuck

In every state of the ring a reader that has not left its loop has a next access: no
load of its own waits for the publisher or leaves the mapping.
-/

namespace Hotpath.Ipc

open Hotpath.Support ShmRing

variable {ι Word : Type}

/-- The reader whose access it is. -/
def Action.reader : Action ι Word → Option ι
  | .tryRead r | .read r | .copyOut r _ | .pollEof r => some r
  | _ => none

/-- The words that a reader has left to copy are words of a message. -/
def Copies (n : ℕ) : ReaderAt → Prop
  | .copy _ _ _ left => ∀ w ∈ left, w < n
  | _ => True

namespace Copies

variable {n : ℕ} {ring : ShmRing Word} {r r' : Reader Word}

theorem retry (next attempt : ℕ) : Copies n (Bus.retry next attempt) := by
  unfold Bus.retry
  split <;> trivial

theorem compareCount (capacity next published : ℕ) :
    Copies n (Bus.compareCount capacity next published) := by
  unfold Bus.compareCount
  split
  case isTrue => trivial
  case isFalse => split <;> trivial

theorem compareSeq (next attempt v1 v2 seq : ℕ) :
    Copies n (Bus.compareSeq next attempt v1 v2 seq) := by
  unfold Bus.compareSeq
  split
  case isTrue => exact retry next attempt
  case isFalse =>
    split
    case isTrue => trivial
    case isFalse => split <;> trivial

theorem readStep (hl : Laid n ring) (hs : Bus.readStep n ring r = some r') :
    Copies n r'.at_ := by
  unfold Bus.readStep at hs
  split at hs
  case h_1 =>
    obtain rfl := Option.some.inj hs
    exact compareCount ..
  case h_2 attempt hat =>
    obtain ⟨s, -, hs⟩ := Option.bind_eq_some_iff.mp hs
    obtain rfl := Option.some.inj hs
    show Copies n (if _ then _ else _)
    split
    case isTrue => exact retry r.next attempt
    case isFalse => trivial
  case h_3 =>
    obtain ⟨s, -, hs⟩ := Option.bind_eq_some_iff.mp hs
    obtain rfl := Option.some.inj hs
    intro w hw
    rw [hl.copied_eq] at hw
    exact List.mem_range.mp hw
  case h_4 =>
    obtain ⟨s, -, hs⟩ := Option.bind_eq_some_iff.mp hs
    obtain rfl := Option.some.inj hs
    exact compareSeq ..
  case h_5 status hat =>
    obtain rfl := Option.some.inj hs
    cases status <;> trivial
  case h_6 => cases hs

theorem copyOut (h : Copies n r.at_) {w : ℕ} (hs : Bus.copyOut ring r w = some r') :
    Copies n r'.at_ := by
  unfold Bus.copyOut at hs
  split at hs
  case h_1 attempt v1 seq left hat =>
    rw [hat] at h
    obtain ⟨-, hs⟩ := Option.ite_none_right_eq_some.mp hs
    obtain ⟨s, -, hs⟩ := Option.bind_eq_some_iff.mp hs
    obtain ⟨x, -, hs⟩ := Option.bind_eq_some_iff.mp hs
    obtain rfl := Option.some.inj hs
    exact fun w hw => h w (List.mem_of_mem_erase hw)
  case h_2 => cases hs

theorem tryRead (hs : Bus.tryRead r = some r') : Copies n r'.at_ := by
  unfold Bus.tryRead at hs
  split at hs
  case h_1 => obtain rfl := Option.some.inj hs; trivial
  case h_2 => obtain rfl := Option.some.inj hs; trivial
  case h_3 => cases hs

theorem pollEof (hs : Bus.pollEof ring r = some r') : Copies n r'.at_ := by
  unfold Bus.pollEof at hs
  split at hs
  case h_1 =>
    obtain rfl := Option.some.inj hs
    show Copies n (if _ then _ else _)
    split <;> trivial
  case h_2 => cases hs

end Copies

namespace Bus

variable {n : ℕ} {b b' : Bus ι Word} [DecidableEq ι]

theorem onReader_copies (h : ∀ r, Copies n (b.readers r).at_) {r : ι}
    {f : Reader Word → Option (Reader Word)}
    (hf : ∀ r', f (b.readers r) = some r' → Copies n r'.at_) (hs : b.onReader r f = some b') :
    ∀ r, Copies n (b'.readers r).at_ := by
  obtain ⟨r', hr', rfl⟩ := Option.map_eq_some_iff.mp hs
  intro i
  show Copies n (Function.update b.readers r r' i).at_
  by_cases heq : i = r
  case pos =>
    rw [heq, Function.update_self]
    exact hf r' hr'
  case neg =>
    rw [Function.update_of_ne heq]
    exact h i

theorem step_copies (hsound : b.Sound n) (h : ∀ r, Copies n (b.readers r).at_)
    {a : Action ι Word} (hs : b.step n a = some b') : ∀ r, Copies n (b'.readers r).at_ := by
  have hb := hsound.publishes
  cases a with
  | publish data => rw [(publish_spec hb hs).2.readers]; exact h
  | markEof => rw [(markEof_spec hb hs).2.readers]; exact h
  | advance => rw [(advance_spec hb hs).2.readers]; exact h
  | copyIn w => rw [(copyIn_spec hb hs).2.readers]; exact h
  | tryRead r => exact onReader_copies h (fun _ hr => .tryRead hr) hs
  | read r => exact onReader_copies h (fun _ hr => .readStep hb.laid hr) hs
  | copyOut r w =>
    have hstep : b.onReader r (fun reader => copyOut b.ring reader w) = some b' := hs
    exact onReader_copies h (fun _ hr => (h r).copyOut hr) hstep
  | pollEof r => exact onReader_copies h (fun _ hr => .pollEof hr) hs

theorem runs_copies (hsound : b.Sound n) (h : ∀ r, Copies n (b.readers r).at_)
    {as : List (Action ι Word)} (hrun : runs (step n) b as = some b') :
    ∀ r, Copies n (b'.readers r).at_ := by
  have hboth : b'.Sound n ∧ ∀ r, Copies n (b'.readers r).at_ := by
    apply runs_keeps _ ⟨hsound, h⟩ hrun
    exact fun _ _ _ h hs => ⟨(step_keeps h.1 hs).1, step_copies h.1 h.2 hs⟩
  exact hboth.2

/-- The next access of a reader, by where it stands. -/
theorem reader_goes_on (h : b.Sound n) {r : ι} (hcopies : Copies n (b.readers r).at_)
    (hat : (b.readers r).at_ ≠ .exited) :
    ∃ a b', a.reader = some r ∧ b.step n a = some b' := by
  have hlaid := h.publishes.laid
  obtain ⟨s, hs⟩ := hlaid.slot_exists (b.readers r).next
  have htaken {f : Reader Word → Option (Reader Word)} {rd : Reader Word}
      (hf : f (b.readers r) = some rd) : ∃ b', b.onReader r f = some b' :=
    ⟨_, Option.map_eq_some_iff.mpr ⟨rd, hf, rfl⟩⟩
  have hread {rd : Reader Word} (hf : readStep n b.ring (b.readers r) = some rd) :
      ∃ a b', a.reader = some r ∧ b.step n a = some b' := by
    obtain ⟨b', hb'⟩ := htaken hf
    exact ⟨.read r, b', rfl, hb'⟩
  have hcall {rd : Reader Word} (hf : tryRead (b.readers r) = some rd) :
      ∃ a b', a.reader = some r ∧ b.step n a = some b' := by
    obtain ⟨b', hb'⟩ := htaken hf
    exact ⟨.tryRead r, b', rfl, hb'⟩
  cases hplace : (b.readers r).at_ with
  | idle => exact hcall (by rw [tryRead, hplace])
  | checkEof => exact hcall (by rw [tryRead, hplace])
  | loadCount => exact hread (by rw [readStep, hplace])
  | loadVersion attempt => exact hread (by rw [readStep, hplace, hs]; rfl)
  | loadSeq attempt v1 => exact hread (by rw [readStep, hplace, hs]; rfl)
  | copy attempt v1 seq left =>
    cases left with
    | nil => exact hread (by rw [readStep, hplace, hs]; rfl)
    | cons w left =>
      rw [hplace] at hcopies
      have hw : w < s.payload.length := by
        rw [hlaid.words _ s hs]
        exact (hcopies w List.mem_cons_self).trans_le hlaid.fits
      have hword : ∃ rd, copyOut b.ring (b.readers r) w = some rd := by
        rw [copyOut, hplace]
        dsimp only
        rw [if_pos List.mem_cons_self, hs, Option.bind_eq_bind, Option.bind_some,
          List.getElem?_eq_getElem hw]
        exact ⟨_, rfl⟩
      obtain ⟨rd, hrd⟩ := hword
      obtain ⟨b', hb'⟩ := htaken (f := fun reader => copyOut b.ring reader w) hrd
      exact ⟨.copyOut r w, b', rfl, hb'⟩
  | returning status => exact hread (by rw [readStep, hplace])
  | exited => exact absurd hplace hat

end Bus

end Hotpath.Ipc
