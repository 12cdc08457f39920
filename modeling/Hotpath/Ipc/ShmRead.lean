import Hotpath.Ipc.ShmPublish

/-!
# The readers' side of the ring

Whatever the publisher does between a reader's loads, a message is delivered whole
and under its own number, or counted in a gap.
-/

namespace Hotpath.Ipc

open Hotpath.Support ShmRing

variable {ι Word : Type}

/-- How far a gap goes, by what showed it. -/
def Lapped (b : Bus ι Word) (next skipTo : ℕ) : Cause → Prop
  | .count => skipTo + b.ring.capacity ≤ b.ring.writeSeq
  | .slot => skipTo % b.ring.capacity = next % b.ring.capacity ∧ skipTo < completed b.ring b.pub
  | .torn => True

/-- What a reader's place says. -/
def ReadsAt (n : ℕ) (b : Bus ι Word) (next : ℕ) (out : List Word) : ReaderAt → Prop
  | .idle | .loadCount | .checkEof | .returning .empty => True
  | .loadVersion _ => next < b.ring.writeSeq
  | .loadSeq _ v1 => next < b.ring.writeSeq ∧
    ∀ s, b.ring.slot next = some s → Seen Slot.version v1 (fun _ => True) s
  | .copy _ v1 seq left => next < b.ring.writeSeq ∧
    ∀ s, b.ring.slot next = some s →
      Seen Slot.version v1 (fun s => s.seq = seq ∧ ∀ i < n, i ∉ left → out[i]? = s.payload[i]?) s
  | .returning .ok => next < b.ring.writeSeq ∧ b.msgs[next]? = some out
  | .returning (.gap missed skipTo cause) =>
    1 ≤ missed ∧ skipTo = next + missed ∧ skipTo ≤ b.ring.writeSeq ∧ Lapped b next skipTo cause
  | .exited => next = b.ring.writeSeq ∧ b.pub = .done

structure Reads (n : ℕ) (b : Bus ι Word) (r : Reader Word) : Prop where
  total : r.received + r.missed = r.next
  bound : r.next ≤ b.ring.writeSeq
  out : r.out.length = n
  count : r.delivered.length = r.received
  order : (r.delivered.map Prod.fst).Pairwise (· < ·)
  below : ∀ d ∈ r.delivered, d.1 < r.next
  exact_ : ∀ d ∈ r.delivered, b.msgs[d.1]? = some d.2
  place : ReadsAt n b r.next r.out r.at_

namespace Reads

variable {n : ℕ} {b b' : Bus ι Word} {r r' : Reader Word} {at_ : ReaderAt}

/-- A step of the publisher changes nothing that a reader knows. -/
theorem later (h : Reads n b r) (hb : b.Publishes n) (hl : Later b b') : Reads n b' r := by
  have hback (s') (hs' : b'.ring.slot r.next = some s') :
      ∃ s, b.ring.slot r.next = some s ∧ Steady Slot.version s s' := by
    obtain ⟨s, hs⟩ := hb.laid.slot_exists r.next
    obtain ⟨s1, hs1, hsteady⟩ := hl.slots r.next s hs
    obtain rfl := Option.some.inj (hs1.symm.trans hs')
    exact ⟨s, hs, hsteady⟩
  have hwrite := hl.writeSeq
  have hplace := h.place
  constructor
  case total => exact h.total
  case bound => exact h.bound.trans hl.writeSeq
  case out => exact h.out
  case count => exact h.count
  case order => exact h.order
  case below => exact h.below
  case exact_ => exact fun d hd => kept_of_prefix hl.msgs (h.exact_ d hd)
  case place =>
    cases hat : r.at_ with
    | idle => trivial
    | loadCount => trivial
    | checkEof => trivial
    | loadVersion attempt =>
      rw [hat] at hplace
      exact lt_of_lt_of_le hplace hwrite
    | loadSeq attempt v1 =>
      rw [hat] at hplace
      apply And.intro (hplace.1.trans_le hwrite)
      intro s' hs'
      obtain ⟨s, hs, hsteady⟩ := hback s' hs'
      exact (hplace.2 s hs).steady hsteady
    | copy attempt v1 seq left =>
      rw [hat] at hplace
      apply And.intro (hplace.1.trans_le hwrite)
      intro s' hs'
      obtain ⟨s, hs, hsteady⟩ := hback s' hs'
      exact (hplace.2 s hs).steady hsteady
    | returning status =>
      rw [hat] at hplace
      cases status with
      | ok => exact ⟨hplace.1.trans_le hwrite, kept_of_prefix hl.msgs hplace.2⟩
      | empty => trivial
      | gap missed skipTo cause =>
        obtain ⟨hmissed, hskip, hle, hlapped⟩ := hplace
        apply And.intro hmissed
        apply And.intro hskip
        apply And.intro (hle.trans hwrite)
        cases cause with
        | count =>
          show skipTo + b'.ring.capacity ≤ b'.ring.writeSeq
          rw [hl.capacity]
          exact hlapped.trans hwrite
        | slot => exact ⟨hl.capacity ▸ hlapped.1, hlapped.2.trans_le hl.completed⟩
        | torn => trivial
    | exited =>
      rw [hat] at hplace
      obtain ⟨hdone, heq⟩ := hl.done hplace.2
      exact ⟨hplace.1.trans heq.symm, hdone⟩

/-- A step inside a call. -/
theorem moved (h : Reads n b r) {out : List Word} (hout : out.length = n)
    (hplace : ReadsAt n b r.next out at_) : Reads n b { r with at_ := at_, out := out } :=
  ⟨h.total, h.bound, hout, h.count, h.order, h.below, h.exact_, hplace⟩

theorem retry_place {next attempt : ℕ} {out : List Word} (h : next < b.ring.writeSeq) :
    ReadsAt n b next out (Bus.retry next attempt) := by
  unfold Bus.retry
  split
  case isTrue => exact h
  case isFalse => exact ⟨le_rfl, rfl, h, trivial⟩

theorem compareCount_place {next : ℕ} {out : List Word} :
    ReadsAt n b next out (Bus.compareCount b.ring.capacity next b.ring.writeSeq) := by
  unfold Bus.compareCount
  split
  case isTrue => trivial
  case isFalse hlt =>
    split
    case isTrue hlapped =>
      exact ⟨by omega, by omega, by omega, show _ - _ + _ ≤ _ by omega⟩
    case isFalse => exact Nat.lt_of_not_le hlt

theorem compareSeq_place (hb : b.Publishes n) {next attempt v1 seq : ℕ} {out : List Word}
    {s : Slot Word} (hout : out.length = n) (hs : b.ring.slot next = some s)
    (h : ReadsAt n b next out (.copy attempt v1 seq [])) :
    ReadsAt n b next out (Bus.compareSeq next attempt v1 s.version seq) := by
  obtain ⟨hlt, hseen⟩ := h
  unfold Bus.compareSeq
  split
  case isTrue => exact retry_place hlt
  case isFalse heq =>
    have hv : s.version = v1 := (not_not.mp heq).symm
    have hslot := hseen s hs
    obtain ⟨rfl, hwords⟩ := hslot.holds hv
    have hwrite : b.ring.writeSeq ≤ completed b.ring b.pub := Published.writeSeq_le hb
    obtain ⟨q, hle, hq, _, hsame, hseq, hmsg⟩ :=
      Published.last_resident hb hs (hv ▸ hslot.even) (hlt.trans_le hwrite)
    split
    case isTrue hnext =>
      have hpayload := take_eq_words hout fun i hi => (hwords i hi List.not_mem_nil).symm
      have hqnext : q = next := hseq.symm.trans hnext
      exact ⟨hlt, hpayload ▸ hqnext ▸ hmsg⟩
    case isFalse hne =>
      split
      case isTrue hgt =>
        have hcompleted := Published.completed_le hb
        exact ⟨by omega, by omega, by omega, hseq ▸ hsame, hseq ▸ hq⟩
      case isFalse => trivial

theorem settle_keeps (h : Reads n b r) {status : Status} (hat : r.at_ = .returning status) :
    Reads n b (Bus.settle r status) := by
  have hplace := h.place
  rw [hat] at hplace
  have htotal := h.total
  cases status with
  | ok =>
    obtain ⟨hlt, hmsg⟩ := hplace
    constructor
    case total => show r.received + 1 + r.missed = r.next + 1; omega
    case bound => exact hlt
    case out => exact h.out
    case count =>
      show (r.delivered ++ [(r.next, r.out)]).length = r.received + 1
      rw [List.length_append, h.count, List.length_singleton]
    case order =>
      show ((r.delivered ++ [(r.next, r.out)]).map Prod.fst).Pairwise (· < ·)
      rw [List.map_append, List.pairwise_append]
      apply And.intro h.order
      apply And.intro (List.pairwise_singleton _ _)
      intro x hx y hy
      obtain ⟨d, hd, rfl⟩ := List.mem_map.mp hx
      rw [List.mem_singleton.mp hy]
      exact h.below d hd
    case below =>
      intro d hd
      cases List.mem_append.mp hd with
      | inl hold => exact (h.below d hold).trans (Nat.lt_succ_self _)
      | inr hnew => exact List.mem_singleton.mp hnew ▸ Nat.lt_succ_self _
    case exact_ =>
      intro d hd
      cases List.mem_append.mp hd with
      | inl hold => exact h.exact_ d hold
      | inr hnew => exact List.mem_singleton.mp hnew ▸ hmsg
    case place => trivial
  | empty => exact h.moved h.out trivial
  | gap missed skipTo cause =>
    obtain ⟨hmissed, hskip, hle, _⟩ := hplace
    constructor
    case total => show r.received + (r.missed + missed) = skipTo; omega
    case bound => exact hle
    case out => exact h.out
    case count => exact h.count
    case order => exact h.order
    case below =>
      intro d hd
      have hlt := h.below d hd
      show d.1 < skipTo
      omega
    case exact_ => exact h.exact_
    case place => trivial

theorem settle_mono (h : Reads n b r) {status : Status} (hat : r.at_ = .returning status) :
    r.next ≤ (Bus.settle r status).next := by
  have hplace := h.place
  rw [hat] at hplace
  cases status with
  | ok => exact Nat.le_succ _
  | empty => exact le_rfl
  | gap missed skipTo cause =>
    obtain ⟨_, hskip, _⟩ := hplace
    exact hskip ▸ Nat.le_add_right ..

/-- The step lemma of the reader's own loads. -/
theorem readStep_keeps (h : Reads n b r) (hb : b.Publishes n)
    (hs : Bus.readStep n b.ring r = some r') : Reads n b r' ∧ r.next ≤ r'.next := by
  have hplace := h.place
  unfold Bus.readStep at hs
  split at hs
  case h_1 hat =>
    obtain rfl := Option.some.inj hs
    exact ⟨h.moved h.out compareCount_place, le_rfl⟩
  case h_2 attempt hat =>
    rw [hat] at hplace
    obtain ⟨s, hslot, hs⟩ := Option.bind_eq_some_iff.mp hs
    obtain rfl := Option.some.inj hs
    apply And.intro _ le_rfl
    apply h.moved h.out
    split
    case isTrue => exact retry_place hplace
    case isFalse heven =>
      apply And.intro hplace
      intro s' hs'
      obtain rfl := Option.some.inj (hslot.symm.trans hs')
      apply Seen.load
      rw [Nat.and_one_is_mod] at heven
      exact Nat.even_iff.mpr (not_not.mp heven)
  case h_3 attempt v1 hat =>
    rw [hat] at hplace
    obtain ⟨s, hslot, hs⟩ := Option.bind_eq_some_iff.mp hs
    obtain rfl := Option.some.inj hs
    apply And.intro _ le_rfl
    apply h.moved h.out
    apply And.intro hplace.1
    intro s' hs'
    obtain rfl := Option.some.inj (hslot.symm.trans hs')
    apply (hplace.2 s hslot).imp
    intro _ _
    rw [hb.laid.copied_eq]
    exact ⟨rfl, fun i hi hleft => absurd (List.mem_range.mpr hi) hleft⟩
  case h_4 attempt v1 seq hat =>
    rw [hat] at hplace
    obtain ⟨s, hslot, hs⟩ := Option.bind_eq_some_iff.mp hs
    obtain rfl := Option.some.inj hs
    exact ⟨h.moved h.out (compareSeq_place hb h.out hslot hplace), le_rfl⟩
  case h_5 status hat =>
    obtain rfl := Option.some.inj hs
    exact ⟨h.settle_keeps hat, h.settle_mono hat⟩
  case h_6 => cases hs

theorem copyOut_keeps (h : Reads n b r) {w : ℕ} (hs : Bus.copyOut b.ring r w = some r') :
    Reads n b r' ∧ r.next ≤ r'.next := by
  have hplace := h.place
  unfold Bus.copyOut at hs
  split at hs
  case h_1 attempt v1 seq left hat =>
    rw [hat] at hplace
    obtain ⟨-, hs⟩ := Option.ite_none_right_eq_some.mp hs
    obtain ⟨s, hslot, hs⟩ := Option.bind_eq_some_iff.mp hs
    obtain ⟨x, hx, hs⟩ := Option.bind_eq_some_iff.mp hs
    obtain rfl := Option.some.inj hs
    apply And.intro _ le_rfl
    apply h.moved (List.length_set.trans h.out)
    apply And.intro hplace.1
    intro s' hs'
    obtain rfl := Option.some.inj (hslot.symm.trans hs')
    apply (hplace.2 s hslot).imp
    intro _ hwords
    apply And.intro hwords.1
    intro i hi hleft
    rw [List.getElem?_set]
    by_cases hiw : w = i
    case pos =>
      subst hiw
      rw [if_pos rfl, if_pos (h.out ▸ hi), hx]
    case neg =>
      rw [if_neg hiw]
      exact hwords.2 i hi fun hmem => hleft ((List.mem_erase_of_ne (Ne.symm hiw)).mpr hmem)
  case h_2 => cases hs

theorem tryRead_keeps (h : Reads n b r) (hs : Bus.tryRead r = some r') :
    Reads n b r' ∧ r.next ≤ r'.next := by
  unfold Bus.tryRead at hs
  split at hs
  case h_1 =>
    obtain rfl := Option.some.inj hs
    exact ⟨h.moved h.out trivial, le_rfl⟩
  case h_2 =>
    obtain rfl := Option.some.inj hs
    exact ⟨h.moved h.out trivial, le_rfl⟩
  case h_3 => cases hs

/-- The subscriber leaves its loop only when it has come to the publisher's count. -/
theorem pollEof_keeps (h : Reads n b r) (hb : b.Publishes n)
    (hs : Bus.pollEof b.ring r = some r') : Reads n b r' ∧ r.next ≤ r'.next := by
  unfold Bus.pollEof at hs
  split at hs
  case h_1 =>
    obtain rfl := Option.some.inj hs
    apply And.intro _ le_rfl
    apply h.moved h.out
    split
    case isTrue hlast =>
      have hdone : b.pub = .done := by
        by_contra hne
        exact hlast.1 (hb.running hne)
      have heof : b.ring.eofSeq = b.ring.writeSeq + 1 := by
        have hplaced := hb.placed
        rw [hdone] at hplaced
        exact hplaced.2
      have hbound := h.bound
      exact ⟨by omega, hdone⟩
    case isFalse => trivial
  case h_2 => cases hs

end Reads

namespace Bus

variable {n : ℕ} {b b' : Bus ι Word}

/-- The ring is sound and so is every reader. -/
structure Sound (n : ℕ) (b : Bus ι Word) : Prop where
  publishes : b.Publishes n
  reads : ∀ r, Reads n b (b.readers r)

theorem start_sound {zero : Word} {k slotWords : ℕ} {ring : ShmRing Word}
    (hring : create zero (2 ^ k) slotWords = some ring) (hn : n ≤ slotWords)
    {buffers : ι → List Word} (hbuffers : ∀ r, (buffers r).length = n) :
    (start ring buffers).Sound n := by
  constructor
  case publishes => exact start_publishes hring hn buffers
  case reads =>
    intro r
    constructor
    case total => rfl
    case bound => exact Nat.zero_le _
    case out => exact hbuffers r
    case count => rfl
    case order => exact List.Pairwise.nil
    case below => exact fun d hd => absurd hd List.not_mem_nil
    case exact_ => exact fun d hd => absurd hd List.not_mem_nil
    case place => trivial

/-- The publisher's steps. -/
theorem Sound.later (h : b.Sound n) (hb : b'.Publishes n) (hl : Later b b') :
    b'.Sound n ∧ ∀ r, (b.readers r).next ≤ (b'.readers r).next := by
  rw [hl.readers]
  constructor
  case left => exact ⟨hb, fun r => hl.readers ▸ (h.reads r).later h.publishes hl⟩
  case right => exact fun _ => le_rfl

variable [DecidableEq ι]

/-- A reader's steps: the others and the ring are as they were. -/
theorem Sound.reader (h : b.Sound n) {r : ι} {f : Reader Word → Option (Reader Word)}
    (hf : ∀ r', f (b.readers r) = some r' → Reads n b r' ∧ (b.readers r).next ≤ r'.next)
    (hs : b.onReader r f = some b') :
    b'.Sound n ∧ ∀ r, (b.readers r).next ≤ (b'.readers r).next := by
  obtain ⟨reader, hreader, rfl⟩ := Option.map_eq_some_iff.mp hs
  obtain ⟨hreads, hnext⟩ := hf reader hreader
  have hsame (r' : Reader Word) (hr : Reads n b r') :
      Reads n { b with readers := Function.update b.readers r reader } r' :=
    ⟨hr.total, hr.bound, hr.out, hr.count, hr.order, hr.below, hr.exact_, hr.place⟩
  constructor
  case left =>
    constructor
    case publishes => exact h.publishes
    case reads =>
    intro r'
    apply hsame
    show Reads n b (Function.update b.readers r reader r')
    by_cases heq : r' = r
    case pos => rw [heq, Function.update_self]; exact hreads
    case neg => rw [Function.update_of_ne heq]; exact h.reads r'
  case right =>
    intro r'
    show _ ≤ (Function.update b.readers r reader r').next
    by_cases heq : r' = r
    case pos => rw [heq, Function.update_self]; exact hnext
    case neg => rw [Function.update_of_ne heq]

theorem step_keeps (h : b.Sound n) {a : Action ι Word} (hs : b.step n a = some b') :
    b'.Sound n ∧ ∀ r, (b.readers r).next ≤ (b'.readers r).next := by
  have hb := h.publishes
  cases a with
  | publish data =>
    obtain ⟨hb', hl⟩ := publish_spec hb hs
    exact h.later hb' hl
  | markEof =>
    obtain ⟨hb', hl⟩ := markEof_spec hb hs
    exact h.later hb' hl
  | advance =>
    obtain ⟨hb', hl⟩ := advance_spec hb hs
    exact h.later hb' hl
  | copyIn w =>
    obtain ⟨hb', hl⟩ := copyIn_spec hb hs
    exact h.later hb' hl
  | tryRead r => exact h.reader (fun _ hr => (h.reads r).tryRead_keeps hr) hs
  | read r => exact h.reader (fun _ hr => (h.reads r).readStep_keeps hb hr) hs
  | copyOut r w =>
    have hstep : b.onReader r (fun reader => copyOut b.ring reader w) = some b' := hs
    exact h.reader (fun _ hr => (h.reads r).copyOut_keeps hr) hstep
  | pollEof r => exact h.reader (fun _ hr => (h.reads r).pollEof_keeps hb hr) hs

theorem runs_keeps_sound (h : b.Sound n) {as : List (Action ι Word)}
    (hrun : runs (step n) b as = some b') : b'.Sound n :=
  runs_keeps (fun _ _ _ hs hstep => (step_keeps hs hstep).1) h hrun

/-- The message being published and the number it is published under. -/
def inFlight (b : Bus ι Word) : Option (ℕ × List Word) :=
  match b.pub with
  | .loadVersion data seq | .storeOdd data seq _ | .storeSeq data seq _ | .copy data seq _ _ =>
    some (seq, data)
  | _ => none

omit [DecidableEq ι] in
theorem inFlight_recorded (h : b.Publishes n) {seq : ℕ} {data : List Word}
    (hflight : b.inFlight = some (seq, data)) : b.msgs[seq]? = some data := by
  have hwriting : Writing b.ring b.msgs data seq := by
    have hplaced := h.placed
    unfold inFlight at hflight
    split at hflight
    case h_1 hpub =>
      cases hflight
      rw [hpub] at hplaced
      exact hplaced
    case h_2 hpub =>
      cases hflight
      rw [hpub] at hplaced
      exact hplaced.1
    case h_3 hpub =>
      cases hflight
      rw [hpub] at hplaced
      exact hplaced.1
    case h_4 hpub =>
      cases hflight
      rw [hpub] at hplaced
      exact hplaced.1
    case h_5 => cases hflight
  rw [hwriting.seq]
  exact hwriting.last

/-- In every run from a new ring, whatever the interleaving: every message a reader is
given is the one published under its number, and all the others are in its gaps. -/
theorem every_message_accounted {zero : Word} {k slotWords : ℕ} {ring : ShmRing Word}
    (hring : create zero (2 ^ k) slotWords = some ring) (hn : n ≤ slotWords)
    {buffers : ι → List Word} (hbuffers : ∀ r, (buffers r).length = n)
    {as : List (Action ι Word)} (hrun : runs (step n) (start ring buffers) as = some b) (r : ι) :
    (∀ seq data, b.inFlight = some (seq, data) → b.msgs[seq]? = some data) ∧
    ((b.readers r).at_ = .returning .ok →
      b.msgs[(b.readers r).next]? = some (b.readers r).out) ∧
    (b.readers r).delivered.length = (b.readers r).received ∧
    (∀ d ∈ (b.readers r).delivered, b.msgs[d.1]? = some d.2) ∧
    ((b.readers r).delivered.map Prod.fst).Pairwise (· < ·) ∧
    (∀ missed skipTo cause, (b.readers r).at_ = .returning (.gap missed skipTo cause) →
      1 ≤ missed) ∧
    (∀ a b', b.step n a = some b' → (b.readers r).next ≤ (b'.readers r).next) ∧
    (b.readers r).received + (b.readers r).missed = (b.readers r).next ∧
    ((b.readers r).at_ = .exited →
      (b.readers r).received + (b.readers r).missed = b.msgs.length) := by
  have h : b.Sound n := runs_keeps_sound (start_sound hring hn hbuffers) hrun
  have hr := h.reads r
  have hplace := hr.place
  apply And.intro fun seq data hflight => inFlight_recorded h.publishes hflight
  constructor
  case left =>
    intro hat
    rw [hat] at hplace
    exact hplace.2
  apply And.intro hr.count
  apply And.intro hr.exact_
  apply And.intro hr.order
  constructor
  case left =>
    intro missed skipTo cause hat
    rw [hat] at hplace
    exact hplace.1
  apply And.intro fun a b' hs => (step_keeps h hs).2 r
  apply And.intro hr.total
  intro hat
  rw [hat] at hplace
  have hplaced := h.publishes.placed
  rw [hplace.2] at hplaced
  rw [hr.total, hplace.1, hplaced.1]

/-! A run: the reader counts one message, two more are published, and it finds the third in
the slot of the first. -/

def publishing (x : ℕ) : List (Action Unit ℕ) :=
  [.publish [x], .advance, .advance, .advance, .advance, .copyIn 0, .advance, .advance]

def lappedRun : List (Action Unit ℕ) :=
  publishing 10 ++ [.tryRead (), .read ()] ++ publishing 11 ++ publishing 12 ++
    [.read (), .read (), .copyOut () 0, .read ()]

/-- It goes on to the end of the stream. -/
def finishedRun : List (Action Unit ℕ) :=
  lappedRun ++ [.read (), .tryRead (), .read (), .read (), .read (), .copyOut () 0, .read (),
    .read (), .markEof, .advance, .advance, .tryRead (), .read (), .read (), .pollEof ()]

def twoSlots : ShmRing ℕ :=
  { capacity := 2, slotWords := 1, slots := [{ payload := [0] }, { payload := [0] }] }

theorem create_twoSlots : create 0 (2 ^ 1) 1 = some twoSlots := rfl

theorem every_message_accounted_finished :
    ∃ b, runs (step 1) (start twoSlots fun _ => [0]) finishedRun = some b ∧
      (b.readers ()).at_ = .exited ∧ (b.readers ()).delivered = [(2, [12])] ∧
      (b.readers ()).received + (b.readers ()).missed = b.msgs.length := by
  have hrun : ((runs (step 1) (start twoSlots fun _ => [0]) finishedRun).map fun b =>
      ((b.readers ()).at_, (b.readers ()).delivered)) = some (.exited, [(2, [12])]) := by
    decide +kernel
  obtain ⟨b, hb, heq⟩ := Option.map_eq_some_iff.mp hrun
  obtain ⟨hat, hdelivered⟩ := Prod.mk.inj heq
  obtain ⟨_, _, _, _, _, _, _, _, hexit⟩ :=
    every_message_accounted create_twoSlots le_rfl (fun _ => rfl) hb ()
  exact ⟨b, hb, hat, hdelivered, hexit hat⟩

end Bus

end Hotpath.Ipc
