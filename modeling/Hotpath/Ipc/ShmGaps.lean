import Hotpath.Ipc.ShmRead

/-!
# What a gap skips

A gap is measured by what the publisher had done at the reader's loads; which of the
messages it skips are still in the ring depends on what the publisher does until the
call returns.
-/

namespace Hotpath.Ipc

open Hotpath.Support ShmRing

variable {ι Word : Type}

/-- The last of the first `count` messages that go into the slot of `next`. -/
def newest (cap next count : ℕ) : ℕ := next + cap * ((count - 1 - next) / cap)

theorem newest_eq {cap next count q : ℕ} (hle : next ≤ q) (hlt : q < count)
    (hlap : count ≤ q + cap) (hsame : q % cap = next % cap) : newest cap next count = q := by
  obtain ⟨laps, hlaps⟩ := (Nat.modEq_iff_dvd' hle).mp hsame.symm
  have hdiv : (count - 1 - next) / cap = laps := by
    apply Nat.div_eq_of_lt_le
    case lo => rw [Nat.mul_comm, ← hlaps]; omega
    case hi => rw [Nat.succ_mul, Nat.mul_comm, ← hlaps]; omega
  rw [newest, hdiv, ← hlaps]
  omega

/-- What the publisher had counted when a reader last loaded the count, and had completed
when the reader last loaded a sequence number. -/
structure Loads where
  counted : ℕ := 0
  completed : ℕ := 0

namespace Bus

variable {n : ℕ} {b b' : Bus ι Word} {r : ι} {l : Loads} {at_ at' : ReaderAt}

/-- The loads of a reader that stands at `at_`. -/
def noted (b : Bus ι Word) (l : Loads) : ReaderAt → Loads
  | .loadCount => { l with counted := b.ring.writeSeq }
  | .loadSeq .. => { l with completed := completed b.ring b.pub }
  | _ => l

variable [DecidableEq ι]

def note (b : Bus ι Word) (r : ι) (l : Loads) : Action ι Word → Loads
  | .read r' => if r' = r then b.noted l (b.readers r).at_ else l
  | _ => l

/-- The loads of reader `r` in a run. -/
def loads (n : ℕ) (r : ι) : Bus ι Word → Loads → List (Action ι Word) → Loads
  | _, l, [] => l
  | b, l, a :: as =>
    match b.step n a with
    | some b' => loads n r b' (b.note r l a) as
    | none => l

end Bus

/-- What the loads say of a reader's place. -/
def NotedAt (b : Bus ι Word) (l : Loads) (next : ℕ) : ReaderAt → Prop
  | .loadVersion _ | .loadSeq .. => l.counted ≤ next + b.ring.capacity
  | .copy _ v1 seq _ => l.counted ≤ next + b.ring.capacity ∧
    ∀ s, b.ring.slot next = some s →
      Seen Slot.version v1 (fun _ => seq = newest b.ring.capacity next l.completed) s
  | .returning (.gap _ _ .count) => next + b.ring.capacity < l.counted
  | .returning (.gap _ skipTo .slot) =>
    l.counted ≤ next + b.ring.capacity ∧ skipTo = newest b.ring.capacity next l.completed
  | _ => True

namespace NotedAt

variable {n next : ℕ} {b b' : Bus ι Word} {l : Loads} {at_ : ReaderAt} {rd rd' : Reader Word}

/-- A step of the publisher moves no slot that a reader has seen. -/
theorem later (h : NotedAt b l next at_) (hb : b.Publishes n) (hl : Later b b') :
    NotedAt b' l next at_ := by
  have hcap := hl.capacity
  cases at_ with
  | loadVersion attempt =>
    show l.counted ≤ next + b'.ring.capacity
    exact hcap ▸ h
  | loadSeq attempt v1 =>
    show l.counted ≤ next + b'.ring.capacity
    exact hcap ▸ h
  | copy attempt v1 seq left =>
    obtain ⟨hcounted, hseen⟩ := h
    constructor
    case left => exact hcap ▸ hcounted
    case right =>
      intro s' hs'
      obtain ⟨s, hs⟩ := hb.laid.slot_exists next
      obtain ⟨s1, hs1, hsteady⟩ := hl.slots next s hs
      obtain rfl := Option.some.inj (hs1.symm.trans hs')
      rw [hcap]
      exact (hseen s hs).steady hsteady
  | returning status =>
    cases status with
    | gap missed skipTo cause =>
      cases cause with
      | count =>
        show next + b'.ring.capacity < l.counted
        exact hcap ▸ h
      | slot =>
        show l.counted ≤ next + b'.ring.capacity ∧ skipTo = newest b'.ring.capacity next l.completed
        exact hcap ▸ h
      | torn => trivial
    | _ => trivial
  | _ => trivial

theorem retry (h : l.counted ≤ next + b.ring.capacity) (attempt : ℕ) :
    NotedAt b l next (Bus.retry next attempt) := by
  unfold Bus.retry
  split
  case isTrue => exact h
  case isFalse => trivial

theorem compareCount (hcounted : l.counted = b.ring.writeSeq) :
    NotedAt b l next (Bus.compareCount b.ring.capacity next b.ring.writeSeq) := by
  unfold Bus.compareCount
  split
  case isTrue => trivial
  case isFalse =>
    split
    case isTrue hlapped => exact show _ < l.counted by omega
    case isFalse hroom => exact show l.counted ≤ _ by omega

/-- Under an even version the slot holds the newest message completed into it. -/
theorem loadSeq (hb : b.Publishes n) {attempt v1 : ℕ} {out : List Word} {left : List ℕ}
    {s : Slot Word} (h : l.counted ≤ next + b.ring.capacity)
    (hreads : ReadsAt n b next out (.loadSeq attempt v1)) (hs : b.ring.slot next = some s) :
    NotedAt b { l with completed := completed b.ring b.pub } next
      (.copy attempt v1 s.seq left) := by
  obtain ⟨hlt, hseen⟩ := hreads
  apply And.intro h
  intro s' hs'
  obtain rfl := Option.some.inj (hs.symm.trans hs')
  apply (hseen s hs).imp
  intro hversion _
  have heven : Even s.version := hversion ▸ (hseen s hs).even
  have hcompleted : next < completed b.ring b.pub := hlt.trans_le (Published.writeSeq_le hb)
  obtain ⟨q, hle, hq, hbegun, hsame, hseq, _⟩ := Published.last_resident hb hs heven hcompleted
  have hlap : completed b.ring b.pub ≤ q + b.ring.capacity := by
    cases Published.begun_eq hb with
    | inl heq => exact heq ▸ hbegun
    | inr htaken => omega
  rw [hseq]
  exact (newest_eq hle hq hlap hsame).symm

theorem compareSeq {attempt v1 seq : ℕ} {left : List ℕ} {s : Slot Word}
    (h : NotedAt b l next (.copy attempt v1 seq left)) (hs : b.ring.slot next = some s) :
    NotedAt b l next (Bus.compareSeq next attempt v1 s.version seq) := by
  obtain ⟨hcounted, hseen⟩ := h
  unfold Bus.compareSeq
  split
  case isTrue => exact retry hcounted attempt
  case isFalse heq =>
    split
    case isTrue => trivial
    case isFalse =>
      split
      case isTrue => exact ⟨hcounted, (hseen s hs).holds (not_not.mp heq).symm⟩
      case isFalse => trivial

theorem settle (status : Status) : NotedAt b l next (Bus.settle rd status).at_ := by
  cases status <;> trivial

/-- The step lemma of the reader's own loads. -/
theorem readStep (h : NotedAt b l rd.next rd.at_) (hb : b.Publishes n)
    (hreads : ReadsAt n b rd.next rd.out rd.at_) (hs : Bus.readStep n b.ring rd = some rd') :
    NotedAt b (b.noted l rd.at_) rd'.next rd'.at_ := by
  unfold Bus.readStep at hs
  split at hs
  case h_1 hat =>
    obtain rfl := Option.some.inj hs
    rw [hat]
    exact compareCount rfl
  case h_2 attempt hat =>
    rw [hat] at h ⊢
    obtain ⟨s, hslot, hs⟩ := Option.bind_eq_some_iff.mp hs
    obtain rfl := Option.some.inj hs
    show NotedAt b l rd.next (if _ then _ else _)
    split
    case isTrue => exact retry h attempt
    case isFalse => exact h
  case h_3 attempt v1 hat =>
    rw [hat] at h hreads ⊢
    obtain ⟨s, hslot, hs⟩ := Option.bind_eq_some_iff.mp hs
    obtain rfl := Option.some.inj hs
    exact loadSeq hb h hreads hslot
  case h_4 attempt v1 seq hat =>
    rw [hat] at h ⊢
    obtain ⟨s, hslot, hs⟩ := Option.bind_eq_some_iff.mp hs
    obtain rfl := Option.some.inj hs
    exact compareSeq h hslot
  case h_5 status hat =>
    obtain rfl := Option.some.inj hs
    exact settle status
  case h_6 => cases hs

theorem copyOut (h : NotedAt b l rd.next rd.at_) {w : ℕ}
    (hs : Bus.copyOut b.ring rd w = some rd') : NotedAt b l rd'.next rd'.at_ := by
  unfold Bus.copyOut at hs
  split at hs
  case h_1 attempt v1 seq left hat =>
    rw [hat] at h
    obtain ⟨-, hs⟩ := Option.ite_none_right_eq_some.mp hs
    obtain ⟨s, hslot, hs⟩ := Option.bind_eq_some_iff.mp hs
    obtain ⟨x, hx, hs⟩ := Option.bind_eq_some_iff.mp hs
    obtain rfl := Option.some.inj hs
    exact h
  case h_2 => cases hs

theorem tryRead (hs : Bus.tryRead rd = some rd') : NotedAt b l rd'.next rd'.at_ := by
  unfold Bus.tryRead at hs
  split at hs
  case h_1 => obtain rfl := Option.some.inj hs; trivial
  case h_2 => obtain rfl := Option.some.inj hs; trivial
  case h_3 => cases hs

theorem pollEof (hs : Bus.pollEof b.ring rd = some rd') : NotedAt b l rd'.next rd'.at_ := by
  unfold Bus.pollEof at hs
  split at hs
  case h_1 =>
    obtain rfl := Option.some.inj hs
    show NotedAt b l rd.next (if _ then _ else _)
    split <;> trivial
  case h_2 => cases hs

end NotedAt

namespace Bus

variable {n : ℕ} {b b' : Bus ι Word} {r r' : ι} {l : Loads} [DecidableEq ι]

/-- What the loads say of reader `r`. -/
def Noted (b : Bus ι Word) (r : ι) (l : Loads) : Prop :=
  NotedAt b l (b.readers r).next (b.readers r).at_

/-- A step of a reader: its own place is new, the ring and the others are as they were. -/
theorem Noted.reader (h : b.Noted r l) {l' : Loads} {f : Reader Word → Option (Reader Word)}
    (hown : ∀ rd, r' = r → f (b.readers r) = some rd → NotedAt b l' rd.next rd.at_)
    (hother : r' ≠ r → l' = l) (hs : b.onReader r' f = some b') : b'.Noted r l' := by
  obtain ⟨rd, hrd, rfl⟩ := Option.map_eq_some_iff.mp hs
  have hsame (next : ℕ) (at_ : ReaderAt) (hat : NotedAt b l' next at_) :
      NotedAt { b with readers := Function.update b.readers r' rd } l' next at_ := by
    cases at_ <;> exact hat
  apply hsame
  show NotedAt b l' (Function.update b.readers r' rd r).next (Function.update b.readers r' rd r).at_
  by_cases heq : r' = r
  case pos =>
    subst heq
    rw [Function.update_self]
    exact hown rd rfl hrd
  case neg =>
    rw [Function.update_of_ne (Ne.symm heq)]
    exact hother heq ▸ h

theorem Noted.of_step (h : b.Noted r l) (hsound : b.Sound n) {a : Action ι Word}
    (hs : b.step n a = some b') : b'.Noted r (b.note r l a) := by
  have hb := hsound.publishes
  have hlater (hl : Later b b') : b'.Noted r l := by
    rw [Noted, hl.readers]
    exact NotedAt.later h hb hl
  cases a with
  | publish data => exact hlater (publish_spec hb hs).2
  | markEof => exact hlater (markEof_spec hb hs).2
  | advance => exact hlater (advance_spec hb hs).2
  | copyIn w => exact hlater (copyIn_spec hb hs).2
  | tryRead r' => exact h.reader (fun _ _ hrd => NotedAt.tryRead hrd) (fun _ => rfl) hs
  | read r' =>
    apply h.reader _ (fun hne => if_neg hne) hs
    intro rd heq hrd
    rw [if_pos heq]
    exact NotedAt.readStep h hb (hsound.reads r).place hrd
  | copyOut r' w =>
    have hstep : b.onReader r' (fun reader => Bus.copyOut b.ring reader w) = some b' := hs
    exact h.reader (fun _ _ hrd => NotedAt.copyOut h hrd) (fun _ => rfl) hstep
  | pollEof r' => exact h.reader (fun _ _ hrd => NotedAt.pollEof hrd) (fun _ => rfl) hs

theorem Noted.of_runs (h : b.Noted r l) (hsound : b.Sound n) {as : List (Action ι Word)}
    (hrun : runs (step n) b as = some b') : b'.Noted r (loads n r b l as) := by
  induction as generalizing b l with
  | nil =>
    obtain rfl := Option.some.inj hrun
    exact h
  | cons a as ih =>
    obtain ⟨b1, hs, hrun⟩ := Option.bind_eq_some_iff.mp hrun
    rw [loads, hs]
    exact ih (h.of_step hsound hs) (step_keeps hsound hs).1 hrun

omit [DecidableEq ι] in
theorem start_noted (ring : ShmRing Word) (buffers : ι → List Word) (r : ι) (l : Loads) :
    (start ring buffers).Noted r l := trivial

omit [DecidableEq ι] in
/-- A message that has lost its slot is not intact. -/
theorem not_intact_of_begun (h : b.Publishes n) {q : ℕ} (hq : q < b.ring.writeSeq)
    (hbegun : q + b.ring.capacity < begun b.ring b.pub) : ¬ b.Intact n q := by
  rw [intact_iff h hq]
  exact Nat.not_le_of_lt hbegun

omit [DecidableEq ι] in
/-- A stretch of published messages holds none intact once its last has lost its slot. -/
theorem none_intact_iff (h : b.Publishes n) {next skipTo : ℕ} (hnext : next < skipTo)
    (hskip : skipTo ≤ b.ring.writeSeq) :
    (∀ q, next ≤ q → q < skipTo → ¬ b.Intact n q) ↔
      skipTo + b.ring.capacity ≤ begun b.ring b.pub := by
  constructor
  case mp =>
    intro hnone
    have hlast := hnone (skipTo - 1) (by omega) (by omega)
    rw [intact_iff h (by omega)] at hlast
    omega
  case mpr =>
    intro hbegun q _ hq
    exact not_intact_of_begun h (by omega) (by omega)

/-- On a gap the reader skips no message that it could still have read exactly when the
publisher had counted more than a lap beyond `next` at the load of the count, or has begun,
by the time the call returns, a lap beyond the newest message that it had completed into
the slot at the load of the sequence number. -/
theorem gap_skips_nothing_intact {zero : Word} {k slotWords : ℕ} {ring : ShmRing Word}
    (hring : create zero (2 ^ k) slotWords = some ring) (hn : n ≤ slotWords)
    {buffers : ι → List Word} (hbuffers : ∀ r, (buffers r).length = n)
    {as : List (Action ι Word)} (hrun : runs (step n) (start ring buffers) as = some b) (r : ι)
    {missed skipTo : ℕ} {cause : Cause} (hcause : cause ≠ .torn)
    (hat : (b.readers r).at_ = .returning (.gap missed skipTo cause)) :
    let l := loads n r (start ring buffers) {} as
    let next := (b.readers r).next
    (∀ q, next ≤ q → q < skipTo → ¬ b.Intact n q) ↔
      next + b.ring.capacity < l.counted ∨
      newest b.ring.capacity next l.completed + b.ring.capacity ≤ begun b.ring b.pub := by
  intro l next
  have hstart := start_sound hring hn hbuffers
  have h : b.Sound n := runs_keeps_sound hstart hrun
  have hnoted : b.Noted r l := (start_noted ring buffers r {}).of_runs hstart hrun
  have hplace := (h.reads r).place
  rw [Noted, hat] at hnoted
  rw [hat] at hplace
  obtain ⟨hmissed, hskip, hle, hlapped⟩ := hplace
  rw [none_intact_iff h.publishes (by omega) hle]
  cases cause with
  | torn => exact absurd rfl hcause
  | count =>
    have hbegun : b.ring.writeSeq ≤ begun b.ring b.pub := Published.writeSeq_le_begun h.publishes
    exact ⟨fun _ => Or.inl hnoted, fun _ => hlapped.trans hbegun⟩
  | slot =>
    obtain ⟨hcounted, hnewest⟩ := hnoted
    rw [or_iff_right (Nat.not_lt.mpr hcounted), hnewest]

/-! The reader counted one message, and three were completed when it came to the slot. -/

theorem lapped_run :
    ∃ b, runs (step 1) (start twoSlots fun _ => [0]) lappedRun = some b ∧
      (b.readers ()).at_ = .returning (.gap 2 2 .slot) ∧ (b.readers ()).next = 0 ∧
      b.ring.capacity = 2 ∧ begun b.ring b.pub = 3 ∧
      b.ring.slot 1 = some { version := 2, seq := 1, payload := [11] } ∧
      b.msgs[1]? = some [11] := by
  have hrun : ((runs (step 1) (start twoSlots fun _ => [0]) lappedRun).map fun b =>
      ((b.readers ()).at_, (b.readers ()).next, b.ring.capacity, begun b.ring b.pub,
        b.ring.slot 1, b.msgs[1]?)) = some (.returning (.gap 2 2 .slot), 0, 2, 3,
        some { version := 2, seq := 1, payload := [11] }, some [11]) := by
    rfl
  obtain ⟨b, hb, heq⟩ := Option.map_eq_some_iff.mp hrun
  simp only [Prod.mk.injEq] at heq
  exact ⟨b, hb, heq⟩

theorem lapped_loads : loads 1 () (start twoSlots fun _ => [0]) {} lappedRun = ⟨1, 3⟩ := rfl

theorem gap_skips_nothing_intact_lapped :
    ∃ b, runs (step 1) (start twoSlots fun _ => [0]) lappedRun = some b ∧
      ((∀ q, 0 ≤ q → q < 2 → ¬ b.Intact 1 q) ↔ 0 + 2 < 1 ∨ newest 2 0 3 + 2 ≤ 3) := by
  obtain ⟨b, hb, hat, hnext, hcap, hbegun, _⟩ := lapped_run
  have hiff := gap_skips_nothing_intact create_twoSlots le_rfl (fun _ => rfl) hb () (by decide) hat
  rw [lapped_loads, hnext, hcap, hbegun] at hiff
  exact ⟨b, hb, hiff⟩

/-- The gap from 0 to 2 skips message 1, which its slot still holds. -/
theorem gap_skips_intact_message :
    ∃ b, runs (step 1) (start twoSlots fun _ => [0]) lappedRun = some b ∧
      (b.readers ()).at_ = .returning (.gap 2 2 .slot) ∧ (b.readers ()).next ≤ 1 ∧
      b.Intact 1 1 := by
  obtain ⟨b, hb, hat, hnext, _, _, hslot, hmsg⟩ := lapped_run
  exact ⟨b, hb, hat, by omega, _, hslot, even_two, rfl, hmsg⟩

end Bus

end Hotpath.Ipc
