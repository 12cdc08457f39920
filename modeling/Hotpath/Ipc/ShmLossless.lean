import Hotpath.Ipc.ShmRead
import Hotpath.Support.Rising

/-!
# A ring that holds every message

While no slot is taken twice its version only goes from zero over one to two, so a
reader that finds a message counted finds it readable and unchanged: it is never lapped,
never retries, and is given every message in turn.
-/

namespace Hotpath.Ipc

open Hotpath.Support ShmRing

variable {ι Word : Type} {n k w : ℕ} {b b' : Bus ι Word}

/-- The version the publisher loaded, while it holds it. -/
def loaded : Publisher Word → ℕ
  | .storeOdd _ _ v | .storeSeq _ _ v | .copy _ _ v _ => v
  | _ => 0

/-- Every slot was taken once at most. -/
structure Once (b : Bus ι Word) : Prop where
  held : loaded b.pub = 0
  full : ∀ q s, q < b.ring.capacity → b.ring.slot q = some s → q < completed b.ring b.pub →
    s.version = 2
  clean : ∀ q s, q < b.ring.capacity → b.ring.slot q = some s → begun b.ring b.pub ≤ q →
    s.version = 0

/-- A slot is taken for a message that `publish` was called with. -/
theorem Published.begun_le {ring : ShmRing Word} {pub : Publisher Word}
    {msgs : List (List Word)} (h : Published n ring pub msgs) : begun ring pub ≤ msgs.length := by
  have hplaced := h.placed
  cases pub with
  | idle => exact hplaced.ge
  | begun data => exact hplaced.length ▸ Nat.le_succ _
  | loadVersion data seq => exact hplaced.length ▸ Nat.le_succ _
  | storeOdd data seq v => exact hplaced.1.length ▸ Nat.le_succ _
  | storeSeq data seq v => exact hplaced.1.length.ge
  | copy data seq v left => exact hplaced.1.length.ge
  | storeCount seq =>
    obtain ⟨rfl, hlen⟩ := hplaced
    exact hlen.ge
  | markEof => exact hplaced.ge
  | storeEof published => exact hplaced.1.ge
  | done => exact hplaced.1.ge

namespace Once

/-- The publisher moves on and the ring is as it was. -/
theorem moved (h : Once b) {pub : Publisher Word} (hheld : loaded pub = 0)
    (hcompleted : completed b.ring pub = completed b.ring b.pub)
    (hbegun : begun b.ring pub = begun b.ring b.pub) {msgs : List (List Word)} :
    Once { b with pub := pub, msgs := msgs } := by
  constructor
  case held => exact hheld
  case full =>
    intro q s hq hs hlt
    exact h.full q s hq hs (hcompleted ▸ hlt)
  case clean =>
    intro q s hq hs hle
    exact h.clean q s hq hs (hbegun ▸ hle)

/-- A store into the slot of the message being written, with the version it leaves
there. -/
theorem stored (h : Once b) (version : ℕ) (hl : Laid n b.ring) {ring : ShmRing Word}
    {pub : Publisher Word} {seq : ℕ} {f : Slot Word → Slot Word} (hst : Stored seq f b.ring ring)
    (hseq : seq < b.ring.capacity) (hheld : loaded pub = 0)
    (hversion : ∀ s, b.ring.slot seq = some s → (f s).version = version)
    (hcompleted : completed ring pub ≤ seq ∧ completed ring pub = completed b.ring b.pub ∨
      completed ring pub = seq + 1 ∧ seq ≤ completed b.ring b.pub ∧ version = 2)
    (hbegun : begun ring pub = seq + 1 ∧ begun b.ring b.pub ≤ seq + 1) :
    Once { b with ring := ring, pub := pub } := by
  have hother : ∀ q, q < b.ring.capacity → q ≠ seq → ring.slot q = b.ring.slot q := by
    intro q hq hne
    apply hst.elsewhere q
    rwa [Nat.mod_eq_of_lt hq, Nat.mod_eq_of_lt hseq]
  constructor
  case held => exact hheld
  case full =>
    intro q s hq hs hlt
    replace hq : q < b.ring.capacity := hst.capacity ▸ hq
    replace hlt : q < completed ring pub := hlt
    by_cases heq : q = seq
    case pos =>
      subst heq
      obtain ⟨s0, hs0, rfl⟩ := hst.fresh hl hs
      rw [hversion s0 hs0]
      omega
    case neg => exact h.full q s hq (hother q hq heq ▸ hs) (by omega)
  case clean =>
    intro q s hq hs hle
    replace hq : q < b.ring.capacity := hst.capacity ▸ hq
    replace hle : begun ring pub ≤ q := hle
    exact h.clean q s hq (hother q hq (by omega) ▸ hs) (by omega)

/-- The number of the message being written, which has a slot of its own. -/
theorem writing_lt {data : List Word} {seq : ℕ} (hw : Writing b.ring b.msgs data seq)
    (hroom : b.msgs.length ≤ b.ring.capacity) : seq < b.ring.capacity := by
  rw [hw.seq]
  have hlen := hw.length
  omega

theorem advance (h : Once b) (hb : b.Publishes n) (hroom : b.msgs.length ≤ b.ring.capacity)
    (hs : b.advance n = some b') : Once b' := by
  have hplaced := hb.placed
  have hheld := h.held
  unfold Bus.advance at hs
  cases hpub : b.pub with
  | idle => rw [hpub] at hs; cases hs
  | begun data =>
    rw [hpub] at hs
    obtain rfl := Option.some.inj hs
    exact h.moved rfl (by rw [hpub]; rfl) (by rw [hpub]; rfl)
  | loadVersion data seq =>
    rw [hpub] at hplaced hs
    obtain ⟨s, hslot, hs⟩ := Option.bind_eq_some_iff.mp hs
    obtain rfl := Option.some.inj hs
    have hzero : s.version = 0 := by
      apply h.clean seq s (writing_lt hplaced hroom) hslot
      rw [hpub]
      exact hplaced.seq.ge
    have hheld' : loaded (.storeOdd data seq s.version) = 0 := hzero
    exact h.moved hheld' (by rw [hpub]; rfl) (by rw [hpub]; rfl)
  | storeOdd data seq v =>
    rw [hpub] at hplaced hheld hs
    obtain ⟨ring, hset, hs⟩ := Option.bind_eq_some_iff.mp hs
    obtain rfl := Option.some.inj hs
    obtain ⟨hw, hversion⟩ := hplaced
    have hst := hb.laid.stored hset
    have hseq := hw.seq
    have hwrite := hst.writeSeq
    have hheld' : loaded (.storeSeq data seq v) = 0 := hheld
    apply h.stored (v + 1) hb.laid hst (writing_lt hw hroom) hheld'
    · exact fun s _ => rfl
    · apply Or.inl
      rw [hpub]
      exact ⟨by show ring.writeSeq ≤ seq; omega, by show ring.writeSeq = b.ring.writeSeq; omega⟩
    · rw [hpub]
      exact ⟨by show ring.writeSeq + 1 = seq + 1; omega,
        by show b.ring.writeSeq ≤ seq + 1; omega⟩
  | storeSeq data seq v =>
    rw [hpub] at hplaced hheld hs
    obtain ⟨ring, hset, hs⟩ := Option.bind_eq_some_iff.mp hs
    obtain rfl := Option.some.inj hs
    obtain ⟨hw, -, hversion⟩ := hplaced
    have hst := hb.laid.stored hset
    have hseq := hw.seq
    have hwrite := hst.writeSeq
    have hheld' : loaded (.copy data seq v (ring.copied n)) = 0 := hheld
    apply h.stored (v + 1) hb.laid hst (writing_lt hw hroom) hheld' hversion
    · apply Or.inl
      rw [hpub]
      exact ⟨by show ring.writeSeq ≤ seq; omega, by show ring.writeSeq = b.ring.writeSeq; omega⟩
    · rw [hpub]
      exact ⟨by show ring.writeSeq + 1 = seq + 1; omega,
        by show b.ring.writeSeq + 1 ≤ seq + 1; omega⟩
  | copy data seq v left =>
    rw [hpub] at hplaced hheld hs
    cases left with
    | nil =>
      obtain ⟨ring, hset, hs⟩ := Option.bind_eq_some_iff.mp hs
      obtain rfl := Option.some.inj hs
      obtain ⟨hw, -, -⟩ := hplaced
      have hst := hb.laid.stored hset
      have hseq := hw.seq
      have hzero : v = 0 := hheld
      apply h.stored (v + 2) hb.laid hst (writing_lt hw hroom) rfl
      · exact fun s _ => rfl
      · apply Or.inr
        rw [hpub]
        exact ⟨rfl, by show seq ≤ b.ring.writeSeq; omega, by omega⟩
      · rw [hpub]
        exact ⟨rfl, by show b.ring.writeSeq + 1 ≤ seq + 1; omega⟩
    | cons w left => cases hs
  | storeCount seq =>
    rw [hpub] at hplaced hs
    obtain rfl := Option.some.inj hs
    obtain ⟨rfl, -⟩ := hplaced
    constructor
    case held => rfl
    case full =>
      intro q s hq hs hlt
      exact h.full q s hq hs (by rw [hpub]; exact hlt)
    case clean =>
      intro q s hq hs hle
      exact h.clean q s hq hs (by rw [hpub]; exact hle)
  | markEof =>
    rw [hpub] at hs
    obtain rfl := Option.some.inj hs
    exact h.moved rfl (by rw [hpub]; rfl) (by rw [hpub]; rfl)
  | storeEof published =>
    rw [hpub] at hs
    obtain rfl := Option.some.inj hs
    constructor
    case held => rfl
    case full =>
      intro q s hq hs hlt
      exact h.full q s hq hs (by rw [hpub]; exact hlt)
    case clean =>
      intro q s hq hs hle
      exact h.clean q s hq hs (by rw [hpub]; exact hle)
  | done => rw [hpub] at hs; cases hs

theorem copyIn (h : Once b) (hb : b.Publishes n) (hroom : b.msgs.length ≤ b.ring.capacity)
    (hs : b.copyIn w = some b') : Once b' := by
  have hplaced := hb.placed
  have hheld := h.held
  unfold Bus.copyIn at hs
  split at hs
  case h_1 data seq v left hpub =>
    rw [hpub] at hplaced hheld
    obtain ⟨-, hs⟩ := Option.ite_none_right_eq_some.mp hs
    obtain ⟨x, -, hs⟩ := Option.bind_eq_some_iff.mp hs
    obtain ⟨ring, hset, hs⟩ := Option.bind_eq_some_iff.mp hs
    obtain rfl := Option.some.inj hs
    obtain ⟨hw, -, hwords⟩ := hplaced
    have hst := hb.laid.stored hset
    have hseq := hw.seq
    have hwrite := hst.writeSeq
    have hheld' : loaded (.copy data seq v (left.erase w)) = 0 := hheld
    apply h.stored (v + 1) hb.laid hst (writing_lt hw hroom) hheld'
    · exact fun s hslot => (hwords s hslot).1
    · apply Or.inl
      rw [hpub]
      exact ⟨by show ring.writeSeq ≤ seq; omega, by show ring.writeSeq = b.ring.writeSeq; omega⟩
    · rw [hpub]
      exact ⟨by show ring.writeSeq + 1 = seq + 1; omega,
        by show b.ring.writeSeq + 1 ≤ seq + 1; omega⟩
  case h_2 => cases hs

end Once

/-- What a reader of such a ring never finds: an odd version, a version that moved, a gap. -/
def Smooth : ReaderAt → Prop
  | .loadSeq _ v1 | .copy _ v1 _ _ => v1 = 2
  | .returning (.gap _ _ _) => False
  | _ => True

structure Given (r : Reader Word) : Prop where
  missed : r.missed = 0
  smooth : Smooth r.at_

namespace Given

variable {r r' : Reader Word}

theorem tryRead (h : Given r) (hs : Bus.tryRead r = some r') : Given r' := by
  unfold Bus.tryRead at hs
  split at hs
  case h_1 =>
    obtain rfl := Option.some.inj hs
    exact ⟨h.missed, trivial⟩
  case h_2 =>
    obtain rfl := Option.some.inj hs
    exact ⟨h.missed, trivial⟩
  case h_3 => cases hs

theorem pollEof (h : Given r) {ring : ShmRing Word} (hs : Bus.pollEof ring r = some r') :
    Given r' := by
  unfold Bus.pollEof at hs
  split at hs
  case h_1 =>
    obtain rfl := Option.some.inj hs
    refine ⟨h.missed, ?_⟩
    dsimp only
    split
    · trivial
    · trivial
  case h_2 => cases hs

theorem copyOut (h : Given r) {ring : ShmRing Word} (hs : Bus.copyOut ring r w = some r') :
    Given r' := by
  have hsmooth := h.smooth
  unfold Bus.copyOut at hs
  split at hs
  case h_1 hat =>
    rw [hat] at hsmooth
    obtain ⟨-, hs⟩ := Option.ite_none_right_eq_some.mp hs
    obtain ⟨s, -, hs⟩ := Option.bind_eq_some_iff.mp hs
    obtain ⟨x, -, hs⟩ := Option.bind_eq_some_iff.mp hs
    obtain rfl := Option.some.inj hs
    exact ⟨h.missed, hsmooth⟩
  case h_2 => cases hs

/-- A load of a reader on such a ring. -/
theorem readStep (h : Given r) (hr : Reads n b r) (hb : b.Publishes n) (ho : Once b)
    (hroom : b.msgs.length ≤ b.ring.capacity) (hs : Bus.readStep n b.ring r = some r') :
    Given r' := by
  have hsmooth := h.smooth
  have hplace := hr.place
  have hwrite := Published.writeSeq_le hb
  have hbegun := Published.begun_le hb
  have hcount := Published.writeSeq_le_begun hb
  have hversion : r.next < b.ring.writeSeq → ∀ s, b.ring.slot r.next = some s →
      s.version = 2 := by
    intro hlt s hslot
    exact ho.full r.next s (by omega) hslot (by omega)
  unfold Bus.readStep at hs
  split at hs
  case h_1 hat =>
    obtain rfl := Option.some.inj hs
    refine ⟨h.missed, ?_⟩
    dsimp only [Bus.compareCount]
    rw [if_neg (by omega : ¬(b.ring.capacity < b.ring.writeSeq ∧
      r.next < b.ring.writeSeq - b.ring.capacity))]
    split
    · trivial
    · trivial
  case h_2 attempt hat =>
    rw [hat] at hplace
    obtain ⟨s, hslot, hs⟩ := Option.bind_eq_some_iff.mp hs
    obtain rfl := Option.some.inj hs
    have htwo := hversion hplace s hslot
    refine ⟨h.missed, ?_⟩
    dsimp only
    rw [htwo]
    exact rfl
  case h_3 attempt v1 hat =>
    rw [hat] at hsmooth
    obtain ⟨s, hslot, hs⟩ := Option.bind_eq_some_iff.mp hs
    obtain rfl := Option.some.inj hs
    exact ⟨h.missed, hsmooth⟩
  case h_4 attempt v1 seq hat =>
    rw [hat] at hplace hsmooth
    obtain ⟨hlt, hseen⟩ := hplace
    obtain ⟨s, hslot, hs⟩ := Option.bind_eq_some_iff.mp hs
    obtain rfl := Option.some.inj hs
    have htwo := hversion hlt s hslot
    have hsame : v1 = s.version := by
      rw [htwo]
      exact hsmooth
    have hseq : seq = r.next := by
      rw [← ((hseen s hslot).holds hsame.symm).1]
      exact (hb.resident r.next s hslot (by omega) (by omega)).1
    refine ⟨h.missed, ?_⟩
    dsimp only [Bus.compareSeq]
    rw [if_neg (not_not.mpr hsame), if_pos hseq]
    trivial
  case h_5 status hat =>
    rw [hat] at hsmooth
    obtain rfl := Option.some.inj hs
    cases status with
    | ok => exact ⟨h.missed, trivial⟩
    | empty => exact ⟨h.missed, trivial⟩
    | gap missed next cause => exact hsmooth.elim
  case h_6 => cases hs

end Given

namespace Bus

/-- The ring is sound and holds every message, and no reader was lapped. -/
structure Lossless (n : ℕ) (b : Bus ι Word) : Prop where
  once : Once b
  given : ∀ r, Given (b.readers r)

theorem start_lossless {zero : Word} {slotWords : ℕ} {ring : ShmRing Word}
    (hring : create zero (2 ^ k) slotWords = some ring) (buffers : ι → List Word) :
    (start ring buffers).Lossless n := by
  unfold create at hring
  split at hring
  case isTrue => cases hring
  case isFalse =>
    obtain rfl := Option.some.inj hring
    constructor
    case once =>
      constructor
      case held => rfl
      case full => exact fun q s _ _ hlt => absurd hlt (Nat.not_lt_zero q)
      case clean =>
        intro q s _ hs _
        have hslot := List.eq_of_mem_replicate (List.mem_of_getElem? hs)
        rw [hslot]
    case given => exact fun r => ⟨rfl, trivial⟩

theorem Lossless.reader (h : b.Lossless n) [DecidableEq ι] {r : ι}
    {f : Reader Word → Option (Reader Word)} (hf : ∀ r', f (b.readers r) = some r' → Given r')
    (hs : b.onReader r f = some b') : b'.Lossless n := by
  obtain ⟨reader, hreader, rfl⟩ := Option.map_eq_some_iff.mp hs
  constructor
  case once => exact ⟨h.once.held, h.once.full, h.once.clean⟩
  case given =>
    intro r'
    show Given (Function.update b.readers r reader r')
    by_cases heq : r' = r
    case pos =>
      rw [heq, Function.update_self]
      exact hf reader hreader
    case neg =>
      rw [Function.update_of_ne heq]
      exact h.given r'

variable [DecidableEq ι]

/-- While the messages fit the ring, a step loses none. -/
theorem Lossless.step (h : b.Lossless n) (hb : b.Sound n) {a : Action ι Word}
    (hroom : b.msgs.length ≤ b.ring.capacity) (hs : b.step n a = some b') : b'.Lossless n := by
  cases a with
  | publish data =>
    obtain ⟨hidle, hs⟩ := Option.ite_none_right_eq_some.mp hs
    obtain ⟨-, hs⟩ := Option.ite_none_right_eq_some.mp hs
    obtain rfl := Option.some.inj hs
    cases hpub : b.pub with
    | idle => exact ⟨h.once.moved rfl (by rw [hpub]; rfl) (by rw [hpub]; rfl), h.given⟩
    | _ => rw [hpub] at hidle; cases hidle
  | markEof =>
    obtain ⟨hidle, hs⟩ := Option.ite_none_right_eq_some.mp hs
    obtain rfl := Option.some.inj hs
    cases hpub : b.pub with
    | idle => exact ⟨h.once.moved rfl (by rw [hpub]; rfl) (by rw [hpub]; rfl), h.given⟩
    | _ => rw [hpub] at hidle; cases hidle
  | advance =>
    have hreaders := (advance_spec hb.publishes hs).2.readers
    exact ⟨h.once.advance hb.publishes hroom hs, hreaders ▸ h.given⟩
  | copyIn w =>
    have hreaders := (copyIn_spec hb.publishes hs).2.readers
    exact ⟨h.once.copyIn hb.publishes hroom hs, hreaders ▸ h.given⟩
  | tryRead r => exact h.reader (fun _ hr => (h.given r).tryRead hr) hs
  | read r =>
    exact h.reader (fun _ hr => (h.given r).readStep (hb.reads r) hb.publishes h.once hroom hr) hs
  | copyOut r w =>
    have hcopy : b.onReader r (fun reader => Bus.copyOut b.ring reader w) = some b' := hs
    exact h.reader (fun _ hr => (h.given r).copyOut hr) hcopy
  | pollEof r => exact h.reader (fun _ hr => (h.given r).pollEof hr) hs

/-- The messages only become more, and the ring keeps its size. -/
theorem step_grows (h : b.Sound n) {a : Action ι Word} (hs : b.step n a = some b') :
    b'.ring.capacity = b.ring.capacity ∧ b.msgs.length ≤ b'.msgs.length := by
  have hlater (hl : Later b b') :
      b'.ring.capacity = b.ring.capacity ∧ b.msgs.length ≤ b'.msgs.length :=
    ⟨hl.capacity, hl.msgs.length_le⟩
  have hreader {r : ι} {f : Reader Word → Option (Reader Word)} (hf : b.onReader r f = some b') :
      b'.ring.capacity = b.ring.capacity ∧ b.msgs.length ≤ b'.msgs.length := by
    obtain ⟨reader, -, rfl⟩ := Option.map_eq_some_iff.mp hf
    exact ⟨rfl, le_rfl⟩
  cases a with
  | publish data => exact hlater (publish_spec h.publishes hs).2
  | markEof => exact hlater (markEof_spec h.publishes hs).2
  | advance => exact hlater (advance_spec h.publishes hs).2
  | copyIn w => exact hlater (copyIn_spec h.publishes hs).2
  | tryRead r => exact hreader hs
  | read r => exact hreader hs
  | copyOut r w =>
    have hcopy : b.onReader r (fun reader => Bus.copyOut b.ring reader w) = some b' := hs
    exact hreader hcopy
  | pollEof r => exact hreader hs

theorem runs_lossless {zero : Word} {slotWords : ℕ} {ring : ShmRing Word}
    (hring : create zero (2 ^ k) slotWords = some ring) (hn : n ≤ slotWords)
    {buffers : ι → List Word} (hbuffers : ∀ r, (buffers r).length = n)
    {as : List (Action ι Word)} (hrun : runs (step n) (start ring buffers) as = some b)
    (hroom : b.msgs.length ≤ 2 ^ k) : b.Lossless n := by
  have hcapacity : (start ring buffers).ring.capacity = 2 ^ k := by
    unfold create at hring
    split at hring
    case isTrue => cases hring
    case isFalse =>
      obtain rfl := Option.some.inj hring
      rfl
  have hkeeps : b.Sound n ∧ b.ring.capacity = 2 ^ k ∧ (b.msgs.length ≤ 2 ^ k → b.Lossless n) := by
    refine runs_keeps (I := fun b : Bus ι Word =>
      b.Sound n ∧ b.ring.capacity = 2 ^ k ∧ (b.msgs.length ≤ 2 ^ k → b.Lossless n))
      ?_ ⟨start_sound hring hn hbuffers, hcapacity, fun _ => start_lossless hring buffers⟩ hrun
    intro b a b' hb hs
    obtain ⟨hsound, hcap, hlossless⟩ := hb
    obtain ⟨hcap', hgrows⟩ := step_grows hsound hs
    refine ⟨(step_keeps hsound hs).1, hcap'.trans hcap, fun hroom => ?_⟩
    exact (hlossless (hgrows.trans hroom)).step hsound (hcap ▸ hgrows.trans hroom) hs
  exact hkeeps.2.2 hroom

/-- In every run in which no more messages are published than the ring has slots,
whatever the interleaving: no reader misses anything or is told of a gap, and it was
given the first messages, each in turn under its number. -/
theorem roomy_ring_loses_nothing {zero : Word} {slotWords : ℕ} {ring : ShmRing Word}
    (hring : create zero (2 ^ k) slotWords = some ring) (hn : n ≤ slotWords)
    {buffers : ι → List Word} (hbuffers : ∀ r, (buffers r).length = n)
    {as : List (Action ι Word)} (hrun : runs (step n) (start ring buffers) as = some b)
    (hroom : b.msgs.length ≤ 2 ^ k) (r : ι) :
    (b.readers r).missed = 0 ∧
    (∀ missed next cause, (b.readers r).at_ ≠ .returning (.gap missed next cause)) ∧
    (b.readers r).delivered.map Prod.fst = List.range (b.readers r).next ∧
    (b.readers r).delivered.map Prod.snd = b.msgs.take (b.readers r).next ∧
    ((b.readers r).at_ = .exited → (b.readers r).delivered.map Prod.snd = b.msgs) := by
  have h := runs_lossless hring hn hbuffers hrun hroom
  have hsound := runs_keeps_sound (start_sound hring hn hbuffers) hrun
  have hr := hsound.reads r
  have hmissed := (h.given r).missed
  have hlen : (b.readers r).delivered.length = (b.readers r).next := by
    have htotal := hr.total
    have hcount := hr.count
    omega
  have hfst : (b.readers r).delivered.map Prod.fst = List.range (b.readers r).next := by
    have hsub := sublist_range hr.order fun x hx => by
      obtain ⟨d, hd, rfl⟩ := List.mem_map.mp hx
      exact hr.below d hd
    exact hsub.eq_of_length (by rw [List.length_map, List.length_range, hlen])
  have hnext : (b.readers r).next ≤ b.msgs.length := by
    have hbound := hr.bound
    have hwrite := Published.writeSeq_le_begun hsound.publishes
    have hbegun := Published.begun_le hsound.publishes
    omega
  have hsnd : (b.readers r).delivered.map Prod.snd = b.msgs.take (b.readers r).next := by
    apply List.ext_getElem
    · rw [List.length_map, List.length_take, hlen, Nat.min_eq_left hnext]
    · intro i h1 h2
      rw [List.length_map] at h1
      have hnumber : ((b.readers r).delivered[i]).1 = i := by
        have hget := congrArg (fun l => l[i]?) hfst
        rw [List.getElem?_map, List.getElem?_eq_getElem h1, Option.map_some,
          List.getElem?_range (hlen ▸ h1)] at hget
        exact Option.some.inj hget
      have hmsg := hr.exact_ _ (List.getElem_mem h1)
      rw [hnumber] at hmsg
      obtain ⟨hi, hmsg⟩ := List.getElem?_eq_some_iff.mp hmsg
      rw [List.getElem_map, List.getElem_take]
      exact hmsg.symm
  refine ⟨hmissed, fun missed next cause hat => ?_, hfst, hsnd, fun hat => ?_⟩
  · have hsmooth := (h.given r).smooth
    rw [hat] at hsmooth
    exact hsmooth
  · have hplace := hr.place
    have hplaced := hsound.publishes.placed
    rw [hat] at hplace
    rw [hplace.2] at hplaced
    rw [hsnd, hplace.1, ← hplaced.1, List.take_length]

/-- Two messages in a ring of two slots, and the reader between them. -/
theorem roomy_ring_loses_nothing_two :
    ∃ b, runs (step 1) (start twoSlots fun _ => [0]) (publishing 10 ++ [.tryRead (), .read ()] ++
        publishing 11 ++ [.read (), .read (), .copyOut () 0, .read (), .read ()]) = some b ∧
      (b.readers ()).missed = 0 ∧ (b.readers ()).delivered.map Prod.snd = b.msgs.take 1 := by
  have hrun : ((runs (step 1) (start twoSlots fun _ => [0]) (publishing 10 ++
        [.tryRead (), .read ()] ++ publishing 11 ++
        [.read (), .read (), .copyOut () 0, .read (), .read ()])).map fun b =>
      (b.msgs.length, (b.readers ()).next)) = some (2, 1) := by
    decide +kernel
  obtain ⟨b, hb, heq⟩ := Option.map_eq_some_iff.mp hrun
  obtain ⟨hlen, hnext⟩ := Prod.mk.inj heq
  obtain ⟨hmissed, -, -, hsnd, -⟩ :=
    roomy_ring_loses_nothing create_twoSlots le_rfl (fun _ => rfl) hb hlen.le ()
  rw [hnext] at hsnd
  exact ⟨b, hb, hmissed, hsnd⟩

end Bus

end Hotpath.Ipc
