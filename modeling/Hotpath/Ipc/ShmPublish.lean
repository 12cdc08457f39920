import Hotpath.Ipc.ShmRing
import Hotpath.Support.Laps
import Hotpath.Support.Seqlock

/-!
# The publisher's side of the ring

What is in which slot at every step of `publish`, and what a step of the publisher
leaves as it was for the readers.
-/

namespace Hotpath.Ipc

open Hotpath.Support

variable {Word : Type}

/-! ### Slots -/

namespace ShmRing

/-- What `create` lays out for messages of `n` words. -/
structure Laid (n : ℕ) (r : ShmRing Word) : Prop where
  pow : ∃ k, r.capacity = 2 ^ k
  length : r.slots.length = r.capacity
  words : ∀ q s, r.slot q = some s → s.payload.length = r.slotWords
  fits : n ≤ r.slotWords

variable {n k q seq : ℕ} {r r' : ShmRing Word} {s s' : Slot Word} {f : Slot Word → Slot Word}

theorem Laid.pos (h : Laid n r) : 0 < r.capacity := by
  obtain ⟨k, hk⟩ := h.pow
  exact hk ▸ Nat.two_pow_pos k

theorem Laid.and_mask (h : Laid n r) (q : ℕ) : q &&& r.mask = q % r.capacity := by
  obtain ⟨k, hk⟩ := h.pow
  rw [mask, hk]
  exact Nat.and_two_pow_sub_one_eq_mod q k

theorem Laid.slot_eq (h : Laid n r) (q : ℕ) : r.slot q = r.slots[q % r.capacity]? := by
  rw [slot, h.and_mask]

theorem Laid.slot_exists (h : Laid n r) (q : ℕ) : ∃ s, r.slot q = some s := by
  rw [h.slot_eq]
  have hlt : q % r.capacity < r.slots.length := by
    rw [h.length]
    exact Nat.mod_lt q h.pos
  exact ⟨_, List.getElem?_eq_getElem hlt⟩

theorem Laid.slot_congr (h : Laid n r) (hq : q % r.capacity = seq % r.capacity) :
    r.slot q = r.slot seq := by
  rw [h.slot_eq, h.slot_eq, hq]

theorem Laid.copied_eq (h : Laid n r) : r.copied n = List.range n := by
  have hn := h.fits
  rw [copied]
  apply congrArg
  split <;> omega

/-- A store into a slot is possible and touches that slot only. -/
theorem Laid.setSlot_eq (h : Laid n r) (seq : ℕ) (f : Slot Word → Slot Word) :
    r.setSlot seq f = some { r with slots := r.slots.modify (seq % r.capacity) f } := by
  rw [setSlot, h.and_mask, h.length]
  exact if_pos (Nat.mod_lt seq h.pos)

/-- The ring after a store `f` into the slot of `seq`. -/
structure Stored (seq : ℕ) (f : Slot Word → Slot Word) (r r' : ShmRing Word) : Prop where
  capacity : r'.capacity = r.capacity
  slotWords : r'.slotWords = r.slotWords
  length : r'.slots.length = r.slots.length
  writeSeq : r'.writeSeq = r.writeSeq
  eofSeq : r'.eofSeq = r.eofSeq
  there : ∀ q s, q % r.capacity = seq % r.capacity → r.slot q = some s →
    r'.slot q = some (f s)
  elsewhere : ∀ q, q % r.capacity ≠ seq % r.capacity → r'.slot q = r.slot q

theorem Laid.stored (h : Laid n r) (hs : r.setSlot seq f = some r') : Stored seq f r r' := by
  rw [h.setSlot_eq] at hs
  obtain rfl := Option.some.inj hs
  have hslot : ∀ q, ({ r with slots := r.slots.modify (seq % r.capacity) f } : ShmRing Word).slot q
      = (r.slots.modify (seq % r.capacity) f)[q % r.capacity]? := by
    intro q
    show (r.slots.modify (seq % r.capacity) f)[q &&& r.mask]? = _
    rw [h.and_mask]
  constructor
  case capacity => rfl
  case slotWords => rfl
  case length => exact List.length_modify ..
  case writeSeq => rfl
  case eofSeq => rfl
  case there =>
    intro q s hq hslotq
    rw [h.slot_eq, hq] at hslotq
    rw [hslot, hq, List.getElem?_modify_eq, hslotq]
    rfl
  case elsewhere =>
    intro q hq
    rw [hslot, List.getElem?_modify_ne _ _ (Ne.symm hq), h.slot_eq]

/-- What a slot of the new ring was in the old one. -/
theorem Stored.back (h : Stored seq f r r') (hl : Laid n r) (hq : r'.slot q = some s') :
    (q % r.capacity = seq % r.capacity ∧ ∃ s, r.slot q = some s ∧ s' = f s) ∨
    (q % r.capacity ≠ seq % r.capacity ∧ r.slot q = some s') := by
  by_cases heq : q % r.capacity = seq % r.capacity
  case pos =>
    obtain ⟨s, hs⟩ := hl.slot_exists q
    have h1 := h.there q s heq hs
    exact Or.inl ⟨heq, s, hs, Option.some.inj (hq.symm.trans h1)⟩
  case neg => exact Or.inr ⟨heq, (h.elsewhere q heq) ▸ hq⟩

/-- The slot of `seq` itself. -/
theorem Stored.fresh (h : Stored seq f r r') (hl : Laid n r) (hs' : r'.slot seq = some s') :
    ∃ s, r.slot seq = some s ∧ s' = f s := by
  obtain ⟨s, hs⟩ := hl.slot_exists seq
  exact ⟨s, hs, Option.some.inj (hs'.symm.trans (h.there seq s rfl hs))⟩

theorem Stored.laid (h : Stored seq f r r') (hl : Laid n r)
    (hf : ∀ s, (f s).payload.length = s.payload.length) : Laid n r' := by
  constructor
  case pow => exact h.capacity ▸ hl.pow
  case length => rw [h.length, hl.length, h.capacity]
  case words =>
    intro q s' hq
    rw [h.slotWords]
    cases h.back hl hq with
    | inl hin =>
      obtain ⟨_, s, hs, rfl⟩ := hin
      rw [hf, hl.words q s hs]
    | inr hout => exact hl.words q s' hout.2
  case fits => exact h.slotWords ▸ hl.fits

/-- A store that is steady where it falls is steady everywhere. -/
theorem Stored.steady (h : Stored seq f r r')
    (hf : ∀ s, r.slot seq = some s → Steady Slot.version s (f s)) (hl : Laid n r) :
    ∀ q s, r.slot q = some s → ∃ s', r'.slot q = some s' ∧ Steady Slot.version s s' := by
  intro q s hs
  by_cases heq : q % r.capacity = seq % r.capacity
  case pos =>
    have hseq : r.slot seq = some s := (hl.slot_congr heq) ▸ hs
    exact ⟨f s, h.there q s heq hs, hf s hseq⟩
  case neg => exact ⟨s, (h.elsewhere q heq).trans hs, Steady.refl s⟩

end ShmRing

open ShmRing

/-! ### The invariant -/

/-- The messages whose words are all in their slot, though one may not be counted yet. -/
def completed (ring : ShmRing Word) : Publisher Word → ℕ
  | .storeCount seq => seq + 1
  | _ => ring.writeSeq

/-- The messages that have taken their slot from the one before. -/
def begun (ring : ShmRing Word) : Publisher Word → ℕ
  | .storeSeq .. | .copy .. => ring.writeSeq + 1
  | .storeCount seq => seq + 1
  | _ => ring.writeSeq

/-- `data` is the message that `publish` was called with last, and `seq` its number. -/
structure Writing (ring : ShmRing Word) (msgs : List (List Word)) (data : List Word)
    (seq : ℕ) : Prop where
  seq : seq = ring.writeSeq
  length : msgs.length = ring.writeSeq + 1
  last : msgs[ring.writeSeq]? = some data

theorem Writing.stored {ring ring' : ShmRing Word} {msgs : List (List Word)} {data : List Word}
    {seq at_ : ℕ} {f : Slot Word → Slot Word} (h : Writing ring msgs data seq)
    (hst : Stored at_ f ring ring') : Writing ring' msgs data seq := by
  obtain ⟨hseq, hlen, hlast⟩ := h
  rw [← hst.writeSeq] at hseq hlen hlast
  exact ⟨hseq, hlen, hlast⟩

/-- What the publisher's place says. -/
def Placed (n : ℕ) (ring : ShmRing Word) (msgs : List (List Word)) : Publisher Word → Prop
  | .idle | .markEof => msgs.length = ring.writeSeq
  | .begun data => Writing ring msgs data ring.writeSeq
  | .loadVersion data seq => Writing ring msgs data seq
  | .storeOdd data seq v =>
    Writing ring msgs data seq ∧ ∀ s, ring.slot seq = some s → s.version = v
  | .storeSeq data seq v =>
    Writing ring msgs data seq ∧ Even v ∧ ∀ s, ring.slot seq = some s → s.version = v + 1
  | .copy data seq v left =>
    Writing ring msgs data seq ∧ Even v ∧ ∀ s, ring.slot seq = some s →
      s.version = v + 1 ∧ s.seq = seq ∧ ∀ i < n, i ∉ left → s.payload[i]? = data[i]?
  | .storeCount seq => seq = ring.writeSeq ∧ msgs.length = ring.writeSeq + 1
  | .storeEof published => msgs.length = ring.writeSeq ∧ published = ring.writeSeq
  | .done => msgs.length = ring.writeSeq ∧ ring.eofSeq = ring.writeSeq + 1

structure Published (n : ℕ) (ring : ShmRing Word) (pub : Publisher Word)
    (msgs : List (List Word)) : Prop where
  laid : Laid n ring
  whole : ∀ m ∈ msgs, m.length = n
  placed : Placed n ring msgs pub
  running : pub ≠ .done → ring.eofSeq = 0
  even : ∀ q s, ring.slot q = some s →
    (begun ring pub = completed ring pub ∨ q % ring.capacity ≠ ring.writeSeq % ring.capacity) →
    Even s.version
  resident : ∀ q s, ring.slot q = some s → q < completed ring pub →
    begun ring pub ≤ q + ring.capacity → s.seq = q ∧ msgs[q]? = some (s.payload.take n)

/-- What a step leaves to the readers. -/
structure Later {ι : Type} (b b' : Bus ι Word) : Prop where
  readers : b'.readers = b.readers
  capacity : b'.ring.capacity = b.ring.capacity
  slots : ∀ q s, b.ring.slot q = some s →
    ∃ s', b'.ring.slot q = some s' ∧ Steady Slot.version s s'
  writeSeq : b.ring.writeSeq ≤ b'.ring.writeSeq
  completed : completed b.ring b.pub ≤ completed b'.ring b'.pub
  msgs : b.msgs <+: b'.msgs
  done : b.pub = .done → b'.pub = .done ∧ b'.ring.writeSeq = b.ring.writeSeq

/-- Words that agree up to the length of the data are the data. -/
theorem take_eq_words {α : Type} {words data : List α} {n : ℕ} (hlen : data.length = n)
    (h : ∀ i < n, words[i]? = data[i]?) : words.take n = data := by
  apply List.ext_getElem?
  intro i
  rw [List.getElem?_take]
  by_cases hi : i < n
  case pos => rw [if_pos hi, h i hi]
  case neg => rw [if_neg hi, List.getElem?_eq_none (by omega)]

theorem kept_of_prefix {α : Type} {l l' : List α} {i : ℕ} {x : α} (h : l <+: l')
    (hx : l[i]? = some x) : l'[i]? = some x := by
  obtain ⟨t, rfl⟩ := h
  obtain ⟨hlt, rfl⟩ := List.getElem?_eq_some_iff.mp hx
  rw [List.getElem?_append_left hlt, List.getElem?_eq_getElem hlt]

/-- The last of the first `count` messages that goes into the slot of `next`. -/
theorem last_lap {cap count next : ℕ} (hpos : 0 < cap) (h : next < count) :
    ∃ q, next ≤ q ∧ q < count ∧ count ≤ q + cap ∧ q % cap = next % cap := by
  have hdiv := Nat.div_add_mod (count - 1 - next) cap
  have hmod := Nat.mod_lt (count - 1 - next) hpos
  generalize (count - 1 - next) / cap = laps at hdiv
  exact ⟨next + cap * laps, Nat.le_add_right _ _, by omega, by omega, Nat.add_mul_mod_self_left ..⟩

/-! ### The steps -/

namespace Published

variable {n : ℕ} {ring ring' : ShmRing Word} {pub pub' : Publisher Word}
  {msgs msgs' : List (List Word)} {f : Slot Word → Slot Word} {data : List Word} {seq v : ℕ}
  {left : List ℕ}

/-- The publisher moves on and the ring is as it was. -/
theorem moved (h : Published n ring pub msgs) (hrun : pub ≠ .done)
    (hmsgs : msgs <+: msgs') (hwhole : ∀ m ∈ msgs', m.length = n)
    (hcompleted : completed ring pub' = completed ring pub)
    (hbegun : begun ring pub' = begun ring pub) (hplaced : Placed n ring msgs' pub') :
    Published n ring pub' msgs' := by
  constructor
  case laid => exact h.laid
  case whole => exact hwhole
  case placed => exact hplaced
  case running => exact fun _ => h.running hrun
  case even => rw [hcompleted, hbegun]; exact h.even
  case resident =>
    rw [hcompleted, hbegun]
    intro q s hs hq hle
    obtain ⟨hseq, hmsg⟩ := h.resident q s hs hq hle
    exact ⟨hseq, kept_of_prefix hmsgs hmsg⟩

/-- A store into the slot of the message being written. -/
theorem store (h : Published n ring pub msgs) (hst : Stored ring.writeSeq f ring ring')
    (hlen : ∀ s, (f s).payload.length = s.payload.length) (hrun : pub ≠ .done)
    (hcompleted : completed ring pub = ring.writeSeq)
    (hbegun : begun ring pub ≤ ring.writeSeq + 1)
    (hcompleted' : completed ring' pub' = ring.writeSeq)
    (hbegun' : begun ring' pub' = ring.writeSeq + 1)
    (hplaced : Placed n ring' msgs pub') : Published n ring' pub' msgs := by
  constructor
  case laid => exact hst.laid h.laid hlen
  case whole => exact h.whole
  case placed => exact hplaced
  case running => exact fun _ => hst.eofSeq ▸ h.running hrun
  case even =>
    intro q s' hs hor
    rw [hcompleted', hbegun', hst.capacity, hst.writeSeq] at hor
    have hne := hor.resolve_left (by omega)
    exact h.even q s' (hst.elsewhere q hne ▸ hs) (Or.inr hne)
  case resident =>
    intro q s' hs hq hle
    rw [hcompleted'] at hq
    rw [hbegun', hst.capacity] at hle
    have hne : q % ring.capacity ≠ ring.writeSeq % ring.capacity := slot_ne hq (by omega)
    exact h.resident q s' (hst.elsewhere q hne ▸ hs) (by omega) (by omega)

theorem storeOdd (h : Published n ring (.storeOdd data seq v) msgs)
    (hst : Stored seq (fun s => { s with version := v + 1 }) ring ring') :
    Published n ring' (.storeSeq data seq v) msgs := by
  obtain ⟨hw, hversion⟩ := h.placed
  obtain rfl := hw.seq
  apply h.store hst (fun _ => rfl) (by simp) rfl (Nat.le_succ _)
  case hcompleted' => exact hst.writeSeq
  case hbegun' => exact congrArg (· + 1) hst.writeSeq
  case hplaced =>
    obtain ⟨s, hs⟩ := h.laid.slot_exists ring.writeSeq
    have heven : Even v := hversion s hs ▸ h.even _ s hs (Or.inl rfl)
    apply And.intro (hw.stored hst)
    apply And.intro heven
    intro s' hs'
    obtain ⟨s, _, rfl⟩ := hst.fresh h.laid hs'
    rfl

theorem storeSeq (h : Published n ring (.storeSeq data seq v) msgs)
    (hst : Stored seq (fun s => { s with seq := seq }) ring ring') :
    Published n ring' (.copy data seq v (ring'.copied n)) msgs := by
  obtain ⟨hw, heven, hversion⟩ := h.placed
  obtain rfl := hw.seq
  have hl : Laid n ring' := hst.laid h.laid fun _ => rfl
  apply h.store hst (fun _ => rfl) (by simp) rfl le_rfl
  case hcompleted' => exact hst.writeSeq
  case hbegun' => exact congrArg (· + 1) hst.writeSeq
  case hplaced =>
    apply And.intro (hw.stored hst)
    apply And.intro heven
    intro s' hs'
    obtain ⟨s, hs, rfl⟩ := hst.fresh h.laid hs'
    rw [hl.copied_eq]
    exact ⟨hversion s hs, rfl, fun i hi hleft => absurd (List.mem_range.mpr hi) hleft⟩

theorem copyIn (h : Published n ring (.copy data seq v left) msgs) {w : ℕ} {x : Word}
    (hx : data[w]? = some x)
    (hst : Stored seq (fun s => { s with payload := s.payload.set w x }) ring ring') :
    Published n ring' (.copy data seq v (left.erase w)) msgs := by
  obtain ⟨hw, heven, hslot⟩ := h.placed
  obtain rfl := hw.seq
  apply h.store hst (fun _ => List.length_set) (by simp) rfl le_rfl
  case hcompleted' => exact hst.writeSeq
  case hbegun' => exact congrArg (· + 1) hst.writeSeq
  case hplaced =>
    apply And.intro (hw.stored hst)
    apply And.intro heven
    intro s' hs'
    obtain ⟨s, hs, rfl⟩ := hst.fresh h.laid hs'
    obtain ⟨hversion, hseq, hwords⟩ := hslot s hs
    have hdata : data.length = n := h.whole data (List.mem_of_getElem? hw.last)
    have hlen := h.laid.words _ s hs
    have hfits := h.laid.fits
    apply And.intro hversion
    apply And.intro hseq
    intro i hi hleft
    rw [List.getElem?_set]
    by_cases hiw : w = i
    case pos =>
      subst hiw
      rw [if_pos rfl, if_pos (by omega), hx]
    case neg =>
      rw [if_neg hiw]
      exact hwords i hi fun hmem => hleft ((List.mem_erase_of_ne (Ne.symm hiw)).mpr hmem)

/-- The store that makes the slot readable again. -/
theorem finish (h : Published n ring (.copy data seq v []) msgs)
    (hst : Stored seq (fun s => { s with version := v + 2 }) ring ring') :
    Published n ring' (.storeCount seq) msgs := by
  obtain ⟨hw, heven, hslot⟩ := h.placed
  obtain rfl := hw.seq
  constructor
  case laid => exact hst.laid h.laid fun _ => rfl
  case whole => exact h.whole
  case placed => exact ⟨hst.writeSeq.symm, hst.writeSeq ▸ hw.length⟩
  case running => exact fun _ => hst.eofSeq ▸ h.running (by simp)
  case even =>
    intro q s' hs _
    cases hst.back h.laid hs with
    | inl hin =>
      obtain ⟨_, s, _, rfl⟩ := hin
      exact heven.add even_two
    | inr hout => exact h.even q s' hout.2 (Or.inr hout.1)
  case resident =>
    intro q s' hs hq hle
    replace hq : q < ring.writeSeq + 1 := hq
    replace hle : ring.writeSeq + 1 ≤ q + ring.capacity := hst.capacity ▸ hle
    cases hst.back h.laid hs with
    | inl hin =>
      obtain ⟨heq, s, hold, rfl⟩ := hin
      have hlast : q = ring.writeSeq := by
        by_contra hne
        exact slot_ne (by omega) (by omega) heq
      subst hlast
      obtain ⟨-, hseq, hwords⟩ := hslot s hold
      have hdata : data.length = n := h.whole data (List.mem_of_getElem? hw.last)
      have hpayload := take_eq_words hdata fun i hi => hwords i hi List.not_mem_nil
      exact ⟨hseq, hpayload ▸ hw.last⟩
    | inr hout =>
      have hne : q ≠ ring.writeSeq := fun heq => hout.1 (heq ▸ rfl)
      exact h.resident q s' hout.2 (show q < ring.writeSeq by omega) hle

/-- The slots do not change with the count. -/
theorem storeCount (h : Published n ring (.storeCount seq) msgs) :
    Published n { ring with writeSeq := seq + 1 } .idle msgs := by
  obtain ⟨rfl, hlen⟩ := h.placed
  constructor
  case laid => exact ⟨h.laid.pow, h.laid.length, h.laid.words, h.laid.fits⟩
  case whole => exact h.whole
  case placed => exact hlen
  case running => exact fun _ => h.running (by simp)
  case even => exact fun q s hs _ => h.even q s hs (Or.inl rfl)
  case resident => exact h.resident

theorem storeEof {published : ℕ} (h : Published n ring (.storeEof published) msgs) :
    Published n { ring with eofSeq := published + 1 } .done msgs := by
  obtain ⟨hlen, rfl⟩ := h.placed
  constructor
  case laid => exact ⟨h.laid.pow, h.laid.length, h.laid.words, h.laid.fits⟩
  case whole => exact h.whole
  case placed => exact ⟨hlen, rfl⟩
  case running => exact fun hne => absurd rfl hne
  case even => exact h.even
  case resident => exact h.resident

/-- While a message is being written the version of its slot is odd. -/
theorem begun_eq (h : Published n ring pub msgs) :
    begun ring pub = completed ring pub ∨
    (begun ring pub = ring.writeSeq + 1 ∧ completed ring pub = ring.writeSeq ∧
      ∀ s, ring.slot ring.writeSeq = some s → ¬ Even s.version) := by
  cases pub with
  | storeSeq data seq v =>
    obtain ⟨hw, heven, hversion⟩ := h.placed
    obtain rfl := hw.seq
    apply Or.inr
    exact ⟨rfl, rfl, fun s hs => hversion s hs ▸ Nat.not_even_iff_odd.mpr heven.add_one⟩
  | copy data seq v left =>
    obtain ⟨hw, heven, hslot⟩ := h.placed
    obtain rfl := hw.seq
    apply Or.inr
    exact ⟨rfl, rfl, fun s hs => (hslot s hs).1 ▸ Nat.not_even_iff_odd.mpr heven.add_one⟩
  | _ => exact Or.inl rfl

theorem writeSeq_le (h : Published n ring pub msgs) : ring.writeSeq ≤ completed ring pub := by
  cases pub with
  | storeCount seq => exact h.placed.1 ▸ Nat.le_succ _
  | _ => exact le_rfl

theorem writeSeq_le_begun (h : Published n ring pub msgs) :
    ring.writeSeq ≤ begun ring pub := by
  cases h.begun_eq with
  | inl heq => exact heq ▸ h.writeSeq_le
  | inr htaken => omega

theorem completed_le (h : Published n ring pub msgs) :
    completed ring pub ≤ ring.writeSeq + 1 := by
  cases pub with
  | storeCount seq => exact h.placed.1 ▸ le_rfl
  | _ => exact Nat.le_succ _

/-- Under an even version a slot holds the last message completed into it. -/
theorem last_resident (h : Published n ring pub msgs) {next : ℕ} {s : Slot Word}
    (hs : ring.slot next = some s) (heven : Even s.version) (hnext : next < completed ring pub) :
    ∃ q, next ≤ q ∧ q < completed ring pub ∧ begun ring pub ≤ q + ring.capacity ∧
      q % ring.capacity = next % ring.capacity ∧ s.seq = q ∧
      msgs[q]? = some (s.payload.take n) := by
  obtain ⟨q, hle, hlt, hlap, hsame⟩ := last_lap h.laid.pos hnext
  have hsq : ring.slot q = some s := (h.laid.slot_congr hsame) ▸ hs
  have hbegun : begun ring pub ≤ q + ring.capacity := by
    cases h.begun_eq with
    | inl heq => exact heq ▸ hlap
    | inr htaken =>
      obtain ⟨hb, hc, hodd⟩ := htaken
      by_contra hgt
      -- the slot would be the one being written
      have heq : ring.writeSeq = q + ring.capacity := by omega
      have hslot : ring.slot ring.writeSeq = some s := by
        rw [heq, h.laid.slot_congr (Nat.add_mod_right q ring.capacity)]
        exact hsq
      exact hodd s hslot heven
  obtain ⟨hseq, hmsg⟩ := h.resident q s hsq hlt hbegun
  exact ⟨q, hle, hlt, hbegun, hsame, hseq, hmsg⟩

end Published

namespace Later

variable {ι : Type} {n seq : ℕ} {b b' : Bus ι Word} {f : Slot Word → Slot Word}

theorem of_slots (hreaders : b'.readers = b.readers)
    (hcapacity : b'.ring.capacity = b.ring.capacity)
    (hslots : b'.ring.slots = b.ring.slots) (hwrite : b.ring.writeSeq ≤ b'.ring.writeSeq)
    (hcompleted : Ipc.completed b.ring b.pub ≤ Ipc.completed b'.ring b'.pub)
    (hmsgs : b.msgs <+: b'.msgs) (hrun : b.pub ≠ .done) : Later b b' := by
  constructor
  case readers => exact hreaders
  case capacity => exact hcapacity
  case slots =>
    intro q s hs
    rw [ShmRing.slot, mask] at hs
    exact ⟨s, by rw [ShmRing.slot, mask, hcapacity, hslots, hs], Steady.refl s⟩
  case writeSeq => exact hwrite
  case completed => exact hcompleted
  case msgs => exact hmsgs
  case done => exact fun h => absurd h hrun

theorem of_ring (hreaders : b'.readers = b.readers) (hring : b'.ring = b.ring)
    (hcompleted : Ipc.completed b.ring b'.pub = Ipc.completed b.ring b.pub)
    (hmsgs : b.msgs <+: b'.msgs) (hrun : b.pub ≠ .done) : Later b b' := by
  apply of_slots hreaders (by rw [hring]) (by rw [hring]) (by rw [hring]) _ hmsgs hrun
  rw [hring, hcompleted]

theorem of_stored (hreaders : b'.readers = b.readers) (hl : Laid n b.ring)
    (hst : Stored seq f b.ring b'.ring)
    (hsteady : ∀ s, b.ring.slot seq = some s → Steady Slot.version s (f s))
    (hcompleted : Ipc.completed b.ring b.pub ≤ Ipc.completed b'.ring b'.pub)
    (hmsgs : b'.msgs = b.msgs) (hrun : b.pub ≠ .done) : Later b b' := by
  constructor
  case readers => exact hreaders
  case capacity => exact hst.capacity
  case slots => exact hst.steady hsteady hl
  case writeSeq => exact hst.writeSeq.ge
  case completed => exact hcompleted
  case msgs => rw [hmsgs]
  case done => exact fun h => absurd h hrun

end Later

namespace Bus

variable {ι : Type} {n w : ℕ} {b b' : Bus ι Word} {data : List Word}

/-- What is true of the ring between two steps, and what a step leaves. -/
def Publishes (n : ℕ) (b : Bus ι Word) : Prop := Published n b.ring b.pub b.msgs

/-- The slot of `q` is readable and holds message `q`. -/
def Intact (n : ℕ) (b : Bus ι Word) (q : ℕ) : Prop :=
  ∃ s, b.ring.slot q = some s ∧ Even s.version ∧ s.seq = q ∧
    b.msgs[q]? = some (s.payload.take n)

/-- A published message is intact until its slot is taken for the next one. -/
theorem intact_iff (h : b.Publishes n) {q : ℕ} (hq : q < b.ring.writeSeq) :
    b.Intact n q ↔ begun b.ring b.pub ≤ q + b.ring.capacity := by
  have hc : q < completed b.ring b.pub := hq.trans_le (Published.writeSeq_le h)
  constructor
  case mp =>
    intro ⟨s, hs, heven, hseq, _⟩
    obtain ⟨q', _, _, hbegun, _, hseq', _⟩ := Published.last_resident h hs heven hc
    rw [← hseq, hseq']
    exact hbegun
  case mpr =>
    intro hbegun
    obtain ⟨s, hs⟩ := h.laid.slot_exists q
    obtain ⟨hseq, hmsg⟩ := h.resident q s hs hc hbegun
    have heven : Even s.version := by
      apply h.even q s hs
      cases Published.begun_eq h with
      | inl heq => exact Or.inl heq
      | inr htaken => exact Or.inr (slot_ne hq (by omega))
    exact ⟨s, hs, heven, hseq, hmsg⟩

theorem start_publishes {zero : Word} {k slotWords : ℕ} {ring : ShmRing Word}
    (hring : create zero (2 ^ k) slotWords = some ring) (hn : n ≤ slotWords)
    (buffers : ι → List Word) : (start ring buffers).Publishes n := by
  unfold create at hring
  split at hring
  case isTrue => cases hring
  case isFalse =>
    obtain rfl := Option.some.inj hring
    have hslot (q : ℕ) (s : Slot Word)
        (hs : (List.replicate (2 ^ k) ({ payload := List.replicate slotWords zero } : Slot Word))[q]?
          = some s) : s = { payload := List.replicate slotWords zero } := by
      exact List.eq_of_mem_replicate (List.mem_of_getElem? hs)
    constructor
    case laid =>
      constructor
      case pow => exact ⟨k, rfl⟩
      case length => exact List.length_replicate
      case words =>
        intro q s hs
        rw [hslot _ s hs]
        exact List.length_replicate
      case fits => exact hn
    case whole => exact fun m hm => absurd hm List.not_mem_nil
    case placed => rfl
    case running => exact fun _ => rfl
    case even =>
      intro q s hs _
      rw [hslot _ s hs]
      exact Even.zero
    case resident => exact fun q s _ hq => absurd hq (Nat.not_lt_zero q)

/-- The stores into a slot whose version is odd are steady. -/
theorem steady_under {s s' : Slot Word} {v : ℕ} (heven : Even v) (hs : s.version = v + 1)
    (hs' : s'.version = s.version) : Steady Slot.version s s' := by
  apply Steady.of_odd hs'
  rw [hs]
  exact Nat.not_even_iff_odd.mpr heven.add_one

theorem advance_spec (h : b.Publishes n) (hs : b.advance n = some b') :
    b'.Publishes n ∧ Later b b' := by
  rw [Publishes] at h
  unfold advance at hs
  cases hpub : b.pub with
  | idle => rw [hpub] at hs; cases hs
  | begun data =>
    rw [hpub] at h hs
    obtain rfl := Option.some.inj hs
    constructor
    case left => exact h.moved (by simp) List.prefix_rfl h.whole rfl rfl h.placed
    case right => exact .of_ring rfl rfl (by rw [hpub]; rfl) List.prefix_rfl (by simp [hpub])
  | loadVersion data seq =>
    rw [hpub] at h hs
    obtain ⟨s, hslot, hs⟩ := Option.bind_eq_some_iff.mp hs
    obtain rfl := Option.some.inj hs
    have hplaced : Placed n b.ring b.msgs (.storeOdd data seq s.version) :=
      ⟨h.placed, fun s' hs' => by rw [Option.some.inj (hslot.symm.trans hs')]⟩
    constructor
    case left => exact h.moved (by simp) List.prefix_rfl h.whole rfl rfl hplaced
    case right => exact .of_ring rfl rfl (by rw [hpub]; rfl) List.prefix_rfl (by simp [hpub])
  | storeOdd data seq v =>
    rw [hpub] at h hs
    obtain ⟨ring, hset, hs⟩ := Option.bind_eq_some_iff.mp hs
    obtain rfl := Option.some.inj hs
    have hst := h.laid.stored hset
    have hsteady (s) (hslot : b.ring.slot seq = some s) :
        Steady Slot.version s { s with version := v + 1 } := by
      apply Steady.of_lt
      rw [h.placed.2 s hslot]
      exact Nat.lt_succ_self v
    constructor
    case left => exact h.storeOdd hst
    case right =>
      exact .of_stored rfl h.laid hst hsteady (by rw [hpub]; exact hst.writeSeq.ge) rfl (by simp [hpub])
  | storeSeq data seq v =>
    rw [hpub] at h hs
    obtain ⟨ring, hset, hs⟩ := Option.bind_eq_some_iff.mp hs
    obtain rfl := Option.some.inj hs
    have hst := h.laid.stored hset
    obtain ⟨-, heven, hversion⟩ := h.placed
    have hsteady (s) (hslot : b.ring.slot seq = some s) :
        Steady Slot.version s { s with seq := seq } :=
      steady_under heven (hversion s hslot) rfl
    constructor
    case left => exact h.storeSeq hst
    case right =>
      exact .of_stored rfl h.laid hst hsteady (by rw [hpub]; exact hst.writeSeq.ge) rfl (by simp [hpub])
  | copy data seq v left =>
    rw [hpub] at h hs
    cases left with
    | nil =>
      obtain ⟨ring, hset, hs⟩ := Option.bind_eq_some_iff.mp hs
      obtain rfl := Option.some.inj hs
      have hst := h.laid.stored hset
      obtain ⟨hw, -, hwords⟩ := h.placed
      have hsteady (s) (hslot : b.ring.slot seq = some s) :
          Steady Slot.version s { s with version := v + 2 } := by
        apply Steady.of_lt
        rw [(hwords s hslot).1]
        exact Nat.lt_succ_self (v + 1)
      have hle : completed b.ring b.pub ≤ seq + 1 := by
        rw [hpub, hw.seq]
        exact Nat.le_succ b.ring.writeSeq
      constructor
      case left => exact h.finish hst
      case right => exact .of_stored rfl h.laid hst hsteady hle rfl (by simp [hpub])
    | cons w left => cases hs
  | storeCount seq =>
    rw [hpub] at h hs
    obtain rfl := Option.some.inj hs
    obtain ⟨rfl, -⟩ := h.placed
    constructor
    case left => exact h.storeCount
    case right =>
      exact .of_slots rfl rfl rfl (Nat.le_succ _) (by rw [hpub]; exact le_rfl) List.prefix_rfl
        (by simp [hpub])
  | markEof =>
    rw [hpub] at h hs
    obtain rfl := Option.some.inj hs
    constructor
    case left => exact h.moved (by simp) List.prefix_rfl h.whole rfl rfl ⟨h.placed, rfl⟩
    case right => exact .of_ring rfl rfl (by rw [hpub]; rfl) List.prefix_rfl (by simp [hpub])
  | storeEof published =>
    rw [hpub] at h hs
    obtain rfl := Option.some.inj hs
    constructor
    case left => exact h.storeEof
    case right =>
      exact .of_slots rfl rfl rfl le_rfl (by rw [hpub]; exact le_rfl) List.prefix_rfl
        (by simp [hpub])
  | done => rw [hpub] at hs; cases hs

theorem copyIn_spec (h : b.Publishes n) (hs : b.copyIn w = some b') :
    b'.Publishes n ∧ Later b b' := by
  rw [Publishes] at h
  unfold Bus.copyIn at hs
  split at hs
  case h_1 data seq v left hpub =>
    rw [hpub] at h
    obtain ⟨-, hs⟩ := Option.ite_none_right_eq_some.mp hs
    obtain ⟨x, hx, hs⟩ := Option.bind_eq_some_iff.mp hs
    obtain ⟨ring, hset, hs⟩ := Option.bind_eq_some_iff.mp hs
    obtain rfl := Option.some.inj hs
    have hst := h.laid.stored hset
    obtain ⟨-, heven, hwords⟩ := h.placed
    have hsteady (s) (hslot : b.ring.slot seq = some s) :
        Steady Slot.version s { s with payload := s.payload.set w x } :=
      steady_under heven (hwords s hslot).1 rfl
    constructor
    case left => exact h.copyIn hx hst
    case right =>
      exact .of_stored rfl h.laid hst hsteady (by rw [hpub]; exact hst.writeSeq.ge) rfl (by simp [hpub])
  case h_2 => cases hs

variable [DecidableEq ι]

theorem publish_spec (h : b.Publishes n) (hs : b.step n (.publish data) = some b') :
    b'.Publishes n ∧ Later b b' := by
  rw [Publishes] at h
  unfold step at hs
  cases hpub : b.pub with
  | idle =>
    rw [hpub] at h hs
    obtain ⟨-, hs⟩ := Option.ite_none_right_eq_some.mp hs
    obtain ⟨hdata, hs⟩ := Option.ite_none_right_eq_some.mp hs
    obtain rfl := Option.some.inj hs
    have hlen : b.msgs.length = b.ring.writeSeq := h.placed
    have hwhole (m) (hm : m ∈ b.msgs ++ [data]) : m.length = n := by
      cases List.mem_append.mp hm with
      | inl hold => exact h.whole m hold
      | inr hnew => rw [List.mem_singleton.mp hnew, hdata]
    have hwriting : Writing b.ring (b.msgs ++ [data]) data b.ring.writeSeq := by
      constructor
      case seq => rfl
      case length => rw [List.length_append, hlen]; rfl
      case last => rw [← hlen, List.getElem?_concat_length]
    have hmsgs : b.msgs <+: b.msgs ++ [data] := List.prefix_append ..
    constructor
    case left => exact h.moved (by simp) hmsgs hwhole rfl rfl hwriting
    case right => exact .of_ring rfl rfl (by rw [hpub]; rfl) hmsgs (by simp [hpub])
  | _ => rw [hpub] at hs; cases hs

theorem markEof_spec (h : b.Publishes n) (hs : b.step n .markEof = some b') :
    b'.Publishes n ∧ Later b b' := by
  rw [Publishes] at h
  unfold step at hs
  cases hpub : b.pub with
  | idle =>
    rw [hpub] at h hs
    obtain ⟨-, hs⟩ := Option.ite_none_right_eq_some.mp hs
    obtain rfl := Option.some.inj hs
    constructor
    case left => exact h.moved (by simp) List.prefix_rfl h.whole rfl rfl h.placed
    case right => exact .of_ring rfl rfl (by rw [hpub]; rfl) List.prefix_rfl (by simp [hpub])
  | _ => rw [hpub] at hs; cases hs

end Bus

end Hotpath.Ipc
