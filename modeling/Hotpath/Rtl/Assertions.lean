import Hotpath.Rtl.ItchParse

/-!
# The assertions of the hardware parser (`HOTPATH_ASSERT`)

They hold on every clock edge after a reset, for any bytes, any gaps between them
and any further resets.
-/

namespace Hotpath.Rtl

/-- The tests that a body must pass to be put out. -/
def LongEnough (t : BitVec 8) (len : BitVec 16) : Prop :=
  headerLen ≤ len ∧ (specLength t ≠ 0 → specLength t ≤ len)

/-- An armed emit finds the machine between two frames, so it does not meet the last
byte of the next one, and the type register still is that of its own body. -/
structure Consistent (r : Regs) : Prop where
  counting : r.state = .body → r.cnt < r.len
  armed : r.emit = true → r.state = .lenHi ∧ r.mValid = false ∧ r.eShort = false
  passed : r.emit = true → r.emitShort = false → LongEnough r.mType r.emitLen
  shown : r.mValid = true → r.state ≠ .body ∧ r.eShort = false ∧ LongEnough r.mType r.mLength

variable {r : Regs} {c : Cycle}

theorem longEnough_of_tooShort (h : r.tooShort = false) : LongEnough r.mType r.len := by
  unfold Regs.tooShort at h
  have hnot := of_decide_eq_false h
  constructor
  case left => exact BitVec.not_lt.mp fun hlt => hnot (Or.inl hlt)
  case right => exact fun hne => BitVec.not_lt.mp fun hlt => hnot (Or.inr ⟨hne, hlt⟩)

/-- A body of one byte never passes, whatever the type register held before it. -/
theorem longEnough_captured (h : r.tooShort = false) (hlast : r.cnt = r.len - 1) (b : UInt8) :
    LongEnough (if r.cnt = 0 then b.toBitVec else r.mType) r.len := by
  have hlong := longEnough_of_tooShort h
  have hcnt : r.cnt ≠ 0 := by
    intro hzero
    have hheader : headerLen ≤ r.len := hlong.1
    simp only [headerLen] at hheader
    bv_omega
  rw [if_neg hcnt]
  exact hlong

theorem pos_of_ne_zero {x : BitVec 16} (h : x ≠ 0) : 0 < x := by
  bv_omega

/-- No emit is armed and nothing is put out. -/
theorem consistent_quiet (hcounting : r.state = .body → r.cnt < r.len) (hemit : r.emit = false)
    (hvalid : r.mValid = false) : Consistent r := by
  constructor
  case counting => exact hcounting
  case armed => intro harmed; rw [hemit] at harmed; cases harmed
  case passed => intro harmed; rw [hemit] at harmed; cases harmed
  case shown => intro hshown; rw [hvalid] at hshown; cases hshown

theorem consistent_reset (r : Regs) : Consistent r.reset :=
  consistent_quiet (fun hbody => nomatch hbody) rfl rfl

/-- A byte, while no emit is armed. -/
theorem consistent_accept (h : Consistent r) (hemit : r.emit = false) (b : UInt8) :
    Consistent (Regs.accept r r.clearStrobes b) := by
  unfold Regs.accept
  cases hstate : r.state with
  | lenHi => exact consistent_quiet (fun hbody => nomatch hbody) hemit rfl
  | lenLo =>
    simp only [Regs.acceptLenLo]
    split
    case isTrue => exact consistent_quiet (fun hbody => nomatch hbody) hemit rfl
    case isFalse hlen =>
      exact consistent_quiet (fun _ => pos_of_ne_zero hlen) hemit rfl
  | body =>
    have hcnt := h.counting hstate
    simp only [Regs.acceptBody]
    split
    case isTrue hlast =>
      constructor
      case counting => intro hbody; cases hbody
      case armed => exact fun _ => ⟨rfl, rfl, rfl⟩
      case passed => exact fun _ hshort => longEnough_captured hshort hlast b
      case shown => intro hvalid; cases hvalid
    case isFalse hmore =>
      have hnext : r.cnt + 1 < r.len := by bv_omega
      exact consistent_quiet (fun _ => hnext) hemit rfl

/-- The edge after the arming one. It may take the first byte of the next frame. -/
theorem consistent_strobe (h : Consistent r) (hemit : r.emit = true) {n : Regs}
    (hstate : n.state ≠ .body) (htype : n.mType = r.mType) (hvalid : n.mValid = false)
    (hshort : n.eShort = false) : Consistent (Regs.strobe r n) := by
  unfold Regs.strobe
  split
  case isTrue =>
    constructor
    case counting => intro hbody; exact absurd hbody hstate
    case armed => intro harmed; cases harmed
    case passed => intro harmed; cases harmed
    case shown => intro hv; exact absurd hv (by simp [hvalid])
  case isFalse hpass =>
    constructor
    case counting => intro hbody; exact absurd hbody hstate
    case armed => intro harmed; cases harmed
    case passed => intro harmed; cases harmed
    case shown =>
      intro _
      have hlong := h.passed hemit (Bool.eq_false_of_not_eq_true hpass)
      exact ⟨hstate, hshort, htype ▸ hlong⟩

theorem consistent_step (h : Consistent r) (c : Cycle) : Consistent (Regs.step c r) := by
  unfold Regs.step
  by_cases hrst : c.rst = true
  case pos =>
    rw [if_pos hrst]
    exact consistent_reset r
  case neg =>
    rw [if_neg hrst]
    cases hemit : r.emit with
    | true =>
      obtain ⟨hstate, _, _⟩ := h.armed hemit
      -- with a byte the machine goes on to the second length byte, without one it stays
      apply consistent_strobe h hemit
      case hstate => split <;> simp [Regs.accept, hstate, Regs.acceptLenHi, Regs.clearStrobes]
      case htype => split <;> simp [Regs.accept, hstate, Regs.acceptLenHi, Regs.clearStrobes]
      case hvalid => split <;> simp [Regs.accept, hstate, Regs.acceptLenHi, Regs.clearStrobes]
      case hshort => split <;> simp [Regs.accept, hstate, Regs.acceptLenHi, Regs.clearStrobes]
    | false =>
      split
      case isTrue => exact consistent_accept h hemit c.byte
      case isFalse => exact consistent_quiet h.counting hemit rfl

/-- After a reset, through every sequence of clock edges. -/
theorem consistent_run (r : Regs) (cs : List Cycle) :
    Consistent (cs.foldl (fun r c => Regs.step c r) r.reset) := by
  have h : ∀ r, Consistent r → Consistent (cs.foldl (fun r c => Regs.step c r) r) := by
    induction cs with
    | nil => exact fun r hr => hr
    | cons c cs ih => exact fun r hr => ih (Regs.step c r) (consistent_step hr c)
  exact h r.reset (consistent_reset r)

/-- The next edge, from registers whose emit is not armed, puts nothing out. -/
theorem step_quiet (hemit : r.emit = false) (c : Cycle) :
    (Regs.step c r).mValid = false ∧ (Regs.step c r).eShort = false := by
  unfold Regs.step
  split
  case isTrue => exact ⟨rfl, rfl⟩
  case isFalse =>
    rw [if_neg (by simp [hemit])]
    split
    case isTrue =>
      unfold Regs.accept
      split
      case h_1 => exact ⟨rfl, rfl⟩
      case h_2 => simp only [Regs.acceptLenLo]; split <;> exact ⟨rfl, rfl⟩
      case h_3 => simp only [Regs.acceptBody]; split <;> exact ⟨rfl, rfl⟩
    case isFalse => exact ⟨rfl, rfl⟩

/-- An armed emit resolves on the next edge. -/
theorem step_disarms (hemit : r.emit = true) (c : Cycle) : (Regs.step c r).emit = false := by
  unfold Regs.step
  split
  case isTrue => rfl
  case isFalse =>
    simp only [Regs.strobe]
    split <;> rfl

theorem assertions_hold (r0 : Regs) (cs : List Cycle) (c : Cycle) :
    let r := cs.foldl (fun r c => Regs.step c r) r0.reset
    let next := Regs.step c r
    (r.state = .body ∧ c.valid = true → r.cnt < r.len) ∧
    ¬(r.mValid = true ∧ r.eShort = true) ∧
    (r.mValid = true → 11 ≤ r.mLength.toNat ∧
      (specLength r.mType ≠ 0 → (specLength r.mType).toNat ≤ r.mLength.toNat)) ∧
    ¬(r.mValid = true ∧ next.mValid = true) ∧
    ¬(r.eShort = true ∧ next.eShort = true) ∧
    ¬(r.emit = true ∧ next.emit = true) := by
  intro r next
  have h : Consistent r := consistent_run r0 cs
  have hquiet (hraised : r.mValid = true ∨ r.eShort = true) : r.emit = false := by
    cases hemit : r.emit with
    | false => rfl
    | true =>
      obtain ⟨_, hvalid, hshort⟩ := h.armed hemit
      rw [hvalid, hshort] at hraised
      cases hraised with
      | inl hv => cases hv
      | inr hs => cases hs
  apply And.intro fun hbody => h.counting hbody.1
  constructor
  case left =>
    intro hboth
    obtain ⟨_, hshort, _⟩ := h.shown hboth.1
    rw [hshort] at hboth
    cases hboth.2
  constructor
  case left =>
    intro hvalid
    exact (h.shown hvalid).2.2
  constructor
  case left =>
    intro hboth
    have hnext := (step_quiet (hquiet (Or.inl hboth.1)) c).1
    exact Bool.false_ne_true (hnext.symm.trans hboth.2)
  constructor
  case left =>
    intro hboth
    have hnext := (step_quiet (hquiet (Or.inr hboth.1)) c).2
    exact Bool.false_ne_true (hnext.symm.trans hboth.2)
  case right =>
    intro hboth
    exact Bool.false_ne_true ((step_disarms hboth.1 c).symm.trans hboth.2)

end Hotpath.Rtl
