import Hotpath.Rtl.Serial
import Hotpath.Rtl.Testbench

/-!
# The hardware parser against the reader

The registers follow the byte-at-a-time framing: what they hold of the frame
being received, and the armed emit of the one just received.
-/

namespace Hotpath.Rtl
open Hotpath.Itch Hotpath.Itch.Reader Hotpath.Support

/-! ### The fields of a body -/

/-- The fields the outputs should show for a body. -/
def decodeBody (p : List UInt8) : Decoded :=
  let t := typeOf p
  let add : Prop := t = ch 'A' ∨ t = ch 'F'
  let exec : Prop := t = ch 'E' ∨ t = ch 'C'
  let book : Prop := add ∨ exec ∨ t = ch 'X' ∨ t = ch 'D' ∨ t = ch 'U'
  { type := t
    length := UInt16.ofNat p.length
    locate := UInt16.ofNat (bigEndian (window p 1 2))
    timestamp := UInt64.ofNat (bigEndian (window p 5 6))
    order_ref := if book then UInt64.ofNat (bigEndian (window p 11 8)) else 0
    new_ref := if t = ch 'U' then UInt64.ofNat (bigEndian (window p 19 8)) else 0
    shares := if add then UInt32.ofNat (bigEndian (window p 20 4))
      else if exec ∨ t = ch 'X' then UInt32.ofNat (bigEndian (window p 19 4))
      else if t = ch 'U' then UInt32.ofNat (bigEndian (window p 27 4))
      else 0
    price := if add then UInt32.ofNat (bigEndian (window p 32 4))
      else if t = ch 'U' then UInt32.ofNat (bigEndian (window p 31 4))
      else 0
    side_buy := if add then p.getD 19 0 = ch 'B' else false
    book_event := book }

/-- Both spec length tables are the same. -/
theorem specLength_eq (t : UInt8) : specLength t.toBitVec = (Itch.specLength t).toBitVec := by
  have h : ∀ k : Fin 256, specLength (BitVec.ofFin k) = (Itch.specLength (UInt8.ofFin k)).toBitVec := by
    decide +kernel
  exact h t.toFin

theorem kept_iff {p : List UInt8} : kept p = true ↔
    11 ≤ p.length ∧ (specLength (typeOf p).toBitVec).toNat ≤ p.length := by
  rw [specLength_eq, kept, decide_eq_true_eq]
  exact Iff.rfl

/-- The views read those fields off a kept body. -/
theorem decode_kept {p : List UInt8} (h : kept p = true) :
    decode (UInt16.ofNat p.length) p = some (decodeBody p) := by
  have hlen : 11 ≤ p.length := (kept_iff.mp h).1
  have hspec : ∀ c n, Itch.specLength (ch c) = n → typeOf p = ch c → n.toNat ≤ p.length := by
    rintro c n rfl hc
    rw [kept, decide_eq_true_eq, hc] at h
    exact h.2
  have htype : Header.type p = some (typeOf p) := by
    cases p with
    | nil => exact absurd hlen (by decide)
    | cons x l => rfl
  have hside : 20 ≤ p.length → AddOrderView.side p = some (sideOf (p.getD 19 0)) := by
    intro h20
    rw [AddOrderView.side, List.getElem?_eq_getElem (by omega), Option.map_some,
      List.getD_eq_getElem _ _ (by omega)]
  have hbuy : ∀ c : UInt8, decide (sideOf c = .buy) = decide (c = ch 'B') := by
    intro c
    unfold sideOf
    by_cases hc : c = ch 'B'
    · rw [if_pos hc]
      simp [hc]
    · rw [if_neg hc]
      simp [hc]
  have hlocate := @rdU16_of_le p 1 (by omega)
  have hts := @rdU48_of_le p 5 (by omega)
  simp only [decode, htype, Header.locate, Header.timestamp, hlocate, hts, Option.bind_eq_bind,
    Option.bind_some]
  by_cases hadd : typeOf p = ch 'A' ∨ typeOf p = ch 'F'
  · have h36 : 36 ≤ p.length := by
      cases hadd with
      | inl hc => exact hspec 'A' 36 (by decide) hc
      | inr hc => exact le_trans (by decide) (hspec 'F' 40 (by decide) hc)
    have hnot : typeOf p ≠ ch 'U' := by
      cases hadd with
      | inl hc => rw [hc]; decide
      | inr hc => rw [hc]; decide
    simp only [AddOrderView.orderRef, AddOrderView.shares, AddOrderView.price,
      @rdU64_of_le p 11 (by omega), @rdU32_of_le p 20 (by omega), @rdU32_of_le p 32 (by omega),
      hside (by omega), Option.bind_some, decodeBody, hnot, hadd, hbuy, true_or, if_true, if_false,
      decide_true, Option.pure_def]
  · rw [if_neg hadd]
    by_cases hexec : typeOf p = ch 'E' ∨ typeOf p = ch 'C'
    · have h31 : 31 ≤ p.length := by
        cases hexec with
        | inl hc => exact hspec 'E' 31 (by decide) hc
        | inr hc => exact le_trans (by decide) (hspec 'C' 36 (by decide) hc)
      have hnot : typeOf p ≠ ch 'U' := by
        cases hexec with
        | inl hc => rw [hc]; decide
        | inr hc => rw [hc]; decide
      simp only [OrderExecutedView.orderRef, OrderExecutedView.executedShares,
        @rdU64_of_le p 11 (by omega), @rdU32_of_le p 19 (by omega), Option.bind_some, decodeBody,
        hnot, hadd, hexec, true_or, or_true, if_true, if_false, decide_true, Option.pure_def]
    · rw [if_neg hexec]
      by_cases hx : typeOf p = ch 'X'
      · have h23 : 23 ≤ p.length := hspec 'X' 23 (by decide) hx
        have hnot : typeOf p ≠ ch 'U' := by
          rw [hx]
          decide
        simp only [OrderCancelView.orderRef, OrderCancelView.cancelledShares,
          @rdU64_of_le p 11 (by omega), @rdU32_of_le p 19 (by omega), Option.bind_some, decodeBody,
          hnot, hadd, hexec, eq_true hx, true_or, or_true, if_true, if_false, decide_true,
          Option.pure_def]
      · rw [if_neg hx]
        by_cases hd : typeOf p = ch 'D'
        · have h19 : 19 ≤ p.length := hspec 'D' 19 (by decide) hd
          have hnot : typeOf p ≠ ch 'U' := by
            rw [hd]
            decide
          simp only [OrderDeleteView.orderRef, @rdU64_of_le p 11 (by omega), Option.bind_some,
            decodeBody, hnot, hadd, hexec, hx, eq_true hd, or_true, or_false, if_true,
            if_false, decide_true, Option.pure_def]
        · rw [if_neg hd]
          by_cases hu : typeOf p = ch 'U'
          · have h35 : 35 ≤ p.length := hspec 'U' 35 (by decide) hu
            simp only [OrderReplaceView.originalRef, OrderReplaceView.newRef,
              OrderReplaceView.shares, OrderReplaceView.price, @rdU64_of_le p 11 (by omega),
              @rdU64_of_le p 19 (by omega), @rdU32_of_le p 27 (by omega),
              @rdU32_of_le p 31 (by omega), Option.bind_some, decodeBody, hadd, hexec, hx, hd,
              eq_true hu, or_true, or_false, if_true, if_false, decide_true, Option.pure_def]
          · rw [if_neg hu]
            simp only [decodeBody, hadd, hexec, hx, hd, hu, or_false, if_false, decide_false,
              Option.pure_def]

/-! ### What the registers hold -/

/-- The registers have taken in these bytes of a body. -/
structure Holds (got : List UInt8) (r : Regs) : Prop where
  type : got ≠ [] → r.mType = (typeOf got).toBitVec
  locate : Captured r.accLocate (window got 1 2)
  ts : Captured r.accTs (window got 5 6)
  ref : Captured r.accRef (window got 11 8)
  ref2 : Captured r.accRef2 (window got 19 8)
  q19 : Captured r.accQ19 (window got 19 4)
  q20 : Captured r.accQ20 (window got 20 4)
  q27 : Captured r.accQ27 (window got 27 4)
  p31 : Captured r.accP31 (window got 31 4)
  p32 : Captured r.accP32 (window got 32 4)
  side : 19 < got.length → r.accSide = decide (got.getD 19 0 = ch 'B')

variable {r n : Regs} {got body : List UInt8} {b : UInt8}

/-- An accumulator and its enable. -/
theorem captured_enable {k : ℕ} {acc : BitVec (k + 8)} {cnt lo hi : BitVec 16} {off size : ℕ}
    (hcnt : cnt.toNat = got.length) (hlo : lo.toNat = off) (hhi : hi.toNat + 1 = off + size)
    (hsize : 8 * size = k + 8) (h : Captured acc (window got off size)) :
    Captured (if lo ≤ cnt ∧ cnt ≤ hi then shiftIn acc b else acc)
      (window (got ++ [b]) off size) := by
  refine h.window hsize (fun h1 h2 => ?_) (fun h1 => ?_)
  · rw [if_pos]
    rw [BitVec.le_def, BitVec.le_def]
    omega
  · rw [if_neg]
    rw [BitVec.le_def, BitVec.le_def]
    omega

/-- Before the first byte whatever the registers hold will do. -/
theorem Holds.nil (r : Regs) : Holds [] r := by
  have hw : ∀ off size, window ([] : List UInt8) off size = [] := by
    intro off size
    rw [window, List.drop_nil, List.take_nil]
  constructor
  · exact fun h => absurd rfl h
  all_goals first
    | (rw [hw]; exact Captured.nil _)
    | exact fun h => absurd h (Nat.not_lt_zero 19)

/-- The capture of one byte. -/
theorem Holds.capture (h : Holds got r) (hcnt : r.cnt.toNat = got.length) :
    Holds (got ++ [b]) (Regs.capture r n b) := by
  have hzero : r.cnt = 0 ↔ got = [] := by
    rw [← List.length_eq_zero_iff, ← hcnt]
    exact BitVec.toNat_inj.symm
  constructor
  · intro _
    show (if r.cnt = 0 then b.toBitVec else r.mType) = _
    by_cases hg : got = []
    · rw [if_pos (hzero.mpr hg), hg]
      rfl
    · rw [if_neg fun hc => hg (hzero.mp hc), h.type hg]
      cases got with
      | nil => exact absurd rfl hg
      | cons x l => rfl
  · exact captured_enable hcnt rfl rfl rfl h.locate
  · exact captured_enable hcnt rfl rfl rfl h.ts
  · exact captured_enable hcnt rfl rfl rfl h.ref
  · exact captured_enable hcnt rfl rfl rfl h.ref2
  · exact captured_enable hcnt rfl rfl rfl h.q19
  · exact captured_enable hcnt rfl rfl rfl h.q20
  · exact captured_enable hcnt rfl rfl rfl h.q27
  · exact captured_enable hcnt rfl rfl rfl h.p31
  · exact captured_enable hcnt rfl rfl rfl h.p32
  · intro hlen
    rw [List.length_append, List.length_singleton] at hlen
    have h19 : r.cnt = 19 ↔ got.length = 19 := by
      rw [← hcnt]
      exact BitVec.toNat_inj.symm
    show (if r.cnt = 19 then decide (b = ch 'B') else r.accSide) = _
    rw [List.getD_eq_getElem?_getD]
    by_cases hg : got.length = 19
    · rw [if_pos (h19.mpr hg), List.getElem?_append_right hg.le, hg]
      rfl
    · rw [if_neg fun hc => hg (h19.mp hc), h.side (by omega),
        List.getElem?_append_left (by omega), List.getD_eq_getElem?_getD]

/-! ### One edge -/

/-- Where the registers stand in the frame being received. -/
def At : Phase → Regs → Prop
  | .lenHi, r => r.state = .lenHi
  | .lenLo hi, r => r.state = .lenLo ∧ r.len.extractLsb' 8 8 = hi.toBitVec
  | .body n got, r => r.state = .body ∧ r.len.toNat = n ∧ r.cnt.toNat = got.length ∧
      got.length < n ∧ Holds got r

/-- The emit of a body is armed. -/
structure Armed (body : List UInt8) (r : Regs) : Prop where
  emit : r.emit = true
  state : r.state = .lenHi
  len : r.emitLen.toNat = body.length
  short : r.emitShort = !kept body
  holds : Holds body r
  ne : body ≠ []

/-- What the last edge completed. -/
def Pending : Option (List UInt8) → Regs → Prop
  | none, r => r.emit = false
  | some body, r => Armed body r

/-- What the outputs show of what the edge before completed. -/
def Shows : Option (List UInt8) → Regs → Prop
  | none, r => r.mValid = false ∧ r.eShort = false
  | some body, r => r.mValid = kept body ∧ r.eShort = !kept body ∧
      (kept body = true → r.observed = decodeBody body)

theorem Holds.congr {r' : Regs} (h : Holds got r) (h1 : r'.mType = r.mType)
    (h2 : r'.accLocate = r.accLocate) (h3 : r'.accTs = r.accTs) (h4 : r'.accRef = r.accRef)
    (h5 : r'.accRef2 = r.accRef2) (h6 : r'.accQ19 = r.accQ19) (h7 : r'.accQ20 = r.accQ20)
    (h8 : r'.accQ27 = r.accQ27) (h9 : r'.accP31 = r.accP31) (h10 : r'.accP32 = r.accP32)
    (h11 : r'.accSide = r.accSide) : Holds got r' :=
  ⟨by rw [h1]; exact h.type, by rw [h2]; exact h.locate, by rw [h3]; exact h.ts,
    by rw [h4]; exact h.ref, by rw [h5]; exact h.ref2, by rw [h6]; exact h.q19,
    by rw [h7]; exact h.q20, by rw [h8]; exact h.q27, by rw [h9]; exact h.p31,
    by rw [h10]; exact h.p32, by rw [h11]; exact h.side⟩

theorem prefix_len (hi lo : UInt8) :
    (hi.toBitVec ++ lo.toBitVec : BitVec 16).toNat = bigEndian [hi, lo] := by
  have hlt : lo.toBitVec.toNat < 2 ^ 8 := lo.toBitVec.isLt
  rw [bigEndian_two, BitVec.toNat_append, ← Nat.shiftLeft_add_eq_or_of_lt hlt, Nat.shiftLeft_eq]
  show hi.toNat * 2 ^ 8 + lo.toNat = _
  omega

/-- The check on the last byte is the reader's, though on a one-byte body the
type register is still the previous message's. -/
theorem tooShort_eq (h : Holds got r) (hlen : r.len.toNat = got.length + 1) :
    r.tooShort = !kept (got ++ [b]) := by
  have hhead : r.len < headerLen ↔ got.length + 1 < 11 := by
    rw [BitVec.lt_def, hlen]
    exact Iff.rfl
  have hspec : ∀ t, r.len < specLength t ↔ got.length + 1 < (specLength t).toNat := by
    intro t
    rw [BitVec.lt_def, hlen]
  have hkept : kept (got ++ [b]) = true ↔ 11 ≤ got.length + 1 ∧
      (specLength (typeOf (got ++ [b])).toBitVec).toNat ≤ got.length + 1 := by
    rw [kept_iff, List.length_append, List.length_singleton]
  cases got with
  | nil =>
    have hk : kept [b] = false := by
      rw [Bool.eq_false_iff]
      intro hc
      have h11 := (hkept.mp hc).1
      exact absurd h11 (by decide)
    rw [List.nil_append, hk, Regs.tooShort, decide_eq_true (Or.inl (hhead.mpr (by decide)))]
    rfl
  | cons x l =>
    have htype : r.mType = (typeOf (x :: l ++ [b])).toBitVec := h.type (List.cons_ne_nil x l)
    have hzero : r.len < specLength r.mType → specLength r.mType ≠ 0 := by
      intro hc h0
      rw [h0, BitVec.lt_def] at hc
      exact absurd hc (Nat.not_lt_zero _)
    rw [← htype] at hkept
    have hiff : r.tooShort = true ↔ ¬kept (x :: l ++ [b]) = true := by
      rw [Regs.tooShort, decide_eq_true_eq, hkept, hhead]
      constructor
      · intro hc hk
        cases hc with
        | inl hc => omega
        | inr hc =>
          have := (hspec r.mType).mp hc.2
          omega
      · intro hk
        by_cases h11 : 11 ≤ (x :: l).length + 1
        · have hlt : r.len < specLength r.mType := by
            rw [hspec]
            by_contra hc
            exact hk ⟨h11, by omega⟩
          exact Or.inr ⟨hzero hlt, hlt⟩
        · exact Or.inl (by omega)
    cases hk : kept (x :: l ++ [b]) with
    | true =>
      rw [Bool.eq_false_iff.mpr fun hc => hiff.mp hc hk]
      rfl
    | false =>
      rw [hiff.mpr (by rw [hk]; simp)]
      rfl

theorem accept_at {ph : Phase} (h : At ph r) :
    At (feed ph b).1 (Regs.accept r r.clearStrobes b) ∧
    (match (feed ph b).2 with
      | none => (Regs.accept r r.clearStrobes b).emit = r.emit
      | some body => Armed body (Regs.accept r r.clearStrobes b)) ∧
    (Regs.accept r r.clearStrobes b).mValid = false ∧
    (Regs.accept r r.clearStrobes b).eShort = false := by
  cases ph with
  | lenHi =>
    have hs : r.state = .lenHi := h
    simp only [Regs.accept, hs, feed]
    refine ⟨⟨rfl, ?_⟩, rfl, rfl, rfl⟩
    show (b.toBitVec ++ r.len.extractLsb' 0 8 : BitVec 16).extractLsb' 8 8 = b.toBitVec
    exact BitVec.extractLsb'_append_eq_left
  | lenLo hi =>
    obtain ⟨hs, hlen⟩ := h
    have hn := prefix_len hi b
    have hzero : (hi.toBitVec ++ b.toBitVec : BitVec 16) = 0 ↔ bigEndian [hi, b] = 0 := by
      rw [← hn]
      exact BitVec.toNat_inj.symm
    simp only [Regs.accept, hs, feed, Regs.acceptLenLo, hlen]
    by_cases h0 : bigEndian [hi, b] = 0
    · rw [if_pos h0, if_pos (hzero.mpr h0)]
      exact ⟨rfl, rfl, rfl, rfl⟩
    · rw [if_neg h0, if_neg fun hc => h0 (hzero.mp hc)]
      refine ⟨⟨rfl, hn, rfl, ?_, Holds.nil _⟩, rfl, rfl, rfl⟩
      rw [List.length_nil]
      omega
  | body n got =>
    obtain ⟨hs, hlen, hcnt, hlt, hh⟩ := h
    have hcap := @Holds.capture r r.clearStrobes got b hh hcnt
    have hlast : r.cnt = r.len - 1 ↔ got.length + 1 = n := by
      have hsub : (r.len - 1).toNat = n - 1 := by
        rw [BitVec.toNat_sub_of_le (by rw [BitVec.le_def, hlen]; exact Nat.one_le_of_lt hlt), hlen]
        rfl
      rw [← BitVec.toNat_inj, hcnt, hsub]
      omega
    simp only [Regs.accept, hs, feed, Regs.acceptBody]
    by_cases hl : got.length + 1 = n
    · rw [if_pos hl, if_pos (hlast.mpr hl)]
      refine ⟨rfl, ⟨rfl, rfl, ?_, tooShort_eq hh (by omega), ?_, by simp⟩, rfl, rfl⟩
      · show r.len.toNat = (got ++ [b]).length
        rw [hlen, List.length_append, List.length_singleton, hl]
      · exact hcap.congr rfl rfl rfl rfl rfl rfl rfl rfl rfl rfl rfl
    · rw [if_neg hl, if_neg fun hc => hl (hlast.mp hc)]
      refine ⟨⟨hs, hlen, ?_, ?_, ?_⟩, rfl, rfl, rfl⟩
      · show (r.cnt + 1).toNat = (got ++ [b]).length
        have hbound := r.len.isLt
        rw [BitVec.toNat_add, hcnt, List.length_append, List.length_singleton]
        exact Nat.mod_eq_of_lt (by show got.length + 1 < 2 ^ 16; omega)
      · rw [List.length_append, List.length_singleton]
        omega
      · exact hcap.congr rfl rfl rfl rfl rfl rfl rfl rfl rfl rfl rfl

theorem strobe_at {ph : Phase} (h : At ph n) : At ph (Regs.strobe r n) := by
  unfold Regs.strobe
  split
  · cases ph with
    | lenHi => exact h
    | lenLo hi => exact h
    | body k got => exact ⟨h.1, h.2.1, h.2.2.1, h.2.2.2.1,
        h.2.2.2.2.congr rfl rfl rfl rfl rfl rfl rfl rfl rfl rfl rfl⟩
  · cases ph with
    | lenHi => exact h
    | lenLo hi => exact h
    | body k got => exact ⟨h.1, h.2.1, h.2.2.1, h.2.2.2.1,
        h.2.2.2.2.congr rfl rfl rfl rfl rfl rfl rfl rfl rfl rfl rfl⟩

theorem strobe_emit (r n : Regs) : (Regs.strobe r n).emit = false := by
  unfold Regs.strobe
  split
  · rfl
  · rfl

theorem lit_iff {t : UInt8} {c : Char} : t.toBitVec = lit c ↔ t = ch c := UInt8.toBitVec_inj

/-- A full accumulator reads as its window. -/
theorem Captured.read {w : ℕ} {acc : BitVec w} {off size : ℕ} {p : List UInt8}
    (h : Captured acc (window p off size)) (hsize : 8 * size = w) (hlen : off + size ≤ p.length) :
    acc.toNat = bigEndian (window p off size) := by
  apply Captured.full h
  rw [window_length]
  omega

theorem read16 {acc : BitVec 16} {k : ℕ} (h : acc.toNat = k) :
    UInt16.ofBitVec acc = UInt16.ofNat k := by
  rw [← UInt16.toNat_inj, UInt16.toNat_ofNat', ← h]
  exact (Nat.mod_eq_of_lt acc.isLt).symm

theorem read32 {acc : BitVec 32} {k : ℕ} (h : acc.toNat = k) :
    UInt32.ofBitVec acc = UInt32.ofNat k := by
  rw [← UInt32.toNat_inj, UInt32.toNat_ofNat', ← h]
  exact (Nat.mod_eq_of_lt acc.isLt).symm

theorem read64 {acc : BitVec 64} {k : ℕ} (h : acc.toNat = k) :
    UInt64.ofBitVec acc = UInt64.ofNat k := by
  rw [← UInt64.toNat_inj, UInt64.toNat_ofNat', ← h]
  exact (Nat.mod_eq_of_lt acc.isLt).symm

theorem select32 {q : Prop} [Decidable q] {acc rest : BitVec 32} {k : ℕ} {v : UInt32}
    (h : q → acc.toNat = k) (hrest : UInt32.ofBitVec rest = v) :
    UInt32.ofBitVec (if q then acc else rest) = if q then UInt32.ofNat k else v := by
  by_cases hq : q
  · rw [if_pos hq, if_pos hq, read32 (h hq)]
  · rw [if_neg hq, if_neg hq, hrest]

theorem select64 {q : Prop} [Decidable q] {acc : BitVec 64} {k : ℕ} (h : q → acc.toNat = k) :
    UInt64.ofBitVec (if q then acc else 0) = if q then UInt64.ofNat k else 0 := by
  by_cases hq : q
  · rw [if_pos hq, if_pos hq, read64 (h hq)]
  · rw [if_neg hq, if_neg hq]
    rfl

/-- The outputs of a message that is long enough for its type. -/
theorem strobe_observed (ha : Armed body r) (hk : kept body = true) (hm : n.mType = r.mType) :
    (Regs.strobe r n).observed = decodeBody body := by
  have hshort : r.emitShort = false := by rw [ha.short, hk]; rfl
  obtain ⟨hlen, hspec⟩ := kept_iff.mp hk
  have htype := ha.holds.type ha.ne
  have hneed : ∀ c (k : BitVec 16), specLength (lit c) = k → typeOf body = ch c →
      k.toNat ≤ body.length := by
    rintro c k rfl hc
    rw [hc] at hspec
    exact hspec
  have hadd : r.isAdd = decide (typeOf body = ch 'A' ∨ typeOf body = ch 'F') := by
    rw [Regs.isAdd, htype]
    simp only [lit_iff]
  have hexec : r.isExec = decide (typeOf body = ch 'E' ∨ typeOf body = ch 'C') := by
    rw [Regs.isExec, htype]
    simp only [lit_iff]
  have hcancel : r.isCancel = decide (typeOf body = ch 'X') := by
    rw [Regs.isCancel, htype]
    simp only [lit_iff]
  have hdelete : r.isDelete = decide (typeOf body = ch 'D') := by
    rw [Regs.isDelete, htype]
    simp only [lit_iff]
  have hreplace : r.isReplace = decide (typeOf body = ch 'U') := by
    rw [Regs.isReplace, htype]
    simp only [lit_iff]
  have hbook : r.isBook = decide ((typeOf body = ch 'A' ∨ typeOf body = ch 'F') ∨
      (typeOf body = ch 'E' ∨ typeOf body = ch 'C') ∨ typeOf body = ch 'X' ∨
      typeOf body = ch 'D' ∨ typeOf body = ch 'U') := by
    rw [Regs.isBook, hadd, hexec, hcancel, hdelete, hreplace]
    simp only [decide_eq_true_eq]
  -- how long the body is for the fields its type carries
  have ladd : typeOf body = ch 'A' ∨ typeOf body = ch 'F' → 36 ≤ body.length := by
    intro hc
    cases hc with
    | inl hc => exact hneed 'A' 36 (by decide) hc
    | inr hc => exact le_trans (by decide) (hneed 'F' 40 (by decide) hc)
  have lexec : typeOf body = ch 'E' ∨ typeOf body = ch 'C' → 31 ≤ body.length := by
    intro hc
    cases hc with
    | inl hc => exact hneed 'E' 31 (by decide) hc
    | inr hc => exact le_trans (by decide) (hneed 'C' 36 (by decide) hc)
  have lcancel : typeOf body = ch 'X' → 23 ≤ body.length := hneed 'X' 23 (by decide)
  have ldelete : typeOf body = ch 'D' → 19 ≤ body.length := hneed 'D' 19 (by decide)
  have lreplace : typeOf body = ch 'U' → 35 ≤ body.length := hneed 'U' 35 (by decide)
  have htypeOut : UInt8.ofBitVec n.mType = typeOf body := by
    rw [hm, htype]
  have hts : UInt64.ofBitVec (r.accTs.setWidth 64) = UInt64.ofNat (bigEndian (window body 5 6)) := by
    apply read64
    rw [BitVec.toNat_setWidth, Captured.read ha.holds.ts rfl (by omega)]
    have hlt := bigEndian_lt (window body 5 6)
    rw [window_length] at hlt
    apply Nat.mod_eq_of_lt
    exact hlt.trans_le (Nat.pow_le_pow_of_le (by decide) (by omega) |>.trans (by norm_num : 256 ^ 8 ≤ 2 ^ 64))
  simp only [Regs.strobe, hshort, Bool.false_eq_true, if_false, Regs.observed, decodeBody, hbook,
    hadd, hexec, hcancel, hreplace, decide_eq_true_eq, htypeOut, hts, read16 ha.len,
    read16 (Captured.read ha.holds.locate rfl (by omega))]
  rw [Decoded.mk.injEq]
  refine ⟨rfl, rfl, rfl, rfl, ?_, ?_, ?_, ?_, ?_, rfl⟩
  · refine select64 fun hc => Captured.read ha.holds.ref rfl ?_
    rcases hc with hc | hc | hc | hc | hc
    · exact le_trans (by decide) (ladd hc)
    · exact le_trans (by decide) (lexec hc)
    · exact le_trans (by decide) (lcancel hc)
    · exact ldelete hc
    · exact le_trans (by decide) (lreplace hc)
  · exact select64 fun hc => Captured.read ha.holds.ref2 rfl (by have := lreplace hc; omega)
  · refine select32 (fun hc => Captured.read ha.holds.q20 rfl (by have := ladd hc; omega))
      (select32 (fun hc => Captured.read ha.holds.q19 rfl ?_)
        (select32 (fun hc => Captured.read ha.holds.q27 rfl (by have := lreplace hc; omega)) rfl))
    cases hc with
    | inl hc => exact le_trans (by decide) (lexec hc)
    | inr hc => exact lcancel hc
  · exact select32 (fun hc => Captured.read ha.holds.p32 rfl (by have := ladd hc; omega))
      (select32 (fun hc => Captured.read ha.holds.p31 rfl (by have := lreplace hc; omega)) rfl)
  · by_cases hc : typeOf body = ch 'A' ∨ typeOf body = ch 'F'
    · have := ladd hc
      rw [if_pos hc, if_pos hc, ha.holds.side (by omega)]
    · rw [if_neg hc, if_neg hc]

/-- What an edge makes of the framing. -/
def advance (c : Cycle) (ph : Phase) : Phase × Option (List UInt8) :=
  if c.valid then feed ph c.byte else (ph, none)

/-- One edge outside reset: the registers follow the framing, and the outputs
show what the edge before completed. -/
theorem step_at {c : Cycle} {ph : Phase} {done : Option (List UInt8)} (hrst : c.rst = false)
    (h : At ph r) (hp : Pending done r) :
    At (advance c ph).1 (Regs.step c r) ∧ Pending (advance c ph).2 (Regs.step c r) ∧
      Shows done (Regs.step c r) := by
  have hclear : At ph r.clearStrobes := by
    cases ph with
    | lenHi => exact h
    | lenLo hi => exact h
    | body k got => exact ⟨h.1, h.2.1, h.2.2.1, h.2.2.2.1,
        h.2.2.2.2.congr rfl rfl rfl rfl rfl rfl rfl rfl rfl rfl rfl⟩
  cases done with
  | none =>
    have he : r.emit = false := hp
    simp only [Regs.step, hrst, he, Bool.false_eq_true, if_false, advance]
    by_cases hv : c.valid = true
    · obtain ⟨hat, hem, hmv, hes⟩ := accept_at (b := c.byte) h
      rw [if_pos hv, if_pos hv]
      refine ⟨hat, ?_, hmv, hes⟩
      generalize (feed ph c.byte).2 = d at hem ⊢
      cases d with
      | none => exact hem.trans he
      | some body => exact hem
    · rw [if_neg hv, if_neg hv]
      exact ⟨hclear, he, rfl, rfl⟩
  | some body =>
    have ha : Armed body r := hp
    have hlen : ph = .lenHi := by
      have hs := ha.state
      cases ph with
      | lenHi => rfl
      | lenLo hi =>
        rw [h.1] at hs
        cases hs
      | body k got =>
        rw [h.1] at hs
        cases hs
    have hs : r.state = .lenHi := ha.state
    obtain ⟨n, hn, hat, hadv, hm, hmv, hes⟩ : ∃ n, Regs.step c r = Regs.strobe r n ∧
        At (advance c ph).1 n ∧ (advance c ph).2 = none ∧ n.mType = r.mType ∧
        n.mValid = false ∧ n.eShort = false := by
      rw [hlen]
      simp only [Regs.step, hrst, ha.emit, Bool.false_eq_true, if_false, if_true, advance]
      by_cases hv : c.valid = true
      · rw [if_pos hv, if_pos hv]
        have hat := @accept_at r c.byte .lenHi hs
        refine ⟨_, rfl, hat.1, rfl, ?_⟩
        simp only [Regs.accept, hs]
        exact ⟨rfl, rfl, rfl⟩
      · rw [if_neg hv, if_neg hv]
        exact ⟨_, rfl, hs, rfl, rfl, rfl, rfl⟩
    rw [hn, hadv]
    refine ⟨strobe_at hat, strobe_emit r n, ?_⟩
    have hobs := strobe_observed (n := n) ha
    have hshort := ha.short
    cases hk : kept body with
    | true =>
      rw [hk] at hshort
      have hstrobe : (Regs.strobe r n).mValid = true ∧ (Regs.strobe r n).eShort = n.eShort := by
        unfold Regs.strobe
        rw [hshort]
        exact ⟨rfl, rfl⟩
      refine ⟨by rw [hk, hstrobe.1], by rw [hk, hstrobe.2, hes]; rfl, fun _ => hobs hk hm⟩
    | false =>
      rw [hk] at hshort
      have hstrobe : (Regs.strobe r n).mValid = n.mValid ∧ (Regs.strobe r n).eShort = true := by
        unfold Regs.strobe
        rw [hshort]
        exact ⟨rfl, rfl⟩
      refine ⟨by rw [hk, hstrobe.1, hmv], by rw [hk, hstrobe.2]; rfl, fun hc => ?_⟩
      rw [hk] at hc
      cases hc

/-! ### Runs -/

/-- What each edge completes. -/
def dones : Phase → List Cycle → List (Option (List UInt8))
  | _, [] => []
  | ph, c :: cs => (advance c ph).2 :: dones (advance c ph).1 cs

theorem dones_length (ph : Phase) (cs : List Cycle) : (dones ph cs).length = cs.length := by
  induction cs generalizing ph with
  | nil => rfl
  | cons c cs ih => rw [dones, List.length_cons, List.length_cons, ih]

/-- Every edge shows what the one before completed. -/
theorem trace_shows {cs : List Cycle} {ph : Phase} {done : Option (List UInt8)}
    (hrst : ∀ c ∈ cs, c.rst = false) (h : At ph r) (hp : Pending done r) :
    List.Forall₂ Shows ((done :: dones ph cs).take cs.length) (Regs.trace r cs) := by
  induction cs generalizing r ph done with
  | nil => exact List.Forall₂.nil
  | cons c cs ih =>
    obtain ⟨hat, hpend, hshow⟩ := step_at (hrst c (List.mem_cons_self ..)) h hp
    have hrec := ih (fun d hd => hrst d (List.mem_cons_of_mem _ hd)) hat hpend
    rw [Regs.trace, List.length_cons, List.take_succ_cons, dones]
    exact List.Forall₂.cons hshow hrec

/-- The strobes of edges that show these bodies. -/
theorem shows_strobed {ds : List (Option (List UInt8))} {t : List Regs}
    (h : List.Forall₂ Shows ds t) :
    strobed t = ((ds.filterMap id).filter kept).map decodeBody ∧
      t.countP Regs.eShort = (ds.filterMap id).countP (fun body => !kept body) := by
  induction h with
  | nil => exact ⟨rfl, rfl⟩
  | @cons d r' ds t hd _ ih =>
    obtain ⟨ih1, ih2⟩ := ih
    unfold strobed at ih1 ⊢
    rw [List.filter_cons, List.countP_cons]
    cases d with
    | none =>
      rw [hd.1, hd.2, if_neg (by simp), if_neg (by simp), List.filterMap_cons]
      exact ⟨ih1, ih2⟩
    | some body =>
      obtain ⟨h1, h2, h3⟩ := hd
      have hmap : (some body :: ds).filterMap id = body :: ds.filterMap id := rfl
      rw [hmap, h1, h2, List.filter_cons, List.countP_cons, ih2]
      refine ⟨?_, rfl⟩
      cases hk : kept body with
      | true =>
        rw [if_pos rfl, if_pos rfl, List.map_cons, List.map_cons, ih1, h3 hk]
      | false =>
        rw [if_neg (by simp), if_neg (by simp), ih1]

theorem shows_at {ds : List (Option (List UInt8))} {t : List Regs}
    (h : List.Forall₂ Shows ds t) {j : ℕ} {r' : Regs} (hj : t[j]? = some r') :
    (r'.mValid = true ∨ r'.eShort = true) ↔ ∃ body, ds[j]? = some (some body) := by
  induction h generalizing j with
  | nil => cases hj
  | @cons d r'' ds t hd _ ih =>
    cases j with
    | zero =>
      obtain rfl := Option.some.inj hj
      cases d with
      | none =>
        rw [hd.1, hd.2]
        simp
      | some body =>
        rw [hd.1, hd.2.1]
        cases kept body <;> simp
    | succ j => exact ih hj

theorem accepted_cons (c : Cycle) (cs : List Cycle) :
    accepted (c :: cs) = (if c.valid then [c.byte] else []) ++ accepted cs := by
  unfold accepted
  rw [List.filter_cons]
  split
  · rfl
  · rfl

theorem advance_valid {c : Cycle} (hv : c.valid = true) (ph : Phase) :
    advance c ph = feed ph c.byte := if_pos hv

theorem advance_idle {c : Cycle} (hv : ¬c.valid = true) (ph : Phase) :
    advance c ph = (ph, none) := if_neg hv

/-- The edges complete what the accepted bytes complete. -/
theorem dones_bodies (ph : Phase) (cs : List Cycle) :
    (dones ph cs).filterMap id = (outs ph (accepted cs)).filterMap id := by
  induction cs generalizing ph with
  | nil => rfl
  | cons c cs ih =>
    rw [dones, accepted_cons]
    by_cases hv : c.valid = true
    · rw [if_pos hv, advance_valid hv, List.singleton_append, outs, List.filterMap_cons,
        List.filterMap_cons, ih]
    · rw [if_neg hv, advance_idle hv, List.nil_append, List.filterMap_cons, ih]
      rfl

/-- An edge completes a body with the byte it accepts. -/
theorem dones_at (ph : Phase) (cs : List Cycle) (i : ℕ) :
    (∃ body, (dones ph cs)[i]? = some (some body)) ↔ ∃ c, cs[i]? = some c ∧ c.valid = true ∧
      ∃ body, (outs ph (accepted cs))[(accepted (cs.take i)).length]? = some (some body) := by
  induction cs generalizing ph i with
  | nil =>
    constructor
    · rintro ⟨body, h⟩
      cases h
    · rintro ⟨c, h, -⟩
      cases h
  | cons c cs ih =>
    rw [dones, accepted_cons]
    cases i with
    | zero =>
      by_cases hv : c.valid = true
      · rw [if_pos hv, advance_valid hv, List.singleton_append, outs]
        constructor
        · rintro ⟨body, h⟩
          exact ⟨c, rfl, hv, body, h⟩
        · rintro ⟨-, -, -, body, h⟩
          exact ⟨body, h⟩
      · rw [advance_idle hv]
        constructor
        · rintro ⟨body, h⟩
          cases h
        · rintro ⟨d, h, hd, -⟩
          obtain rfl := Option.some.inj h
          exact absurd hd hv
    | succ i =>
      rw [List.getElem?_cons_succ, List.getElem?_cons_succ, List.take_succ_cons, accepted_cons, ih]
      by_cases hv : c.valid = true
      · rw [if_pos hv, advance_valid hv, List.singleton_append, List.singleton_append, outs,
          List.length_cons, List.getElem?_cons_succ]
      · rw [if_neg hv, advance_idle hv, List.nil_append, List.nil_append]

/-- An idle edge completes nothing. -/
theorem dones_concat (ph : Phase) (cs : List Cycle) {d : Cycle} (hd : d.valid = false) :
    dones ph (cs ++ [d]) = dones ph cs ++ [none] := by
  induction cs generalizing ph with
  | nil =>
    show [(advance d ph).2] = [none]
    rw [advance_idle (by rw [hd]; simp)]
  | cons c cs ih =>
    rw [List.cons_append, dones, dones, ih]
    rfl

theorem accepted_append (xs ys : List Cycle) : accepted (xs ++ ys) = accepted xs ++ accepted ys := by
  unfold accepted
  rw [List.filter_append, List.map_append]

theorem accepted_idle {idle : List Cycle} (h : ∀ c ∈ idle, c.valid = false) :
    accepted idle = [] := by
  have hnil : idle.filter Cycle.valid = [] := by
    apply List.filter_eq_nil_iff.mpr
    intro c hc
    rw [h c hc]
    simp
  rw [accepted, hnil]
  rfl

theorem accepted_take {cs : List Cycle} {i : ℕ} {c : Cycle} (hi : cs[i]? = some c)
    (hv : c.valid = true) :
    (accepted (cs.take (i + 1))).length = (accepted (cs.take i)).length + 1 := by
  rw [List.take_add_one, hi, accepted_append, List.length_append]
  show _ + (accepted [c]).length = _
  rw [accepted_cons, if_pos hv]
  rfl

/-- The last byte of a frame of `b` is the one this edge accepts. -/
def EndsFrame (b : List UInt8) (cs : List Cycle) (i : ℕ) : Prop :=
  ∃ c, cs[i]? = some c ∧ c.valid = true ∧ ∃ k < (frames b).length,
    spanOf ((frames b).take (k + 1)) = (accepted (cs.take (i + 1))).length

theorem dones_ends {cs : List Cycle} (hc : Clean (accepted cs)) (i : ℕ) :
    (∃ body, (dones .lenHi cs)[i]? = some (some body)) ↔ EndsFrame (accepted cs) cs i := by
  rw [dones_at, outs_clean hc]
  constructor
  · rintro ⟨c, hi, hv, hbody⟩
    refine ⟨c, hi, hv, ?_⟩
    rw [accepted_take hi hv]
    exact (slots_ends _ _ _).mp hbody
  · rintro ⟨c, hi, hv, hk⟩
    rw [accepted_take hi hv] at hk
    exact ⟨c, hi, hv, (slots_ends _ _ _).mpr hk⟩

/-- A schedule of clean bytes, from the edge after reset on and with an idle edge
at its end. -/
theorem clean_strobes {cs : List Cycle} {d : Cycle} (hrst : ∀ c ∈ cs ++ [d], c.rst = false)
    (hd : d.valid = false) (hc : Clean (accepted cs)) (hs : r.state = .lenHi)
    (he : r.emit = false) :
    strobed (Regs.trace r (cs ++ [d])) = ((frames (accepted cs)).filter kept).map decodeBody ∧
    (Regs.trace r (cs ++ [d])).countP Regs.eShort =
      (frames (accepted cs)).countP (fun body => !kept body) ∧
    ∀ j r', (Regs.trace r (cs ++ [d]))[j]? = some r' →
      ((r'.mValid = true ∨ r'.eShort = true) ↔
        ∃ i, j = i + 1 ∧ EndsFrame (accepted cs) (cs ++ [d]) i) := by
  have hshows := @trace_shows r (cs ++ [d]) .lenHi none hrst hs he
  have htake : (none :: dones .lenHi (cs ++ [d])).take (cs ++ [d]).length =
      none :: dones .lenHi cs := by
    rw [dones_concat .lenHi cs hd, List.length_append, List.length_singleton,
      List.take_succ_cons, ← dones_length .lenHi cs, List.take_left]
  rw [htake] at hshows
  have hbodies : (none :: dones .lenHi cs).filterMap id = frames (accepted cs) := by
    rw [List.filterMap_cons]
    show (dones .lenHi cs).filterMap id = _
    rw [dones_bodies, outs_clean hc, slots_bodies]
  obtain ⟨hmsgs, hshort⟩ := shows_strobed hshows
  rw [hbodies] at hmsgs hshort
  refine ⟨hmsgs, hshort, fun j r' hj => ?_⟩
  rw [shows_at hshows hj]
  cases j with
  | zero =>
    constructor
    · rintro ⟨body, h⟩
      cases h
    · rintro ⟨i, h, -⟩
      cases h
  | succ i =>
    rw [List.getElem?_cons_succ, dones_ends hc]
    constructor
    · rintro ⟨c, hi, hv, hk⟩
      have hlt : i < cs.length := (List.getElem?_eq_some_iff.mp hi).1
      refine ⟨i, rfl, c, by rw [List.getElem?_append_left hlt, hi], hv, ?_⟩
      rwa [List.take_append_of_le_length hlt]
    · rintro ⟨i', hj', c, hi, hv, hk⟩
      obtain rfl : i = i' := Nat.succ.inj hj'
      have hlt : i < cs.length := by
        by_contra hge
        rw [List.getElem?_append_right (by omega)] at hi
        have hmem := List.mem_singleton.mp (List.mem_of_getElem? hi)
        rw [hmem, hd] at hv
        cases hv
      rw [List.getElem?_append_left hlt] at hi
      rw [List.take_append_of_le_length hlt] at hk
      exact ⟨c, hi, hv, hk⟩

end Hotpath.Rtl
