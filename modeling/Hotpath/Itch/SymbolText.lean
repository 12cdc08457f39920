import Hotpath.Itch.Builder

/-!
# The text of a symbol (itch/symbol.hpp)

A symbol is eight bytes as they lie in memory; its text is what the padding leaves of
them. Every symbol is made again from its text, so two names are one symbol exactly when
their first eight bytes differ in trailing spaces only.
-/

namespace Hotpath.Itch
open Hotpath.Support

def isSpace (b : UInt8) : Bool := b = ch ' '

namespace Symbol

/-- The bytes of `raw` in memory, least significant first. -/
def bytes (s : Symbol) : List UInt8 := (toBytes 8 s.raw.toNat).reverse

/-- `while (n > 0 && buf[n - 1] == ' ') --n` -/
def trimmed (buf : List UInt8) : ℕ → ℕ
  | 0 => 0
  | n + 1 => if buf[n]? = some (ch ' ') then trimmed buf n else n + 1

def text (s : Symbol) : List UInt8 := s.bytes.take (trimmed s.bytes 8)

/-! ### Bytes -/

theorem bytes_length (s : Symbol) : s.bytes.length = 8 := rfl

/-- Eight bytes make the symbol that lies as they do. -/
theorem bytes_ofBytes {v : List UInt8} (hv : v.length = 8) :
    bytes ⟨UInt64.ofNat (bigEndian v.reverse)⟩ = v := by
  have hlen : v.reverse.length = 8 := List.length_reverse.trans hv
  have hlt : bigEndian v.reverse < 2 ^ 64 := by
    have h := bigEndian_lt v.reverse
    rwa [hlen] at h
  have hback := toBytes_bigEndian v.reverse
  rw [hlen] at hback
  show (toBytes 8 (UInt64.ofNat (bigEndian v.reverse)).toNat).reverse = v
  rw [UInt64.toNat_ofNat_of_lt' hlt, hback, List.reverse_reverse]

theorem ofBytes_bytes (s : Symbol) : ⟨UInt64.ofNat (bigEndian s.bytes.reverse)⟩ = s := by
  have hlt : s.raw.toNat < 256 ^ 8 := UInt64.toNat_lt s.raw
  have hraw : UInt64.ofNat (bigEndian s.bytes.reverse) = s.raw := by
    rw [bytes, List.reverse_reverse, bigEndian_toBytes, Nat.mod_eq_of_lt hlt, UInt64.ofNat_toNat]
  rw [hraw]

theorem bytes_fromText (t : List UInt8) :
    (fromText t).bytes = t.take 8 ++ List.replicate (8 - t.length) (ch ' ') := by
  apply bytes_ofBytes
  rw [List.length_append, List.length_take, List.length_replicate]
  omega

/-! ### Texts -/

/-- The loop drops the spaces at the end. -/
theorem take_trimmed {buf : List UInt8} {n : ℕ} (hn : n ≤ buf.length) :
    buf.take (trimmed buf n) = (buf.take n).rdropWhile isSpace := by
  induction n with
  | zero => rfl
  | succ n ih =>
    have hlt : n < buf.length := hn
    rw [List.take_succ_eq_append_getElem hlt, List.rdropWhile_concat, trimmed,
      List.getElem?_eq_getElem hlt]
    by_cases hs : buf[n] = ch ' '
    · have hspace : isSpace buf[n] = true := decide_eq_true hs
      rw [if_pos (congrArg some hs), if_pos hspace]
      exact ih (Nat.le_of_succ_le hn)
    · have hspace : ¬isSpace buf[n] = true := fun h => hs (of_decide_eq_true h)
      rw [if_neg fun h => hs (Option.some.inj h), if_neg hspace,
        List.take_succ_eq_append_getElem hlt]

theorem text_eq (s : Symbol) : s.text = s.bytes.rdropWhile isSpace :=
  (take_trimmed s.bytes_length.ge).trans
    (congrArg _ (List.take_of_length_le s.bytes_length.le))

theorem rdropWhile_replicate (l : List UInt8) (k : ℕ) :
    (l ++ List.replicate k (ch ' ')).rdropWhile isSpace = l.rdropWhile isSpace := by
  induction k with
  | zero => rw [List.replicate_zero, List.append_nil]
  | succ k ih =>
    rw [List.replicate_succ', ← List.append_assoc, List.rdropWhile_concat_pos _ _ _ rfl, ih]

theorem text_fromText (t : List UInt8) :
    (fromText t).text = (t.take 8).rdropWhile isSpace := by
  rw [text_eq, bytes_fromText, rdropWhile_replicate]

/-- What the loop drops is padded again. -/
theorem pad_rdropWhile (l : List UInt8) : l.rdropWhile isSpace ++
    List.replicate (l.length - (l.rdropWhile isSpace).length) (ch ' ') = l := by
  have hsplit : l.rdropWhile isSpace ++ l.rtakeWhile isSpace = l :=
    List.rdropWhile_append_rtakeWhile
  have hlen := congrArg List.length hsplit
  rw [List.length_append] at hlen
  have hspaces : l.rtakeWhile isSpace =
      List.replicate (l.length - (l.rdropWhile isSpace).length) (ch ' ') := by
    apply List.eq_replicate_iff.mpr
    constructor
    · omega
    · intro b hb
      have hspace : isSpace b = true := List.mem_rtakeWhile_imp hb
      exact of_decide_eq_true hspace
  rw [← hspaces, hsplit]

theorem fromText_text (s : Symbol) : fromText s.text = s := by
  have hle : s.text.length ≤ 8 := by
    rw [text_eq]
    exact (List.rdropWhile_prefix isSpace _).length_le
  have hpad := pad_rdropWhile s.bytes
  rw [← text_eq, bytes_length] at hpad
  rw [fromText, List.take_of_length_le hle, hpad, ofBytes_bytes]

/-- Every symbol is made again from its text, the text of a name is its first eight bytes
less their trailing spaces, and those alone tell two symbols apart; the symbol of a message
has the text of its field. -/
theorem symbol_text :
    (∀ s : Symbol, fromText s.text = s) ∧
    (∀ t, (fromText t).text = (t.take 8).rdropWhile isSpace) ∧
    (∀ t t', fromText t = fromText t' ↔
      (t.take 8).rdropWhile isSpace = (t'.take 8).rdropWhile isSpace) ∧
    ∀ p off, (fromBytes p off).map text =
      (bytesAt p off 8).map fun field => field.rdropWhile isSpace := by
  refine ⟨fromText_text, text_fromText, fun t t' => ?_, fun p off => ?_⟩
  · rw [← text_fromText, ← text_fromText]
    constructor
    · exact congrArg text
    · intro h
      rw [← fromText_text (fromText t), h, fromText_text]
  · rw [fromBytes]
    cases hv : bytesAt p off 8 with
    | none => rfl
    | some v =>
      obtain ⟨hle, hw⟩ := Option.ite_none_right_eq_some.mp hv
      have hlen : v.length = 8 := by
        rw [← Option.some.inj hw, window_length]
        omega
      show some (text _) = some _
      rw [text_eq, bytes_ofBytes hlen]

end Symbol

end Hotpath.Itch
