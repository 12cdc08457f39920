import Hotpath.Book.TickBitmap

/-!
# Scans of the tick bitmap

`bitAt` is the bitmap as a set of ticks. A downward scan returns its greatest
member at or below the start, an upward scan its least member at or above it.
-/

namespace Hotpath.Book

def bitAt (bits : List Word) (t : ℕ) : Bool := (bits.getD (t / 64) 0).getLsbD (t % 64)

theorem shiftRight_six (t : ℕ) : t >>> 6 = t / 64 := Nat.shiftRight_eq_div_pow t 6

theorem shiftLeft_six (w : ℕ) : w <<< 6 = 64 * w := by
  rw [Nat.shiftLeft_eq, Nat.mul_comm]

theorem and_sixty_three (t : ℕ) : t &&& 63 = t % 64 := Nat.and_two_pow_sub_one_eq_mod t 6

theorem word_at {bits : List Word} {w : ℕ} (hw : w < bits.length) :
    bits[w]? = some (bits.getD w 0) := by
  simp [hw]

theorem bitAt_word (bits : List Word) (w i : ℕ) (hi : i < 64) :
    bitAt bits (64 * w + i) = (bits.getD w 0).getLsbD i := by
  have hd : (64 * w + i) / 64 = w := by omega
  have hm : (64 * w + i) % 64 = i := by omega
  rw [bitAt, hd, hm]

theorem bitAt_beyond {bits : List Word} {t : ℕ} (ht : bits.length ≤ t / 64) :
    bitAt bits t = false := by
  rw [bitAt, List.getD_eq_default _ _ ht]
  exact BitVec.getLsbD_zero

/-! ### Changing one bit -/

theorem bitAt_set {bits : List Word} {t : ℕ} (ht : t / 64 < bits.length) (word : Word) (v : Bool)
    (hbit : ∀ i < 64, word.getLsbD i =
      if i = t % 64 then v else (bits.getD (t / 64) 0).getLsbD i) (u : ℕ) :
    bitAt (bits.set (t / 64) word) u = if u = t then v else bitAt bits u := by
  have hu : u % 64 < 64 := Nat.mod_lt _ (by norm_num)
  unfold bitAt
  rw [List.getD_eq_getElem?_getD, List.getD_eq_getElem?_getD, List.getElem?_set]
  by_cases hw : t / 64 = u / 64
  · rw [if_pos hw, if_pos ht, Option.getD_some, hbit _ hu, hw, ← List.getD_eq_getElem?_getD]
    by_cases hut : u = t
    · rw [if_pos hut, if_pos (by rw [hut])]
    · rw [if_neg hut, if_neg (by omega)]
  · rw [if_neg hw, if_neg fun he => hw (by rw [he])]

theorem one_shift_at (i k : ℕ) (hi : i < 64) :
    (1#64 <<< k).getLsbD i = decide (i = k) := by
  rw [BitVec.getLsbD_shiftLeft, BitVec.getLsbD_one]
  by_cases he : i = k
  · simp [he, he ▸ hi]
  · by_cases hlt : i < k
    · simp [hlt, he]
    · simp [he, hi, hlt]
      omega

theorem setBit_spec {bits : List Word} {t : ℕ} (ht : t / 64 < bits.length) :
    ∃ bits', setBit bits t = some bits' ∧ bits'.length = bits.length ∧
      ∀ u, bitAt bits' u = if u = t then true else bitAt bits u := by
  refine ⟨bits.set (t / 64) (bits.getD (t / 64) 0 ||| 1#64 <<< (t % 64)), ?_,
    List.length_set .., bitAt_set ht _ true fun i hi => ?_⟩
  · simp only [setBit, shiftRight_six, and_sixty_three, word_at ht, Option.bind_eq_bind,
      Option.bind_some]
    rfl
  · rw [BitVec.getLsbD_or, one_shift_at i _ hi]
    by_cases he : i = t % 64 <;> simp [he]

theorem clearBit_spec {bits : List Word} {t : ℕ} (ht : t / 64 < bits.length) :
    ∃ bits', clearBit bits t = some bits' ∧ bits'.length = bits.length ∧
      ∀ u, bitAt bits' u = if u = t then false else bitAt bits u := by
  refine ⟨bits.set (t / 64) (bits.getD (t / 64) 0 &&& ~~~(1#64 <<< (t % 64))), ?_,
    List.length_set .., bitAt_set ht _ false fun i hi => ?_⟩
  · simp only [clearBit, shiftRight_six, and_sixty_three, word_at ht, Option.bind_eq_bind,
      Option.bind_some]
    rfl
  · rw [BitVec.getLsbD_and, BitVec.getLsbD_not, one_shift_at i _ hi]
    by_cases he : i = t % 64 <;> simp [he, hi]

/-! ### Nearest members -/

/-- `r` is the greatest member of a set of ticks, or `-1` for an empty one. -/
def IsLast (P : ℕ → Prop) (r : ℤ) : Prop :=
  (r = -1 ∧ ∀ t, ¬P t) ∨ ∃ t : ℕ, r = t ∧ P t ∧ ∀ u, t < u → ¬P u

def IsFirst (P : ℕ → Prop) (r : ℤ) : Prop :=
  (r = -1 ∧ ∀ t, ¬P t) ∨ ∃ t : ℕ, r = t ∧ P t ∧ ∀ u, u < t → ¬P u

theorem word_last {word : Word} (hw : word ≠ 0) :
    word.getLsbD (63 - word.clz.toNat) = true ∧
      ∀ i, 63 - word.clz.toNat < i → word.getLsbD i = false := by
  refine ⟨BitVec.getLsbD_true_clz_of_ne_zero (by norm_num) hw, fun i hi => ?_⟩
  have hlt := BitVec.toNat_lt_two_pow_sub_clz (x := word)
  have hle : 2 ^ (64 - word.clz.toNat) ≤ 2 ^ i := Nat.pow_le_pow_right (by norm_num) (by omega)
  rw [← BitVec.testBit_toNat]
  exact Nat.testBit_lt_two_pow (by omega)

theorem word_first {word : Word} (hw : word ≠ 0) :
    word.ctz.toNat < 64 ∧ word.getLsbD word.ctz.toNat = true ∧
      ∀ i, i < word.ctz.toNat → word.getLsbD i = false := by
  refine ⟨?_, BitVec.getLsbD_true_ctz_of_ne_zero hw, fun i hi => BitVec.getLsbD_false_of_lt_ctz hi⟩
  have hlt := BitVec.ctz_lt_iff_ne_zero.mpr hw
  simpa [BitVec.lt_def] using hlt

theorem word_zero {word : Word} (hw : ¬word ≠ 0) (i : ℕ) : word.getLsbD i = false := by
  rw [not_not.mp hw]
  exact BitVec.getLsbD_zero

section Loops
variable {bits : List Word} {P : ℕ → Prop}

theorem word_member {w : ℕ} {word : Word}
    (hword : ∀ i < 64, word.getLsbD i = true ↔ P (64 * w + i)) {t : ℕ} (hlow : 64 * w ≤ t)
    (hhigh : t < 64 * (w + 1)) : P t ↔ word.getLsbD (t - 64 * w) = true := by
  have ht : 64 * w + (t - 64 * w) = t := by omega
  rw [hword (t - 64 * w) (by omega), ht]

/-- The word in hand holds the members of `P` in word `w`, and `P` has no member
in the words above; below `w`, `P` is the bitmap itself. -/
theorem scanDownWords_spec (w : ℕ) (word : Word) (hlen : w ≤ bits.length)
    (hword : ∀ i < 64, word.getLsbD i = true ↔ P (64 * w + i))
    (habove : ∀ t, 64 * (w + 1) ≤ t → ¬P t)
    (hbelow : ∀ t, t < 64 * w → (P t ↔ bitAt bits t = true)) :
    ∃ r, scanDownWords bits w word = some r ∧ IsLast P r := by
  induction w generalizing word with
  | zero =>
    by_cases hw : word ≠ 0
    · obtain ⟨hset, hclear⟩ := word_last hw
      refine ⟨_, by simp only [scanDownWords, if_pos hw, shiftLeft_six]; rfl, Or.inr ⟨_, rfl, ?_, ?_⟩⟩
      · exact (hword _ (by omega)).mp hset
      · intro u hu hPu
        by_cases h64 : u < 64
        · rw [word_member hword (by omega) (by omega), hclear _ (by omega)] at hPu
          cases hPu
        · exact habove u (by omega) hPu
    · refine ⟨-1, by simp only [scanDownWords, if_neg hw], Or.inl ⟨rfl, fun t hPt => ?_⟩⟩
      by_cases h64 : t < 64
      · rw [word_member hword (by omega) (by omega), word_zero hw] at hPt
        cases hPt
      · exact habove t (by omega) hPt
  | succ w ih =>
    by_cases hw : word ≠ 0
    · obtain ⟨hset, hclear⟩ := word_last hw
      refine ⟨_, by simp only [scanDownWords, if_pos hw, shiftLeft_six]; rfl, Or.inr ⟨_, rfl, ?_, ?_⟩⟩
      · exact (hword _ (by omega)).mp hset
      · intro u hu hPu
        by_cases h64 : u < 64 * (w + 1 + 1)
        · rw [word_member hword (by omega) (by omega), hclear _ (by omega)] at hPu
          cases hPu
        · exact habove u (by omega) hPu
    · have hin : w < bits.length := by omega
      simp only [scanDownWords, if_neg hw, word_at hin, Option.bind_eq_bind, Option.bind_some]
      refine ih _ (by omega) (fun i hi => ?_) (fun t ht hPt => ?_) fun t ht => hbelow t (by omega)
      · rw [hbelow _ (by omega), bitAt_word _ _ _ hi]
      · -- word `w + 1` was empty
        by_cases h64 : t < 64 * (w + 1 + 1)
        · rw [word_member hword (by omega) (by omega), word_zero hw] at hPt
          cases hPt
        · exact habove t (by omega) hPt

theorem scanUpWords_spec (n w : ℕ) (word : Word) (hn : bits.length < n + w + 1)
    (hlen : w < bits.length)
    (hword : ∀ i < 64, word.getLsbD i = true ↔ P (64 * w + i))
    (hbelow : ∀ t, t < 64 * w → ¬P t)
    (habove : ∀ t, 64 * (w + 1) ≤ t → (P t ↔ bitAt bits t = true)) :
    ∃ r, scanUpWords bits n w word = some r ∧ IsFirst P r := by
  induction n generalizing w word with
  | zero => omega
  | succ n ih =>
    by_cases hw : word ≠ 0
    · obtain ⟨h64, hset, hclear⟩ := word_first hw
      refine ⟨_, by simp only [scanUpWords, if_pos hw, shiftLeft_six]; rfl, Or.inr ⟨_, rfl, ?_, ?_⟩⟩
      · exact (hword _ h64).mp hset
      · intro u hu hPu
        by_cases hlow : u < 64 * w
        · exact hbelow u hlow hPu
        · rw [word_member hword (by omega) (by omega), hclear _ (by omega)] at hPu
          cases hPu
    · have hempty : ∀ t, t < 64 * (w + 1) → ¬P t := by
        intro t ht hPt
        by_cases hlow : t < 64 * w
        · exact hbelow t hlow hPt
        · rw [word_member hword (by omega) (by omega), word_zero hw] at hPt
          cases hPt
      by_cases hend : bits.length ≤ w + 1
      · refine ⟨-1, by simp only [scanUpWords, if_neg hw, if_pos hend], Or.inl ⟨rfl, ?_⟩⟩
        intro t hPt
        by_cases hlow : t < 64 * (w + 1)
        · exact hempty t hlow hPt
        · rw [habove t (by omega), bitAt_beyond (by omega)] at hPt
          cases hPt
      · have hin : w + 1 < bits.length := by omega
        simp only [scanUpWords, if_neg hw, if_neg hend, word_at hin, Option.bind_eq_bind,
          Option.bind_some]
        refine ih (w + 1) _ (by omega) hin (fun i hi => ?_) hempty fun t ht => habove t (by omega)
        rw [habove _ (by omega), bitAt_word _ _ _ hi]

end Loops

theorem mask_low (f i : ℕ) :
    (~~~0#64 >>> (63 - f % 64)).getLsbD i = decide (i ≤ f % 64) := by
  rw [BitVec.getLsbD_ushiftRight, BitVec.getLsbD_not, BitVec.getLsbD_zero]
  by_cases h : i ≤ f % 64
  · simp [h]
    omega
  · simp [h]
    omega

theorem mask_high (f i : ℕ) (hi : i < 64) :
    (~~~0#64 <<< (f % 64)).getLsbD i = decide (f % 64 ≤ i) := by
  rw [BitVec.getLsbD_shiftLeft, BitVec.getLsbD_not, BitVec.getLsbD_zero]
  by_cases h : f % 64 ≤ i
  · simp [h, hi]
    omega
  · simp [h, hi]

theorem scanDown_spec {bits : List Word} {f : ℕ} (hf : f / 64 < bits.length) :
    ∃ r, scanDown bits (f : ℤ) = some r ∧ IsLast (fun t => bitAt bits t = true ∧ t ≤ f) r := by
  have hneg : ¬((f : ℤ) < 0) := by omega
  simp only [scanDown, if_neg hneg, Int.toNat_natCast, shiftRight_six, word_at hf,
    Option.bind_eq_bind, Option.bind_some, and_sixty_three]
  refine scanDownWords_spec _ _ (by omega) (fun i hi => ?_) (fun t ht hPt => by omega)
    fun t ht => ⟨fun h => h.1, fun h => ⟨h, by omega⟩⟩
  rw [BitVec.getLsbD_and, mask_low f i, bitAt_word _ _ _ hi, Bool.and_eq_true,
    decide_eq_true_eq]
  refine and_congr_right fun _ => ?_
  omega

theorem scanDown_neg {bits : List Word} {f : ℤ} (hf : f < 0) : scanDown bits f = some (-1) := by
  simp [scanDown, hf]

theorem scanUp_spec {bits : List Word} {ticks f : ℕ} (hlen : bits.length = (ticks + 63) / 64)
    (hclear : ∀ t, ticks ≤ t → bitAt bits t = false) :
    ∃ r, scanUp bits ticks (f : ℤ) = some r ∧ IsFirst (fun t => bitAt bits t = true ∧ f ≤ t) r := by
  have hneg : ¬((f : ℤ) < 0) := by omega
  by_cases hout : ticks ≤ f
  · refine ⟨-1, by simp [scanUp, hneg, hout], Or.inl ⟨rfl, fun t ht => ?_⟩⟩
    have := hclear t (by omega)
    rw [ht.1] at this
    cases this
  · have hin : f / 64 < bits.length := by omega
    simp only [scanUp, if_neg hneg, Int.toNat_natCast, if_neg hout, shiftRight_six, word_at hin,
      Option.bind_eq_bind, Option.bind_some, and_sixty_three]
    refine scanUpWords_spec _ _ _ (by omega) hin (fun i hi => ?_) (fun t ht hPt => by omega)
      fun t ht => ⟨fun h => h.1, fun h => ⟨h, by omega⟩⟩
    rw [BitVec.getLsbD_and, mask_high f i hi, bitAt_word _ _ _ hi, Bool.and_eq_true,
      decide_eq_true_eq]
    refine and_congr_right fun _ => ?_
    omega

/-! ### Any start that a query passes -/

theorem scanDown_at {bits : List Word} {ticks : ℕ} {from_ : ℤ}
    (hlen : bits.length = (ticks + 63) / 64) (hlow : -1 ≤ from_) (hhigh : from_ < ticks) :
    ∃ r, scanDown bits from_ = some r ∧
      IsLast (fun t => bitAt bits t = true ∧ (t : ℤ) ≤ from_) r := by
  by_cases hneg : from_ < 0
  case pos =>
    apply Exists.intro (-1)
    apply And.intro (scanDown_neg hneg)
    exact Or.inl ⟨rfl, fun t ht => by omega⟩
  case neg =>
    obtain ⟨f, rfl⟩ := Int.eq_ofNat_of_zero_le (Int.not_lt.mp hneg)
    obtain ⟨r, hr, hlast⟩ := @scanDown_spec bits f (by omega)
    exact ⟨r, hr, by simpa only [Nat.cast_le] using hlast⟩

/-- A negative start is the first tick. -/
theorem scanUp_at {bits : List Word} {ticks : ℕ} {from_ : ℤ}
    (hlen : bits.length = (ticks + 63) / 64) (hclear : ∀ t, ticks ≤ t → bitAt bits t = false) :
    ∃ r, scanUp bits ticks from_ = some r ∧
      IsFirst (fun t => bitAt bits t = true ∧ from_ ≤ t) r := by
  by_cases hneg : from_ < 0
  case pos =>
    obtain ⟨r, hr, hfirst⟩ := scanUp_spec (f := 0) hlen hclear
    have hstart : scanUp bits ticks from_ = scanUp bits ticks ((0 : ℕ) : ℤ) := by
      simp only [scanUp, if_pos hneg, Nat.cast_zero, lt_self_iff_false, if_false, Int.toNat_zero]
    apply Exists.intro r
    apply And.intro (hstart.trans hr)
    have hall (t : ℕ) : (bitAt bits t = true ∧ from_ ≤ t) ↔ (bitAt bits t = true ∧ 0 ≤ t) :=
      and_congr_right fun _ => by omega
    simpa only [hall] using hfirst
  case neg =>
    obtain ⟨f, rfl⟩ := Int.eq_ofNat_of_zero_le (Int.not_lt.mp hneg)
    obtain ⟨r, hr, hfirst⟩ := scanUp_spec (f := f) hlen hclear
    exact ⟨r, hr, by simpa only [Nat.cast_le] using hfirst⟩

end Hotpath.Book
