import Mathlib

/-!
# Big-endian bytes

The number a list of bytes spells, most significant byte first, and windows of
such a list.
-/

namespace Hotpath.Support

/-- The value of the bytes, most significant first. -/
def bigEndian (l : List UInt8) : ℕ := Nat.ofDigits 256 (l.reverse.map UInt8.toNat)

@[simp] theorem bigEndian_nil : bigEndian [] = 0 := rfl

theorem bigEndian_snoc (l : List UInt8) (b : UInt8) :
    bigEndian (l ++ [b]) = 256 * bigEndian l + b.toNat := by
  simp only [bigEndian, List.reverse_append, List.reverse_singleton, List.singleton_append,
    List.map_cons, Nat.ofDigits_cons]
  omega

theorem bigEndian_lt (l : List UInt8) : bigEndian l < 256 ^ l.length := by
  have h : ∀ d ∈ l.reverse.map UInt8.toNat, d < 256 := by
    intro d hd
    obtain ⟨b, -, rfl⟩ := List.mem_map.mp hd
    exact UInt8.toNat_lt b
  have hlt := Nat.ofDigits_lt_base_pow_length (by decide) h
  rwa [List.length_map, List.length_reverse] at hlt

theorem bigEndian_two (hi lo : UInt8) : bigEndian [hi, lo] = 256 * hi.toNat + lo.toNat := by
  have h := bigEndian_snoc [hi] lo
  have h1 := bigEndian_snoc [] hi
  simp only [List.nil_append, bigEndian_nil, List.singleton_append] at h h1
  omega

/-- The lowest `n` bytes of a number, most significant first. -/
def toBytes (n v : ℕ) : List UInt8 := (List.range n).reverse.map fun k => UInt8.ofNat (v / 256 ^ k)

theorem toBytes_succ (n v : ℕ) : toBytes (n + 1) v = toBytes n (v / 256) ++ [UInt8.ofNat v] := by
  have hdiv : ∀ k, v / 256 ^ (k + 1) = v / 256 / 256 ^ k := fun k => by
    rw [pow_succ', Nat.div_div_eq_div_mul]
  rw [toBytes, List.range_succ_eq_map, List.reverse_cons, List.map_append, ← List.map_reverse,
    List.map_map]
  simp only [Function.comp_def, hdiv, List.map_singleton, pow_zero, Nat.div_one, toBytes]

theorem bigEndian_toBytes (n v : ℕ) : bigEndian (toBytes n v) = v % 256 ^ n := by
  induction n generalizing v with
  | zero => exact (Nat.mod_one v).symm
  | succ n ih =>
    have hpow : 256 ^ (n + 1) = 256 * 256 ^ n := pow_succ' 256 n
    rw [toBytes_succ, bigEndian_snoc, ih, UInt8.toNat_ofNat', hpow, Nat.mod_mul]
    exact Nat.add_comm _ _

theorem toBytes_bigEndian (l : List UInt8) : toBytes l.length (bigEndian l) = l := by
  induction l using List.reverseRecOn with
  | nil => rfl
  | append_singleton l b ih =>
    have hlen : (l ++ [b]).length = l.length + 1 := by
      rw [List.length_append, List.length_singleton]
    have hb := UInt8.toNat_lt b
    have hdiv : (256 * bigEndian l + b.toNat) / 256 = bigEndian l := by omega
    have hlow : UInt8.ofNat (256 * bigEndian l + b.toNat) = b := by
      apply UInt8.toNat_inj.mp
      rw [UInt8.toNat_ofNat']
      omega
    rw [hlen, toBytes_succ, bigEndian_snoc, hdiv, hlow, ih]

/-- The `size` elements from `off` on, as far as there are any. -/
def window {α : Type} (l : List α) (off size : ℕ) : List α := (l.drop off).take size

section Window
variable {α : Type} {l : List α} {x : α} {off size : ℕ}

theorem window_length : (window l off size).length = min size (l.length - off) := by
  rw [window, List.length_take, List.length_drop]

/-- One more element extends the window it falls in and no other. -/
theorem window_snoc_in (h1 : off ≤ l.length) (h2 : l.length < off + size) :
    window (l ++ [x]) off size = window l off size ++ [x] := by
  unfold window
  rw [List.drop_append_of_le_length h1, List.take_of_length_le, List.take_of_length_le]
  · rw [List.length_drop]
    omega
  · rw [List.length_append, List.length_drop, List.length_singleton]
    omega

theorem window_snoc_out (h : l.length < off ∨ off + size ≤ l.length) :
    window (l ++ [x]) off size = window l off size := by
  unfold window
  cases h with
  | inl h =>
    rw [List.drop_eq_nil_of_le (by rw [List.length_append, List.length_singleton]; omega),
      List.drop_eq_nil_of_le (by omega)]
  | inr h =>
    rw [List.drop_append_of_le_length (by omega), List.take_append_of_le_length]
    rw [List.length_drop]
    omega

end Window

end Hotpath.Support
