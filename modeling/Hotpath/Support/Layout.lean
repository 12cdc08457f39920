import Hotpath.Support.BigEndian

/-!
# Fixed-width layouts

How a value lies in memory: so many bytes, from which it reads back. Layouts are put
together field after field, and an array is one layout over and over. What is left of
an array that was cut short is its first elements.
-/

namespace Hotpath.Support

/-- The value of the bytes, least significant first. -/
def leValue (l : List UInt8) : ℕ := bigEndian l.reverse

/-- The lowest `n` bytes of a number, least significant first. -/
def leBytes (n v : ℕ) : List UInt8 := (toBytes n v).reverse

theorem leBytes_length (n v : ℕ) : (leBytes n v).length = n := by
  rw [leBytes, toBytes, List.length_reverse, List.length_map, List.length_reverse, List.length_range]

theorem leValue_leBytes (n v : ℕ) : leValue (leBytes n v) = v % 256 ^ n := by
  rw [leValue, leBytes, List.reverse_reverse, bigEndian_toBytes]

theorem leBytes_inj {n v w : ℕ} (hv : v < 256 ^ n) (hw : w < 256 ^ n)
    (h : leBytes n v = leBytes n w) : v = w := by
  have heq := congrArg leValue h
  rwa [leValue_leBytes, leValue_leBytes, Nat.mod_eq_of_lt hv, Nat.mod_eq_of_lt hw] at heq

/-- `get` reads a value from `width` bytes; it is `none` where they are not so many, or
spell none. -/
structure Layout (α : Type) where
  width : ℕ
  put : α → List UInt8
  get : List UInt8 → Option α
  put_length : ∀ a, (put a).length = width
  get_length : ∀ {l a}, get l = some a → l.length = width
  get_put : ∀ a, get (put a) = some a

namespace Layout
variable {α β : Type}

/-- A number of `n` bytes. -/
def word (n : ℕ) (ofNat : ℕ → α) (toNat : α → ℕ) (h : ∀ a, ofNat (toNat a % 256 ^ n) = a) :
    Layout α where
  width := n
  put a := leBytes n (toNat a)
  get l := if l.length = n then some (ofNat (leValue l)) else none
  put_length a := leBytes_length n (toNat a)
  get_length hl := by
    by_contra hne
    rw [if_neg hne] at hl
    cases hl
  get_put a := by rw [if_pos (leBytes_length n (toNat a)), leValue_leBytes, h]

def uint8 : Layout UInt8 := word 1 UInt8.ofNat UInt8.toNat fun a => by
  rw [Nat.mod_eq_of_lt (b := 256 ^ 1) (UInt8.toNat_lt a), UInt8.ofNat_toNat]

def uint32 : Layout UInt32 := word 4 UInt32.ofNat UInt32.toNat fun a => by
  rw [Nat.mod_eq_of_lt (b := 256 ^ 4) (UInt32.toNat_lt a), UInt32.ofNat_toNat]

def uint64 : Layout UInt64 := word 8 UInt64.ofNat UInt64.toNat fun a => by
  rw [Nat.mod_eq_of_lt (b := 256 ^ 8) (UInt64.toNat_lt a), UInt64.ofNat_toNat]

/-- Bytes as they lie. -/
def raw (n : ℕ) : Layout (List.Vector UInt8 n) where
  width := n
  put a := a.toList
  get l := if h : l.length = n then some ⟨l, h⟩ else none
  put_length a := a.toList_length
  get_length hl := by
    by_contra hne
    rw [dif_neg hne] at hl
    cases hl
  get_put a := dif_pos a.toList_length

/-- Bytes that are written as zeros and not read. -/
def pad (n : ℕ) : Layout Unit where
  width := n
  put _ := List.replicate n 0
  get l := if l.length = n then some () else none
  put_length _ := List.length_replicate
  get_length hl := by
    by_contra hne
    rw [if_neg hne] at hl
    cases hl
  get_put _ := if_pos List.length_replicate

/-- One field and then another. -/
def seq (x : Layout α) (y : Layout β) : Layout (α × β) where
  width := x.width + y.width
  put a := x.put a.1 ++ y.put a.2
  get l := do
    let a ← x.get (l.take x.width)
    let b ← y.get (l.drop x.width)
    return (a, b)
  put_length a := by rw [List.length_append, x.put_length, y.put_length]
  get_length hl := by
    obtain ⟨a, ha, hl⟩ := Option.bind_eq_some_iff.mp hl
    obtain ⟨b, hb, -⟩ := Option.bind_eq_some_iff.mp hl
    rw [← x.get_length ha, ← y.get_length hb, ← List.length_append, List.take_append_drop]
  get_put a := by
    have htake : (x.put a.1 ++ y.put a.2).take x.width = x.put a.1 :=
      List.take_left' (x.put_length a.1)
    have hdrop : (x.put a.1 ++ y.put a.2).drop x.width = y.put a.2 :=
      List.drop_left' (x.put_length a.1)
    rw [htake, hdrop, x.get_put, y.get_put]
    rfl

/-- A type whose values are some of those of another. -/
def via (x : Layout α) (enc : β → α) (dec : α → Option β) (h : ∀ b, dec (enc b) = some b) :
    Layout β where
  width := x.width
  put b := x.put (enc b)
  get l := (x.get l).bind dec
  put_length b := x.put_length (enc b)
  get_length hl := by
    obtain ⟨a, ha, -⟩ := Option.bind_eq_some_iff.mp hl
    exact x.get_length ha
  get_put b := by rw [x.get_put, Option.bind_some, h]

/-- Any bytes of the width spell a value. -/
def Total (x : Layout α) : Prop := ∀ l, l.length = x.width → ∃ a, x.get l = some a

theorem word_total (n : ℕ) (ofNat : ℕ → α) (toNat : α → ℕ) (h : ∀ a, ofNat (toNat a % 256 ^ n) = a) :
    (word n ofNat toNat h).Total := by
  intro l hl
  exact ⟨ofNat (leValue l), if_pos hl⟩

theorem uint32_total : uint32.Total := word_total 4 _ _ _

theorem uint64_total : uint64.Total := word_total 8 _ _ _

theorem raw_total (n : ℕ) : (raw n).Total := fun _ hl => ⟨_, dif_pos hl⟩

theorem pad_total (n : ℕ) : (pad n).Total := fun _ hl => ⟨_, if_pos hl⟩

theorem Total.seq {x : Layout α} {y : Layout β} (hx : x.Total) (hy : y.Total) :
    (x.seq y).Total := by
  intro l hl
  have hwidth : l.length = x.width + y.width := hl
  obtain ⟨a, ha⟩ := hx (l.take x.width) (by rw [List.length_take]; omega)
  obtain ⟨b, hb⟩ := hy (l.drop x.width) (by rw [List.length_drop]; omega)
  refine ⟨(a, b), ?_⟩
  simp only [Layout.seq, ha, hb, Option.bind_eq_bind, Option.bind_some]
  rfl

theorem Total.via {x : Layout α} (hx : x.Total) {enc : β → α} {dec : α → Option β}
    (h : ∀ b, dec (enc b) = some b) (hdec : ∀ a, ∃ b, dec a = some b) : (x.via enc dec h).Total := by
  intro l hl
  obtain ⟨a, ha⟩ := hx l hl
  obtain ⟨b, hb⟩ := hdec a
  refine ⟨b, ?_⟩
  show (x.get l).bind dec = some b
  rw [ha, Option.bind_some, hb]

/-! ### Arrays -/

def putAll (x : Layout α) (as : List α) : List UInt8 := as.flatMap x.put

/-- The element at index `i` of an array. -/
def getAt (x : Layout α) (l : List UInt8) (i : ℕ) : Option α :=
  x.get (window l (i * x.width) x.width)

def getAll (x : Layout α) (l : List UInt8) (n : ℕ) : List (Option α) := (List.range n).map (x.getAt l)

theorem putAll_length (x : Layout α) (as : List α) : (x.putAll as).length = as.length * x.width := by
  rw [putAll, List.length_flatMap]
  simp only [x.put_length, List.map_const', List.sum_replicate, smul_eq_mul]

theorem drop_putAll (x : Layout α) (as : List α) (i : ℕ) :
    (x.putAll as).drop (i * x.width) = x.putAll (as.drop i) := by
  induction i generalizing as with
  | zero => rw [Nat.zero_mul, List.drop_zero, List.drop_zero]
  | succ i ih =>
    cases as with
    | nil => rw [putAll, List.flatMap_nil, List.drop_nil, List.drop_nil]; rfl
    | cons a as =>
      have hsum : (i + 1) * x.width = x.width + i * x.width := by
        rw [Nat.add_mul, Nat.one_mul, Nat.add_comm]
      rw [hsum, ← List.drop_drop, putAll, List.flatMap_cons, List.drop_left' (x.put_length a),
        List.drop_succ_cons]
      exact ih as

/-- What is left of an array after a cut reads as its first elements. -/
theorem getAll_take (x : Layout α) (as : List α) {k n : ℕ} (hn : n ≤ as.length)
    (hk : n * x.width ≤ k) : x.getAll ((x.putAll as).take k) n = (as.take n).map some := by
  apply List.ext_getElem
  · rw [getAll, List.length_map, List.length_range, List.length_map, List.length_take]
    omega
  · intro i h1 h2
    have hi : i < n := by
      rwa [getAll, List.length_map, List.length_range] at h1
    have hmul : (i + 1) * x.width ≤ n * x.width := Nat.mul_le_mul_right _ hi
    have hroom : x.width ≤ k - i * x.width := by
      rw [Nat.add_mul, Nat.one_mul] at hmul
      omega
    have hget : window ((x.putAll as).take k) (i * x.width) x.width = x.put as[i] := by
      rw [window, List.drop_take, List.take_take, Nat.min_eq_left hroom, drop_putAll,
        List.drop_eq_getElem_cons (by omega), putAll, List.flatMap_cons,
        List.take_left' (x.put_length _)]
    have hat : (x.getAll ((x.putAll as).take k) n)[i] = x.getAt ((x.putAll as).take k) i := by
      simp only [getAll, List.getElem_map, List.getElem_range]
    rw [hat, getAt, hget, x.get_put, List.getElem_map, List.getElem_take]

theorem getAll_putAll (x : Layout α) (as : List α) :
    x.getAll (x.putAll as) as.length = as.map some := by
  have hall := x.getAll_take as (k := as.length * x.width) (le_refl as.length) (le_refl _)
  rwa [List.take_length, List.take_of_length_le (x.putAll_length as).le] at hall

theorem putAll_inj (x : Layout α) {as as' : List α} (hlen : as.length = as'.length)
    (h : x.putAll as = x.putAll as') : as = as' := by
  have hsame : as.map some = as'.map some := by
    rw [← x.getAll_putAll as, ← x.getAll_putAll as', hlen, h]
  exact List.map_injective_iff.mpr (Option.some_injective α) hsame

end Layout

end Hotpath.Support
