import Hotpath.Core.Types

/-!
# The tick bitmap of the grid designs (hybrid_book.hpp, flat_book.hpp)

One bit for each tick, 64 to a word. `scanDown` and `scanUp` look for the
nearest set tick a word at a time; `-1` says there is none. `none` is a word
index outside the bitmap, or a loop past its last word.
-/

namespace Hotpath.Book

abbrev Word := BitVec 64

/-- `bits[t >> 6] |= 1ull << (t & 63)` -/
def setBit (bits : List Word) (t : ℕ) : Option (List Word) := do
  let word ← bits[t >>> 6]?
  return bits.set (t >>> 6) (word ||| 1#64 <<< (t &&& 63))

/-- `bits[t >> 6] &= ~(1ull << (t & 63))` -/
def clearBit (bits : List Word) (t : ℕ) : Option (List Word) := do
  let word ← bits[t >>> 6]?
  return bits.set (t >>> 6) (word &&& ~~~(1#64 <<< (t &&& 63)))

/-- `w` is the word index, `word` what is left of that word. -/
def scanDownWords (bits : List Word) : ℕ → Word → Option ℤ
  | 0, word =>
    if word ≠ 0 then some ((0 <<< 6) + (63 - word.clz.toNat) : ℕ) else some (-1)
  | w + 1, word =>
    if word ≠ 0 then some (((w + 1) <<< 6) + (63 - word.clz.toNat) : ℕ)
    else do
      let word ← bits[w]?
      scanDownWords bits w word

/-- Highest set tick at or below `from_`. -/
def scanDown (bits : List Word) (from_ : ℤ) : Option ℤ := do
  if from_ < 0 then return -1
  let f := from_.toNat
  let word ← bits[f >>> 6]?
  scanDownWords bits (f >>> 6) (word &&& (~~~0#64 >>> (63 - (f &&& 63))))

/-- The first argument bounds the loop by the number of words. -/
def scanUpWords (bits : List Word) : ℕ → ℕ → Word → Option ℤ
  | 0, _, _ => none
  | n + 1, w, word =>
    if word ≠ 0 then some ((w <<< 6) + word.ctz.toNat : ℕ)
    else if bits.length ≤ w + 1 then some (-1)
    else do
      let word ← bits[w + 1]?
      scanUpWords bits n (w + 1) word

/-- Lowest set tick at or above `from_`. -/
def scanUp (bits : List Word) (ticks : ℕ) (from_ : ℤ) : Option ℤ := do
  let f := if from_ < 0 then 0 else from_.toNat
  if ticks ≤ f then return -1
  let word ← bits[f >>> 6]?
  scanUpWords bits bits.length (f >>> 6) (word &&& (~~~0#64 <<< (f &&& 63)))

end Hotpath.Book
