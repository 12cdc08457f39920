import Hotpath.Core.Types

/-!
# Open-addressing hash table (core/open_hash.hpp)

The table is one vector of slots, allocated up front; `kEmpty` marks a slot
without a key. Every operation probes forward from the slot the hash selects,
and `erase` closes the gap by backward shift instead of leaving a tombstone.

The probe loops of the source have no bound. Here they carry the number of
slots as their bound and return `none` when it is exhausted: after that many
steps a loop has read every slot of an unchanged table, so the source's would
never end. A subscript outside the vector is `none` as well.
-/

namespace Hotpath

structure Slot (V : Type) where
  key : OrderId
  value : V
  deriving DecidableEq, Repr

structure OpenHashMap (V : Type) where
  slots : List (Slot V)
  mask : ℕ
  size : ℕ
  deriving DecidableEq, Repr

namespace OpenHashMap

/-- ITCH never uses order ref 0. -/
def kEmpty : OrderId := 0

/-- The splitmix64 finaliser of the source. -/
def hash (x : OrderId) : OrderId :=
  let x := (x ^^^ (x >>> 30)) * 0xbf58476d1ce4e5b9
  let x := (x ^^^ (x >>> 27)) * 0x94d049bb133111eb
  x ^^^ (x >>> 31)

/-- `std::vector` refuses more slots than `PTRDIFF_MAX` bytes hold; a slot is a
64-bit key and a value, at least 16 bytes. -/
def maxSize : ℕ := (2 ^ 63 - 1) / 16

/-- Constructor; `none` is the `invalid_argument` of the source, or the
`length_error` of its vector. -/
def make {V : Type} [Inhabited V] (capacityPow2 : ℕ) : Option (OpenHashMap V) :=
  if maxSize < capacityPow2 then none
  else if capacityPow2 = 0 ∨ capacityPow2 &&& (capacityPow2 - 1) ≠ 0 then none
  else some ⟨List.replicate capacityPow2 ⟨kEmpty, default⟩, capacityPow2 - 1, 0⟩

section Operations
variable {V : Type} (h : OrderId → OrderId)

def start (m : OpenHashMap V) (key : OrderId) : ℕ := (h key).toNat &&& m.mask

/-- The probe loop shared by `find`, `insert` and `erase`: the slot holding
`key`, or the first empty slot met before it. -/
def probe (m : OpenHashMap V) (key : OrderId) : ℕ → ℕ → Option ℕ
  | 0, _ => none
  | n + 1, i => do
    let s ← m.slots[i]?
    if s.key = key ∨ s.key = kEmpty then return i
    m.probe key n ((i + 1) &&& m.mask)

/-- The inner `none` is the null pointer of the source. -/
def find (m : OpenHashMap V) (key : OrderId) : Option (Option V) := do
  let i ← m.probe key m.slots.length (m.start h key)
  let s ← m.slots[i]?
  return if s.key = key then some s.value else none

/-- An assignment through the pointer `find` returned. -/
def write (m : OpenHashMap V) (key : OrderId) (v : V) : Option (OpenHashMap V) := do
  let i ← m.probe key m.slots.length (m.start h key)
  let s ← m.slots[i]?
  return if s.key = key then { m with slots := m.slots.set i { s with value := v } } else m

/-- The load-factor limit on occupying a new slot. -/
def limit (m : OpenHashMap V) : ℕ := m.slots.length * 7 / 10

/-- The flag is false where the source returns a null pointer. -/
def insert (m : OpenHashMap V) (key : OrderId) (v : V) : Option (OpenHashMap V × Bool) := do
  let i ← m.probe key m.slots.length (m.start h key)
  let s ← m.slots[i]?
  if s.key = key then return ({ m with slots := m.slots.set i ⟨key, v⟩ }, true)
  if (m.size + 1) % 2 ^ 64 > m.limit then return (m, false)
  return ({ m with slots := m.slots.set i ⟨key, v⟩, size := (m.size + 1) % 2 ^ 64 }, true)

/-- Backward shift: `i` is the gap, `j` the last slot looked at. Returns the
table and the gap it ends with. -/
def shift (mask : ℕ) : ℕ → List (Slot V) → ℕ → ℕ → Option (List (Slot V) × ℕ)
  | 0, _, _, _ => none
  | n + 1, slots, i, j => do
    let j := (j + 1) &&& mask
    let s ← slots[j]?
    if s.key = kEmpty then return (slots, i)
    let k := (h s.key).toNat &&& mask
    if (if i ≤ j then i < k ∧ k ≤ j else i < k ∨ k ≤ j) then shift mask n slots i j
    else shift mask n (slots.set i s) j j

/-- The flag says whether the key was present; `--size_` wraps below zero. -/
def erase (m : OpenHashMap V) (key : OrderId) : Option (OpenHashMap V × Bool) := do
  let i ← m.probe key m.slots.length (m.start h key)
  let s ← m.slots[i]?
  if s.key ≠ key then return (m, false)
  let (slots, i) ← shift h m.mask m.slots.length m.slots i i
  let s ← slots[i]?
  return ({ m with slots := slots.set i { s with key := kEmpty },
                   size := (m.size + (2 ^ 64 - 1)) % 2 ^ 64 }, true)

def clear (m : OpenHashMap V) : OpenHashMap V :=
  { m with slots := m.slots.map fun s => { s with key := kEmpty }, size := 0 }

end Operations

end OpenHashMap

end Hotpath
