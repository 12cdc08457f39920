import Hotpath.Core.Types
import Hotpath.Support.BigEndian

/-!
# Reading big-endian fields (itch/byteorder.hpp)

A read is `none` where the source reads a byte outside the buffer `p` points
into.
-/

namespace Hotpath.Itch
open Hotpath.Support

/-- The `size` bytes at `off`. -/
def bytesAt (p : List UInt8) (off size : ℕ) : Option (List UInt8) :=
  if off + size ≤ p.length then some (window p off size) else none

def rdU16 (p : List UInt8) (off : ℕ) : Option UInt16 :=
  (bytesAt p off 2).map fun v => UInt16.ofNat (bigEndian v)

def rdU32 (p : List UInt8) (off : ℕ) : Option UInt32 :=
  (bytesAt p off 4).map fun v => UInt32.ofNat (bigEndian v)

def rdU64 (p : List UInt8) (off : ℕ) : Option UInt64 :=
  (bytesAt p off 8).map fun v => UInt64.ofNat (bigEndian v)

/-- ITCH timestamps are 6 bytes. -/
def rdU48 (p : List UInt8) (off : ℕ) : Option UInt64 :=
  (bytesAt p off 6).map fun v => UInt64.ofNat (bigEndian v)

theorem bytesAt_isSome {p : List UInt8} {off size : ℕ} :
    (bytesAt p off size).isSome = true ↔ off + size ≤ p.length := by
  unfold bytesAt
  split
  · rename_i h
    exact ⟨fun _ => h, fun _ => rfl⟩
  · rename_i h
    exact ⟨fun hc => absurd hc (by simp), fun hc => absurd hc h⟩

theorem bytesAt_of_le {p : List UInt8} {off size : ℕ} (h : off + size ≤ p.length) :
    bytesAt p off size = some (window p off size) := if_pos h

section Reads
variable {p : List UInt8} {off : ℕ}

theorem rdU16_of_le (h : off + 2 ≤ p.length) :
    rdU16 p off = some (UInt16.ofNat (bigEndian (window p off 2))) := by
  rw [rdU16, bytesAt_of_le h, Option.map_some]

theorem rdU32_of_le (h : off + 4 ≤ p.length) :
    rdU32 p off = some (UInt32.ofNat (bigEndian (window p off 4))) := by
  rw [rdU32, bytesAt_of_le h, Option.map_some]

theorem rdU64_of_le (h : off + 8 ≤ p.length) :
    rdU64 p off = some (UInt64.ofNat (bigEndian (window p off 8))) := by
  rw [rdU64, bytesAt_of_le h, Option.map_some]

theorem rdU48_of_le (h : off + 6 ≤ p.length) :
    rdU48 p off = some (UInt64.ofNat (bigEndian (window p off 6))) := by
  rw [rdU48, bytesAt_of_le h, Option.map_some]

@[simp] theorem rdU16_isSome :
    (rdU16 p off).isSome = true ↔ off + 2 ≤ p.length := by
  rw [rdU16, Option.isSome_map, bytesAt_isSome]

@[simp] theorem rdU32_isSome :
    (rdU32 p off).isSome = true ↔ off + 4 ≤ p.length := by
  rw [rdU32, Option.isSome_map, bytesAt_isSome]

@[simp] theorem rdU64_isSome :
    (rdU64 p off).isSome = true ↔ off + 8 ≤ p.length := by
  rw [rdU64, Option.isSome_map, bytesAt_isSome]

@[simp] theorem rdU48_isSome :
    (rdU48 p off).isSome = true ↔ off + 6 ≤ p.length := by
  rw [rdU48, Option.isSome_map, bytesAt_isSome]

end Reads

end Hotpath.Itch
