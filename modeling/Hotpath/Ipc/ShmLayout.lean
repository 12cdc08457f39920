import Hotpath.Support.BigEndian
import Hotpath.Support.MaskedStride

/-!
# The ring's file (ipc/shm_ring.hpp)

The bytes of the mapping: what `create` lays out, what `open` takes from a file, and
where a slot then lies. The arithmetic is that of `std::uint64_t`.
-/

namespace Hotpath.Ipc
open Hotpath.Support

namespace ShmLayout

/-- 128 bytes on Apple's arm64, 64 elsewhere. -/
def kCacheLine (apple : Bool) : UInt64 := if apple then 128 else 64

def kShmMagic : UInt64 := 0x484F545052494E47
def kShmVersion : UInt32 := 1

/-- `sizeof(ShmHeader)`: `write_seq` begins the second line of two. -/
def sizeofHeader (apple : Bool) : UInt64 := 2 * kCacheLine apple

/-- `sizeof(SlotHeader)` -/
def sizeofSlot : UInt64 := 16

def alignUp (v a : UInt64) : UInt64 := (v + a - 1) / a * a

/-- The header's fields that do not change while the ring is used. -/
structure Header where
  magic : UInt64
  version : UInt32
  slotBytes : UInt32
  capacity : UInt64
  slotStride : UInt64
  deriving DecidableEq, Repr

/-- A file: its size is an `off_t`. -/
structure File where
  content : List UInt8
  size_lt : content.length < 2 ^ 63

def littleEndian (l : List UInt8) : ℕ := bigEndian l.reverse

def File.header (f : File) : Header :=
  { magic := UInt64.ofNat (littleEndian (window f.content 0 8))
    version := UInt32.ofNat (littleEndian (window f.content 8 4))
    slotBytes := UInt32.ofNat (littleEndian (window f.content 12 4))
    capacity := UInt64.ofNat (littleEndian (window f.content 16 8))
    slotStride := UInt64.ofNat (littleEndian (window f.content 24 8)) }

/-- `bytes_`, `mask_`, `stride_` and the header's `slot_bytes`. -/
structure Mapping where
  bytes : UInt64
  slotBytes : UInt32
  mask : UInt64
  stride : UInt64
  deriving DecidableEq, Repr

/-- `finish_open` -/
def finishOpen (bytes : UInt64) (h : Header) : Mapping :=
  { bytes := bytes, slotBytes := h.slotBytes, mask := h.capacity - 1, stride := h.slotStride }

def slotStride (apple : Bool) (slotBytes : UInt32) : UInt64 :=
  alignUp (sizeofSlot + slotBytes.toUInt64) (kCacheLine apple)

/-- `maps` tells whether the system makes a file of that many bytes and maps it. -/
def create (apple : Bool) (maps : UInt64 → Bool) (capacityPow2 : UInt64) (slotBytes : UInt32) :
    Option Mapping :=
  if capacityPow2 = 0 ∨ capacityPow2 &&& (capacityPow2 - 1) ≠ 0 then none
  else
    let stride := slotStride apple slotBytes
    let bytes := sizeofHeader apple + stride * capacityPow2
    if maps bytes then
      some (finishOpen bytes ⟨kShmMagic, kShmVersion, slotBytes, capacityPow2, stride⟩)
    else none

def open_ (apple : Bool) (maps : UInt64 → Bool) (f : File) : Option Mapping :=
  let size := UInt64.ofNat f.content.length
  if size < sizeofHeader apple then none
  else if ¬maps size then none
  else if f.header.magic ≠ kShmMagic then none
  else if f.header.version ≠ kShmVersion then none
  else some (finishOpen size f.header)

namespace Mapping

/-- Where `slot(i)` begins. -/
def slot (apple : Bool) (m : Mapping) (i : UInt64) : ℕ :=
  (sizeofHeader apple).toNat + (i * m.stride).toNat

/-- What `memcpy` moves in `publish` and `try_read` for a message of `n` bytes. -/
def copied (m : Mapping) (n : UInt32) : UInt32 := if n < m.slotBytes then n else m.slotBytes

/-- Every slot that they address ends inside the mapping, with the bytes they copy. -/
def Inside (apple : Bool) (m : Mapping) : Prop :=
  ∀ (i : UInt64) (n : UInt32),
    m.slot apple (i &&& m.mask) + sizeofSlot.toNat + (m.copied n).toNat ≤ m.bytes.toNat

variable {apple : Bool} {m : Mapping}

/-- The longest copy decides. -/
theorem inside_iff : m.Inside apple ↔ ∀ i : UInt64,
    m.slot apple (i &&& m.mask) + sizeofSlot.toNat + m.slotBytes.toNat ≤ m.bytes.toNat := by
  constructor
  case mp =>
    intro h i
    have hmax : m.copied m.slotBytes = m.slotBytes := if_neg (UInt32.lt_irrefl _)
    have hi := h i m.slotBytes
    rw [hmax] at hi
    exact hi
  case mpr =>
    intro h i n
    have hle : (m.copied n).toNat ≤ m.slotBytes.toNat := by
      unfold copied
      split
      case isTrue hlt => exact (UInt32.lt_iff_toNat_lt.mp hlt).le
      case isFalse => exact le_rfl
    have hi := h i
    omega

end Mapping

/-! ### A ring that was just made -/

variable {apple : Bool} {maps : UInt64 → Bool} {capacity : UInt64} {slotBytes : UInt32}
  {m : Mapping}

theorem alignUp_spec (apple : Bool) (slotBytes : UInt32) :
    (kCacheLine apple).toNat ∣ (slotStride apple slotBytes).toNat ∧
    16 + slotBytes.toNat ≤ (slotStride apple slotBytes).toNat ∧
    (slotStride apple slotBytes).toNat < 16 + slotBytes.toNat + (kCacheLine apple).toNat := by
  have hlt := slotBytes.toNat_lt
  have hstride : (slotStride apple slotBytes).toNat =
      (16 + slotBytes.toNat + (kCacheLine apple).toNat - 1) / (kCacheLine apple).toNat *
        (kCacheLine apple).toNat := by
    cases apple <;>
      simp [slotStride, alignUp, sizeofSlot, kCacheLine, UInt64.toNat_add, UInt64.toNat_sub,
        UInt64.toNat_mul, UInt64.toNat_div] <;> omega
  rw [hstride]
  cases apple <;> simp [kCacheLine] <;> omega

/-- What a `create` that returns was given. -/
theorem create_eq_some (h : create apple maps capacity slotBytes = some m) :
    capacity.toNat.isPowerOfTwo ∧
    m = finishOpen (sizeofHeader apple + slotStride apple slotBytes * capacity)
      ⟨kShmMagic, kShmVersion, slotBytes, capacity, slotStride apple slotBytes⟩ := by
  unfold create at h
  obtain ⟨hpow, h⟩ := Option.ite_none_left_eq_some.mp h
  obtain ⟨_, h⟩ := Option.ite_none_right_eq_some.mp h
  obtain ⟨hne, hand⟩ := not_or.mp hpow
  have hpos : capacity.toNat ≠ 0 := fun hzero => hne (UInt64.toNat_inj.mp hzero)
  have hone : (1 : UInt64) ≤ capacity := UInt64.le_iff_toNat_le.mpr (Nat.one_le_iff_ne_zero.mpr hpos)
  apply And.intro _ (Option.some.inj h).symm
  rw [← Nat.and_sub_one_eq_zero_iff_isPowerOfTwo hpos]
  have hzero := congrArg UInt64.toNat (not_not.mp hand)
  rw [UInt64.toNat_and, UInt64.toNat_sub_of_le _ _ hone] at hzero
  exact hzero

/-- Where the size wraps, the last slot whose own offset does not wrap is outside. -/
theorem layout_iff {H S c slot line : ℕ} (hline : line ∣ S) (hword : line ∣ 2 ^ 64)
    (hfits : slot ≤ S) (htight : S < slot + line) (hslot : 0 < slot) (hc : 0 < c) :
    (∀ i < c, H + i * S % 2 ^ 64 + slot ≤ (H + S * c % 2 ^ 64) % 2 ^ 64) ↔
      H + S * c < 2 ^ 64 := by
  constructor
  case mp =>
    intro h
    by_contra hwrap
    have hbytes := Nat.mod_le (H + S * c % 2 ^ 64) (2 ^ 64)
    by_cases hslots : S * c < 2 ^ 64
    case pos =>
      have hfirst := h 0 hc
      rw [Nat.zero_mul, Nat.zero_mod, Nat.mod_eq_of_lt hslots,
        Nat.mod_eq_sub_mod (Nat.le_of_not_lt hwrap)] at hfirst
      have hrest := Nat.mod_le (H + S * c - 2 ^ 64) (2 ^ 64)
      omega
    case neg =>
      have hS : 0 < S := by omega
      have hdiv := Nat.div_add_mod (2 ^ 64 - 1) S
      have hmod := Nat.mod_lt (2 ^ 64 - 1) hS
      generalize (2 ^ 64 - 1) / S = i at hdiv
      have hcomm : i * S = S * i := Nat.mul_comm i S
      have hi : i < c := by
        apply Nat.lt_of_mul_lt_mul_left (a := S)
        omega
      have hlast := h i hi
      rw [Nat.mod_eq_of_lt (show i * S < 2 ^ 64 by omega)] at hlast
      -- the size is a whole number of lines, so it stops a line short of the word
      have hrest : line ∣ S * c % 2 ^ 64 := (Nat.dvd_mod_iff hword).mpr (hline.mul_right c)
      have hlt := Nat.mod_lt (S * c) (show 0 < 2 ^ 64 by decide)
      have hgap : line ≤ 2 ^ 64 - S * c % 2 ^ 64 :=
        Nat.le_of_dvd (by omega) (Nat.dvd_sub hword hrest)
      omega
  case mpr =>
    intro hlt i hi
    have hle : (i + 1) * S ≤ c * S := Nat.mul_le_mul_right S hi
    rw [Nat.add_mul, Nat.one_mul, Nat.mul_comm c S] at hle
    rw [Nat.mod_eq_of_lt (show S * c < 2 ^ 64 by omega), Nat.mod_eq_of_lt hlt,
      Nat.mod_eq_of_lt (show i * S < 2 ^ 64 by omega)]
    omega

/-- In a new ring every slot is inside the mapping exactly when its size, the header and
the slots, is below `2^64`. -/
theorem create_inside_iff (h : create apple maps capacity slotBytes = some m) :
    m.Inside apple ↔ (sizeofHeader apple).toNat +
      (slotStride apple slotBytes).toNat * capacity.toNat < 2 ^ 64 := by
  obtain ⟨hpow, rfl⟩ := create_eq_some h
  obtain ⟨hline, hfits, htight⟩ := alignUp_spec apple slotBytes
  have hpos : 0 < capacity.toNat := Nat.pos_of_isPowerOfTwo hpow
  have hone : (1 : UInt64) ≤ capacity := UInt64.le_iff_toNat_le.mpr hpos
  have hmask (i : UInt64) : (i &&& (capacity - 1)).toNat = i.toNat % capacity.toNat := by
    obtain ⟨k, hk⟩ := hpow
    rw [UInt64.toNat_and, UInt64.toNat_sub_of_le _ _ hone, hk]
    exact Nat.and_two_pow_sub_one_eq_mod i.toNat k
  rw [Mapping.inside_iff]
  simp only [Mapping.slot, finishOpen, UInt64.toNat_mul, UInt64.toNat_add, hmask, Nat.add_assoc]
  have hword : (kCacheLine apple).toNat ∣ 2 ^ 64 := by cases apple <;> decide
  rw [← layout_iff hline hword hfits htight (Nat.add_pos_left (by decide) _) hpos]
  constructor
  case mp =>
    intro hall i hi
    have hlt : i < 2 ^ 64 := hi.trans capacity.toNat_lt
    have hslot := hall (UInt64.ofNat i)
    rw [UInt64.toNat_ofNat_of_lt' hlt, Nat.mod_eq_of_lt hi, ← Nat.add_assoc] at hslot
    exact hslot
  case mpr =>
    intro hall i
    rw [← Nat.add_assoc]
    exact hall _ (Nat.mod_lt _ hpos)

/-! ### A ring that was opened -/

theorem open_eq_some {f : File} (h : open_ apple maps f = some m) :
    m = finishOpen (UInt64.ofNat f.content.length) f.header := by
  unfold open_ at h
  obtain ⟨_, h⟩ := Option.ite_none_left_eq_some.mp h
  obtain ⟨_, h⟩ := Option.ite_none_left_eq_some.mp h
  obtain ⟨_, h⟩ := Option.ite_none_left_eq_some.mp h
  obtain ⟨_, h⟩ := Option.ite_none_left_eq_some.mp h
  exact (Option.some.inj h).symm

/-- How far the slots of a header go: the strides of the single bits of `capacity - 1`,
added up. -/
def Header.reach (h : Header) : ℕ :=
  Support.reach (2 ^ 64) h.slotStride.toNat (h.capacity - 1).toNat 64

/-- In a ring that was opened every slot is inside the mapping exactly when the slot at the
reach of the header is. -/
theorem open_inside_iff {f : File} (h : open_ apple maps f = some m) :
    m.Inside apple ↔ (sizeofHeader apple).toNat + f.header.reach + sizeofSlot.toNat +
      f.header.slotBytes.toNat ≤ f.content.length := by
  obtain rfl := open_eq_some h
  have hsize := f.size_lt
  have hbytes : (UInt64.ofNat f.content.length).toNat = f.content.length :=
    UInt64.toNat_ofNat_of_lt' (show f.content.length < 2 ^ 64 by omega)
  have hmask : (f.header.capacity - 1).toNat % 2 ^ 64 = (f.header.capacity - 1).toNat :=
    Nat.mod_eq_of_lt (f.header.capacity - 1).toNat_lt
  rw [Mapping.inside_iff]
  simp only [Mapping.slot, finishOpen, UInt64.toNat_mul, UInt64.toNat_and, hbytes]
  constructor
  case mp =>
    intro hall
    have hsmall (j : ℕ) (hj : Within j (f.header.capacity - 1).toNat) :
        j * f.header.slotStride.toNat % 2 ^ 64 ≤ f.content.length := by
      have hand := and_of_within hj
      have hlt : j < 2 ^ 64 := by
        rw [← hand]
        exact Nat.and_le_right.trans_lt (f.header.capacity - 1).toNat_lt
      have hj := hall (UInt64.ofNat j)
      rw [UInt64.toNat_ofNat_of_lt' hlt, hand] at hj
      omega
    have hreach := masked_reach hsmall (by omega) 64
    have hlast := hall (f.header.capacity - 1)
    rw [Nat.and_self, ← hmask, hreach] at hlast
    exact hlast
  case mpr =>
    intro hfits i
    have hi : (i.toNat &&& (f.header.capacity - 1).toNat) % 2 ^ 64 =
        i.toNat &&& (f.header.capacity - 1).toNat :=
      Nat.mod_eq_of_lt (Nat.and_le_left.trans_lt i.toNat_lt)
    have hle := @masked_le (2 ^ 64) f.header.slotStride.toNat _ _
      (within_and i.toNat (f.header.capacity - 1).toNat) 64
    rw [hi] at hle
    have hreach : _ ≤ f.header.reach := hle
    omega

/-- The slots of a ring are inside its mapping, whatever index they are addressed by and
however much is copied: of a new ring, exactly when its size does not wrap; of an opened
one, exactly when the file goes as far as the header says. -/
theorem slots_inside_iff (apple : Bool) (maps : UInt64 → Bool) :
    (∀ (capacity : UInt64) (slotBytes : UInt32) (m : Mapping),
      create apple maps capacity slotBytes = some m →
      (m.Inside apple ↔ (sizeofHeader apple).toNat +
        (slotStride apple slotBytes).toNat * capacity.toNat < 2 ^ 64)) ∧
    (∀ (f : File) (m : Mapping), open_ apple maps f = some m →
      (m.Inside apple ↔ (sizeofHeader apple).toNat + f.header.reach + sizeofSlot.toNat +
        f.header.slotBytes.toNat ≤ f.content.length)) :=
  ⟨fun _ _ _ h => create_inside_iff h, fun _ _ h => open_inside_iff h⟩

/-- A header without slots: it says two of 64 bytes. -/
def bareFile : File where
  content := [0x47, 0x4E, 0x49, 0x52, 0x50, 0x54, 0x4F, 0x48, 1, 0, 0, 0, 48, 0, 0, 0,
    2, 0, 0, 0, 0, 0, 0, 0, 64, 0, 0, 0, 0, 0, 0, 0] ++ List.replicate 96 0
  size_lt := by simp

/-- The product of `2 ^ 58` slots of 64 bytes is zero: `create` maps a header and no slot.
`open` takes the bare header as well. -/
theorem slots_outside :
    (∃ m, create false (fun _ => true) (2 ^ 58) 48 = some m ∧ m.bytes = 128 ∧
      ¬m.Inside false) ∧
    ∃ m, open_ false (fun _ => true) bareFile = some m ∧ m.bytes = 128 ∧ ¬m.Inside false := by
  constructor
  case left =>
    apply Exists.intro ⟨128, 48, 2 ^ 58 - 1, 64⟩
    apply And.intro (by decide +kernel)
    apply And.intro rfl
    intro hinside
    exact absurd (hinside 1 0) (by decide +kernel)
  case right =>
    apply Exists.intro ⟨128, 48, 1, 64⟩
    apply And.intro (by decide +kernel)
    apply And.intro rfl
    intro hinside
    exact absurd (hinside 1 0) (by decide +kernel)

/-- A ring of two slots. -/
theorem slots_inside_iff_two :
    ∃ m, create false (fun _ => true) 2 48 = some m ∧ m.Inside false := by
  apply Exists.intro ⟨256, 48, 1, 64⟩
  have hcreate : create false (fun _ => true) 2 48 = some ⟨256, 48, 1, 64⟩ := by decide +kernel
  apply And.intro hcreate
  apply ((slots_inside_iff false fun _ => true).1 2 48 _ hcreate).mpr
  decide +kernel

end ShmLayout

end Hotpath.Ipc
