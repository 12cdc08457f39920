import Hotpath.Ipc.ShmLayout
import Hotpath.Support.Machine
import Hotpath.Support.Owned

/-!
# Who owns a mapping (itch/mapped_file.hpp, ipc/shm_ring.hpp)

`MappedFile` and `ShmRing` hold a descriptor and the mapping of its file, and may be moved
and assigned. The kernel's side is what is open and what is mapped: `none` is a `close` of
a descriptor that is not open, or a `munmap` of what is not mapped.
-/

namespace Hotpath.Ipc.Handles
open Hotpath.Support ShmLayout

/-! ### The kernel -/

/-- A mapping is its address and its length. -/
structure Kernel where
  fds : Finset ℕ
  maps : Finset (ℕ × ℕ)
  deriving DecidableEq

namespace Kernel

def opened (k : Kernel) (fd : ℕ) : Kernel := { k with fds := insert fd k.fds }
def mapped (k : Kernel) (base bytes : ℕ) : Kernel := { k with maps := insert (base, bytes) k.maps }

def close (k : Kernel) (fd : ℕ) : Option Kernel :=
  if fd ∈ k.fds then some { k with fds := k.fds.erase fd } else none

def munmap (k : Kernel) (base bytes : ℕ) : Option Kernel :=
  if (base, bytes) ∈ k.maps then some { k with maps := k.maps.erase (base, bytes) } else none

end Kernel

/-- What the calls of one constructor answer: `open`, `fstat` or `ftruncate`, and `mmap`;
`none` is a failure. `header` is what the file begins with. -/
structure Answer where
  opened : Option ℕ
  sized : Option ℕ
  mapped : Option ℕ
  header : Header

/-- A descriptor that is not open yet, and an address that is not mapped yet, nor null. -/
structure Fresh (k : Kernel) (a : Answer) : Prop where
  fd : ∀ fd, a.opened = some fd → fd ∉ k.fds
  base : ∀ base, a.mapped = some base → base ≠ 0 ∧ ∀ bytes, (base, bytes) ∉ k.maps

/-! ### The two classes -/

/-- `data_`, `size_` and `fd_` of the one, `base_`, `bytes_` and `fd_` of the other. -/
structure Region where
  base : ℕ := 0
  bytes : ℕ := 0
  fd : Int := -1
  deriving DecidableEq, Repr

/-- `capacity_`, `mask_` and `stride_` -/
structure Geometry where
  capacity : UInt64 := 0
  mask : UInt64 := 0
  stride : UInt64 := 0
  deriving DecidableEq, Repr

/-- `MappedFile::release` and `ShmRing::close`, which is also what both destructors do. -/
def Region.release (k : Kernel) (r : Region) : Option (Kernel × Region) := do
  let k ← if r.base ≠ 0 then k.munmap r.base r.bytes else some k
  let k ← if r.fd ≥ 0 then k.close r.fd.toNat else some k
  return (k, {})

/-- `::close(fd)` and a throw. -/
def refuse {α : Type} (k : Kernel) (fd : ℕ) (what : String) :
    Option (Kernel × Except String α) := do
  let k ← k.close fd
  return (k, .error what)

/-- `MappedFile::MappedFile(path)` -/
def mapFile (k : Kernel) (a : Answer) (path : String) : Option (Kernel × Except String Region) :=
  match a.opened with
  | none => some (k, .error ("open failed: " ++ path))
  | some fd =>
    let k := k.opened fd
    match a.sized with
    | none => refuse k fd ("fstat failed: " ++ path)
    | some size =>
      if size = 0 then refuse k fd ("empty file: " ++ path)
      else match a.mapped with
        | none => refuse k fd ("mmap failed: " ++ path)
        | some base => some (k.mapped base size, .ok ⟨base, size, fd⟩)

/-- `ShmRing::map` -/
def map (k : Kernel) (a : Answer) (fd bytes : ℕ) : Option (Kernel × Except String Region) :=
  match a.mapped with
  | none => refuse k fd "shm mmap failed"
  | some base => some (k.mapped base bytes, .ok ⟨base, bytes, fd⟩)

/-- `finish_open` -/
def geometry (h : Header) : Geometry := ⟨h.capacity, h.capacity - 1, h.slotStride⟩

/-- `ShmRing::create`: the ring is zeroed and its header stamped, then read back. -/
def createRing (apple : Bool) (k : Kernel) (a : Answer) (path : String) (capacityPow2 : UInt64)
    (slotBytes : UInt32) : Option (Kernel × Except String (Region × Geometry)) :=
  if capacityPow2 = 0 ∨ capacityPow2 &&& (capacityPow2 - 1) ≠ 0 then
    some (k, .error "ShmRing capacity must be a power of two")
  else
    let stride := slotStride apple slotBytes
    let bytes := sizeofHeader apple + stride * capacityPow2
    match a.opened with
    | none => some (k, .error ("shm create failed: " ++ path))
    | some fd =>
      let k := k.opened fd
      match a.sized with
      | none => refuse k fd ("ftruncate failed: " ++ path)
      | some _ => do
        let (k, r) ← map k a fd bytes.toNat
        return (k, r.map fun r =>
          (r, geometry ⟨kShmMagic, kShmVersion, slotBytes, capacityPow2, stride⟩))

/-- `ShmRing::open`: what throws once the file is mapped destroys the ring it was making. -/
def openRing (apple : Bool) (k : Kernel) (a : Answer) (path : String) :
    Option (Kernel × Except String (Region × Geometry)) :=
  match a.opened with
  | none => some (k, .error ("shm open failed: " ++ path))
  | some fd =>
    let k := k.opened fd
    let size := a.sized.getD 0
    if a.sized = none ∨ size < (sizeofHeader apple).toNat then
      refuse k fd ("shm too small: " ++ path)
    else do
      let (k, r) ← map k a fd size
      match r with
      | .error what => return (k, .error what)
      | .ok r =>
        if a.header.magic ≠ kShmMagic then
          let (k, _) ← r.release k
          return (k, .error ("not a hotpath ring: " ++ path))
        else if a.header.version ≠ kShmVersion then
          let (k, _) ← r.release k
          return (k, .error ("ring version mismatch: " ++ path))
        else return (k, .ok (r, geometry a.header))

/-- An object of one of the classes. -/
inductive Obj where
  | file (r : Region)
  | ring (r : Region) (g : Geometry)
  deriving DecidableEq, Repr

namespace Obj

def region : Obj → Region
  | file r => r
  | ring r _ => r

/-- The move constructors: what is made, and what is left of the object it is made from. -/
def steal : Obj → Obj × Obj
  | file r => (file r, file {})
  | ring r g => (ring r g, ring {} g)

def release (k : Kernel) : Obj → Option (Kernel × Obj)
  | file r => do
    let (k, r) ← r.release k
    return (k, file r)
  | ring r g => do
    let (k, r) ← r.release k
    return (k, ring r g)

def sameClass : Obj → Obj → Prop
  | file _, file _ => True
  | ring .., ring .. => True
  | _, _ => False

def valid (o : Obj) : Bool := o.region.base ≠ 0

/-- What it holds. -/
def fd? (o : Obj) : Option ℕ := if o.region.fd ≥ 0 then some o.region.fd.toNat else none
def map? (o : Obj) : Option (ℕ × ℕ) :=
  if o.region.base ≠ 0 then some (o.region.base, o.region.bytes) else none

end Obj

/-! ### Programs -/

structure State where
  kernel : Kernel
  objs : ℕ → Option Obj

inductive Op where
  | mapFile (x : ℕ) (path : String) (a : Answer)
  | createRing (x : ℕ) (path : String) (capacityPow2 : UInt64) (slotBytes : UInt32) (a : Answer)
  | openRing (x : ℕ) (path : String) (a : Answer)
  | emptyFile (x : ℕ)
  | emptyRing (x : ℕ)
  | moveConstruct (x y : ℕ)
  | moveAssign (x y : ℕ)
  | close (x : ℕ)
  | destroy (x : ℕ)

namespace State

def set (s : State) (x : ℕ) (o : Option Obj) : State :=
  { s with objs := Function.update s.objs x o }

/-- An object whose constructor throws is not there. -/
def construct (s : State) (x : ℕ) : Kernel × Except String Obj → State
  | (k, .error _) => { s with kernel := k }
  | (k, .ok o) => { kernel := k, objs := Function.update s.objs x (some o) }

/-- `none` is a fault, or an operand that is not there. -/
def step (apple : Bool) (s : State) : Op → Option State
  | .mapFile x path a => do
    let (k, r) ← Handles.mapFile s.kernel a path
    return s.construct x (k, r.map .file)
  | .createRing x path capacityPow2 slotBytes a => do
    let (k, r) ← Handles.createRing apple s.kernel a path capacityPow2 slotBytes
    return s.construct x (k, r.map fun p => .ring p.1 p.2)
  | .openRing x path a => do
    let (k, r) ← Handles.openRing apple s.kernel a path
    return s.construct x (k, r.map fun p => .ring p.1 p.2)
  | .emptyFile x => some (s.set x (some (.file {})))
  | .emptyRing x => some (s.set x (some (.ring {} {})))
  | .moveConstruct x y => do
    let o ← s.objs y
    return (s.set y (some o.steal.2)).set x (some o.steal.1)
  | .moveAssign x y =>
    if x = y then some s
    else do
      let (k, _) ← (← s.objs x).release s.kernel
      let o ← s.objs y
      return ({ s with kernel := k }.set y (some o.steal.2)).set x (some o.steal.1)
  | .close x => do
    let (k, o) ← (← s.objs x).release s.kernel
    return { s with kernel := k }.set x (some o)
  | .destroy x => do
    let (k, _) ← (← s.objs x).release s.kernel
    return { s with kernel := k }.set x none

/-- What the language and the kernel promise of a program's next operation: an object is
made where there is none, and used where there is one, of the class that is meant. -/
def Allowed (s : State) : Op → Prop
  | .mapFile x _ a => s.objs x = none ∧ Fresh s.kernel a
  | .createRing x _ _ _ a => s.objs x = none ∧ Fresh s.kernel a
  | .openRing x _ a => s.objs x = none ∧ Fresh s.kernel a
  | .emptyFile x => s.objs x = none
  | .emptyRing x => s.objs x = none
  | .moveConstruct x y => s.objs x = none ∧ (s.objs y).isSome
  | .moveAssign x y => ∃ o o', s.objs x = some o ∧ s.objs y = some o' ∧ o.sameClass o'
  | .close x => (s.objs x).isSome
  | .destroy x => (s.objs x).isSome

def AllowedRun (apple : Bool) : State → List Op → Prop
  | _, [] => True
  | s, op :: ops => s.Allowed op ∧ ∀ s', s.step apple op = some s' → AllowedRun apple s' ops

end State

/-! ### The constructors -/

variable {k k₀ : Kernel} {a : Answer} {path : String} {apple : Bool} {fd base bytes : ℕ}

/-- A constructor leaves the kernel as it was, or makes an object of what is new in it. -/
inductive Built (k : Kernel) : Kernel × Except String Region → Prop where
  | threw (what : String) : Built k (k, .error what)
  | made {fd base bytes : ℕ} (hfd : fd ∉ k.fds) (hbase : base ≠ 0)
      (hmap : (base, bytes) ∉ k.maps) :
      Built k ((k.opened fd).mapped base bytes, .ok ⟨base, bytes, fd⟩)

theorem refuse_opened {α : Type} (hfd : fd ∉ k.fds) (what : String) :
    refuse (α := α) (k.opened fd) fd what = some (k, .error what) := by
  have hmem : fd ∈ insert fd k.fds := Finset.mem_insert_self fd k.fds
  have hclose : (k.opened fd).close fd = some k := by
    rw [Kernel.close, Kernel.opened, if_pos hmem, Finset.erase_insert hfd]
  rw [refuse, hclose]
  rfl

/-- The destructor of a ring that was just mapped. -/
theorem release_made (hfd : fd ∉ k.fds) (hbase : base ≠ 0) (hmap : (base, bytes) ∉ k.maps) :
    Region.release ((k.opened fd).mapped base bytes) ⟨base, bytes, fd⟩ = some (k, {}) := by
  have hmem : (base, bytes) ∈ insert (base, bytes) k.maps := Finset.mem_insert_self _ _
  have hunmap : ((k.opened fd).mapped base bytes).munmap base bytes = some (k.opened fd) := by
    rw [Kernel.munmap, Kernel.mapped, Kernel.opened, if_pos hmem, Finset.erase_insert hmap]
  have hclose : (k.opened fd).close fd = some k := by
    rw [Kernel.close, Kernel.opened, if_pos (Finset.mem_insert_self fd k.fds),
      Finset.erase_insert hfd]
  have hpos : (fd : Int) ≥ 0 := Int.natCast_nonneg fd
  simp only [Region.release, if_pos hbase, hunmap, if_pos hpos, Int.toNat_natCast, hclose,
    Option.bind_eq_bind, Option.bind_some]
  rfl

theorem map_built (h : Fresh k a) (hopen : a.opened = some fd) (bytes : ℕ) :
    ∃ x, map (k.opened fd) a fd bytes = some x ∧ Built k x := by
  have hfd := h.fd fd hopen
  unfold map
  cases hmap : a.mapped with
  | none => exact ⟨_, refuse_opened hfd _, .threw _⟩
  | some base =>
    obtain ⟨hbase, hfree⟩ := h.base base hmap
    exact ⟨_, rfl, .made hfd hbase (hfree bytes)⟩

theorem mapFile_built (h : Fresh k a) : ∃ x, mapFile k a path = some x ∧ Built k x := by
  unfold mapFile
  cases hopen : a.opened with
  | none => exact ⟨_, rfl, .threw _⟩
  | some fd =>
    have hfd := h.fd fd hopen
    cases a.sized with
    | none => exact ⟨_, refuse_opened hfd _, .threw _⟩
    | some size =>
      by_cases hzero : size = 0
      · exact ⟨_, (if_pos hzero).trans (refuse_opened hfd _), .threw _⟩
      · simp only [if_neg hzero]
        cases hmap : a.mapped with
        | none => exact ⟨_, refuse_opened hfd _, .threw _⟩
        | some base =>
          obtain ⟨hbase, hfree⟩ := h.base base hmap
          exact ⟨_, rfl, .made hfd hbase (hfree size)⟩

theorem createRing_built (h : Fresh k a) (capacityPow2 : UInt64) (slotBytes : UInt32) :
    ∃ k' r, createRing apple k a path capacityPow2 slotBytes = some (k', r) ∧
      Built k (k', r.map Prod.fst) := by
  unfold createRing
  split
  · exact ⟨k, .error _, rfl, .threw _⟩
  · cases hopen : a.opened with
    | none => exact ⟨k, .error _, rfl, .threw _⟩
    | some fd =>
      cases a.sized with
      | none => exact ⟨k, .error _, refuse_opened (h.fd fd hopen) _, .threw _⟩
      | some _ =>
        obtain ⟨⟨k', r⟩, hmap, hb⟩ := map_built h hopen
          (sizeofHeader apple + slotStride apple slotBytes * capacityPow2).toNat
        simp only [hmap, Option.bind_eq_bind, Option.bind_some]
        cases r with
        | error what => exact ⟨k', .error what, rfl, hb⟩
        | ok r => exact ⟨k', .ok (r, _), rfl, hb⟩

theorem openRing_built (h : Fresh k a) :
    ∃ k' r, openRing apple k a path = some (k', r) ∧ Built k (k', r.map Prod.fst) := by
  unfold openRing
  cases hopen : a.opened with
  | none => exact ⟨k, .error _, rfl, .threw _⟩
  | some fd =>
    have hfd := h.fd fd hopen
    dsimp only
    split
    · exact ⟨k, .error _, refuse_opened hfd _, .threw _⟩
    · obtain ⟨⟨k', r⟩, hmap, hb⟩ := map_built h hopen (a.sized.getD 0)
      simp only [hmap, Option.bind_eq_bind, Option.bind_some]
      cases hb with
      | threw what => exact ⟨k, .error what, rfl, .threw what⟩
      | made hfd hbase hfree =>
        have hrelease := release_made hfd hbase hfree
        simp only [hrelease, Option.bind_some]
        split_ifs
        · exact ⟨k, .error _, rfl, .threw _⟩
        · exact ⟨k, .error _, rfl, .threw _⟩
        · exact ⟨_, .ok _, rfl, .made hfd hbase hfree⟩

/-! ### What every operation keeps -/

/-- Every open descriptor and every mapping that was not there before has one object. -/
structure Sound (k₀ : Kernel) (s : State) : Prop where
  fds : Owned k₀.fds s.kernel.fds fun x => (s.objs x).bind Obj.fd?
  maps : Owned k₀.maps s.kernel.maps fun x => (s.objs x).bind Obj.map?
  whole : ∀ x o, s.objs x = some o → (o.valid = true ↔ o.region.fd ≥ 0)

variable {s s' : State} {x y : ℕ} {o : Obj}

theorem held_update {R : Type} (f : Obj → Option R) (objs : ℕ → Option Obj) (x : ℕ)
    (v : Option Obj) : (fun y => (Function.update objs x v y).bind f) =
      Function.update (fun y => (objs y).bind f) x (v.bind f) := by
  funext y
  by_cases heq : y = x
  · obtain rfl := heq
    rw [Function.update_self, Function.update_self]
  · rw [Function.update_of_ne heq, Function.update_of_ne heq]

/-- The flags of an object that has the two parts of a region, or neither. -/
theorem Obj.empty_holds (h : o.region = {}) : o.fd? = none ∧ o.map? = none ∧ o.valid = false := by
  refine ⟨?_, ?_, ?_⟩
  · rw [Obj.fd?, h]
    rfl
  · rw [Obj.map?, h]
    rfl
  · rw [Obj.valid, h]
    rfl

theorem Obj.made_holds (h : o.region = ⟨base, bytes, fd⟩) (hbase : base ≠ 0) :
    o.fd? = some fd ∧ o.map? = some (base, bytes) ∧ (o.valid = true ↔ o.region.fd ≥ 0) := by
  have hpos : (fd : Int) ≥ 0 := Int.natCast_nonneg fd
  refine ⟨?_, ?_, ?_⟩
  · rw [Obj.fd?, h]
    exact (if_pos hpos).trans (congrArg some (Int.toNat_natCast fd))
  · rw [Obj.map?, h]
    exact if_pos hbase
  · rw [Obj.valid, h]
    exact ⟨fun _ => hpos, fun _ => decide_eq_true hbase⟩

theorem Sound.whole_update {objs : ℕ → Option Obj} {v : Option Obj}
    (h : ∀ x o, objs x = some o → (o.valid = true ↔ o.region.fd ≥ 0))
    (hv : ∀ o, v = some o → (o.valid = true ↔ o.region.fd ≥ 0)) :
    ∀ y o, Function.update objs x v y = some o → (o.valid = true ↔ o.region.fd ≥ 0) := by
  intro y o hy
  by_cases heq : y = x
  · obtain rfl := heq
    rw [Function.update_self] at hy
    exact hv o hy
  · rw [Function.update_of_ne heq] at hy
    exact h y o hy

/-- A constructor, whether it throws or not. -/
theorem Sound.construct (h : Sound k₀ s) (hx : s.objs x = none) {k' : Kernel}
    {r : Except String Obj} (hb : Built s.kernel (k', r.map Obj.region)) :
    Sound k₀ (s.construct x (k', r)) := by
  cases r with
  | error what =>
    cases hb
    exact h
  | ok o =>
    generalize hr : Except.map Obj.region (.ok o : Except String Obj) = r at hb
    cases hb with
    | threw what => cases hr
    | @made fd base bytes hfd hbase hfree =>
      obtain ⟨hofd, homap, howhole⟩ := Obj.made_holds (Except.ok.inj hr) hbase
      have hnone {R : Type} (f : Obj → Option R) : (s.objs x).bind f = none := by
        rw [hx]
        rfl
      constructor
      case fds =>
        show Owned _ _ fun y => (Function.update s.objs x (some o) y).bind Obj.fd?
        rw [held_update, Option.bind_some, hofd]
        exact h.fds.acquire (hnone _) hfd
      case maps =>
        show Owned _ _ fun y => (Function.update s.objs x (some o) y).bind Obj.map?
        rw [held_update, Option.bind_some, homap]
        exact h.maps.acquire (hnone _) hfree
      case whole =>
        apply Sound.whole_update h.whole
        intro o' ho'
        obtain rfl := Option.some.inj ho'
        exact howhole

theorem Obj.release_eq {k' : Kernel} (h : o.region.release k = some (k', {})) :
    ∃ o', o.release k = some (k', o') ∧ o'.region = {} := by
  cases o with
  | file r =>
    refine ⟨.file {}, ?_, rfl⟩
    rw [Obj.release, show r.release k = some (k', {}) from h]
    rfl
  | ring r g =>
    refine ⟨.ring {} g, ?_, rfl⟩
    rw [Obj.release, show r.release k = some (k', {}) from h]
    rfl

/-- What an object holds is open and mapped, and is given back once. -/
theorem Sound.release (h : Sound k₀ s) (hx : s.objs x = some o) :
    ∃ k' o', o.release s.kernel = some (k', o') ∧ o'.region = {} ∧
      ∀ v : Option Obj, (∀ o'', v = some o'' → o''.region = {}) →
        Sound k₀ ⟨k', Function.update s.objs x v⟩ := by
  have hheld {R : Type} (f : Obj → Option R) : (s.objs x).bind f = f o := by
    rw [hx]
    rfl
  have hempty {R : Type} {f : Obj → Option R} (hf : ∀ o, o.region = {} → f o = none)
      (v : Option Obj) (hv : ∀ o'', v = some o'' → o''.region = {}) : v.bind f = none := by
    cases v with
    | none => rfl
    | some o'' => exact hf o'' (hv o'' rfl)
  have hwhole (v : Option Obj) (hv : ∀ o'', v = some o'' → o''.region = {}) :
      ∀ y o, Function.update s.objs x v y = some o → (o.valid = true ↔ o.region.fd ≥ 0) := by
    apply Sound.whole_update h.whole
    intro o'' ho''
    rw [(Obj.empty_holds (hv o'' ho'')).2.2, hv o'' ho'']
    decide
  by_cases hfd : o.region.fd ≥ 0
  · -- a mapping and its descriptor
    obtain ⟨fd, hfdeq⟩ := Int.eq_ofNat_of_zero_le hfd
    have hbase : o.region.base ≠ 0 := of_decide_eq_true ((h.whole x o hx).mpr hfd)
    have hregion : o.region = ⟨o.region.base, o.region.bytes, fd⟩ := by
      rw [← hfdeq]
    obtain ⟨hofd, homap, -⟩ := Obj.made_holds hregion hbase
    obtain ⟨hmemfd, hfds⟩ := h.fds.release ((hheld Obj.fd?).trans hofd)
    obtain ⟨hmemmap, hmaps⟩ := h.maps.release ((hheld Obj.map?).trans homap)
    have hunmap : s.kernel.munmap o.region.base o.region.bytes =
        some { s.kernel with maps := s.kernel.maps.erase (o.region.base, o.region.bytes) } :=
      if_pos hmemmap
    have hclose : Kernel.close
        { s.kernel with maps := s.kernel.maps.erase (o.region.base, o.region.bytes) } fd =
        some ⟨s.kernel.fds.erase fd, s.kernel.maps.erase (o.region.base, o.region.bytes)⟩ :=
      if_pos hmemfd
    have hrelease : o.region.release s.kernel = some
        (⟨s.kernel.fds.erase fd, s.kernel.maps.erase (o.region.base, o.region.bytes)⟩, {}) := by
      have htoNat : o.region.fd.toNat = fd := by
        rw [hfdeq]
        exact Int.toNat_natCast fd
      simp only [Region.release, if_pos hbase, hunmap, if_pos hfd, htoNat, hclose,
        Option.bind_eq_bind, Option.bind_some]
      rfl
    obtain ⟨o', ho', hempty'⟩ := Obj.release_eq hrelease
    refine ⟨_, o', ho', hempty', fun v hv => ⟨?_, ?_, hwhole v hv⟩⟩
    · rw [held_update, hempty (fun o ho => (Obj.empty_holds ho).1) v hv]
      exact hfds
    · rw [held_update, hempty (fun o ho => (Obj.empty_holds ho).2.1) v hv]
      exact hmaps
  · -- nothing
    have hbase : ¬o.region.base ≠ 0 :=
      fun hbase => hfd ((h.whole x o hx).mp (decide_eq_true hbase))
    have hrelease : o.region.release s.kernel = some (s.kernel, {}) := by
      simp only [Region.release, if_neg hbase, if_neg hfd, Option.bind_eq_bind, Option.bind_some]
      rfl
    obtain ⟨o', ho', hempty'⟩ := Obj.release_eq hrelease
    have hsame {R : Type} {f : Obj → Option R} (ho : f o = none) (v : Option Obj)
        (hv : v.bind f = none) : Function.update (fun y => (s.objs y).bind f) x (v.bind f) =
          fun y => (s.objs y).bind f := by
      rw [hv]
      exact Function.update_eq_self_iff.mpr ((hheld f).trans ho).symm
    refine ⟨_, o', ho', hempty', fun v hv => ⟨?_, ?_, hwhole v hv⟩⟩
    · rw [held_update, hsame (if_neg hfd) v (hempty (fun o ho => (Obj.empty_holds ho).1) v hv)]
      exact h.fds
    · rw [held_update, hsame (if_neg hbase) v (hempty (fun o ho => (Obj.empty_holds ho).2.1) v hv)]
      exact h.maps

/-- A region changes hands. -/
theorem Sound.move (h : Sound k₀ s) (hne : x ≠ y) (hx : ∀ o, s.objs x = some o → o.region = {})
    (hy : s.objs y = some o) : Sound k₀ ((s.set y (some o.steal.2)).set x (some o.steal.1)) := by
  have hsteal : o.steal.1 = o ∧ o.steal.2.region = {} := by
    cases o <;> exact ⟨rfl, rfl⟩
  obtain ⟨hnofd, hnomap, hinvalid⟩ := Obj.empty_holds hsteal.2
  have hheld {R : Type} (f : Obj → Option R) : (s.objs y).bind f = f o := by
    rw [hy]
    rfl
  have hnone {R : Type} {f : Obj → Option R} (hf : ∀ o, o.region = {} → f o = none) :
      (s.objs x).bind f = none := by
    cases hox : s.objs x with
    | none => rfl
    | some o' => exact hf o' (hx o' hox)
  constructor
  case fds =>
    show Owned _ _ fun z =>
      (Function.update (Function.update s.objs y (some o.steal.2)) x (some o.steal.1) z).bind _
    rw [held_update, held_update, Option.bind_some, Option.bind_some, hnofd, hsteal.1,
      ← hheld Obj.fd?]
    exact h.fds.hand hne (hnone fun o ho => (Obj.empty_holds ho).1)
  case maps =>
    show Owned _ _ fun z =>
      (Function.update (Function.update s.objs y (some o.steal.2)) x (some o.steal.1) z).bind _
    rw [held_update, held_update, Option.bind_some, Option.bind_some, hnomap, hsteal.1,
      ← hheld Obj.map?]
    exact h.maps.hand hne (hnone fun o ho => (Obj.empty_holds ho).2.1)
  case whole =>
    apply Sound.whole_update
    · apply Sound.whole_update h.whole
      intro o' ho'
      obtain rfl := Option.some.inj ho'
      rw [hinvalid, hsteal.2]
      decide
    · intro o' ho'
      rw [← Option.some.inj ho', hsteal.1]
      exact h.whole y o hy

theorem Sound.empty (h : Sound k₀ s) (hx : s.objs x = none) (ho : o.region = {}) :
    Sound k₀ (s.set x (some o)) := by
  obtain ⟨hnofd, hnomap, hinvalid⟩ := Obj.empty_holds ho
  have hsame {R : Type} {f : Obj → Option R} (hf : f o = none) :
      Function.update (fun y => (s.objs y).bind f) x ((some o).bind f) =
        fun y => (s.objs y).bind f := by
    rw [Option.bind_some, hf]
    apply Function.update_eq_self_iff.mpr
    rw [hx]
    rfl
  constructor
  case fds =>
    show Owned _ _ fun y => (Function.update s.objs x (some o) y).bind _
    rw [held_update, hsame hnofd]
    exact h.fds
  case maps =>
    show Owned _ _ fun y => (Function.update s.objs x (some o) y).bind _
    rw [held_update, hsame hnomap]
    exact h.maps
  case whole =>
    apply Sound.whole_update h.whole
    intro o' ho'
    rw [← Option.some.inj ho', hinvalid, ho]
    decide

/-- One operation: it does not fault, whatever the kernel answers. -/
theorem Sound.step (h : Sound k₀ s) {op : Op} (ha : s.Allowed op) :
    ∃ s', s.step apple op = some s' ∧ Sound k₀ s' := by
  cases op with
  | mapFile x path a =>
    obtain ⟨hx, hfresh⟩ := ha
    obtain ⟨⟨k', r⟩, hmake, hb⟩ := @mapFile_built _ _ path hfresh
    refine ⟨s.construct x (k', r.map .file), ?_, h.construct hx ?_⟩
    · simp only [State.step, hmake, Option.bind_eq_bind, Option.bind_some]
      rfl
    · cases r <;> exact hb
  | createRing x path capacityPow2 slotBytes a =>
    obtain ⟨hx, hfresh⟩ := ha
    obtain ⟨k', r, hmake, hb⟩ := @createRing_built _ _ path apple hfresh capacityPow2 slotBytes
    refine ⟨s.construct x (k', r.map fun p => .ring p.1 p.2), ?_, h.construct hx ?_⟩
    · simp only [State.step, hmake, Option.bind_eq_bind, Option.bind_some]
      rfl
    · cases r <;> exact hb
  | openRing x path a =>
    obtain ⟨hx, hfresh⟩ := ha
    obtain ⟨k', r, hmake, hb⟩ := @openRing_built _ _ path apple hfresh
    refine ⟨s.construct x (k', r.map fun p => .ring p.1 p.2), ?_, h.construct hx ?_⟩
    · simp only [State.step, hmake, Option.bind_eq_bind, Option.bind_some]
      rfl
    · cases r <;> exact hb
  | emptyFile x => exact ⟨_, rfl, h.empty ha rfl⟩
  | emptyRing x => exact ⟨_, rfl, h.empty ha rfl⟩
  | moveConstruct x y =>
    obtain ⟨hx, hy⟩ := ha
    obtain ⟨o, ho⟩ := Option.isSome_iff_exists.mp hy
    have hne : x ≠ y := by
      rintro rfl
      exact Option.some_ne_none o (ho.symm.trans hx)
    refine ⟨_, ?_, h.move hne (fun o' ho' => absurd (ho'.symm.trans hx) (Option.some_ne_none o')) ho⟩
    simp only [State.step, ho, Option.bind_eq_bind, Option.bind_some]
    rfl
  | moveAssign x y =>
    obtain ⟨o, o', hx, hy, -⟩ := ha
    by_cases hne : x = y
    · exact ⟨s, if_pos hne, h⟩
    · obtain ⟨k', o₁, hrelease, hempty, hkeep⟩ := h.release hx
      have h' := hkeep (some o₁) fun o'' ho'' => Option.some.inj ho'' ▸ hempty
      have hx' : ∀ o'', Function.update s.objs x (some o₁) x = some o'' → o''.region = {} := by
        intro o'' ho''
        rw [Function.update_self] at ho''
        exact Option.some.inj ho'' ▸ hempty
      have hy' : Function.update s.objs x (some o₁) y = some o' := by
        rw [Function.update_of_ne (Ne.symm hne), hy]
      have hmoved := h'.move hne hx' hy'
      rw [State.set, State.set] at hmoved
      have hobjs : Function.update (Function.update (Function.update s.objs x (some o₁)) y
          (some o'.steal.2)) x (some o'.steal.1) =
          Function.update (Function.update s.objs y (some o'.steal.2)) x (some o'.steal.1) := by
        rw [Function.update_comm hne, Function.update_idem]
      refine ⟨⟨k', _⟩, ?_, hobjs ▸ hmoved⟩
      simp only [State.step, if_neg hne, hx, hy, hrelease, Option.bind_eq_bind, Option.bind_some]
      rfl
  | close x =>
    obtain ⟨o, ho⟩ := Option.isSome_iff_exists.mp ha
    obtain ⟨k', o₁, hrelease, hempty, hkeep⟩ := h.release ho
    refine ⟨_, ?_, hkeep (some o₁) fun o'' ho'' => Option.some.inj ho'' ▸ hempty⟩
    simp only [State.step, ho, hrelease, Option.bind_eq_bind, Option.bind_some]
    rfl
  | destroy x =>
    obtain ⟨o, ho⟩ := Option.isSome_iff_exists.mp ha
    obtain ⟨k', o₁, hrelease, -, hkeep⟩ := h.release ho
    refine ⟨_, ?_, hkeep none fun o'' ho'' => nomatch ho''⟩
    simp only [State.step, ho, hrelease, Option.bind_eq_bind, Option.bind_some]
    rfl

/-! ### Runs -/

theorem Sound.start (k₀ : Kernel) : Sound k₀ ⟨k₀, fun _ => none⟩ where
  fds := Owned.nothing k₀.fds
  maps := Owned.nothing k₀.maps
  whole _ _ h := nomatch h

theorem Sound.run (h : Sound k₀ s) {ops : List Op} (ha : s.AllowedRun apple ops) :
    ∃ s', runs (State.step apple) s ops = some s' ∧ Sound k₀ s' := by
  induction ops generalizing s with
  | nil => exact ⟨s, rfl, h⟩
  | cons op ops ih =>
    obtain ⟨hop, hrest⟩ := ha
    obtain ⟨s₁, hs, h₁⟩ := h.step hop
    obtain ⟨s', hrun, h'⟩ := ih h₁ (hrest s₁ hs)
    refine ⟨s', ?_, h'⟩
    rw [runs, hs]
    exact hrun

/-- Where no object is left that is valid, the kernel is as it was. -/
theorem Sound.returned (h : Sound k₀ s) (hnone : ∀ x o, s.objs x = some o → o.valid = false) :
    s.kernel = k₀ := by
  have hheld {R : Type} {f : Obj → Option R} (hf : ∀ o, o.valid = false →
      ¬o.region.fd ≥ 0 → f o = none) (x : ℕ) : (s.objs x).bind f = none := by
    cases hx : s.objs x with
    | none => rfl
    | some o =>
      have hinvalid := hnone x o hx
      refine hf o hinvalid fun hfd => ?_
      rw [(h.whole x o hx).mpr hfd] at hinvalid
      cases hinvalid
  have hfds := h.fds.returned (hheld fun o _ hfd => if_neg hfd)
  have hmaps := h.maps.returned (hheld fun o hinvalid _ => if_neg (of_decide_eq_false hinvalid))
  obtain ⟨⟨fds, maps⟩, objs⟩ := s
  obtain ⟨fds₀, maps₀⟩ := k₀
  exact congrArg₂ Kernel.mk hfds hmaps

/-- In every program over the two classes, whatever the kernel answers: no descriptor is
closed and no mapping removed that is not held, what is held has one object, and nothing is
left over once no object is valid. -/
theorem mappings_owned_once (k₀ : Kernel) (ops : List Op)
    (ha : State.AllowedRun apple ⟨k₀, fun _ => none⟩ ops) :
    ∃ s, runs (State.step apple) ⟨k₀, fun _ => none⟩ ops = some s ∧ Sound k₀ s ∧
      ((∀ x o, s.objs x = some o → o.valid = false) → s.kernel = k₀) := by
  obtain ⟨s, hrun, h⟩ := (Sound.start k₀).run ha
  exact ⟨s, hrun, h, h.returned⟩

/-- A file is assigned over another, and the object it came from goes first. -/
theorem mappings_owned_once_two :
    let a (fd base : ℕ) : Answer := ⟨some fd, some 9, some base, ⟨0, 0, 0, 0, 0⟩⟩
    let ops : List Op := [.mapFile 0 "a" (a 3 4096), .mapFile 1 "b" (a 4 8192), .moveAssign 0 1,
      .destroy 1, .destroy 0]
    let k₀ : Kernel := ⟨{0, 1, 2}, ∅⟩
    ∃ s, runs (State.step false) ⟨k₀, fun _ => none⟩ ops = some s ∧ Sound k₀ s ∧
      ((∀ x o, s.objs x = some o → o.valid = false) → s.kernel = k₀) := by
  intro a ops k₀
  have hfresh (k : Kernel) (fd base : ℕ) (hfd : fd ∉ k.fds) (hbase : base ≠ 0)
      (hmap : ∀ x ∈ k.maps, x.1 ≠ base) : Fresh k (a fd base) := by
    constructor
    · rintro _ ⟨⟩
      exact hfd
    · rintro _ ⟨⟩
      exact ⟨hbase, fun bytes hmem => hmap _ hmem rfl⟩
  have ha : State.AllowedRun false ⟨k₀, fun _ => none⟩ ops := by
    refine ⟨⟨rfl, hfresh k₀ 3 4096 (by decide) (by decide) (by decide)⟩, ?_⟩
    rintro _ ⟨⟩
    refine ⟨⟨rfl, hfresh _ 4 8192 (by decide) (by decide) (by decide)⟩, ?_⟩
    rintro _ ⟨⟩
    refine ⟨⟨_, _, rfl, rfl, trivial⟩, ?_⟩
    rintro _ ⟨⟩
    refine ⟨rfl, ?_⟩
    rintro _ ⟨⟩
    refine ⟨rfl, ?_⟩
    rintro _ ⟨⟩
    trivial
  exact @mappings_owned_once false k₀ ops ha

end Hotpath.Ipc.Handles
