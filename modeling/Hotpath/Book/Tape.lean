import Hotpath.Book.Book
import Hotpath.Support.Layout
import Hotpath.Support.SortedRank

/-!
# The tape (book/tape.hpp, book/events.hpp, itch/mapped_file.hpp)

The file of one symbol's book events: a header, then the events one after another as
they lie in memory. A tape is read by mapping the file; the header is checked and the
events are taken where they are, as many as it names and the file has.
-/

namespace Hotpath.Book
open Hotpath.Support

structure TapeHeader where
  magic : List.Vector UInt8 8
  version : UInt32
  eventSize : UInt32
  eventCount : UInt64
  symbolRaw : UInt64
  stockLocate : UInt32
  deriving DecidableEq

def kTapeVersion : UInt32 := 1

/-- `HPTAPE`, then two zeros. -/
def kTapeMagic : List.Vector UInt8 8 := ⟨[0x48, 0x50, 0x54, 0x41, 0x50, 0x45, 0, 0], rfl⟩

/-! ### Layouts -/

/-- The last field is `_reserved`. -/
def tapeHeader : Layout TapeHeader :=
  ((Layout.raw 8).seq (Layout.uint32.seq (Layout.uint32.seq (Layout.uint64.seq (Layout.uint64.seq
    (Layout.uint32.seq (Layout.pad 4))))))).via
    (fun h => (h.magic, h.version, h.eventSize, h.eventCount, h.symbolRaw, h.stockLocate, ()))
    (fun (magic, version, size, count, symbol, locate, _) =>
      some ⟨magic, version, size, count, symbol, locate⟩)
    fun _ => rfl

def EventType.code : EventType → UInt8
  | .add => 0
  | .execute => 1
  | .cancel => 2
  | .delete => 3
  | .replace => 4

/-- `none` is a byte that names no enumerator. -/
def EventType.ofCode (c : UInt8) : Option EventType :=
  if c = 0 then some .add
  else if c = 1 then some .execute
  else if c = 2 then some .cancel
  else if c = 3 then some .delete
  else if c = 4 then some .replace
  else none

def sideCode : Side → UInt8
  | .buy => 0
  | .sell => 1

def sideOfCode (c : UInt8) : Option Side :=
  if c = 0 then some .buy else if c = 1 then some .sell else none

/-- The last field is `_pad0` and `_pad1`. -/
def bookEvent : Layout BookEvent :=
  (Layout.uint64.seq (Layout.uint64.seq (Layout.uint64.seq (Layout.uint32.seq (Layout.uint32.seq
    ((Layout.uint8.via EventType.code EventType.ofCode fun t => by cases t <;> rfl).seq
      ((Layout.uint8.via sideCode sideOfCode fun s => by cases s <;> rfl).seq
        (Layout.pad 6)))))))).via
    (fun e => (e.ts, e.order_ref, e.new_ref, e.price, e.shares, e.type, e.side, ()))
    (fun (ts, ref, new, price, shares, type, side, _) =>
      some ⟨ts, ref, new, price, shares, type, side⟩)
    fun _ => rfl

theorem sizeof_tape : tapeHeader.width = 40 ∧ bookEvent.width = 40 := ⟨rfl, rfl⟩

/-- Any forty bytes spell a header. -/
theorem tapeHeader_total : tapeHeader.Total := by
  apply Layout.Total.via
  · exact (Layout.raw_total 8).seq (Layout.uint32_total.seq (Layout.uint32_total.seq
      (Layout.uint64_total.seq (Layout.uint64_total.seq (Layout.uint32_total.seq
        (Layout.pad_total 4))))))
  · exact fun _ => ⟨_, rfl⟩

/-! ### Writing -/

/-- The header of a tape of `n` events. -/
def headerFor (symbolRaw : UInt64) (locate : UInt16) (n : ℕ) : TapeHeader :=
  ⟨kTapeMagic, kTapeVersion, UInt32.ofNat bookEvent.width, UInt64.ofNat n, symbolRaw,
    locate.toUInt32⟩

/-- What the extractor writes for a symbol. -/
def tapeFile (symbolRaw : UInt64) (locate : UInt16) (events : List BookEvent) : List UInt8 :=
  tapeHeader.put (headerFor symbolRaw locate events.length) ++ bookEvent.putAll events

/-! ### Reading -/

/-- The mapping of a file; `none` is a file that cannot be opened. -/
def mappedFile (path : String) (file : Option (List UInt8)) : Except String (List UInt8) :=
  match file with
  | none => .error ("open failed: " ++ path)
  | some [] => .error ("empty file: " ++ path)
  | some data => .ok data

theorem mappedFile_ok {path : String} {file : Option (List UInt8)} {data : List UInt8}
    (h : mappedFile path file = .ok data) : file = some data := by
  unfold mappedFile at h
  split at h
  · cases h
  · cases h
  · exact congrArg some (Except.ok.inj h)

/-- An event is `none` where its type or side is no enumerator of its own. -/
structure Tape where
  header : TapeHeader
  events : List (Option BookEvent)

/-- `size` -/
def Tape.size (t : Tape) : ℕ := t.events.length

/-- The header is `none` where the file is smaller than one. -/
def Tape.open_ (path : String) (file : Option (List UInt8)) : Except String Tape := do
  let data ← mappedFile path file
  match tapeHeader.get (data.take tapeHeader.width) with
  | none => .error ("tape too small: " ++ path)
  | some header =>
    if header.magic ≠ kTapeMagic then .error ("not a tape: " ++ path)
    else if header.version ≠ kTapeVersion then .error ("tape version mismatch: " ++ path)
    else if header.eventSize ≠ UInt32.ofNat bookEvent.width then
      .error ("BookEvent layout changed since this tape was written: " ++ path)
    else
      let avail := (data.length - tapeHeader.width) / bookEvent.width
      .ok ⟨header, bookEvent.getAll (data.drop tapeHeader.width) (min header.eventCount.toNat avail)⟩

/-! ### What a file opens as -/

variable {path : String} {symbolRaw : UInt64} {locate : UInt16} {events : List BookEvent}

theorem tapeFile_length : (tapeFile symbolRaw locate events).length = 40 + events.length * 40 := by
  rw [tapeFile, List.length_append, tapeHeader.put_length, bookEvent.putAll_length]
  rfl

/-- A file that begins with a header of this version. -/
theorem Tape.open_header {data : List UInt8} {header : TapeHeader} (hne : data ≠ [])
    (hget : tapeHeader.get (data.take 40) = some header) (hmagic : header.magic = kTapeMagic)
    (hversion : header.version = kTapeVersion)
    (hsize : header.eventSize = UInt32.ofNat bookEvent.width) :
    Tape.open_ path (some data) = .ok ⟨header, bookEvent.getAll (data.drop 40)
      (min header.eventCount.toNat ((data.length - 40) / 40))⟩ := by
  have hmap : mappedFile path (some data) = .ok data := by
    cases data with
    | nil => exact absurd rfl hne
    | cons x xs => rfl
  have hget : tapeHeader.get (data.take tapeHeader.width) = some header := hget
  simp only [Tape.open_, hmap, bind, Except.bind, hget, hmagic, hversion, hsize, ne_eq,
    not_true_eq_false, if_false]
  rfl

theorem header_bytes : (tapeHeader.put (headerFor symbolRaw locate events.length)).length = 40 :=
  tapeHeader.put_length _

/-- A tape cut short after `k` bytes opens as the events it has whole, unless the header
is cut. -/
theorem Tape.open_take (hlen : events.length < 2 ^ 64) (k : ℕ) :
    Tape.open_ path (some ((tapeFile symbolRaw locate events).take k)) =
      if k = 0 then .error ("empty file: " ++ path)
      else if k < 40 then .error ("tape too small: " ++ path)
      else .ok ⟨headerFor symbolRaw locate events.length,
        (events.take ((k - 40) / 40)).map some⟩ := by
  have hcut : ((tapeFile symbolRaw locate events).take k).length = min k (40 + events.length * 40) := by
    rw [List.length_take, tapeFile_length]
  by_cases hk0 : k = 0
  · rw [hk0, if_pos rfl, List.take_zero]
    rfl
  · have hne : (tapeFile symbolRaw locate events).take k ≠ [] := by
      intro hnil
      rw [hnil, List.length_nil] at hcut
      omega
    rw [if_neg hk0]
    by_cases hk : k < 40
    · have hnone : tapeHeader.get (((tapeFile symbolRaw locate events).take k).take
          tapeHeader.width) = none := by
        apply Option.eq_none_iff_forall_ne_some.mpr
        intro header hget
        have hwidth := tapeHeader.get_length hget
        rw [List.length_take, hcut, sizeof_tape.1] at hwidth
        omega
      have hmap : mappedFile path (some ((tapeFile symbolRaw locate events).take k)) =
          .ok ((tapeFile symbolRaw locate events).take k) := by
        cases hd : (tapeFile symbolRaw locate events).take k with
        | nil => exact absurd hd hne
        | cons x xs => rfl
      rw [if_pos hk]
      simp only [Tape.open_, hmap, bind, Except.bind, hnone]
    · have hget : tapeHeader.get (((tapeFile symbolRaw locate events).take k).take 40) =
          some (headerFor symbolRaw locate events.length) := by
        rw [List.take_take, Nat.min_eq_left (by omega), tapeFile, List.take_left' header_bytes,
          tapeHeader.get_put]
      have hdrop : ((tapeFile symbolRaw locate events).take k).drop 40 =
          (bookEvent.putAll events).take (k - 40) := by
        rw [List.drop_take, tapeFile, List.drop_left' header_bytes]
      have hcount : (headerFor symbolRaw locate events.length).eventCount.toNat = events.length :=
        UInt64.toNat_ofNat_of_lt' hlen
      rw [if_neg hk, Tape.open_header hne hget rfl rfl rfl, hdrop, hcount, hcut]
      have hn : min events.length ((min k (40 + events.length * 40) - 40) / 40) =
          min ((k - 40) / 40) events.length := by omega
      have hwhole : min ((k - 40) / 40) events.length * bookEvent.width ≤ k - 40 := by
        rw [sizeof_tape.2]
        omega
      rw [hn, bookEvent.getAll_take events (Nat.min_le_right ..) hwhole, ← List.take_eq_take_min]

/-- What comes after the events is not read. -/
theorem Tape.open_append (hlen : events.length < 2 ^ 64) (rest : List UInt8) :
    Tape.open_ path (some (tapeFile symbolRaw locate events ++ rest)) =
      .ok ⟨headerFor symbolRaw locate events.length, events.map some⟩ := by
  have hne : tapeFile symbolRaw locate events ++ rest ≠ [] := by
    intro hnil
    have hzero := congrArg List.length hnil
    rw [List.length_append, tapeFile_length, List.length_nil] at hzero
    omega
  have hget : tapeHeader.get ((tapeFile symbolRaw locate events ++ rest).take 40) =
      some (headerFor symbolRaw locate events.length) := by
    rw [tapeFile, List.append_assoc, List.take_left' header_bytes, tapeHeader.get_put]
  have hdrop : (tapeFile symbolRaw locate events ++ rest).drop 40 =
      bookEvent.putAll events ++ rest := by
    rw [tapeFile, List.append_assoc, List.drop_left' header_bytes]
  have hcount : (headerFor symbolRaw locate events.length).eventCount.toNat = events.length :=
    UInt64.toNat_ofNat_of_lt' hlen
  have hn : min events.length ((40 + events.length * 40 + rest.length - 40) / 40) =
      events.length := by omega
  have hall := bookEvent.getAll_putAll events
  rw [Tape.open_header hne hget rfl rfl rfl, hdrop, hcount, List.length_append, tapeFile_length,
    hn]
  congr 2
  rw [← hall, Layout.getAll, Layout.getAll]
  apply List.map_congr_left
  intro i hi
  have hlt := List.mem_range.mp hi
  have hmul : (i + 1) * bookEvent.width ≤ events.length * bookEvent.width := Nat.mul_le_mul_right _ hlt
  rw [Nat.add_mul, Nat.one_mul] at hmul
  rw [Layout.getAt, Layout.getAt, window, window, List.drop_append_of_le_length, List.take_append_of_le_length]
  · rw [List.length_drop, bookEvent.putAll_length]
    omega
  · rw [bookEvent.putAll_length]
    omega

theorem Tape.open_written (hlen : events.length < 2 ^ 64) :
    Tape.open_ path (some (tapeFile symbolRaw locate events)) =
      .ok ⟨headerFor symbolRaw locate events.length, events.map some⟩ := by
  have hopen := @Tape.open_append path symbolRaw locate events hlen []
  rwa [List.append_nil] at hopen

/-- The events of an open tape are read one after another from the bytes behind its header. -/
theorem Tape.events_iff {data : List UInt8} {header : TapeHeader} {t : Tape}
    (hheader : t.header = header) :
    t = ⟨header, bookEvent.getAll (data.drop 40)
      (min header.eventCount.toNat ((data.length - 40) / 40))⟩ ↔
    t.size = min header.eventCount.toNat ((data.length - 40) / 40) ∧
      ∀ i < t.size, t.events[i]? = some (bookEvent.get (window data (40 + i * 40) 40)) := by
  have hat (i : ℕ) : bookEvent.getAt (data.drop 40) i =
      bookEvent.get (window data (40 + i * 40) 40) := by
    rw [Layout.getAt, sizeof_tape.2, window, window, List.drop_drop]
  generalize min header.eventCount.toNat ((data.length - 40) / 40) = n
  constructor
  · rintro rfl
    have hsize : Tape.size ⟨header, bookEvent.getAll (data.drop 40) n⟩ = n := by
      rw [Tape.size, Layout.getAll, List.length_map, List.length_range]
    refine ⟨hsize, fun i hi => ?_⟩
    show ((List.range n).map _)[i]? = _
    rw [List.getElem?_map, List.getElem?_range (hsize ▸ hi), Option.map_some, hat]
  · rintro ⟨hsize, hevents⟩
    have hall : t.events = bookEvent.getAll (data.drop 40) n := by
      apply List.ext_getElem?
      intro i
      rw [Layout.getAll, List.getElem?_map]
      by_cases hi : i < n
      · rw [hevents i (hsize ▸ hi), List.getElem?_range hi, Option.map_some, hat]
      · rw [List.getElem?_eq_none (by rw [Tape.size] at hsize; omega),
          List.getElem?_eq_none (by rw [List.length_range]; omega), Option.map_none]
    rw [← hall, ← hheader]

/-- A file opens exactly when its first forty bytes are a header of this version. -/
theorem Tape.open_iff {file : Option (List UInt8)} {t : Tape} :
    Tape.open_ path file = .ok t ↔ ∃ data, file = some data ∧
      tapeHeader.get (data.take 40) = some t.header ∧ t.header.magic = kTapeMagic ∧
      t.header.version = kTapeVersion ∧ t.header.eventSize = 40 ∧
      t.size = min t.header.eventCount.toNat ((data.length - 40) / 40) ∧
      ∀ i < t.size, t.events[i]? = some (bookEvent.get (window data (40 + i * 40) 40)) := by
  constructor
  · intro h
    have hmap : ∃ data, file = some data ∧ mappedFile path file = .ok data := by
      cases file with
      | none => cases h
      | some data =>
        cases data with
        | nil => cases h
        | cons x xs => exact ⟨_, rfl, rfl⟩
    obtain ⟨data, rfl, hdata⟩ := hmap
    refine ⟨data, rfl, ?_⟩
    simp only [Tape.open_, hdata, bind, Except.bind] at h
    cases hget : tapeHeader.get (data.take tapeHeader.width) with
    | none =>
      rw [hget] at h
      cases h
    | some header =>
      rw [hget] at h
      by_cases hmagic : header.magic = kTapeMagic
      · by_cases hversion : header.version = kTapeVersion
        · by_cases hsize : header.eventSize = UInt32.ofNat bookEvent.width
          · simp only [hmagic, hversion, hsize, ne_eq, not_true_eq_false, if_false] at h
            obtain rfl := Except.ok.inj h
            exact ⟨hget, hmagic, hversion, hsize, (Tape.events_iff rfl).mp rfl⟩
          · simp only [hmagic, hversion, hsize, ne_eq, not_true_eq_false, not_false_eq_true,
              if_true, if_false] at h
            cases h
        · simp only [hmagic, hversion, ne_eq, not_true_eq_false, not_false_eq_true, if_true,
            if_false] at h
          cases h
      · simp only [hmagic, ne_eq, not_false_eq_true, if_true] at h
        cases h
  · rintro ⟨data, rfl, hget, hmagic, hversion, hsize, hevents⟩
    have hwidth := tapeHeader.get_length hget
    have hne : data ≠ [] := by
      rintro rfl
      rw [List.take_nil, List.length_nil, sizeof_tape.1] at hwidth
      omega
    rw [Tape.open_header hne hget hmagic hversion hsize]
    exact congrArg _ ((Tape.events_iff rfl).mpr hevents).symm

/-- A tape that was written opens as it was written. Cut short it opens as the events it
has whole, or is refused; what follows it is not read. Of the files of any other making
those open whose first forty bytes, which spell some header, spell one of this version;
each event is read from its own forty bytes, as many as the header names and the file has. -/
theorem tape_opens_as_written (path : String) :
    (∀ (symbolRaw : UInt64) (locate : UInt16) (events : List BookEvent), events.length < 2 ^ 64 →
      (∀ k, Tape.open_ path (some ((tapeFile symbolRaw locate events).take k)) =
        if k = 0 then .error ("empty file: " ++ path)
        else if k < 40 then .error ("tape too small: " ++ path)
        else .ok ⟨headerFor symbolRaw locate events.length,
          (events.take ((k - 40) / 40)).map some⟩) ∧
      ∀ rest, Tape.open_ path (some (tapeFile symbolRaw locate events ++ rest)) =
        .ok ⟨headerFor symbolRaw locate events.length, events.map some⟩) ∧
    (∀ data : List UInt8, 40 ≤ data.length →
      ∃ header, tapeHeader.get (data.take 40) = some header) ∧
    ∀ file t, Tape.open_ path file = .ok t ↔ ∃ data, file = some data ∧
      tapeHeader.get (data.take 40) = some t.header ∧ t.header.magic = kTapeMagic ∧
      t.header.version = kTapeVersion ∧ t.header.eventSize = 40 ∧
      t.size = min t.header.eventCount.toNat ((data.length - 40) / 40) ∧
      ∀ i < t.size, t.events[i]? = some (bookEvent.get (window data (40 + i * 40) 40)) := by
  refine ⟨fun _ _ _ hlen => ⟨Tape.open_take hlen, Tape.open_append hlen⟩, ?_,
    fun _ _ => Tape.open_iff⟩
  intro data hlen
  apply tapeHeader_total
  rw [List.length_take, Nat.min_eq_left hlen]
  rfl

theorem tape_opens_as_written_one :
    Tape.open_ "s" (some ((tapeFile 7 3 [⟨1, 2, 0, 100, 5, .add, .sell⟩]).take 79)) =
      .ok ⟨headerFor 7 3 1, []⟩ :=
  ((tape_opens_as_written "s").1 7 3 [⟨1, 2, 0, 100, 5, .add, .sell⟩] (by decide)).1 79

/-! ### The window of the grid designs -/

/-- The prices orders arrive at. -/
def addPrices (events : List BookEvent) : List Price :=
  (events.filter fun e => (e.type = .add ∨ e.type = .replace) ∧ e.price ≠ 0).map BookEvent.price

/-- `loAt` and `hiAt` are the ranks of the two quantiles among `n` prices, a product of
doubles cast to an index. -/
def priceWindow (loAt hiAt : ℕ → ℕ) (events : List BookEvent) : Option (Price × Price) :=
  match (addPrices events).mergeSort (fun p q => p ≤ q) with
  | [] => some (0, 1)
  | px => do
    let lo ← px[loAt px.length]?
    let hi ← px[hiAt px.length]?
    return (lo, hi)

/-- The window runs upwards, between prices of the tape, and leaves out no more of them
than stand beyond the two ranks. -/
theorem priceWindow_covers {loAt hiAt : ℕ → ℕ}
    (hat : ∀ n, 0 < n → loAt n ≤ hiAt n ∧ hiAt n < n) (events : List BookEvent) :
    ∃ lo hi, priceWindow loAt hiAt events = some (lo, hi) ∧ lo ≤ hi ∧
      (addPrices events ≠ [] → lo ∈ addPrices events ∧ hi ∈ addPrices events ∧
        (addPrices events).countP (· < lo) ≤ loAt (addPrices events).length ∧
        (addPrices events).countP (hi < ·) + hiAt (addPrices events).length <
          (addPrices events).length) := by
  have hperm := List.mergeSort_perm (addPrices events) fun p q => p ≤ q
  have hsorted : (((addPrices events).mergeSort fun p q => p ≤ q).map UInt32.toNat).Pairwise
      (· ≤ ·) := by
    have h : ((addPrices events).mergeSort fun p q => decide (p ≤ q)).Pairwise fun p q =>
        decide (p ≤ q) = true := by
      apply List.pairwise_mergeSort
      · exact fun a b c hab hbc => decide_eq_true
          (UInt32.le_trans (of_decide_eq_true hab) (of_decide_eq_true hbc))
      · exact fun a b => by simpa using UInt32.le_total a b
    rw [List.pairwise_map]
    exact h.imp fun hab => UInt32.le_iff_toNat_le.mp (of_decide_eq_true hab)
  cases hpx : (addPrices events).mergeSort fun p q => p ≤ q with
  | nil =>
    rw [hpx] at hperm
    have hnone := hperm.symm.eq_nil
    refine ⟨0, 1, ?_, by decide, fun hne => absurd hnone hne⟩
    simp only [priceWindow, hpx]
  | cons x px =>
    rw [hpx] at hperm hsorted
    have hlen := hperm.length_eq
    obtain ⟨hle, hlt⟩ := hat (x :: px).length (Nat.succ_pos _)
    have hlo := List.getElem?_eq_getElem (hle.trans_lt hlt)
    have hhi := List.getElem?_eq_getElem hlt
    have hlo' : ((x :: px).map UInt32.toNat)[loAt (x :: px).length]? =
        some ((x :: px)[loAt (x :: px).length]).toNat := by
      rw [List.getElem?_map, hlo, Option.map_some]
    have hhi' : ((x :: px).map UInt32.toNat)[hiAt (x :: px).length]? =
        some ((x :: px)[hiAt (x :: px).length]).toNat := by
      rw [List.getElem?_map, hhi, Option.map_some]
    refine ⟨(x :: px)[loAt (x :: px).length], (x :: px)[hiAt (x :: px).length], ?_, ?_, fun _ => ?_⟩
    · simp only [priceWindow, hpx, hlo, hhi, Option.bind_eq_bind, Option.bind_some]
      rfl
    · rw [UInt32.le_iff_toNat_le]
      have hge := hsorted.rel_get_of_le (a := ⟨loAt (x :: px).length, by simpa using hle.trans_lt hlt⟩)
        (b := ⟨hiAt (x :: px).length, by simpa using hlt⟩) hle
      simpa only [List.get_eq_getElem, List.getElem_map] using hge
    · obtain ⟨hbelow, -⟩ := (rank_eq_iff hsorted hlo').mp rfl
      obtain ⟨-, habove⟩ := (rank_eq_iff hsorted hhi').mp rfl
      rw [List.countP_map] at hbelow habove
      rw [List.length_map, Nat.add_comm] at habove
      rw [← hlen]
      refine ⟨hperm.subset (List.getElem_mem _), hperm.subset (List.getElem_mem _), ?_, ?_⟩
      · rw [← hperm.countP_eq]
        simpa only [Function.comp_def, ← UInt32.lt_iff_toNat_lt] using hbelow
      · rw [← hperm.countP_eq]
        simpa only [Function.comp_def, ← UInt32.lt_iff_toNat_lt] using habove

end Hotpath.Book
