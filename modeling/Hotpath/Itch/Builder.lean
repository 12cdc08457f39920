import Hotpath.Itch.StreamEnd
import Hotpath.Itch.Decode

/-!
# Building a stream (tests/fixture.hpp, Symbol::from_text)

The writer of synthetic streams, and that the reader and its views give back
what was written. A text is the list of its bytes.
-/

namespace Hotpath.Itch
open Hotpath.Support Reader

abbrev MatchId := UInt64

/-- Eight bytes, padded with spaces or cut. -/
def Symbol.fromText (t : List UInt8) : Symbol :=
  ⟨UInt64.ofNat (bigEndian (t.take 8 ++ List.replicate (8 - t.length) (ch ' ')).reverse)⟩

/-! ### Field writers -/

def put8 (x : UInt8) : List UInt8 := [x]
def put16 (x : UInt16) : List UInt8 := [(x >>> 8).toUInt8, x.toUInt8]
def put32 (x : UInt32) : List UInt8 := [3, 2, 1, 0].map fun i => (x >>> UInt32.ofNat (8 * i)).toUInt8
def put48 (x : UInt64) : List UInt8 :=
  [5, 4, 3, 2, 1, 0].map fun i => (x >>> UInt64.ofNat (8 * i)).toUInt8
def put64 (x : UInt64) : List UInt8 :=
  [7, 6, 5, 4, 3, 2, 1, 0].map fun i => (x >>> UInt64.ofNat (8 * i)).toUInt8
def putSym (s : List UInt8) : List UInt8 := (List.range 8).map fun i => s[i]?.getD (ch ' ')

/-- The header's tracking number is zero. -/
def header (type : UInt8) (locate : StockLocate) (ts : Ts) : List UInt8 :=
  put8 type ++ put16 locate ++ put16 0 ++ put48 ts

/-! ### Messages -/

/-- The calls of a builder, one for each of its message constructors. -/
inductive Sent where
  | addOrder (ref : OrderId) (side : Side) (shares : Qty) (sym : List UInt8) (px : Price)
      (locate : StockLocate) (ts : Ts)
  | orderExecuted (ref : OrderId) (shares : Qty) (matchNo : MatchId) (locate : StockLocate)
      (ts : Ts)
  | orderCancel (ref : OrderId) (shares : Qty) (locate : StockLocate) (ts : Ts)
  | orderDelete (ref : OrderId) (locate : StockLocate) (ts : Ts)
  | orderReplace (orig new : OrderId) (shares : Qty) (px : Price) (locate : StockLocate) (ts : Ts)
  | systemEvent (code : UInt8) (ts : Ts)

namespace Sent

def body : Sent → List UInt8
  | addOrder ref side shares sym px locate ts =>
    header (ch 'A') locate ts ++ put64 ref ++ put8 (if side = .buy then ch 'B' else ch 'S') ++
      put32 shares ++ putSym sym ++ put32 px
  | orderExecuted ref shares matchNo locate ts =>
    header (ch 'E') locate ts ++ put64 ref ++ put32 shares ++ put64 matchNo
  | orderCancel ref shares locate ts =>
    header (ch 'X') locate ts ++ put64 ref ++ put32 shares
  | orderDelete ref locate ts => header (ch 'D') locate ts ++ put64 ref
  | orderReplace orig new shares px locate ts =>
    header (ch 'U') locate ts ++ put64 orig ++ put64 new ++ put32 shares ++ put32 px
  | systemEvent code ts => header (ch 'S') 0 ts ++ put8 code

def ts : Sent → Ts
  | addOrder _ _ _ _ _ _ ts => ts
  | orderExecuted _ _ _ _ ts => ts
  | orderCancel _ _ _ ts => ts
  | orderDelete _ _ ts => ts
  | orderReplace _ _ _ _ _ ts => ts
  | systemEvent _ ts => ts

def locate : Sent → StockLocate
  | addOrder _ _ _ _ _ locate _ => locate
  | orderExecuted _ _ _ locate _ => locate
  | orderCancel _ _ locate _ => locate
  | orderDelete _ locate _ => locate
  | orderReplace _ _ _ _ locate _ => locate
  | systemEvent _ _ => 0

def type : Sent → UInt8
  | addOrder .. => ch 'A'
  | orderExecuted .. => ch 'E'
  | orderCancel .. => ch 'X'
  | orderDelete .. => ch 'D'
  | orderReplace .. => ch 'U'
  | systemEvent .. => ch 'S'

/-- The view of the message's type reads its own fields in `p`. -/
def Fields (p : List UInt8) : Sent → Prop
  | addOrder ref side shares sym px _ _ =>
    AddOrderView.orderRef p = some ref ∧ AddOrderView.side p = some side ∧
      AddOrderView.shares p = some shares ∧ AddOrderView.stock p = some (Symbol.fromText sym) ∧
      AddOrderView.price p = some px
  | orderExecuted ref shares matchNo _ _ =>
    OrderExecutedView.orderRef p = some ref ∧ OrderExecutedView.executedShares p = some shares ∧
      OrderExecutedView.matchNumber p = some matchNo
  | orderCancel ref shares _ _ =>
    OrderCancelView.orderRef p = some ref ∧ OrderCancelView.cancelledShares p = some shares
  | orderDelete ref _ _ => OrderDeleteView.orderRef p = some ref
  | orderReplace orig new shares px _ _ =>
    OrderReplaceView.originalRef p = some orig ∧ OrderReplaceView.newRef p = some new ∧
      OrderReplaceView.shares p = some shares ∧ OrderReplaceView.price p = some px
  | systemEvent code _ => SystemEventView.eventCode p = some code

/-- Every field that was written is read back. -/
structure ReadsBack (m : Sent) (p : List UInt8) : Prop where
  type : Header.type p = some m.type
  locate : Header.locate p = some m.locate
  tracking : Header.tracking p = some 0
  timestamp : Header.timestamp p = some m.ts
  fields : m.Fields p

end Sent

/-- `add`: the length, cut to sixteen bits, and the body. -/
def addBody (buf body : List UInt8) : List UInt8 :=
  buf ++ [(UInt16.ofNat body.length >>> 8).toUInt8, (UInt16.ofNat body.length &&& 0xff).toUInt8] ++
    body

/-- The bytes of a builder after the calls `ms`. -/
def build (ms : List Sent) : List UInt8 := ms.foldl (fun buf m => addBody buf m.body) []

/-! ### Fields read where they were written -/

section Put
variable {p : List UInt8} {off : ℕ}

theorem byte64 (x : UInt64) {k : ℕ} (hk : k < 8) :
    (x >>> UInt64.ofNat (8 * k)).toUInt8 = UInt8.ofNat (x.toNat / 256 ^ k) := by
  have hshift : (8 * k) % 2 ^ 64 % 64 = 8 * k := by omega
  have hpow : 2 ^ (8 * k) = 256 ^ k := pow_mul 2 8 k
  apply UInt8.toNat_inj.mp
  rw [UInt64.toNat_toUInt8, UInt64.toNat_shiftRight, UInt64.toNat_ofNat', hshift,
    Nat.shiftRight_eq_div_pow, hpow, UInt8.toNat_ofNat']

theorem byte32 (x : UInt32) {k : ℕ} (hk : k < 4) :
    (x >>> UInt32.ofNat (8 * k)).toUInt8 = UInt8.ofNat (x.toNat / 256 ^ k) := by
  have hshift : (8 * k) % 2 ^ 32 % 32 = 8 * k := by omega
  have hpow : 2 ^ (8 * k) = 256 ^ k := pow_mul 2 8 k
  apply UInt8.toNat_inj.mp
  rw [UInt32.toNat_toUInt8, UInt32.toNat_shiftRight, UInt32.toNat_ofNat', hshift,
    Nat.shiftRight_eq_div_pow, hpow, UInt8.toNat_ofNat']

theorem put64_eq (x : UInt64) : put64 x = toBytes 8 x.toNat := by
  apply List.map_congr_left
  intro k hk
  exact byte64 x (List.mem_range.mp (List.mem_reverse.mp hk))

theorem put48_eq (x : UInt64) : put48 x = toBytes 6 x.toNat := by
  apply List.map_congr_left
  intro k hk
  have hk6 : k < 6 := List.mem_range.mp (List.mem_reverse.mp hk)
  exact byte64 x (lt_trans hk6 (by decide))

theorem put32_eq (x : UInt32) : put32 x = toBytes 4 x.toNat := by
  apply List.map_congr_left
  intro k hk
  exact byte32 x (List.mem_range.mp (List.mem_reverse.mp hk))

theorem put16_eq (x : UInt16) : put16 x = toBytes 2 x.toNat := by
  have hhi : (x >>> 8).toUInt8 = UInt8.ofNat (x.toNat / 256 ^ 1) := by
    apply UInt8.toNat_inj.mp
    rw [UInt16.toNat_toUInt8, UInt16.toNat_shiftRight, UInt8.toNat_ofNat']
    exact congrArg (· % 2 ^ 8) (Nat.shiftRight_eq_div_pow x.toNat 8)
  have hlo : x.toUInt8 = UInt8.ofNat (x.toNat / 256 ^ 0) := by
    apply UInt8.toNat_inj.mp
    rw [UInt16.toNat_toUInt8, UInt8.toNat_ofNat', pow_zero, Nat.div_one]
  rw [put16, hhi, hlo]
  rfl

theorem rdU64_put (hle : off + 8 ≤ p.length) {x : UInt64} (hw : window p off 8 = put64 x) :
    rdU64 p off = some x := by
  rw [rdU64_of_le hle, hw, put64_eq, bigEndian_toBytes]
  have hmod : x.toNat % 256 ^ 8 = x.toNat := Nat.mod_eq_of_lt (UInt64.toNat_lt x)
  rw [hmod, UInt64.ofNat_toNat]

theorem rdU48_put (hle : off + 6 ≤ p.length) {x : UInt64} (hx : x.toNat < 2 ^ 48)
    (hw : window p off 6 = put48 x) : rdU48 p off = some x := by
  rw [rdU48_of_le hle, hw, put48_eq, bigEndian_toBytes]
  have hmod : x.toNat % 256 ^ 6 = x.toNat := Nat.mod_eq_of_lt hx
  rw [hmod, UInt64.ofNat_toNat]

theorem rdU32_put (hle : off + 4 ≤ p.length) {x : UInt32} (hw : window p off 4 = put32 x) :
    rdU32 p off = some x := by
  rw [rdU32_of_le hle, hw, put32_eq, bigEndian_toBytes]
  have hmod : x.toNat % 256 ^ 4 = x.toNat := Nat.mod_eq_of_lt (UInt32.toNat_lt x)
  rw [hmod, UInt32.ofNat_toNat]

theorem rdU16_put (hle : off + 2 ≤ p.length) {x : UInt16} (hw : window p off 2 = put16 x) :
    rdU16 p off = some x := by
  rw [rdU16_of_le hle, hw, put16_eq, bigEndian_toBytes]
  have hmod : x.toNat % 256 ^ 2 = x.toNat := Nat.mod_eq_of_lt (UInt16.toNat_lt x)
  rw [hmod, UInt16.ofNat_toNat]

theorem putSym_eq (s : List UInt8) :
    putSym s = s.take 8 ++ List.replicate (8 - s.length) (ch ' ') := by
  apply List.ext_getElem
  · rw [putSym, List.length_map, List.length_range, List.length_append, List.length_take,
      List.length_replicate]
    omega
  · intro i h1 h2
    have hi : i < 8 := by simpa [putSym] using h1
    simp only [putSym, List.getElem_map, List.getElem_range]
    rw [List.getElem_append]
    split
    · rename_i h
      rw [List.length_take] at h
      rw [List.getElem_take, List.getElem?_eq_getElem (by omega), Option.getD_some]
    · rename_i h
      rw [List.length_take] at h
      rw [List.getElem_replicate, List.getElem?_eq_none (by omega), Option.getD_none]

theorem fromBytes_put (hle : off + 8 ≤ p.length) {s : List UInt8}
    (hw : window p off 8 = putSym s) : Symbol.fromBytes p off = some (Symbol.fromText s) := by
  rw [Symbol.fromBytes, bytesAt_of_le hle, hw, putSym_eq]
  rfl

end Put

/-! ### One message -/

namespace Sent

theorem readsBack_header {m : Sent} {p rest : List UInt8} (hts : m.ts.toNat < 2 ^ 48)
    (hp : p = header m.type m.locate m.ts ++ rest) : Header.type p = some m.type ∧
      Header.locate p = some m.locate ∧ Header.tracking p = some 0 ∧
      Header.timestamp p = some m.ts := by
  subst hp
  have hlen : (header m.type m.locate m.ts ++ rest).length = 11 + rest.length := by
    rw [List.length_append]
    rfl
  refine ⟨rfl, rdU16_put (by omega) rfl, rdU16_put (by omega) rfl, rdU48_put (by omega) hts rfl⟩

/-- A message's body holds each of its fields where the views read it. -/
theorem readsBack (m : Sent) (hts : m.ts.toNat < 2 ^ 48) : m.ReadsBack m.body := by
  cases m with
  | addOrder ref side shares sym px locate ts =>
    obtain ⟨h1, h2, h3, h4⟩ := readsBack_header
      (p := (addOrder ref side shares sym px locate ts).body) hts
      (by simp only [body, List.append_assoc]; rfl)
    have hlen : (addOrder ref side shares sym px locate ts).body.length = 36 := rfl
    have hside : AddOrderView.side (addOrder ref side shares sym px locate ts).body = some side := by
      show some (sideOf (if side = .buy then ch 'B' else ch 'S')) = some side
      cases side <;> rfl
    exact ⟨h1, h2, h3, h4, rdU64_put (by omega) rfl, hside, rdU32_put (by omega) rfl,
      fromBytes_put (by omega) rfl, rdU32_put (by omega) rfl⟩
  | orderExecuted ref shares matchNo locate ts =>
    obtain ⟨h1, h2, h3, h4⟩ := readsBack_header
      (p := (orderExecuted ref shares matchNo locate ts).body) hts
      (by simp only [body, List.append_assoc]; rfl)
    have hlen : (orderExecuted ref shares matchNo locate ts).body.length = 31 := rfl
    exact ⟨h1, h2, h3, h4, rdU64_put (by omega) rfl, rdU32_put (by omega) rfl,
      rdU64_put (by omega) rfl⟩
  | orderCancel ref shares locate ts =>
    obtain ⟨h1, h2, h3, h4⟩ := readsBack_header (p := (orderCancel ref shares locate ts).body) hts
      (by simp only [body, List.append_assoc]; rfl)
    have hlen : (orderCancel ref shares locate ts).body.length = 23 := rfl
    exact ⟨h1, h2, h3, h4, rdU64_put (by omega) rfl, rdU32_put (by omega) rfl⟩
  | orderDelete ref locate ts =>
    obtain ⟨h1, h2, h3, h4⟩ := readsBack_header (p := (orderDelete ref locate ts).body) hts rfl
    have hlen : (orderDelete ref locate ts).body.length = 19 := rfl
    exact ⟨h1, h2, h3, h4, rdU64_put (by omega) rfl⟩
  | orderReplace orig new shares px locate ts =>
    obtain ⟨h1, h2, h3, h4⟩ := readsBack_header
      (p := (orderReplace orig new shares px locate ts).body) hts
      (by simp only [body, List.append_assoc]; rfl)
    have hlen : (orderReplace orig new shares px locate ts).body.length = 35 := rfl
    exact ⟨h1, h2, h3, h4, rdU64_put (by omega) rfl, rdU64_put (by omega) rfl,
      rdU32_put (by omega) rfl, rdU32_put (by omega) rfl⟩
  | systemEvent code ts =>
    obtain ⟨h1, h2, h3, h4⟩ := readsBack_header (p := (systemEvent code ts).body) hts rfl
    exact ⟨h1, h2, h3, h4, rfl⟩

/-- A body has exactly the spec length of its type. -/
theorem body_length (m : Sent) : m.body.length = (specLength m.type).toNat := by
  cases m with
  | addOrder => exact (by decide : 36 = (specLength (ch 'A')).toNat)
  | orderExecuted => exact (by decide : 31 = (specLength (ch 'E')).toNat)
  | orderCancel => exact (by decide : 23 = (specLength (ch 'X')).toNat)
  | orderDelete => exact (by decide : 19 = (specLength (ch 'D')).toNat)
  | orderReplace => exact (by decide : 35 = (specLength (ch 'U')).toNat)
  | systemEvent => exact (by decide : 12 = (specLength (ch 'S')).toNat)

theorem body_bounds (m : Sent) : 12 ≤ m.body.length ∧ m.body.length < 256 := by
  cases m with
  | addOrder => exact (by decide : 12 ≤ 36 ∧ 36 < 256)
  | orderExecuted => exact (by decide : 12 ≤ 31 ∧ 31 < 256)
  | orderCancel => exact (by decide : 12 ≤ 23 ∧ 23 < 256)
  | orderDelete => exact (by decide : 12 ≤ 19 ∧ 19 < 256)
  | orderReplace => exact (by decide : 12 ≤ 35 ∧ 35 < 256)
  | systemEvent => exact (by decide : 12 ≤ 12 ∧ 12 < 256)

theorem typeOf_body (m : Sent) : typeOf m.body = m.type := by
  cases m <;> rfl

/-- The reader hands it out, and counts nothing against it. -/
theorem body_regular (m : Sent) :
    kept m.body = true ∧ unknown m.body = false ∧ mismatched m.body = false := by
  have hlen := m.body_length
  have hle := m.body_bounds.1
  have hpos : specLength m.type ≠ 0 := by
    intro h
    rw [h] at hlen
    have hzero : m.body.length = 0 := hlen
    omega
  have hhead : kHeaderLength.toNat = 11 := rfl
  simp only [kept, unknown, mismatched, typeOf_body, decide_eq_true_eq, decide_eq_false_iff_not,
    hhead, ← hlen]
  refine ⟨⟨by omega, le_rfl⟩, fun h => hpos h.2, fun h => h.2.2 rfl⟩

end Sent

/-! ### The stream -/

theorem addBody_eq (buf : List UInt8) (m : Sent) :
    addBody buf m.body = buf ++ (0 :: UInt8.ofNat m.body.length :: m.body) := by
  have hlt := m.body_bounds.2
  have hmod : m.body.length % 2 ^ 16 = m.body.length := Nat.mod_eq_of_lt (by omega)
  have hhi : (UInt16.ofNat m.body.length >>> 8).toUInt8 = 0 := by
    apply UInt8.toNat_inj.mp
    rw [UInt16.toNat_toUInt8, UInt16.toNat_shiftRight, UInt16.toNat_ofNat', hmod]
    show m.body.length >>> 8 % 2 ^ 8 = 0
    rw [Nat.shiftRight_eq_div_pow]
    omega
  have hlo : (UInt16.ofNat m.body.length &&& 0xff).toUInt8 = UInt8.ofNat m.body.length := by
    apply UInt8.toNat_inj.mp
    rw [UInt16.toNat_toUInt8, UInt16.toNat_and, UInt16.toNat_ofNat', hmod, UInt8.toNat_ofNat']
    show (m.body.length &&& 2 ^ 8 - 1) % 2 ^ 8 = _
    rw [Nat.and_two_pow_sub_one_eq_mod, Nat.mod_mod]
  rw [addBody, hhi, hlo, List.append_assoc]
  rfl

theorem build_eq (ms : List Sent) :
    build ms = ms.flatMap fun m => 0 :: UInt8.ofNat m.body.length :: m.body := by
  have hgen : ∀ buf, ms.foldl (fun buf m => addBody buf m.body) buf =
      buf ++ ms.flatMap fun m => 0 :: UInt8.ofNat m.body.length :: m.body := by
    induction ms with
    | nil => exact fun buf => (List.append_nil buf).symm
    | cons m ms ih =>
      intro buf
      rw [List.foldl_cons, ih, addBody_eq, List.append_assoc, List.flatMap_cons]
  exact hgen []

theorem frames_build (ms : List Sent) : frames (build ms) = ms.map Sent.body := by
  rw [build_eq]
  induction ms with
  | nil => exact frames_none rfl
  | cons m ms ih =>
    have hb := m.body_bounds
    have hn : bigEndian [0, UInt8.ofNat m.body.length] = m.body.length := by
      rw [bigEndian_two, UInt8.toNat_ofNat', Nat.mod_eq_of_lt hb.2]
      exact Nat.zero_add _
    have hne : m.body ≠ [] := by
      intro h
      rw [h] at hb
      exact absurd hb.1 (by decide)
    rw [List.flatMap_cons, List.cons_append, List.cons_append, List.map_cons,
      frames_some (frame_append hn hne), ih]

theorem span_build (ms : List Sent) : spanOf (frames (build ms)) = (build ms).length := by
  rw [frames_build, build_eq, spanOf, List.length_flatMap, List.map_map]
  congr 1
  apply List.map_congr_left
  intro m _
  show 2 + m.body.length = m.body.length + 1 + 1
  omega

theorem countP_build (ms : List Sent) {q : List UInt8 → Bool} (h : ∀ m : Sent, q m.body = false) :
    (frames (build ms)).countP q = 0 := by
  rw [frames_build, List.countP_eq_zero]
  intro body hbody
  obtain ⟨m, -, rfl⟩ := List.mem_map.mp hbody
  rw [h m]
  exact Bool.false_ne_true

theorem kept_build (ms : List Sent) : (frames (build ms)).filter kept = ms.map Sent.body := by
  rw [frames_build, List.filter_eq_self]
  intro body hbody
  obtain ⟨m, -, rfl⟩ := List.mem_map.mp hbody
  exact m.body_regular.1

/-- Whatever is built is read back, message by message and field by field, and
nothing is counted against it. -/
theorem builds_read_back (ms : List Sent) (hts : ∀ m ∈ ms, m.ts.toNat < 2 ^ 48) :
    ∃ raws r, readAll (build ms) = some (raws, r) ∧ raws.length = ms.length ∧
      (∀ (i : ℕ) raw m, raws[i]? = some raw → ms[i]? = some m → ∃ p,
        bytesAt (build ms) raw.body raw.length.toNat = some p ∧ p = m.body ∧ m.ReadsBack p) ∧
      r.stats.messages = ms.length ∧ r.stats.bytes = (build ms).length ∧
      r.stats.unknownType = 0 ∧ r.stats.lengthMismatch = 0 ∧ r.stats.shortMessage = 0 ∧
      r.stats.truncated = 0 ∧ r.stats.zeroLength = 0 := by
  have hbodies := messagesAt_frames (build ms)
  rw [kept_build] at hbodies
  obtain ⟨h1, h2, h3, h4, h5, h6, h7⟩ := pastAll_stats (frames (build ms)) { data := build ms }
  have hend : ended (build ms) = ({ data := build ms } : Reader).pastAll (frames (build ms)) := by
    rw [ended, leftover, span_build, List.drop_length]
    rfl
  refine ⟨_, _, readAll_ended (build ms), ?_, fun i raw m hraw hm => ?_, ?_⟩
  · have hlen := congrArg List.length hbodies
    rwa [List.length_map, List.length_map, List.length_map] at hlen
  · have hi := congrArg (·[i]?) hbodies
    simp only [List.getElem?_map, hraw, hm, Option.map_some, Option.some.injEq] at hi
    exact ⟨m.body, hi, rfl, m.readsBack (hts m (List.mem_of_getElem? hm))⟩
  · rw [hend, h1, h2, h3, h4, h5, h6, h7, span_build,
      countP_build ms fun m => m.body_regular.2.1, countP_build ms fun m => m.body_regular.2.2,
      countP_build ms fun m => by rw [m.body_regular.1]; rfl, frames_build, List.length_map]
    exact ⟨Nat.zero_add _, Nat.zero_add _, rfl, rfl, rfl, rfl, rfl⟩

/-- An order from its add to its delete under another reference. -/
def life : List Sent :=
  [.systemEvent (ch 'O') 3, .addOrder 7 .buy 10 [ch 'A', ch 'B'] 100 1 (2 ^ 47),
    .orderExecuted 7 4 9 1 (2 ^ 47 + 1), .orderReplace 7 8 5 200 1 (2 ^ 47 + 2),
    .orderCancel 8 1 1 (2 ^ 47 + 3), .orderDelete 8 1 (2 ^ 48 - 1)]

theorem builds_read_back_life : ∃ raws r, readAll (build life) = some (raws, r) ∧
    raws.length = 6 ∧
      (∀ (i : ℕ) raw m, raws[i]? = some raw → life[i]? = some m → ∃ p,
        bytesAt (build life) raw.body raw.length.toNat = some p ∧ p = m.body ∧ m.ReadsBack p) ∧
      r.stats.messages = 6 ∧ r.stats.bytes = 168 ∧
      r.stats.unknownType = 0 ∧ r.stats.lengthMismatch = 0 ∧ r.stats.shortMessage = 0 ∧
      r.stats.truncated = 0 ∧ r.stats.zeroLength = 0 :=
  builds_read_back life (by decide)

end Hotpath.Itch
