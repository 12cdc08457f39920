import Hotpath.Itch.Pending

/-!
# The parser's fuzz target (tests/fuzz_core.hpp)

The target parses arbitrary bytes as a stream and touches every accessor of what it is
handed. It throws if there are more messages or bytes than the input can hold; `none` is a
read outside the input, or a loop that does not end.
-/

namespace Hotpath.Itch.Fuzz
open Reader Hotpath.Support

/- How the platform widens a character: its sign differs between them. -/
variable (wide : UInt8 → UInt64)

def sideValue : Side → UInt64
  | .buy => 0
  | .sell => 1

def touchHeader (p : List UInt8) : Option UInt64 := do
  let locate ← Header.locate p
  let tracking ← Header.tracking p
  let ts ← Header.timestamp p
  return locate.toUInt64 + tracking.toUInt64 + ts

def touchAdd (t : UInt8) (p : List UInt8) : Option UInt64 := do
  let v := (← AddOrderView.orderRef p) + (← AddOrderView.shares p).toUInt64 +
    (← AddOrderView.price p).toUInt64 + (← AddOrderView.stock p).raw +
    sideValue (← AddOrderView.side p)
  if t = ch 'F' then return v + (← AddOrderView.attribution p).toUInt64 else return v

def touchExecuted (t : UInt8) (p : List UInt8) : Option UInt64 := do
  let v := (← OrderExecutedView.orderRef p) + (← OrderExecutedView.executedShares p).toUInt64 +
    (← OrderExecutedView.matchNumber p)
  if t = ch 'C' then
    let px ← OrderExecutedView.executionPrice p
    let printable ← OrderExecutedView.printable p
    -- the inner sum is of two `uint32` and wraps
    return v + (px + if printable then 1 else 0).toUInt64
  else return v

def touchReplace (p : List UInt8) : Option UInt64 := do
  return (← OrderReplaceView.originalRef p) + (← OrderReplaceView.newRef p) +
    (← OrderReplaceView.shares p).toUInt64 + (← OrderReplaceView.price p).toUInt64

def touchTrade (p : List UInt8) : Option UInt64 := do
  return (← TradeView.orderRef p) + (← TradeView.shares p).toUInt64 +
    (← TradeView.price p).toUInt64 + (← TradeView.stock p).raw + (← TradeView.matchNumber p)

def touchCross (p : List UInt8) : Option UInt64 := do
  return (← CrossTradeView.shares p) + (← CrossTradeView.stock p).raw +
    (← CrossTradeView.crossPrice p).toUInt64 + (← CrossTradeView.matchNumber p) +
    wide (← CrossTradeView.crossType p)

/-- The cases of the switch. -/
def touchFields (t : UInt8) (p : List UInt8) : Option UInt64 :=
  if t = ch 'A' ∨ t = ch 'F' then touchAdd t p
  else if t = ch 'E' ∨ t = ch 'C' then touchExecuted t p
  else if t = ch 'X' then do
    return (← OrderCancelView.orderRef p) + (← OrderCancelView.cancelledShares p).toUInt64
  else if t = ch 'D' then OrderDeleteView.orderRef p
  else if t = ch 'U' then touchReplace p
  else if t = ch 'P' then touchTrade p
  else if t = ch 'Q' then touchCross wide p
  else if t = ch 'R' then do
    return (← StockDirectoryView.stock p).raw + (← StockDirectoryView.roundLotSize p).toUInt64 +
      wide (← StockDirectoryView.marketCategory p)
  else if t = ch 'H' then do
    return (← StockTradingActionView.stock p).raw + wide (← StockTradingActionView.tradingState p)
  else if t = ch 'S' then (SystemEventView.eventCode p).map wide
  else some 0

/-- What one message adds to the sink. -/
def touch (p : List UInt8) : Option UInt64 := do
  let header ← touchHeader p
  let t ← Header.type p
  let fields ← touchFields wide t p
  return UInt64.ofNat p.length + header + fields

def touchAt (data : List UInt8) (m : RawMessage) : Option UInt64 :=
  (bytesAt data m.body m.length.toNat).bind (touch wide)

/-- `guard` is the messages so far; the error is what the target throws. -/
def parseLoop (data : List UInt8) :
    ℕ → Reader → ℕ → UInt64 → Option (Except String (UInt64 × Reader))
  | 0, _, _, _ => none
  | fuel + 1, r, guard, sink => do
    match ← r.next with
    | (none, r) => return .ok (sink, r)
    | (some m, r) =>
      if data.length / 2 + 16 < guard + 1 then
        return .error "Reader produced more messages than the input can hold"
      else
        let v ← touchAt wide data m
        parseLoop data fuel r (guard + 1) (sink + v)

def fuzzItchParse (data : List UInt8) : Option (Except String UInt64) := do
  match ← parseLoop wide data (data.length + 1) { data := data } 0 0 with
  | .error e => return .error e
  | .ok (sink, r) =>
    if data.length < r.stats.bytes then return .error "Reader consumed more than the input"
    else return .ok sink

theorem touchAdd_isSome {t : UInt8} {p : List UInt8} (h : viewReads t p)
    (ht : t = ch 'A' ∨ t = ch 'F') : (touchAdd t p).isSome := by
  obtain ⟨hadd, hattr, -⟩ := h
  simp only [Option.isSome_iff_exists] at hadd hattr
  obtain ⟨⟨r, hr⟩, ⟨sd, hsd⟩, ⟨q, hq⟩, ⟨y, hy⟩, px, hpx⟩ := hadd ht
  by_cases hF : t = ch 'F'
  · obtain ⟨a, ha⟩ := hattr hF
    simp [touchAdd, hr, hsd, hq, hy, hpx, hF, ha]
  · simp [touchAdd, hr, hsd, hq, hy, hpx, hF]

theorem touchExecuted_isSome {t : UInt8} {p : List UInt8} (h : viewReads t p)
    (ht : t = ch 'E' ∨ t = ch 'C') : (touchExecuted t p).isSome := by
  obtain ⟨-, -, hexec, hprice, -⟩ := h
  simp only [Option.isSome_iff_exists] at hexec hprice
  obtain ⟨⟨r, hr⟩, ⟨q, hq⟩, m, hm⟩ := hexec ht
  by_cases hC : t = ch 'C'
  · obtain ⟨⟨b, hb⟩, px, hpx⟩ := hprice hC
    simp [touchExecuted, hr, hq, hm, hC, hb, hpx]
  · simp [touchExecuted, hr, hq, hm, hC]

/-- Every accessor that the switch uses lies inside the body. -/
theorem touchFields_isSome {t : UInt8} {p : List UInt8} (h : viewReads t p) :
    (touchFields wide t p).isSome := by
  have hviews := h
  obtain ⟨-, -, -, -, hcancel, hdel, hrep, htrade, hcross, hdir, hact, hevent⟩ := hviews
  simp only [Option.isSome_iff_exists] at hcancel hrep htrade hcross hdir hact hevent
  unfold touchFields
  split_ifs with hA hE hX hD hU hP hQ hR hH hS
  · exact touchAdd_isSome h hA
  · exact touchExecuted_isSome h hE
  · obtain ⟨⟨r, hr⟩, q, hq⟩ := hcancel hX
    simp [hr, hq]
  · exact hdel hD
  · obtain ⟨⟨o, ho⟩, ⟨n, hn⟩, ⟨q, hq⟩, px, hpx⟩ := hrep hU
    simp [touchReplace, ho, hn, hq, hpx]
  · obtain ⟨⟨r, hr⟩, -, ⟨q, hq⟩, ⟨y, hy⟩, ⟨px, hpx⟩, m, hm⟩ := htrade hP
    simp [touchTrade, hr, hq, hy, hpx, hm]
  · obtain ⟨⟨q, hq⟩, ⟨y, hy⟩, ⟨px, hpx⟩, ⟨m, hm⟩, c, hc⟩ := hcross hQ
    simp [touchCross, hq, hy, hpx, hm, hc]
  · obtain ⟨⟨y, hy⟩, ⟨c, hc⟩, n, hn⟩ := hdir hR
    simp [hy, hc, hn]
  · obtain ⟨⟨y, hy⟩, c, hc⟩ := hact hH
    simp [hy, hc]
  · obtain ⟨c, hc⟩ := hevent hS
    simp [hc]
  · rfl

/-- Every accessor the target touches lies inside a body that is handed out. -/
theorem touch_isSome {p : List UInt8} (h : kept p = true) : ∃ v, touch wide p = some v := by
  obtain ⟨⟨-, hlocate, htracking, hts⟩, t, ht, hviews⟩ := kept_reads h
  obtain ⟨locate, hlocate⟩ := Option.isSome_iff_exists.mp hlocate
  obtain ⟨tracking, htracking⟩ := Option.isSome_iff_exists.mp htracking
  obtain ⟨ts, hts⟩ := Option.isSome_iff_exists.mp hts
  obtain ⟨v, hv⟩ := Option.isSome_iff_exists.mp (touchFields_isSome wide hviews)
  simp only [touch, touchHeader, hlocate, htracking, hts, ht, hv, Option.bind_eq_bind,
    Option.bind_some]
  exact ⟨_, rfl⟩

/-- What the target adds for each frame that it is handed. -/
def touched (bodies : List (List UInt8)) : List UInt64 :=
  (bodies.filter kept).map fun p => (touch wide p).getD 0

variable {wide} {data : List UInt8} {n : ℕ}

/-- What is added for what is pending. -/
theorem touchAt_pending (r : Reader) :
    r.pending.map (touchAt wide r.data) = (touched wide (frames r.rest)).map some := by
  have hbodies := congrArg (List.map (Option.bind · (touch wide))) (messagesAt_bodies r)
  rw [List.map_map, List.map_map] at hbodies
  refine hbodies.trans ?_
  rw [touched, List.map_map]
  refine List.map_congr_left fun body hbody => ?_
  obtain ⟨v, hv⟩ := touch_isSome wide (List.mem_filter.mp hbody).2
  show touch wide body = some ((touch wide body).getD 0)
  rw [hv]
  rfl

theorem parseLoop_eq (fuel : ℕ) {r : Reader} {guard : ℕ} {sink : UInt64}
    (hr : Counted data n r) (hfuel : r.pending.length < fuel)
    (hguard : guard + r.pending.length ≤ data.length / 2 + 16) :
    ∃ r', parseLoop wide data fuel r guard sink =
      some (.ok (sink + (touched wide (frames r.rest)).sum, r')) ∧ Counted data n r' := by
  induction fuel generalizing r guard sink with
  | zero => exact absurd hfuel (Nat.not_lt_zero _)
  | succ fuel ih =>
    obtain ⟨x, r₁, hnext, hpending, hdone, hcounted⟩ := next_spec r
    have hr₁ := hcounted data n hr
    have htouch := @touchAt_pending wide r
    have htouch₁ := @touchAt_pending wide r₁
    rw [hr.data, hpending, List.map_append] at htouch
    rw [hr₁.data] at htouch₁
    rw [htouch₁] at htouch
    simp only [parseLoop, hnext, Option.bind_eq_bind, Option.bind_some]
    cases x with
    | none =>
      have hnone : touched wide (frames r.rest) = [] := by
        have hnil : touched wide (frames r₁.rest) = [] := by
          rw [hdone rfl]
          rfl
        rw [hnil] at htouch
        exact List.map_eq_nil_iff.mp htouch.symm
      refine ⟨r₁, ?_, hr₁⟩
      rw [hnone]
      exact congrArg (fun v => some (Except.ok (v, r₁))) (UInt64.add_zero sink).symm
    | some m =>
      rw [hpending] at hfuel hguard
      have hcons : (Option.toList (some m) ++ r₁.pending).length = r₁.pending.length + 1 := rfl
      rw [hcons] at hfuel hguard
      cases hall : touched wide (frames r.rest) with
      | nil =>
        rw [hall] at htouch
        cases htouch
      | cons v vs =>
        rw [hall] at htouch
        obtain ⟨hv, hvs⟩ := List.cons.inj htouch
        have hvs := List.map_injective_iff.mpr (Option.some_injective _) hvs
        have hroom : ¬data.length / 2 + 16 < guard + 1 := by omega
        obtain ⟨r', hrun, hr'⟩ := @ih r₁ (guard + 1) (sink + v) hr₁ (by omega) (by omega)
        refine ⟨r', ?_, hr'⟩
        show (if data.length / 2 + 16 < guard + 1 then some (Except.error _)
          else (touchAt wide data m).bind _) = _
        rw [if_neg hroom, hv]
        show parseLoop wide data fuel r₁ (guard + 1) (sink + v) = _
        rw [hrun, hvs, List.sum_cons, UInt64.add_assoc]

/-- On every input the target ends without throwing or reading outside it, and returns the
sum over the frames that are handed out. -/
theorem fuzz_parse_sums (wide : UInt8 → UInt64) (data : List UInt8) :
    fuzzItchParse wide data = some (.ok (touched wide (frames data)).sum) := by
  have hpending := pending_length data
  have hrest : ({ data := data } : Reader).rest = data := rfl
  obtain ⟨r, hloop, hr⟩ := @parseLoop_eq wide data (frames data).length (data.length + 1)
    { data := data } 0 0 (.start data) (by omega) (by omega)
  have hbytes : ¬data.length < r.stats.bytes := by
    have hle := hr.bytes.trans hr.cur
    rw [hr.data] at hle
    exact Nat.not_lt.mpr hle
  rw [hrest, UInt64.zero_add] at hloop
  rw [fuzzItchParse, hloop]
  simp only [Option.bind_eq_bind, Option.bind_some, if_neg hbytes]
  rfl

end Hotpath.Itch.Fuzz
