import Hotpath.Book.HybridBest
import Hotpath.Sim.Quoting

/-!
# What the fills of a quote add up to

The journal of a run lists its joins and fills in the order in which they
happen. On one side the fills since the last join and the shares the quote has
left make up the quote size.
-/

namespace Hotpath.Sim
open Hotpath.Book

/-- What happens to the quotes. -/
inductive Entry where
  | joined (side : Side)
  | filled (f : Fill)
  deriving DecidableEq, Repr

def Entry.side : Entry → Side
  | .joined side => side
  | .filled f => f.side

/-- The fill of an entry, if it is one. -/
def Entry.fill? : Entry → Option Fill
  | .joined _ => none
  | .filled f => some f

def joins (s : Side) (js : List Entry) : ℕ := js.countP fun x => x = .joined s

def fillsOf (js : List Entry) : List Fill := js.filterMap Entry.fill?

/-- Shares filled since the last join, `n` of them before these entries. -/
def spent (s : Side) : ℕ → List Entry → ℕ
  | n, [] => n
  | n, .joined side :: js => spent s (if side = s then 0 else n) js
  | n, .filled f :: js => spent s (if f.side = s then n + f.qty.toNat else n) js

def sinceJoin (s : Side) (js : List Entry) : ℕ := spent s 0 js

def ofSide (s : Side) (js : List Entry) : List Entry := js.filter fun x => x.side = s

section Journals
variable {s : Side} {js ks : List Entry}

theorem spent_append (n : ℕ) : spent s n (js ++ ks) = spent s (spent s n js) ks := by
  induction js generalizing n with
  | nil => rfl
  | cons x js ih =>
    cases x with
    | joined side => exact ih _
    | filled f => exact ih _

theorem ofSide_append : ofSide s (js ++ ks) = ofSide s js ++ ofSide s ks := List.filter_append ..

theorem joins_ofSide (js : List Entry) : joins s (ofSide s js) = joins s js := by
  rw [joins, ofSide, List.countP_filter, joins]
  apply List.countP_congr
  intro x _
  cases x with
  | joined side =>
    simp only [Entry.side, Bool.and_eq_true, decide_eq_true_eq, Entry.joined.injEq]
    exact and_iff_left_of_imp fun hside => decide_eq_true hside
  | filled f => simp

theorem spent_ofSide (n : ℕ) (js : List Entry) : spent s n (ofSide s js) = spent s n js := by
  induction js generalizing n with
  | nil => rfl
  | cons x js ih =>
    rw [ofSide, List.filter_cons]
    by_cases hx : x.side = s
    · rw [if_pos (by simpa using hx)]
      cases x with
      | joined side => exact ih _
      | filled f => exact ih _
    · rw [if_neg (by simpa using hx)]
      cases x with
      | joined side =>
        have hside : ¬side = s := hx
        rw [spent, if_neg hside]
        exact ih n
      | filled f =>
        have hside : ¬f.side = s := hx
        rw [spent, if_neg hside]
        exact ih n

theorem shares_filled (f : Fill) (js : List Entry) : shares s (fillsOf (.filled f :: js)) =
    (if f.side = s then f.qty.toNat else 0) + shares s (fillsOf js) := by
  show shares s ([f] ++ fillsOf js) = _
  rw [shares_append]
  by_cases hside : f.side = s
  · simp [shares, hside]
  · simp [shares, hside]

theorem shares_ofSide (js : List Entry) :
    shares s (fillsOf (ofSide s js)) = shares s (fillsOf js) := by
  induction js with
  | nil => rfl
  | cons x js ih =>
    rw [ofSide, List.filter_cons]
    cases x with
    | joined side => split <;> exact ih
    | filled f =>
      rw [shares_filled]
      by_cases hside : f.side = s
      · have hx : (Entry.filled f).side = s := hside
        rw [if_pos (by simpa using hx), shares_filled, ← ih]
        rfl
      · have hx : ¬(Entry.filled f).side = s := hside
        rw [if_neg (by simpa using hx), if_neg hside, Nat.zero_add]
        exact ih

theorem fillsOf_append : fillsOf (js ++ ks) = fillsOf js ++ fillsOf ks := List.filterMap_append

theorem fillsOf_filled (fills : List Fill) : fillsOf (fills.map .filled) = fills := by
  induction fills with
  | nil => rfl
  | cons f fills ih =>
    show f :: fillsOf (fills.map .filled) = f :: fills
    rw [ih]

end Journals

namespace MarketMaker

variable {mm mm' : MarketMaker} {s : Side} {e : BookEvent} {size : ℕ} {q q' : Quote}
  {js : List Entry}

/-! ### Journals of a run -/

/-- The landing of a replacement that joins. -/
def joinsNow (q : Quote) (now : Ts) : Bool := due q now ∧ q.wantActive = true

def landJournal (mm : MarketMaker) (now : Ts) : List Entry :=
  (if joinsNow (mm.quote .buy) now then [.joined .buy] else []) ++
    (if joinsNow (mm.quote .sell) now then [.joined .sell] else [])

/-- The joins of `landEarlier`. -/
def earlierJournal (mm : MarketMaker) (now : Ts) : Option (List Entry) := do
  let (bb, ba, mm) ← mm.queryTouch
  return if usable bb ba then mm.landJournal now else []

/-- The joins of `requote`. -/
def requoteJournal (mm : MarketMaker) (now : Ts) : Option (List Entry) := do
  let (bb, ba, mm) ← mm.queryTouch
  return if usable bb ba then (mm.decided bb ba now).landJournal now else []

/-- The journal of `onEvent`. -/
def eventJournal (mm : MarketMaker) (e : BookEvent) : Option (List Entry) := do
  let early ← mm.earlierJournal e.ts
  let mm ← mm.landEarlier e.ts
  let pre ← mm.resolve e
  let book ← Book.apply mm.book e
  let (mm, fills) := { mm with book := book }.stepSides pre e
  let late ← mm.requoteJournal e.ts
  return early ++ fills.map .filled ++ late

def inputJournal (mm : MarketMaker) : Input → Option (List Entry)
  | .quoting _ _ => some []
  | .event e => mm.eventJournal e

def journal : MarketMaker → List Input → Option (List Entry)
  | _, [] => some []
  | mm, x :: xs => do
    let first ← mm.inputJournal x
    let (mm, _) ← mm.input x
    let rest ← journal mm xs
    return first ++ rest

/-! ### One side's account -/

/-- The account of a side over its own entries. -/
structure Account (size : ℕ) (s : Side) (q : Quote) (ks : List Entry) : Prop where
  joined : q.active = true → 0 < joins s ks
  balance : q.active = true → sinceJoin s ks + q.remaining.toNat = size
  bound : sinceJoin s ks ≤ if joins s ks = 0 then 0 else size
  total : shares s (fillsOf ks) ≤ size * (joins s ks - 1) + sinceJoin s ks
  covered : ∀ before f after, ks = before ++ .filled f :: after →
    0 < joins s before ∧ 0 < f.qty.toNat ∧ sinceJoin s before + f.qty.toNat ≤ size

variable {ks : List Entry}

theorem Account.start (size : ℕ) (s : Side) : Account size s {} [] := by
  constructor
  · exact fun h => by cases h
  · exact fun h => by cases h
  · exact le_rfl
  · exact Nat.zero_le _
  · intro before f after h
    cases before <;> cases h

/-- The total of a side is at most the size of all its lives. -/
theorem Account.total_le (h : Account size s q ks) :
    shares s (fillsOf ks) ≤ size * joins s ks := by
  have ht := h.total
  have hb := h.bound
  cases hj : joins s ks with
  | zero =>
    rw [hj, if_pos rfl] at hb
    rw [hj] at ht
    simp only [Nat.zero_sub, Nat.mul_zero] at ht ⊢
    omega
  | succ j =>
    rw [hj, if_neg (Nat.succ_ne_zero j)] at hb
    rw [hj, Nat.add_sub_cancel] at ht
    rw [Nat.mul_succ]
    omega

theorem Account.congr (h : Account size s q ks) (ha : q'.active = true → q.active = true)
    (hr : q'.remaining = q.remaining) : Account size s q' ks :=
  ⟨fun hq => h.joined (ha hq), fun hq => by rw [hr]; exact h.balance (ha hq), h.bound, h.total,
    h.covered⟩

theorem split_snoc {α : Type} {before after xs : List α} {x y : α}
    (h : xs ++ [y] = before ++ x :: after) :
    (before = xs ∧ x = y) ∨ ∃ after', xs = before ++ x :: after' := by
  obtain hnil | ⟨after', z, rfl⟩ := List.eq_nil_or_concat after
  · rw [hnil] at h
    obtain ⟨h1, h2⟩ := List.append_inj' h rfl
    exact Or.inl ⟨h1.symm, (List.singleton_inj.mp h2).symm⟩
  · rw [List.concat_eq_append, ← List.cons_append, ← List.append_assoc] at h
    exact Or.inr ⟨after', (List.append_inj' h rfl).1⟩

/-- A join opens a new life of the full size. -/
theorem Account.join (h : Account size s q ks) (hr : q'.remaining.toNat = size) :
    Account size s q' (ks ++ [.joined s]) := by
  have hj : joins s (ks ++ [.joined s]) = joins s ks + 1 := by
    rw [joins, List.countP_append]
    simp [joins]
  have hs : sinceJoin s (ks ++ [.joined s]) = 0 := by
    rw [sinceJoin, spent_append, spent, if_pos rfl, spent]
  have hf : fillsOf (ks ++ [.joined s]) = fillsOf ks := by
    rw [fillsOf_append]
    exact List.append_nil _
  constructor
  · intro _
    rw [hj]
    exact Nat.succ_pos _
  · intro _
    rw [hs, hr, Nat.zero_add]
  · rw [hs]
    exact Nat.zero_le _
  · rw [hf, hj, hs]
    exact h.total_le
  · intro before f after hsplit
    cases split_snoc hsplit with
    | inl hlast => cases hlast.2
    | inr hin =>
      obtain ⟨after', hin⟩ := hin
      exact h.covered before f after' hin

/-- A fill takes from the life it falls in. -/
theorem Account.fill (h : Account size s q ks) {f : Fill} (hside : f.side = s)
    (ha : q.active = true) (h0 : 0 < f.qty.toNat) (hle : f.qty.toNat ≤ q.remaining.toNat)
    (hr : q'.remaining.toNat = q.remaining.toNat - f.qty.toNat) :
    Account size s q' (ks ++ [.filled f]) := by
  have hj : joins s (ks ++ [.filled f]) = joins s ks := by
    rw [joins, List.countP_append]
    simp [joins]
  have hs : sinceJoin s (ks ++ [.filled f]) = sinceJoin s ks + f.qty.toNat := by
    rw [sinceJoin, spent_append, spent, if_pos hside, spent, sinceJoin]
  have hf : shares s (fillsOf (ks ++ [.filled f])) = shares s (fillsOf ks) + f.qty.toNat := by
    rw [fillsOf_append, shares_append]
    show _ + shares s [f] = _
    simp [shares, hside]
  have hpos := h.joined ha
  have hbal := h.balance ha
  have htot := h.total
  constructor
  · intro _
    rwa [hj]
  · intro _
    rw [hs, hr]
    omega
  · rw [hs, hj, if_neg (by omega)]
    omega
  · rw [hf, hj, hs]
    omega
  · intro before g after hsplit
    cases split_snoc hsplit with
    | inl hlast =>
      obtain ⟨rfl, heq⟩ := hlast
      cases heq
      exact ⟨hpos, h0, by omega⟩
    | inr hin =>
      obtain ⟨after', hin⟩ := hin
      exact h.covered before g after' hin

/-! ### The fills of an event -/

/-- What `step_side` does to a quote: nothing, or one fill at its own price. -/
inductive Outcome (q : Quote) (side : Side) (pre : Pre) (e : BookEvent) :
    Quote → List Fill → Prop where
  | quiet : Outcome q side pre e q []
  | hit (f : Fill) (q' : Quote) : q.active = true → pre.side = side → e.type = .execute →
      f.side = side → f.price = q.px → f.ts = e.ts → 0 < f.qty.toNat →
      f.qty.toNat ≤ e.shares.toNat → f.qty.toNat ≤ q.remaining.toNat →
      q'.remaining.toNat = q.remaining.toNat - f.qty.toNat → Outcome q side pre e q' [f]

theorem filled_outcome {side : Side} {pre : Pre} (pos : QueuePosition) {f : Qty} (swept : Bool)
    (ha : q.active = true) (hp : pre.side = side) (ht : e.type = .execute)
    (hs : f.toNat ≤ e.shares.toNat) (hf : f ≤ q.remaining) :
    Outcome q side pre e (filled e.ts side q pos f swept).1
      (filled e.ts side q pos f swept).2.2 := by
  unfold filled
  by_cases h0 : f = 0
  · rw [if_pos h0]
    exact .quiet
  · rw [if_neg h0]
    have hpos : 0 < f.toNat := Nat.pos_of_ne_zero fun hc => h0 (UInt32.toNat_inj.mp hc)
    have hle := UInt32.le_iff_toNat_le.mp hf
    have hsub : (q.remaining - f).toNat = q.remaining.toNat - f.toNat :=
      UInt32.toNat_sub_of_le _ _ hf
    have htake : (take q pos f).1.remaining = q.remaining - f := by
      unfold take
      dsimp only
      split <;> rfl
    apply Outcome.hit _ _ ha hp ht rfl rfl rfl hpos hs hle
    show (take q pos f).1.remaining.toNat = _
    rw [htake, hsub]

theorem stepSide_outcome (model : FillModel) (q : Quote) (pos : QueuePosition) (side : Side)
    (pre : Pre) (e : BookEvent) : Outcome q side pre e (stepSide model q pos side pre e).1
      (stepSide model q pos side pre e).2.2 := by
  unfold stepSide
  by_cases h1 : ¬q.active = true ∨ pre.side ≠ side
  · rw [if_pos h1]
    exact .quiet
  · rw [if_neg h1]
    rw [not_or, not_not, not_not] at h1
    obtain ⟨ha, hp⟩ := h1
    obtain ⟨hle, hmin⟩ := least_le e.shares q.remaining
    have hshares : (if e.shares < q.remaining then e.shares else q.remaining).toNat ≤
        e.shares.toNat := by omega
    by_cases h2 : e.type = .execute ∧ strictlyBetter side q.px pre.px = true
    · rw [if_pos h2]
      exact filled_outcome pos true ha hp h2.1 hshares hle
    · rw [if_neg h2]
      by_cases h3 : pre.px ≠ q.px
      · rw [if_pos h3]
        exact .quiet
      · rw [if_neg h3]
        unfold stepAtPrice
        cases ht : e.type with
        | execute =>
          cases model with
          | naive => exact filled_outcome pos false ha hp ht hshares hle
          | queueAware =>
            obtain ⟨hle', hex⟩ := onExecution_le pos pre.seq e.shares q.remaining
            exact filled_outcome _ false ha hp ht hex hle'
        | add => exact .quiet
        | cancel => exact .quiet
        | delete => exact .quiet
        | replace => exact .quiet

theorem Account.outcome {pre : Pre} {fills : List Fill} (h : Account size s q ks)
    (ho : Outcome q s pre e q' fills) : Account size s q' (ks ++ fills.map .filled) := by
  cases ho with
  | quiet =>
    rw [List.map_nil, List.append_nil]
    exact h
  | hit f q' ha _ _ hside _ _ hpos _ hle hr => exact h.fill hside ha hpos hle hr

theorem Outcome.side {pre : Pre} {fills : List Fill} (ho : Outcome q s pre e q' fills) :
    ∀ f ∈ fills, f.side = s ∧ pre.side = s := by
  intro f hf
  cases ho with
  | quiet => cases hf
  | hit g q' _ hp _ hside =>
    rw [List.mem_singleton.mp hf]
    exact ⟨hside, hp⟩

/-- The fills of one side are its own outcome. -/
theorem stepSides_ofSide (pre : Pre) (s : Side) :
    ofSide s ((mm.stepSides (some pre) e).2.map .filled) =
      (stepSide mm.fillModel (mm.quote s) (mm.pos s) s pre e).2.2.map .filled := by
  have hown : ∀ t, ∀ f ∈ (stepSide mm.fillModel (mm.quote t) (mm.pos t) t pre e).2.2,
      f.side = t := fun t f hf => ((stepSide_outcome _ _ _ t pre e).side f hf).1
  have hkeep : ∀ t, ofSide t
      ((stepSide mm.fillModel (mm.quote t) (mm.pos t) t pre e).2.2.map .filled) =
      (stepSide mm.fillModel (mm.quote t) (mm.pos t) t pre e).2.2.map .filled := by
    intro t
    apply List.filter_eq_self.mpr
    intro x hx
    obtain ⟨f, hf, rfl⟩ := List.mem_map.mp hx
    exact decide_eq_true (hown t f hf)
  have hdrop : ∀ t u, t ≠ u → ofSide u
      ((stepSide mm.fillModel (mm.quote t) (mm.pos t) t pre e).2.2.map .filled) = [] := by
    intro t u htu
    apply List.filter_eq_nil_iff.mpr
    intro x hx
    obtain ⟨f, hf, rfl⟩ := List.mem_map.mp hx
    have hside : (Entry.filled f).side = t := hown t f hf
    rw [hside]
    simpa using htu
  rw [(stepSides_some pre).2.2.2, List.map_append, ofSide_append]
  cases s with
  | buy => rw [hkeep, hdrop .sell .buy (by decide), List.append_nil]
  | sell => rw [hkeep, hdrop .buy .sell (by decide), List.nil_append]

/-! ### The joins of an event -/

theorem landJournal_ofSide (mm : MarketMaker) (now : Ts) (s : Side) :
    ofSide s (mm.landJournal now) = if joinsNow (mm.quote s) now then [.joined s] else [] := by
  unfold landJournal ofSide
  cases s with
  | buy => split <;> split <;> rfl
  | sell => split <;> split <;> rfl

theorem Account.landed {target : Price} {now : Ts} {pos : QueuePosition}
    (h : Account mm.quoteSize.toNat s (mm.quote s) ks) (hl : Landed mm s target now q pos) :
    Account mm.quoteSize.toNat s q (ks ++ ofSide s (mm.landJournal now)) := by
  rw [landJournal_ofSide]
  cases hl with
  | wait hw =>
    rw [if_neg (by rw [joinsNow, decide_eq_true_eq]; exact fun hc => hw hc.1), List.append_nil]
    exact h
  | gone hd hwant =>
    have hno : ¬joinsNow (mm.quote s) now = true := by
      rw [joinsNow, decide_eq_true_eq, hwant]
      exact fun hc => by cases hc.2
    rw [if_neg hno, List.append_nil]
    exact h.congr (fun hc => by cases hc) rfl
  | joined r hd hwant hr =>
    rw [if_pos (by rw [joinsNow, decide_eq_true_eq]; exact ⟨hd, hwant⟩)]
    exact h.join rfl

/-! ### Events and runs -/

theorem queryTouch_desk {bb ba : Price} {mm1 : MarketMaker}
    (h : mm.queryTouch = some (bb, ba, mm1)) :
    mm1.quoteSize = mm.quoteSize ∧ mm1.quote = mm.quote ∧ mm1.requotes = mm.requotes := by
  obtain ⟨b1, b2, -, -, rfl⟩ := queryTouch_some.mp h
  exact ⟨rfl, rfl, rfl⟩

/-- The accounts of both sides over a journal. -/
structure Accounts (size : Qty) (mm : MarketMaker) (js : List Entry) : Prop where
  quoteSize : mm.quoteSize = size
  side : ∀ s, Account size.toNat s (mm.quote s) (ofSide s js)

variable {width : Qty}

theorem Accounts.queried {bb ba : Price} (h : Accounts width mm js)
    (hq : mm.queryTouch = some (bb, ba, mm')) : Accounts width mm' js := by
  obtain ⟨hsize, hquote, -⟩ := queryTouch_desk hq
  refine ⟨hsize.trans h.quoteSize, ?_⟩
  rw [hquote]
  exact h.side

theorem Accounts.decided (h : Accounts width mm js) (bb ba : Price) (now : Ts) :
    Accounts width (mm.decided bb ba now) js := by
  refine ⟨h.quoteSize, fun s => ?_⟩
  have hs := h.side s
  rw [decided_quote]
  unfold MarketMaker.decide
  split
  · exact hs
  · split
    · exact hs
    · exact hs.congr id rfl

theorem Accounts.landed {base : MarketMaker} {bb ba : Price} {now : Ts} (h : Accounts width base js)
    (hsize : mm'.quoteSize = base.quoteSize)
    (hl : ∀ s, Landed base s (touchOf bb ba s) now (mm'.quote s) (mm'.pos s)) :
    Accounts width mm' (js ++ base.landJournal now) := by
  refine ⟨hsize.trans h.quoteSize, fun s => ?_⟩
  have hs := h.side s
  rw [← h.quoteSize] at hs
  rw [← h.quoteSize, ofSide_append]
  exact hs.landed (hl s)

theorem Accounts.landEarlier {now : Ts} (h : Accounts width mm js)
    (hl : mm.landEarlier now = some mm') :
    ∃ early, mm.earlierJournal now = some early ∧ Accounts width mm' (js ++ early) := by
  obtain ⟨bb, ba, mm1, hq, hd, hcase⟩ := landEarlier_some hl
  have h1 := h.queried hq
  refine ⟨_, by simp only [earlierJournal, hq, Option.bind_eq_bind, Option.bind_some]; rfl, ?_⟩
  cases hcase with
  | inl hno =>
    rw [if_neg hno.1, hno.2, List.append_nil]
    exact h1
  | inr hyes =>
    rw [if_pos hyes.1]
    exact h1.landed hd.quoteSize hyes.2

theorem Accounts.requote {now : Ts} (h : Accounts width mm js) (hl : mm.requote now = some mm') :
    ∃ late, mm.requoteJournal now = some late ∧ Accounts width mm' (js ++ late) := by
  obtain ⟨bb, ba, mm1, hq, hd, hcase⟩ := requote_some hl
  have h1 := h.queried hq
  refine ⟨_, by simp only [requoteJournal, hq, Option.bind_eq_bind, Option.bind_some]; rfl, ?_⟩
  cases hcase with
  | inl hno =>
    rw [if_neg hno.1, hno.2, List.append_nil]
    exact h1
  | inr hyes =>
    rw [if_pos hyes.1]
    exact (h1.decided bb ba now).landed hd.quoteSize hyes.2

theorem Accounts.stepSides (h : Accounts width mm js) (pre : Option Pre) (e : BookEvent) :
    Accounts width (mm.stepSides pre e).1 (js ++ (mm.stepSides pre e).2.map .filled) := by
  cases pre with
  | none =>
    rw [stepSides_none, List.map_nil, List.append_nil]
    exact h
  | some pre =>
    obtain ⟨hd, hq, -, -⟩ := @stepSides_some mm e pre
    refine ⟨hd.quoteSize.trans h.quoteSize, fun s => ?_⟩
    rw [ofSide_append, stepSides_ofSide, hq]
    exact (h.side s).outcome (stepSide_outcome _ _ _ s pre e)

theorem fillsOf_landJournal (mm : MarketMaker) (now : Ts) : fillsOf (mm.landJournal now) = [] := by
  unfold landJournal
  split <;> split <;> rfl

theorem joins_landJournal (mm : MarketMaker) (now : Ts) (s : Side) :
    joins s (mm.landJournal now) = if joinsNow (mm.quote s) now then 1 else 0 := by
  rw [← joins_ofSide, landJournal_ofSide]
  split
  · simp [joins]
  · rfl

theorem joins_append (s : Side) (js ks : List Entry) :
    joins s (js ++ ks) = joins s js + joins s ks := List.countP_append ..

theorem joins_filled (s : Side) (fills : List Fill) : joins s (fills.map .filled) = 0 := by
  rw [joins, List.countP_eq_zero]
  intro x hx
  obtain ⟨f, -, rfl⟩ := List.mem_map.mp hx
  simp

/-- The counter of joins goes up with each landing that joins. -/
theorem landIfDue_requotes {target : Price} {now : Ts}
    (h : mm.landIfDue s target now = some mm') :
    mm'.requotes = mm.requotes + if joinsNow (mm.quote s) now then 1 else 0 := by
  unfold landIfDue at h
  by_cases hd : due (mm.quote s) now
  · have hc : ¬(¬(mm.quote s).inFlight = true ∨ now < (mm.quote s).landsAt) := by
      rw [not_or, not_not]
      exact hd
    simp only [if_neg hc] at h
    by_cases hw : (mm.quote s).wantActive = true
    · rw [if_neg (not_not.mpr hw)] at h
      simp only [join, Option.bind_eq_bind, Option.bind_eq_some_iff] at h
      obtain ⟨level, -, h⟩ := h
      obtain rfl := Option.some.inj h
      rw [if_pos (by rw [joinsNow, decide_eq_true_eq]; exact ⟨hd, hw⟩)]
      rfl
    · rw [if_pos hw] at h
      obtain rfl := Option.some.inj h
      rw [if_neg (by rw [joinsNow, decide_eq_true_eq]; exact fun hj => hw hj.2)]
      rfl
  · have hc : ¬(mm.quote s).inFlight = true ∨ now < (mm.quote s).landsAt := by
      by_contra hc
      rw [not_or, not_not] at hc
      exact hd hc
    simp only [if_pos hc] at h
    obtain rfl := Option.some.inj h
    rw [if_neg (by rw [joinsNow, decide_eq_true_eq]; exact fun hj => hd hj.1)]
    rfl

theorem land_both_requotes {mm1 : MarketMaker} {bb ba : Price} {now : Ts}
    (h1 : mm.landIfDue .buy bb now = some mm1) (h2 : mm1.landIfDue .sell ba now = some mm') :
    mm'.requotes = mm.requotes + joins .buy (mm.landJournal now) +
      joins .sell (mm.landJournal now) := by
  have hsell := ((landIfDue_landed h1).2.2 .sell (by simp)).1
  rw [landIfDue_requotes h2, landIfDue_requotes h1, hsell, joins_landJournal, joins_landJournal]

theorem landEarlier_requotes {now : Ts} {early : List Entry} (h : mm.landEarlier now = some mm')
    (hj : mm.earlierJournal now = some early) :
    mm'.requotes = mm.requotes + joins .buy early + joins .sell early ∧ fillsOf early = [] := by
  obtain ⟨bb, ba, mm1, hq, hcase⟩ := landEarlier_stages h
  obtain ⟨-, -, hr⟩ := queryTouch_desk hq
  simp only [earlierJournal, hq, Option.bind_eq_bind, Option.bind_some] at hj
  obtain rfl := Option.some.inj hj
  rcases hcase with ⟨hu, rfl⟩ | ⟨hu, mm2, h1, h2⟩
  · rw [if_neg hu]
    exact ⟨hr, rfl⟩
  · rw [if_pos hu, ← hr]
    exact ⟨land_both_requotes h1 h2, fillsOf_landJournal mm1 now⟩

theorem requote_requotes {now : Ts} {late : List Entry} (h : mm.requote now = some mm')
    (hj : mm.requoteJournal now = some late) :
    mm'.requotes = mm.requotes + joins .buy late + joins .sell late ∧ fillsOf late = [] := by
  obtain ⟨bb, ba, mm1, hq, hcase⟩ := requote_stages h
  obtain ⟨-, -, hr⟩ := queryTouch_desk hq
  simp only [requoteJournal, hq, Option.bind_eq_bind, Option.bind_some] at hj
  obtain rfl := Option.some.inj hj
  rcases hcase with ⟨hu, rfl⟩ | ⟨hu, mm2, mm3, h1, h2, rfl⟩
  · rw [if_neg hu]
    exact ⟨hr, rfl⟩
  · have hboth := @land_both_requotes (mm1.decided bb ba now) _ _ _ _ _ h1 h2
    rw [if_pos hu, ← hr]
    exact ⟨hboth, fillsOf_landJournal _ now⟩

theorem Accounts.onEvent {fills : List Fill} (h : Accounts width mm js)
    (he : mm.onEvent e = some (mm', fills)) :
    ∃ ks, mm.eventJournal e = some ks ∧ Accounts width mm' (js ++ ks) ∧ fillsOf ks = fills ∧
      mm'.requotes = mm.requotes + joins .buy ks + joins .sell ks := by
  obtain ⟨mm1, pre, book, hland, hpre, hbook, hreq, rfl⟩ := onEvent_some he
  obtain ⟨early, hearly, h1⟩ := h.landEarlier hland
  have h2 : Accounts width { mm1 with book := book } (js ++ early) := ⟨h1.quoteSize, h1.side⟩
  have h3 := h2.stepSides pre e
  obtain ⟨late, hlate, h4⟩ := h3.requote hreq
  obtain ⟨r1, f1⟩ := landEarlier_requotes hland hearly
  obtain ⟨r2, f2⟩ := requote_requotes hreq hlate
  have hcount : ({ mm1 with book := book }.stepSides pre e).1.requotes = mm1.requotes := by
    cases pre <;> rfl
  have happly : Book.apply mm1.book e = some book := hbook
  refine ⟨early ++ ({ mm1 with book := book }.stepSides pre e).2.map .filled ++ late, ?_, ?_, ?_, ?_⟩
  · simp only [eventJournal, hearly, hland, hpre, happly, hlate, Option.bind_eq_bind,
      Option.bind_some]
    rfl
  · rw [← List.append_assoc, ← List.append_assoc]
    exact h4
  · rw [fillsOf_append, fillsOf_append, f1, f2, fillsOf_filled, List.nil_append, List.append_nil]
  · rw [r2, hcount, r1, joins_append, joins_append, joins_filled, joins_append, joins_append,
      joins_filled]
    omega

theorem Accounts.run {fills : List Fill} (h : Accounts width mm js) (xs : List Input)
    (hr : mm.run xs = some (mm', fills)) :
    ∃ ks, mm.journal xs = some ks ∧ Accounts width mm' (js ++ ks) ∧ fillsOf ks = fills ∧
      mm'.requotes = mm.requotes + joins .buy ks + joins .sell ks := by
  induction xs generalizing mm js fills with
  | nil =>
    obtain ⟨rfl, rfl⟩ := Prod.mk.inj (Option.some.inj hr)
    exact ⟨[], rfl, by rwa [List.append_nil], rfl, rfl⟩
  | cons x xs ih =>
    obtain ⟨mm1, f1, f2, h1, h2, rfl⟩ := run_cons hr
    obtain ⟨k1, hk1, ha1, hf1, hr1⟩ : ∃ k1, mm.inputJournal x = some k1 ∧
        Accounts width mm1 (js ++ k1) ∧ fillsOf k1 = f1 ∧
        mm1.requotes = mm.requotes + joins .buy k1 + joins .sell k1 := by
      cases x with
      | quoting bid ask =>
        obtain ⟨rfl, rfl⟩ := Prod.mk.inj (Option.some.inj h1)
        exact ⟨[], rfl, by rw [List.append_nil]; exact ⟨h.quoteSize, h.side⟩, rfl, rfl⟩
      | event e => exact h.onEvent h1
    obtain ⟨k2, hk2, ha2, hf2, hr2⟩ := ih ha1 h2
    refine ⟨k1 ++ k2, ?_, by rwa [← List.append_assoc], by rw [fillsOf_append, hf1, hf2], ?_⟩
    · simp only [journal, hk1, h1, hk2, Option.bind_eq_bind, Option.bind_some]
      rfl
    · rw [hr2, hr1, joins_append, joins_append]
      omega

/-! ### Main results -/

theorem landEarlier_findOrder {now : Ts} (h : mm.landEarlier now = some mm') (ref : OrderId) :
    mm'.book.findOrder ref = mm.book.findOrder ref := by
  obtain ⟨bb, ba, mm1, hq, hd, -⟩ := landEarlier_some h
  obtain ⟨b1, b2, h1, h2, rfl⟩ := queryTouch_some.mp hq
  obtain ⟨r, rfl⟩ := HybridBook.best_setHint h1
  obtain ⟨r', rfl⟩ := HybridBook.best_setHint h2
  rw [hd.book]
  rfl

theorem resolve_order {pre : Pre} (h : mm.resolve e = some (some pre)) :
    ∃ o, mm.book.findOrder e.order_ref = some (some o) ∧ pre.side = o.side := by
  unfold resolve at h
  split at h
  · cases h
  · simp only [Option.bind_eq_bind, Option.bind_eq_some_iff] at h
    obtain ⟨o?, ho, h⟩ := h
    cases o? with
    | none => cases h
    | some o =>
      dsimp only at h
      split at h
      · cases h
      · obtain ⟨level, -, h⟩ := Option.bind_eq_some_iff.mp h
        obtain rfl := Option.some.inj (Option.some.inj h)
        exact ⟨o, ho, rfl⟩

/-- An event fills at most once: only an execution, on the side of the executed
order, at the price of a quote that rests when the event happens. -/
theorem onEvent_fills {fills : List Fill} (h : mm.onEvent e = some (mm', fills)) :
    fills.length ≤ 1 ∧ ∀ f ∈ fills, e.type = .execute ∧
      0 < f.qty.toNat ∧ f.qty.toNat ≤ e.shares.toNat ∧
      (∃ o, mm.book.findOrder e.order_ref = some (some o) ∧ f.side = o.side) ∧
      ∃ mm1, mm.landEarlier e.ts = some mm1 ∧ (mm1.quote f.side).active = true ∧
        f.price = (mm1.quote f.side).px := by
  obtain ⟨mm1, pre, book, hland, hpre, -, -, rfl⟩ := onEvent_some h
  cases pre with
  | none => exact ⟨Nat.zero_le _, fun f hf => by cases hf⟩
  | some pre =>
    obtain ⟨o, ho, hside⟩ := resolve_order hpre
    rw [landEarlier_findOrder hland] at ho
    have hout : ∀ s, Outcome (mm1.quote s) s pre e
        (stepSide mm1.fillModel (mm1.quote s) (mm1.pos s) s pre e).1
        (stepSide mm1.fillModel (mm1.quote s) (mm1.pos s) s pre e).2.2 :=
      fun s => stepSide_outcome _ _ _ s pre e
    have hlist := (@stepSides_some { mm1 with book := book } e pre).2.2.2
    have hone : ∀ s, (stepSide mm1.fillModel (mm1.quote s) (mm1.pos s) s pre e).2.2.length ≤ 1 ∧
        (pre.side ≠ s → (stepSide mm1.fillModel (mm1.quote s) (mm1.pos s) s pre e).2.2 = []) := by
      intro s
      have hs := hout s
      generalize (stepSide mm1.fillModel (mm1.quote s) (mm1.pos s) s pre e).1 = q' at hs
      generalize (stepSide mm1.fillModel (mm1.quote s) (mm1.pos s) s pre e).2.2 = fs at hs ⊢
      cases hs with
      | quiet => exact ⟨Nat.zero_le _, fun _ => rfl⟩
      | hit f q' _ hp => exact ⟨le_rfl, fun hne => absurd hp hne⟩
    rw [hlist]
    constructor
    · rw [List.length_append]
      cases hp : pre.side with
      | buy =>
        rw [(hone .sell).2 (by rw [hp]; simp)]
        exact (hone .buy).1
      | sell =>
        rw [(hone .buy).2 (by rw [hp]; simp), List.length_nil, Nat.zero_add]
        exact (hone .sell).1
    · intro f hf
      obtain ⟨s, hs⟩ : ∃ s, f ∈ (stepSide mm1.fillModel (mm1.quote s) (mm1.pos s) s pre e).2.2 := by
        cases List.mem_append.mp hf with
        | inl hf => exact ⟨.buy, hf⟩
        | inr hf => exact ⟨.sell, hf⟩
      have ho' := hout s
      generalize (stepSide mm1.fillModel (mm1.quote s) (mm1.pos s) s pre e).1 = q' at ho'
      generalize (stepSide mm1.fillModel (mm1.quote s) (mm1.pos s) s pre e).2.2 = fs at ho' hs
      cases ho' with
      | quiet => cases hs
      | hit g q' ha hp ht hg hpx _ hpos hshares =>
        obtain rfl := List.mem_singleton.mp hs
        refine ⟨ht, hpos, hshares, ⟨o, ho, ?_⟩, mm1, hland, ?_, ?_⟩
        · rw [hg, ← hp, hside]
        · rw [hg]
          exact ha
        · rw [hg]
          exact hpx

/-- Every run accounts for its fills, whatever the model, the latency and the
quoting: an event fills at most once, the fills since a quote's last join and
what it has left are the quote size, and a fill never exceeds what its life has
left. -/
theorem fills_accounted (lo hi : Price) (size : Qty) (latency : Ts) (model : FillModel)
    (maxOrders maxLevels : ℕ) (mm0 : MarketMaker)
    (hmake : make lo hi size latency model maxOrders maxLevels = some mm0) (xs : List Input)
    (mm : MarketMaker) (fills : List Fill) (hrun : mm0.run xs = some (mm, fills)) :
    (∀ e mm' fs, mm.onEvent e = some (mm', fs) → fs.length ≤ 1 ∧ ∀ f ∈ fs, e.type = .execute ∧
      0 < f.qty.toNat ∧ f.qty.toNat ≤ e.shares.toNat ∧
      (∃ o, mm.book.findOrder e.order_ref = some (some o) ∧ f.side = o.side) ∧
      ∃ mm1, mm.landEarlier e.ts = some mm1 ∧ (mm1.quote f.side).active = true ∧
        f.price = (mm1.quote f.side).px) ∧
    ∃ js, mm0.journal xs = some js ∧ fillsOf js = fills ∧
      mm.requotes = joins .buy js + joins .sell js ∧
      ∀ s, ((mm.quote s).active = true →
          sinceJoin s js + (mm.quote s).remaining.toNat = size.toNat) ∧
        shares s fills ≤ size.toNat * joins s js ∧
        ∀ before f after, js = before ++ .filled f :: after → f.side = s →
          0 < joins s before ∧ 0 < f.qty.toNat ∧
            sinceJoin s before + f.qty.toNat ≤ size.toNat := by
  obtain ⟨b, -, rfl⟩ := make_some hmake
  have hstart : Accounts size
      { book := b, quoteSize := size, latency := latency, fillModel := model } [] :=
    ⟨rfl, fun s => Account.start _ s⟩
  obtain ⟨js, hjs, hacc, hfills, hreq⟩ := hstart.run xs hrun
  refine ⟨fun e mm' fs h => onEvent_fills h, js, hjs, hfills, ?_, fun s => ?_⟩
  · rw [hreq]
    show 0 + joins .buy js + joins .sell js = _
    rw [Nat.zero_add]
  · have hs := hacc.side s
    rw [List.nil_append] at hs
    refine ⟨fun ha => ?_, ?_, fun before f after hsplit hside => ?_⟩
    · have hbal := hs.balance ha
      rwa [sinceJoin, spent_ofSide] at hbal
    · have htot := hs.total_le
      rwa [shares_ofSide, joins_ofSide, hfills] at htot
    · have hcov : ofSide s js = ofSide s before ++ .filled f :: ofSide s after := by
        have hx : (Entry.filled f).side = s := hside
        rw [hsplit, ofSide_append]
        show _ ++ List.filter _ (.filled f :: after) = _
        rw [List.filter_cons, if_pos (by simpa using hx)]
        rfl
      have h := hs.covered _ f _ hcov
      rwa [joins_ofSide, sinceJoin, spent_ofSide] at h

/-- A bid of three shares that an execution of four uses up. -/
theorem fills_accounted_one : ∃ mm0 mm fills js, ∃ xs : List Input,
    make 100 300 3 0 .naive 4 4 = some mm0 ∧ mm0.run xs = some (mm, fills) ∧
    mm0.journal xs = some js ∧ shares .buy fills = 3 ∧ joins .buy js = 2 ∧
    shares .buy fills ≤ 3 * joins .buy js := by
  let xs : List Input := [.event ⟨1, 1, 0, 200, 5, .add, .buy⟩,
    .event ⟨2, 2, 0, 300, 5, .add, .sell⟩, .event ⟨3, 1, 0, 0, 4, .execute, .buy⟩]
  have heval : ((make 100 300 3 0 .naive 4 4).bind fun mm0 => (mm0.run xs).bind fun r =>
      (mm0.journal xs).map fun js => (shares .buy r.2, joins .buy js)) = some (3, 2) := by
    decide +kernel
  obtain ⟨mm0, hmake, heval⟩ := Option.bind_eq_some_iff.mp heval
  obtain ⟨⟨mm, fills⟩, hrun, heval⟩ := Option.bind_eq_some_iff.mp heval
  obtain ⟨js', hjs', heval⟩ := Option.map_eq_some_iff.mp heval
  obtain ⟨hfilled, hjoins⟩ := Prod.mk.inj heval
  obtain ⟨-, js, hjs, -, -, hsides⟩ := fills_accounted 100 300 3 0 .naive 4 4 mm0 hmake xs mm fills hrun
  rw [hjs'] at hjs
  obtain rfl := Option.some.inj hjs
  exact ⟨mm0, mm, fills, js', xs, hmake, hrun, hjs', hfilled, hjoins, (hsides .buy).2.1⟩

end MarketMaker

end Hotpath.Sim
