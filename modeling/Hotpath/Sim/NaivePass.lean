import Hotpath.Book.HybridGrid
import Hotpath.Sim.Quoting

/-!
# The naive pass (sim_mm.cpp)

The second pass of `sim_mm` has a book, quotes and a fill rule of its own: an
execution fills a quote only at the quote's price. Against the market maker with
the naive model and no latency it misses the executions that sweep a quote
resting at a better price.
-/

namespace Hotpath.Sim
open Hotpath.Book

/-- A quote of the pass. -/
structure NQ where
  active : Bool := false
  px : Price := 0
  remaining : Qty := 0
  deriving DecidableEq, Repr

/-- The variables of the pass; the sides are functions of the side. -/
structure NaivePass where
  book : HybridBook
  quoteSize : Qty
  quote : Side → NQ := fun _ => {}
  requotes : ℕ := 0

namespace NaivePass

def make (lo hi : Price) (quoteSize : Qty) (maxOrdersPow2 maxLevels : ℕ) : Option NaivePass := do
  let book ← HybridBook.make lo hi maxOrdersPow2 maxLevels
  return { book := book, quoteSize := quoteSize }

/-- Side and price of the affected order, resolved before the book changes. -/
def resolve (n : NaivePass) (e : BookEvent) : Option (Option (Side × Price)) :=
  if e.type = .add then some none
  else do
    match ← n.book.findOrder e.order_ref with
    | none => return none
    | some o =>
      if o.level < 0 then return none
      let level ← n.book.levelByIndex o.level
      return some (o.side, level.price)

def hit (q : NQ) (side : Side) (pre : Side × Price) (e : BookEvent) : NQ × List Fill :=
  if ¬q.active ∨ pre.1 ≠ side ∨ pre.2 ≠ q.px then (q, [])
  else
    let f := if e.shares < q.remaining then e.shares else q.remaining
    if f = 0 then (q, [])
    else
      let q' := { q with remaining := q.remaining - f }
      (if q'.remaining = 0 then { q' with active := false } else q',
        [⟨e.ts, q.px, f, side, 0, false, false⟩])

/-- The fills of an event, the bid's first. -/
def hits (n : NaivePass) (pre : Option (Side × Price)) (e : BookEvent) : NaivePass × List Fill :=
  match pre with
  | none => (n, [])
  | some pre =>
    if e.type = .execute then
      let (bid, bidFills) := hit (n.quote .buy) .buy pre e
      let (ask, askFills) := hit (n.quote .sell) .sell pre e
      ({ n with quote := fun side => match side with | .buy => bid | .sell => ask },
        bidFills ++ askFills)
    else (n, [])

def rq (n : NaivePass) (side : Side) (target : Price) : NaivePass :=
  let q := n.quote side
  if q.active ∧ q.px = target then n
  else { n with
    quote := Function.update n.quote side { active := true, px := target, remaining := n.quoteSize }
    requotes := n.requotes + 1 }

def requote (n : NaivePass) : Option NaivePass := do
  let (bb, book) ← n.book.bestBid
  let (ba, book) ← book.bestAsk
  let n := { n with book := book }
  if bb = kInvalidPrice ∨ ba = kInvalidPrice ∨ ba ≤ bb then return n
  else return (n.rq .buy bb).rq .sell ba

/-- The body of the loop, with the fills it pushes. -/
def step (n : NaivePass) (e : BookEvent) : Option (NaivePass × List Fill) := do
  let pre ← n.resolve e
  let book ← Book.apply n.book e
  let (n, fills) := { n with book := book }.hits pre e
  let n ← n.requote
  return (n, fills)

def run : NaivePass → List BookEvent → Option (NaivePass × List Fill)
  | n, [] => some (n, [])
  | n, e :: es => do
    let (n, fills) ← n.step e
    let (n, rest) ← run n es
    return (n, fills ++ rest)

/-- The event executes an order priced worse than the active quote of its side. -/
def sweeps (n : NaivePass) (e : BookEvent) : Prop :=
  e.type = .execute ∧ e.shares ≠ 0 ∧ ∃ side px, n.resolve e = some (some (side, px)) ∧
    (n.quote side).active = true ∧ (n.quote side).remaining ≠ 0 ∧
    MarketMaker.strictlyBetter side (n.quote side).px px = true

end NaivePass

/-- What the two passes are compared by. -/
def Fill.core (f : Fill) : Ts × Price × Qty × Side := (f.ts, f.price, f.qty, f.side)

namespace NaivePass
open MarketMaker HybridBook

variable {n n' : NaivePass} {mm mm' : MarketMaker} {e : BookEvent} {s : Side}

/-! ### In step -/

def view (q : Quote) : NQ := ⟨q.active, q.px, q.remaining⟩

/-- The quotes of the two, books apart. -/
structure Abreast (n : NaivePass) (mm : MarketMaker) : Prop where
  quoteSize : mm.quoteSize = n.quoteSize
  latency : mm.latency = 0
  fillModel : mm.fillModel = .naive
  allow : ∀ s, mm.allow s = true
  idle : ∀ s, (mm.quote s).inFlight = false
  quote : ∀ s, view (mm.quote s) = n.quote s

/-- The market maker stands where the pass does, with its touch queried. -/
structure Twin (n : NaivePass) (mm : MarketMaker) : Prop extends Abreast n mm where
  book : mm.book = n.book
  indexed : Indexed n.book
  cached : ∀ s, Cached n.book s

/-- Nothing is in flight, and the query finds what is cached. -/
theorem Twin.landEarlier (h : Twin n mm) (now : Ts) : mm.landEarlier now = some mm := by
  obtain ⟨bb, hb⟩ := h.indexed.best_cached (h.cached .buy)
  obtain ⟨ba, ha⟩ := h.indexed.best_cached (h.cached .sell)
  rw [← h.book] at hb ha
  have htouch : mm.queryTouch = some (bb, ba, mm) := queryTouch_some.mpr ⟨_, _, hb, ha, rfl⟩
  have hland : ∀ s target, mm.landIfDue s target now = some mm := by
    intro s target
    simp only [landIfDue, h.idle s, Bool.false_eq_true, not_false_eq_true, true_or, if_true]
  simp only [MarketMaker.landEarlier, htouch, Option.bind_eq_bind, Option.bind_some, hland]
  split <;> rfl

/-- What the pass resolves of what the market maker resolves. -/
def seen (pre : Pre) : Side × Price := (pre.side, pre.px)

theorem Twin.resolve (h : Twin n mm) (e : BookEvent) :
    n.resolve e = (mm.resolve e).map (Option.map seen) := by
  unfold NaivePass.resolve MarketMaker.resolve
  rw [h.book]
  by_cases ht : e.type = .add
  · rw [if_pos ht, if_pos ht]
    rfl
  · rw [if_neg ht, if_neg ht]
    cases n.book.findOrder e.order_ref with
    | none => rfl
    | some found =>
      cases found with
      | none => rfl
      | some o =>
        show (if o.level < 0 then _ else _) = Option.map _ (if o.level < 0 then _ else _)
        by_cases hl : o.level < 0
        · rw [if_pos hl, if_pos hl]
          rfl
        · rw [if_neg hl, if_neg hl]
          cases n.book.levelByIndex o.level with
          | none => rfl
          | some level => rfl

/-! ### Fills -/

/-- The one difference: an execution behind the quote. -/
def Swept (q : Quote) (side : Side) (pre : Pre) (e : BookEvent) : Prop :=
  q.active = true ∧ pre.side = side ∧ e.type = .execute ∧ e.shares ≠ 0 ∧ q.remaining ≠ 0 ∧
    strictlyBetter side q.px pre.px = true

/-- An event that is no execution takes nothing. -/
theorem stepSide_quiet (q : Quote) (pos : QueuePosition) (side : Side) (pre : Pre)
    (ht : e.type ≠ .execute) : (stepSide .naive q pos side pre e).1 = q ∧
      (stepSide .naive q pos side pre e).2.2 = [] := by
  unfold stepSide
  split
  · exact ⟨rfl, rfl⟩
  · rw [if_neg fun h => ht h.1]
    split
    · exact ⟨rfl, rfl⟩
    · unfold stepAtPrice
      cases he : e.type with
      | execute => exact absurd he ht
      | add => exact ⟨rfl, rfl⟩
      | cancel => exact ⟨rfl, rfl⟩
      | delete => exact ⟨rfl, rfl⟩
      | replace => exact ⟨rfl, rfl⟩

/-- A quote away from the order is not touched. -/
theorem stepSide_away {q : Quote} {pos : QueuePosition} {side : Side} {pre : Pre}
    (h : ¬q.active = true ∨ pre.side ≠ side ∨
      (¬strictlyBetter side q.px pre.px = true ∧ pre.px ≠ q.px)) :
    stepSide .naive q pos side pre e = (q, pos, []) := by
  unfold stepSide
  by_cases hguard : ¬q.active = true ∨ pre.side ≠ side
  · rw [if_pos hguard]
  · rw [not_or] at hguard
    rw [if_neg (not_or.mpr hguard)]
    obtain ⟨hb, hx⟩ := (h.resolve_left hguard.1).resolve_left hguard.2
    rw [if_neg fun hc => hb hc.2, if_pos hx]

theorem hit_away {q : NQ} {side : Side} {pre : Side × Price}
    (h : ¬q.active = true ∨ pre.1 ≠ side ∨ pre.2 ≠ q.px) : hit q side pre e = (q, []) := if_pos h

/-- Shares that both rules take of a quote. -/
theorem take_view (q : Quote) (pos : QueuePosition) (f : Qty) :
    view (take q pos f).1 = (if q.remaining - f = 0
      then { view q with remaining := q.remaining - f, active := false }
      else { view q with remaining := q.remaining - f }) ∧
    (take q pos f).1.inFlight = q.inFlight := by
  unfold take
  by_cases hz : q.remaining - f = 0
  · rw [if_pos hz, if_pos hz]
    exact ⟨rfl, rfl⟩
  · rw [if_neg hz, if_neg hz]
    exact ⟨rfl, rfl⟩

theorem filled_view (q : Quote) (pos : QueuePosition) (side : Side)
    (ha : q.active = true) (f : Qty)
    (hf : (if e.shares < q.remaining then e.shares else q.remaining) = f) (swept : Bool) :
    view (filled e.ts side q pos f swept).1 = (hit (view q) side (side, q.px) e).1 ∧
    (filled e.ts side q pos f swept).2.2.map Fill.core =
      (hit (view q) side (side, q.px) e).2.map Fill.core ∧
    (filled e.ts side q pos f swept).1.inFlight = q.inFlight := by
  have hguard : ¬(¬(view q).active = true ∨ (side, q.px).1 ≠ side ∨
      (side, q.px).2 ≠ (view q).px) := by
    rw [not_or, not_or, not_not, not_not, not_not]
    exact ⟨ha, rfl, rfl⟩
  have hf' : (if e.shares < (view q).remaining then e.shares else (view q).remaining) = f := hf
  simp only [hit, if_neg hguard, hf', filled]
  by_cases h0 : f = 0
  · rw [if_pos h0, if_pos h0]
    exact ⟨rfl, rfl, rfl⟩
  · rw [if_neg h0, if_neg h0]
    exact ⟨(take_view q pos f).1, rfl, (take_view q pos f).2⟩

/-- Short of a sweep both rules take the same. -/
theorem hit_eq {q : Quote} (pos : QueuePosition) {side : Side} {pre : Pre}
    (ht : e.type = .execute) (hno : ¬Swept q side pre e) :
    view (stepSide .naive q pos side pre e).1 = (hit (view q) side (seen pre) e).1 ∧
    (stepSide .naive q pos side pre e).2.2.map Fill.core =
      (hit (view q) side (seen pre) e).2.map Fill.core ∧
    (stepSide .naive q pos side pre e).1.inFlight = q.inFlight := by
  by_cases haway : ¬q.active = true ∨ pre.side ≠ side ∨
      (¬strictlyBetter side q.px pre.px = true ∧ pre.px ≠ q.px)
  · have hhit : ¬(view q).active = true ∨ (seen pre).1 ≠ side ∨ (seen pre).2 ≠ (view q).px :=
      haway.imp_right fun h => h.imp_right And.right
    rw [stepSide_away haway, hit_away hhit]
    exact ⟨rfl, rfl, rfl⟩
  · rw [not_or, not_or, not_not, not_not, not_and_or, not_not, not_not] at haway
    obtain ⟨ha, hp, hprice⟩ := haway
    have hguard : ¬(¬q.active = true ∨ pre.side ≠ side) := by
      rw [not_or, not_not, not_not]
      exact ⟨ha, hp⟩
    by_cases hb : strictlyBetter side q.px pre.px = true
    · -- a sweep of no shares
      have hne : pre.px ≠ q.px := by
        intro he
        rw [he, strictlyBetter_irrefl] at hb
        cases hb
      have hzero : (if e.shares < q.remaining then e.shares else q.remaining) = 0 := by
        by_contra hf
        apply hno
        refine ⟨ha, hp, ht, fun h0 => hf ?_, fun h0 => hf ?_, hb⟩
        · rw [h0]
          split
          · rfl
          · rename_i hlt
            exact UInt32.le_zero_iff.mp (UInt32.not_lt.mp hlt)
        · rw [h0, if_neg UInt32.not_lt_zero]
      have hstep : stepSide .naive q pos side pre e = (q, pos, []) := by
        unfold stepSide
        rw [if_neg hguard, if_pos ⟨ht, hb⟩, hzero]
        rfl
      have hhit : ¬(view q).active = true ∨ (seen pre).1 ≠ side ∨ (seen pre).2 ≠ (view q).px :=
        Or.inr (Or.inr hne)
      rw [hstep, hit_away hhit]
      exact ⟨rfl, rfl, rfl⟩
    · have hx : pre.px = q.px := hprice.resolve_left hb
      have hstep : stepSide .naive q pos side pre e = filled e.ts side q pos
          (if e.shares < q.remaining then e.shares else q.remaining) false := by
        unfold stepSide stepAtPrice
        rw [if_neg hguard, if_neg fun hc => hb hc.2, if_neg (not_not.mpr hx), ht]
      have hseen : seen pre = (side, q.px) := Prod.ext hp hx
      rw [hstep, hseen]
      exact filled_view q pos side ha _ rfl false

/-- A sweep fills the market maker only. -/
theorem hit_swept {q : Quote} (pos : QueuePosition) {side : Side} {pre : Pre}
    (h : Swept q side pre e) : (stepSide .naive q pos side pre e).2.2 ≠ [] ∧
      (hit (view q) side (seen pre) e).2 = [] := by
  obtain ⟨ha, hp, ht, hs, hr, hb⟩ := h
  have hne : pre.px ≠ q.px := by
    intro he
    rw [he, strictlyBetter_irrefl] at hb
    cases hb
  have hguard : ¬(¬q.active = true ∨ pre.side ≠ side) := by
    rw [not_or, not_not, not_not]
    exact ⟨ha, hp⟩
  have hf : (if e.shares < q.remaining then e.shares else q.remaining) ≠ 0 := by
    split
    · exact hs
    · exact hr
  constructor
  · unfold stepSide filled
    rw [if_neg hguard, if_pos ⟨ht, hb⟩, if_neg hf]
    exact List.cons_ne_nil _ _
  · rw [hit_away (Or.inr (Or.inr hne))]

/-- A side that keeps its quote, or takes the new one. -/
theorem rq_quote (n : NaivePass) (side : Side) (target : Price) (s : Side) :
    (n.rq side target).quote s = if s = side ∧ ¬((n.quote s).active = true ∧ (n.quote s).px = target)
      then ⟨true, target, n.quoteSize⟩ else n.quote s := by
  unfold rq
  dsimp only
  by_cases hs : s = side
  · rw [hs]
    by_cases hq : (n.quote side).active = true ∧ (n.quote side).px = target
    · rw [if_pos hq, if_neg fun h => h.2 hq]
    · have hc : side = side ∧ ¬((n.quote side).active = true ∧ (n.quote side).px = target) :=
        ⟨rfl, hq⟩
      rw [if_neg hq, if_pos hc]
      exact Function.update_self ..
  · have hc : ¬(s = side ∧ ¬((n.quote s).active = true ∧ (n.quote s).px = target)) :=
      fun h => hs h.1
    rw [if_neg hc]
    split
    · rfl
    · exact Function.update_of_ne hs _ _

theorem rq_same (n : NaivePass) (side : Side) (target : Price) :
    (n.rq side target).book = n.book ∧ (n.rq side target).quoteSize = n.quoteSize := by
  unfold rq
  dsimp only
  split <;> exact ⟨rfl, rfl⟩

/-! ### Events -/

theorem hits_execute (n : NaivePass) (pre : Side × Price) (ht : e.type = .execute) :
    n.hits (some pre) e = ({ n with quote := fun side => match side with
        | .buy => (hit (n.quote .buy) .buy pre e).1
        | .sell => (hit (n.quote .sell) .sell pre e).1 },
      (hit (n.quote .buy) .buy pre e).2 ++ (hit (n.quote .sell) .sell pre e).2) := if_pos ht

/-- The fills of an event that sweeps nothing. -/
theorem Abreast.hits (h : Abreast n mm) (pre : Option Pre)
    (hno : ∀ p, pre = some p → ∀ s, ¬Swept (mm.quote s) s p e) :
    Abreast (n.hits (pre.map seen) e).1 (mm.stepSides pre e).1 ∧
    (n.hits (pre.map seen) e).2.map Fill.core = (mm.stepSides pre e).2.map Fill.core := by
  cases pre with
  | none => exact ⟨h, rfl⟩
  | some pre =>
    obtain ⟨hd, hquote, -, hfills⟩ := @stepSides_some mm e pre
    rw [h.fillModel] at hquote hfills
    have hside : ∀ s, ¬Swept (mm.quote s) s pre e := hno pre rfl
    rw [hfills, List.map_append]
    by_cases ht : e.type = .execute
    · have heq : ∀ s, _ := fun s => hit_eq (mm.pos s) ht (hside s)
      simp only [h.quote] at heq
      rw [Option.map_some, hits_execute n _ ht]
      refine ⟨⟨hd.quoteSize.trans h.quoteSize, hd.latency.trans h.latency,
        hd.fillModel.trans h.fillModel, fun s => ?_, fun s => ?_, fun s => ?_⟩, ?_⟩
      · rw [hd.allow]
        exact h.allow s
      · rw [hquote, (heq s).2.2]
        exact h.idle s
      · rw [hquote, (heq s).1]
        cases s <;> rfl
      · rw [(heq .buy).2.1, (heq .sell).2.1, List.map_append]
    · have hhit : n.hits (some (seen pre)) e = (n, []) := if_neg ht
      have hquiet : ∀ s, _ := fun s => stepSide_quiet (mm.quote s) (mm.pos s) s pre ht
      rw [Option.map_some, hhit, (hquiet .buy).2, (hquiet .sell).2]
      refine ⟨⟨hd.quoteSize.trans h.quoteSize, hd.latency.trans h.latency,
        hd.fillModel.trans h.fillModel, fun s => ?_, fun s => ?_, fun s => ?_⟩, rfl⟩
      · rw [hd.allow]
        exact h.allow s
      · rw [hquote, (hquiet s).1]
        exact h.idle s
      · rw [hquote, (hquiet s).1]
        exact h.quote s

/-- A sweep fills the market maker, and the pass not. -/
theorem Abreast.swept (h : Abreast n mm) {pre : Pre}
    (hs : Swept (mm.quote pre.side) pre.side pre e) :
    (mm.stepSides (some pre) e).2 ≠ [] ∧ (n.hits (some (seen pre)) e).2 = [] := by
  obtain ⟨-, -, -, hfills⟩ := @stepSides_some mm e pre
  rw [h.fillModel] at hfills
  obtain ⟨hmm, hpass⟩ := hit_swept (mm.pos pre.side) hs
  rw [h.quote] at hpass
  have hother : ∀ s, s ≠ pre.side → (hit (n.quote s) s (seen pre) e).2 = [] := by
    intro s hne
    rw [hit_away (Or.inr (Or.inl fun he => hne he.symm))]
  rw [hfills, hits_execute n _ hs.2.2.1]
  dsimp only
  cases hside : pre.side with
  | buy =>
    rw [hside] at hmm hpass hother
    rw [hpass, hother .sell (by decide)]
    exact ⟨fun hnil => hmm (List.append_eq_nil_iff.mp hnil).1, rfl⟩
  | sell =>
    rw [hside] at hmm hpass hother
    rw [hpass, hother .buy (by decide)]
    exact ⟨fun hnil => hmm (List.append_eq_nil_iff.mp hnil).2, rfl⟩

theorem landIfDue_indexed (hi : Indexed mm.book) (s : Side) (target : Price) (now : Ts) :
    ∃ mm', mm.landIfDue s target now = some mm' := by
  obtain ⟨level, hl⟩ := hi.levelFor_some (s := s) (p := target)
  have hjoin : ∀ q pos, ∃ mm', (mm.setSide s q pos).join s target = some mm' := by
    intro q pos
    have hl' : (mm.setSide s q pos).book.levelFor s target = some level := hl
    simp only [join, hl', Option.bind_eq_bind, Option.bind_some]
    exact ⟨_, rfl⟩
  unfold landIfDue
  dsimp only
  split
  · exact ⟨_, rfl⟩
  · split
    · exact ⟨_, rfl⟩
    · exact hjoin _ _

/-- The re-quote of both, their touch queried. -/
theorem Abreast.requote (h : Abreast n mm) (hb : mm.book = n.book) (hi : Indexed n.book) (now : Ts) :
    ∃ n' mm', n.requote = some n' ∧ mm.requote now = some mm' ∧ Twin n' mm' := by
  obtain ⟨bb, r, hfb, hbuy, hcb⟩ := hi.best_caches .buy
  have hi1 := hi.setHint hfb
  obtain ⟨ba, r', hfa, hsell, hca⟩ := hi1.best_caches .sell
  have hi2 := hi1.setHint hfa
  have hcb' := hcb.other (r := r') (s := .sell) (by decide)
  generalize (n.book.setHint .buy r).setHint .sell r' = book at hsell hi2 hcb' hca
  have hcached : ∀ s, Cached book s := by
    intro s
    cases s with
    | buy => exact hcb'
    | sell => exact hca
  have htouch : mm.queryTouch = some (bb, ba, { mm with book := book }) := by
    rw [queryTouch_some, hb]
    exact ⟨_, _, hbuy, hsell, rfl⟩
  have hn : n.requote = some (if bb = kInvalidPrice ∨ ba = kInvalidPrice ∨ ba ≤ bb
      then { n with book := book } else (rq { n with book := book } .buy bb).rq .sell ba) := by
    have hbuy' : n.book.bestBid = some (bb, n.book.setHint .buy r) := hbuy
    have hsell' : (n.book.setHint .buy r).bestAsk = some (ba, book) := hsell
    simp only [NaivePass.requote, hbuy', hsell', Option.bind_eq_bind, Option.bind_some]
    split <;> rfl
  have hmm : ∃ mm', mm.requote now = some mm' := by
    simp only [MarketMaker.requote, htouch, Option.bind_eq_bind, Option.bind_some]
    split
    · obtain ⟨mm1, h1⟩ := @landIfDue_indexed (decided { mm with book := book } bb ba now)
        hi2 .buy bb now
      have hbook : mm1.book = book := (landIfDue_landed h1).1.book
      obtain ⟨mm2, h2⟩ := landIfDue_indexed (hbook ▸ hi2) .sell ba now
      show ∃ mm', Option.bind (landIfDue (decided { mm with book := book } bb ba now) .buy bb now)
        _ = some mm'
      rw [h1, Option.bind_some, h2]
      exact ⟨_, rfl⟩
    · exact ⟨_, rfl⟩
  obtain ⟨mm', hmm'⟩ := hmm
  obtain ⟨bb', ba', mm1, htouch', hd, hcase⟩ := requote_zero h.latency h.idle hmm'
  rw [htouch] at htouch'
  obtain ⟨rfl, rfl, rfl⟩ : bb = bb' ∧ ba = ba' ∧ { mm with book := book } = mm1 := by
    simpa only [Option.some.injEq, Prod.mk.injEq] using htouch'
  have husable : usable bb ba = true ↔
      ¬(bb = kInvalidPrice ∨ ba = kInvalidPrice ∨ ba ≤ bb) := by
    unfold usable
    rw [decide_eq_true_eq, not_or, not_or, UInt32.not_le]
  refine ⟨_, mm', hn, hmm', ?_⟩
  cases hcase with
  | inl hstay =>
    obtain ⟨hu, hquote⟩ := hstay
    rw [if_pos (not_not.mp fun hc => hu (husable.mpr hc))]
    refine ⟨⟨hd.quoteSize.trans h.quoteSize, hd.latency.trans h.latency,
      hd.fillModel.trans h.fillModel, fun s => ?_, fun s => ?_, fun s => ?_⟩, hd.book, hi2, hcached⟩
    · rw [hd.allow]
      exact h.allow s
    · rw [hquote]
      exact h.idle s
    · rw [hquote]
      exact h.quote s
  | inr hmove =>
    obtain ⟨hu, hquote⟩ := hmove
    rw [if_neg (husable.mp hu)]
    obtain ⟨hbook1, hsize1⟩ := rq_same { n with book := book } .buy bb
    obtain ⟨hbook2, hsize2⟩ := rq_same (rq { n with book := book } .buy bb) .sell ba
    have hpass : ∀ s, ((rq { n with book := book } .buy bb).rq .sell ba).quote s =
        if (n.quote s).active = true ∧ (n.quote s).px = touchOf bb ba s then n.quote s
        else ⟨true, touchOf bb ba s, n.quoteSize⟩ := by
      intro s
      rw [rq_quote, rq_quote, hsize1]
      cases s with
      | buy =>
        by_cases hq : (n.quote .buy).active = true ∧ (n.quote .buy).px = bb
        · simp [hq, touchOf]
        · simp [hq, touchOf]
      | sell =>
        by_cases hq : (n.quote .sell).active = true ∧ (n.quote .sell).px = ba
        · simp [hq, touchOf]
        · simp [hq, touchOf]
    have hsettled : ∀ s, settled (mm.quote s) (touchOf bb ba s) (mm.allow s) ↔
        (n.quote s).active = true ∧ (n.quote s).px = touchOf bb ba s := by
      intro s
      rw [settled, h.allow s, ← h.quote s]
      exact and_congr_right fun ha => or_iff_right fun hn => hn ha
    refine ⟨⟨hd.quoteSize.trans (h.quoteSize.trans ?_), hd.latency.trans h.latency,
      hd.fillModel.trans h.fillModel, fun s => ?_, fun s => ?_, fun s => ?_⟩, ?_, ?_, fun s => ?_⟩
    · exact (hsize2.trans hsize1).symm
    · rw [hd.allow]
      exact h.allow s
    · cases hquote s with
      | inl hkeep =>
        rw [hkeep.2]
        exact h.idle s
      | inr hnew => exact hnew.2.1
    · rw [hpass]
      cases hquote s with
      | inl hkeep =>
        rw [if_pos ((hsettled s).mp hkeep.1), hkeep.2]
        exact h.quote s
      | inr hnew =>
        obtain ⟨hns, -, hact, hjoin⟩ := hnew
        obtain ⟨hpx, hrem, -⟩ := hjoin (h.allow s)
        rw [if_neg fun hc => hns ((hsettled s).mpr hc), view, hact, h.allow s, hpx, hrem,
          h.quoteSize]
    · rw [hbook2, hbook1]
      exact hd.book
    · rw [hbook2, hbook1]
      exact hi2
    · rw [hbook2, hbook1]
      exact hcached s

/-- What the two do with the order, when neither run breaks off before. -/
theorem Twin.onEvent (h : Twin n mm) {pre : Option Pre} {book : HybridBook}
    (hpre : mm.resolve e = some pre) (hbook : Book.apply n.book e = some book) :
    n.step e = ((hits { n with book := book } (pre.map seen) e).1.requote).map
      (fun n' => (n', (hits { n with book := book } (pre.map seen) e).2)) ∧
    mm.onEvent e = ((stepSides { mm with book := book } pre e).1.requote e.ts).map
      (fun mm' => (mm', (stepSides { mm with book := book } pre e).2)) := by
  have hres : n.resolve e = some (pre.map seen) := by rw [h.resolve, hpre, Option.map_some]
  have hbook' : Book.apply mm.book e = some book := by rwa [h.book]
  constructor
  · simp only [NaivePass.step, hres, hbook, Option.bind_eq_bind, Option.bind_some]
    cases (hits { n with book := book } (pre.map seen) e).1.requote <;> rfl
  · simp only [MarketMaker.onEvent, h.landEarlier, hpre, hbook', Option.bind_eq_bind,
      Option.bind_some]
    cases (stepSides { mm with book := book } pre e).1.requote e.ts <;> rfl

theorem hits_book (n : NaivePass) (pre : Option (Side × Price)) (e : BookEvent) :
    (n.hits pre e).1.book = n.book := by
  cases pre with
  | none => rfl
  | some pre =>
    unfold hits
    dsimp only
    split <;> rfl

theorem requote_indexed (hi : Indexed n.book) : ∃ n', n.requote = some n' := by
  obtain ⟨bb, r, hfb, hbuy, -⟩ := hi.best_caches .buy
  obtain ⟨ba, r', -, hsell, -⟩ := (hi.setHint hfb).best_caches .sell
  have hbuy' : n.book.bestBid = some (bb, n.book.setHint .buy r) := hbuy
  have hsell' : (n.book.setHint .buy r).bestAsk =
    some (ba, (n.book.setHint .buy r).setHint .sell r') := hsell
  simp only [NaivePass.requote, hbuy', hsell', Option.bind_eq_bind, Option.bind_some]
  split <;> exact ⟨_, rfl⟩

/-- An event is handled when its order is found, or not, and the book takes it. -/
theorem Twin.step_some (h : Twin n mm) : (∃ x, n.step e = some x) ↔
    ∃ pre book, mm.resolve e = some pre ∧ Book.apply n.book e = some book := by
  constructor
  · intro hstep
    obtain ⟨x, hstep⟩ := hstep
    obtain ⟨pre, hres, hstep⟩ := Option.bind_eq_some_iff.mp hstep
    obtain ⟨book, hbook, -⟩ := Option.bind_eq_some_iff.mp hstep
    rw [h.resolve] at hres
    obtain ⟨pre', hpre, -⟩ := Option.map_eq_some_iff.mp hres
    exact ⟨pre', book, hpre, hbook⟩
  · intro hbook
    obtain ⟨pre, book, hpre, hbook⟩ := hbook
    have hi : Indexed (hits { n with book := book } (pre.map seen) e).1.book := by
      rw [hits_book]
      exact h.indexed.step e.op hbook
    obtain ⟨n', hreq⟩ := requote_indexed hi
    rw [(h.onEvent hpre hbook).1, hreq]
    exact ⟨_, rfl⟩

theorem Twin.broken (h : Twin n mm) (hstep : n.step e = none) : mm.onEvent e = none := by
  cases hev : mm.onEvent e with
  | none => rfl
  | some x =>
    obtain ⟨mm1, hearly, hev⟩ := Option.bind_eq_some_iff.mp hev
    obtain ⟨pre, hpre, hev⟩ := Option.bind_eq_some_iff.mp hev
    obtain ⟨book, hbook, -⟩ := Option.bind_eq_some_iff.mp hev
    rw [h.landEarlier] at hearly
    obtain rfl := Option.some.inj hearly
    rw [h.book] at hbook
    obtain ⟨y, hy⟩ := h.step_some.mpr ⟨pre, book, hpre, hbook⟩
    rw [hy] at hstep
    cases hstep

/-- Short of a sweep the two stay together. -/
theorem Twin.step (h : Twin n mm) (hno : ¬n.sweeps e) {fills : List Fill}
    (hstep : n.step e = some (n', fills)) : ∃ mm' fills', mm.onEvent e = some (mm', fills') ∧
      fills.map Fill.core = fills'.map Fill.core ∧ Twin n' mm' := by
  obtain ⟨pre, book, hpre, hbook⟩ := h.step_some.mp ⟨_, hstep⟩
  obtain ⟨hn, hmm⟩ := h.onEvent hpre hbook
  have hab : Abreast { n with book := book } { mm with book := book } :=
    ⟨h.quoteSize, h.latency, h.fillModel, h.allow, h.idle, h.quote⟩
  have hside : ∀ p, pre = some p → ∀ s, ¬Swept (mm.quote s) s p e := by
    intro p hp s hs
    obtain ⟨ha, hps, ht, h0, hr, hb⟩ := hs
    rw [← hps] at ha hr hb
    apply hno
    refine ⟨ht, h0, p.side, p.px, ?_, ?_⟩
    · rw [h.resolve, hpre, hp]
      rfl
    · rw [← h.quote p.side]
      exact ⟨ha, hr, hb⟩
  obtain ⟨hab', hcores⟩ := hab.hits pre hside
  have hi : Indexed (hits { n with book := book } (pre.map seen) e).1.book := by
    rw [hits_book]
    exact h.indexed.step e.op hbook
  have hsame : (stepSides { mm with book := book } pre e).1.book =
      (hits { n with book := book } (pre.map seen) e).1.book := by
    rw [hits_book]
    exact (stepSides_desk pre).book
  obtain ⟨n1, mm', hreq, hreq', htwin⟩ := hab'.requote hsame hi e.ts
  rw [hn, hreq] at hstep
  obtain ⟨rfl, rfl⟩ := Prod.mk.inj (Option.some.inj hstep)
  rw [hreq'] at hmm
  exact ⟨mm', _, hmm, hcores, htwin⟩

/-- A sweep tells the two apart. -/
theorem Twin.sweep (h : Twin n mm) (hs : n.sweeps e) {fills : List Fill}
    (hstep : n.step e = some (n', fills)) :
    fills = [] ∧ ∀ mm' fills', mm.onEvent e = some (mm', fills') → fills' ≠ [] := by
  obtain ⟨pre, book, hpre, hbook⟩ := h.step_some.mp ⟨_, hstep⟩
  obtain ⟨hn, hmm⟩ := h.onEvent hpre hbook
  obtain ⟨ht, h0, side, px, hres, ha, hr, hb⟩ := hs
  rw [h.resolve, hpre] at hres
  obtain ⟨pre, rfl, hpair⟩ := Option.map_eq_some_iff.mp (Option.some.inj hres)
  obtain ⟨rfl, rfl⟩ := Prod.mk.inj hpair
  have hswept : Swept (mm.quote pre.side) pre.side pre e := by
    rw [← h.quote pre.side] at ha hr hb
    exact ⟨ha, rfl, ht, h0, hr, hb⟩
  have hab : Abreast { n with book := book } { mm with book := book } :=
    ⟨h.quoteSize, h.latency, h.fillModel, h.allow, h.idle, h.quote⟩
  obtain ⟨hfull, hnone⟩ := hab.swept hswept
  constructor
  · rw [hn] at hstep
    obtain ⟨n1, -, heq⟩ := Option.map_eq_some_iff.mp hstep
    rw [← (Prod.mk.inj heq).2]
    exact hnone
  · intro mm' fills' hev
    rw [hmm] at hev
    obtain ⟨mm1, -, heq⟩ := Option.map_eq_some_iff.mp hev
    rw [← (Prod.mk.inj heq).2]
    exact hfull

/-! ### Runs -/

/-- No event of the run sweeps a quote. -/
def unswept : NaivePass → List BookEvent → Prop
  | _, [] => True
  | n, e :: es => ∀ n' fills, n.step e = some (n', fills) → ¬n.sweeps e ∧ unswept n' es

/-- The fill sequence of a run. -/
def cores {α : Type} (run : Option (α × List Fill)) : Option (List (Ts × Price × Qty × Side)) :=
  run.map fun x => x.2.map Fill.core

theorem run_some {fills : List Fill} (h : n.step e = some (n', fills)) (es : List BookEvent) :
    cores (n.run (e :: es)) = (cores (n'.run es)).map (fills.map Fill.core ++ ·) := by
  simp only [run, h, Option.bind_eq_bind, Option.bind_some, cores]
  cases n'.run es with
  | none => rfl
  | some x => exact congrArg some (List.map_append ..)

theorem mm_run_some {fills : List Fill} (h : mm.onEvent e = some (mm', fills))
    (es : List BookEvent) : cores (mm.run ((e :: es).map .event)) =
      (cores (mm'.run (es.map .event))).map (fills.map Fill.core ++ ·) := by
  have hin : mm.input (.event e) = some (mm', fills) := h
  simp only [List.map_cons, MarketMaker.run, hin, Option.bind_eq_bind, Option.bind_some, cores]
  cases mm'.run (es.map .event) with
  | none => rfl
  | some x => exact congrArg some (List.map_append ..)

theorem run_none (h : n.step e = none) (es : List BookEvent) : cores (n.run (e :: es)) = none := by
  simp only [run, h, Option.bind_eq_bind, Option.bind_none, cores, Option.map_none]

theorem mm_run_none (h : mm.onEvent e = none) (es : List BookEvent) :
    cores (mm.run ((e :: es).map .event)) = none := by
  have hin : mm.input (.event e) = none := h
  simp only [List.map_cons, MarketMaker.run, hin, Option.bind_eq_bind, Option.bind_none, cores,
    Option.map_none]

/-- The two agree on a run exactly as long as nothing is swept. -/
theorem Twin.run (h : Twin n mm) (es : List BookEvent) :
    (∀ k, cores (n.run (es.take k)) = cores (mm.run ((es.take k).map .event))) ↔ n.unswept es := by
  induction es generalizing n mm with
  | nil => exact ⟨fun _ => trivial, fun _ k => by rw [List.take_nil]; rfl⟩
  | cons e es ih =>
    constructor
    · intro hall n' fills hstep
      have hno : ¬n.sweeps e := by
        intro hs
        obtain ⟨hnil, hfull⟩ := h.sweep hs hstep
        have hone := hall 1
        rw [List.take_succ_cons, List.take_zero, run_some hstep, hnil] at hone
        cases hev : mm.onEvent e with
        | none =>
          rw [mm_run_none hev] at hone
          cases hone
        | some x =>
          rw [mm_run_some hev] at hone
          have hlist : [] = x.2.map Fill.core ++ [] := Option.some.inj hone
          rw [List.append_nil] at hlist
          exact hfull _ _ hev (List.map_eq_nil_iff.mp hlist.symm)
      obtain ⟨mm', fills', hmm, hcore, htwin⟩ := h.step hno hstep
      refine ⟨hno, (ih htwin).mp fun k => ?_⟩
      have hk := hall (k + 1)
      rw [List.take_succ_cons, run_some hstep, mm_run_some hmm, hcore] at hk
      exact Option.map_injective (fun _ _ => List.append_cancel_left) hk
    · intro hun k
      cases k with
      | zero => rfl
      | succ k =>
        rw [List.take_succ_cons]
        cases hstep : n.step e with
        | none => rw [run_none hstep, mm_run_none (h.broken hstep)]
        | some x =>
          obtain ⟨hno, hun'⟩ := hun x.1 x.2 hstep
          obtain ⟨mm', fills', hmm, hcore, htwin⟩ := h.step hno hstep
          rw [run_some hstep, mm_run_some hmm, hcore, (ih htwin).mpr hun' k]

theorem Twin.make {lo hi : Price} {size : Qty} {maxOrders maxLevels : ℕ}
    (hn : NaivePass.make lo hi size maxOrders maxLevels = some n)
    (hmm : MarketMaker.make lo hi size 0 .naive maxOrders maxLevels = some mm) : Twin n mm := by
  obtain ⟨b, hb, rfl⟩ := make_some hmm
  obtain ⟨b', hb', hn⟩ := Option.bind_eq_some_iff.mp hn
  obtain rfl := Option.some.inj hn
  rw [hb] at hb'
  obtain rfl := Option.some.inj hb'
  have hr := (Rep.make hb).1
  have hused : ∀ s t, ¬used b s t := fun s t hu => (hr.used_iff.mp hu).2 rfl
  refine ⟨⟨rfl, rfl, rfl, fun _ => rfl, fun _ => rfl, fun _ => rfl⟩, rfl, ⟨hr.grid, fun s p => ?_⟩,
    fun s => ⟨Or.inl ?_, fun _ => hused s⟩⟩
  · have hneg : b.levelIx s p < 0 := by
      by_contra hc
      exact hr.live s p (not_lt.mp hc) rfl
    show b.levelIx s p < (b.levels.length : ℤ)
    omega
  · rcases hr.grid.hint s with hneg | ⟨t, -, -, hu⟩
    · exact hneg
    · exact absurd hu (hused s t)

/-- The naive pass and the market maker of the naive model produce the same
fills, at every point of a run, exactly when no execution sweeps a quote. -/
theorem naive_pass_fills (lo hi : Price) (size : Qty) (maxOrders maxLevels : ℕ) (n0 : NaivePass)
    (mm0 : MarketMaker) (hn : NaivePass.make lo hi size maxOrders maxLevels = some n0)
    (hmm : MarketMaker.make lo hi size 0 .naive maxOrders maxLevels = some mm0)
    (es : List BookEvent) :
    (∀ k, cores (n0.run (es.take k)) = cores (mm0.run ((es.take k).map .event))) ↔ n0.unswept es :=
  (Twin.make hn hmm).run es

/-- An execution at the price of the quote. -/
theorem naive_pass_fills_executed : ∃ (n0 : NaivePass) (mm0 : MarketMaker),
    NaivePass.make 100 300 3 4 4 = some n0 ∧
    MarketMaker.make 100 300 3 0 .naive 4 4 = some mm0 ∧
    cores (n0.run [⟨1, 1, 0, 200, 5, .add, .buy⟩, ⟨2, 2, 0, 300, 5, .add, .sell⟩,
      ⟨3, 1, 0, 0, 2, .execute, .buy⟩]) = some [(3, 200, 2, .buy)] ∧
    ((∀ k, cores (n0.run ([⟨1, 1, 0, 200, 5, .add, .buy⟩, ⟨2, 2, 0, 300, 5, .add, .sell⟩,
        ⟨3, 1, 0, 0, 2, .execute, .buy⟩].take k)) =
      cores (mm0.run (([⟨1, 1, 0, 200, 5, .add, .buy⟩, ⟨2, 2, 0, 300, 5, .add, .sell⟩,
        ⟨3, 1, 0, 0, 2, .execute, .buy⟩].take k).map .event))) ↔
      n0.unswept [⟨1, 1, 0, 200, 5, .add, .buy⟩, ⟨2, 2, 0, 300, 5, .add, .sell⟩,
        ⟨3, 1, 0, 0, 2, .execute, .buy⟩]) := by
  have hpass : ((NaivePass.make 100 300 3 4 4).bind fun n0 => cores (n0.run
      [⟨1, 1, 0, 200, 5, .add, .buy⟩, ⟨2, 2, 0, 300, 5, .add, .sell⟩,
        ⟨3, 1, 0, 0, 2, .execute, .buy⟩])) = some [(3, 200, 2, .buy)] := by decide +kernel
  have hmaker : (MarketMaker.make 100 300 3 0 .naive 4 4).isSome = true := by decide +kernel
  obtain ⟨n0, hn, hfills⟩ := Option.bind_eq_some_iff.mp hpass
  obtain ⟨mm0, hmm⟩ := Option.isSome_iff_exists.mp hmaker
  exact ⟨n0, mm0, hn, hmm, hfills, naive_pass_fills 100 300 3 4 4 n0 mm0 hn hmm _⟩

/-- A quote at the best bid, and an execution of the order behind it. -/
theorem naive_pass_misses_sweep : ¬∀ (lo hi : Price) (size : Qty) (maxOrders maxLevels : ℕ)
    (n0 : NaivePass) (mm0 : MarketMaker) (es : List BookEvent),
    NaivePass.make lo hi size maxOrders maxLevels = some n0 →
    MarketMaker.make lo hi size 0 .naive maxOrders maxLevels = some mm0 →
    cores (n0.run es) = cores (mm0.run (es.map .event)) := by
  intro hall
  have hpass : ((NaivePass.make 100 300 3 4 4).bind fun n0 => cores (n0.run
      [⟨1, 1, 0, 200, 5, .add, .buy⟩, ⟨2, 2, 0, 100, 5, .add, .buy⟩,
        ⟨3, 3, 0, 300, 5, .add, .sell⟩, ⟨4, 2, 0, 0, 4, .execute, .buy⟩])) = some [] := by
    decide +kernel
  have hmaker : ((MarketMaker.make 100 300 3 0 .naive 4 4).bind fun mm0 => cores (mm0.run
      (([⟨1, 1, 0, 200, 5, .add, .buy⟩, ⟨2, 2, 0, 100, 5, .add, .buy⟩,
        ⟨3, 3, 0, 300, 5, .add, .sell⟩, ⟨4, 2, 0, 0, 4, .execute, .buy⟩] :
        List BookEvent).map .event))) = some [(4, 200, 3, .buy)] := by decide +kernel
  obtain ⟨n0, hn, hfn⟩ := Option.bind_eq_some_iff.mp hpass
  obtain ⟨mm0, hmm, hfm⟩ := Option.bind_eq_some_iff.mp hmaker
  have heq := (hfn.symm.trans (hall 100 300 3 4 4 n0 mm0 _ hn hmm)).trans hfm
  cases heq

end NaivePass

end Hotpath.Sim
