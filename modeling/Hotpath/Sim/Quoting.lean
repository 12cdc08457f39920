import Hotpath.Sim.MarketMaker

/-!
# What one event does to the quotes

An event is cut into its stages: replacements that landed earlier, the book
change, the fills, the requote. Each stage has one lemma that says what it does
to the quote of a side; the book's own course never depends on the quotes.
-/

namespace Hotpath.Sim
open Hotpath.Book

/-- Shares filled on one side. -/
def shares (s : Side) (fills : List Fill) : ℕ :=
  ((fills.filter fun f => f.side = s).map fun f => f.qty.toNat).sum

theorem shares_append (s : Side) (xs ys : List Fill) :
    shares s (xs ++ ys) = shares s xs + shares s ys := by
  simp only [shares, List.filter_append, List.map_append, List.sum_append]

theorem shares_other {s : Side} {fills : List Fill} (h : ∀ f ∈ fills, f.side ≠ s) :
    shares s fills = 0 := by
  have hnil : fills.filter (fun f => f.side = s) = [] := by
    rw [List.filter_eq_nil_iff]
    intro f hf
    simpa using h f hf
  rw [shares, hnil]
  rfl

namespace MarketMaker

variable {mm mm' : MarketMaker} {s s' : Side} {q : Quote} {pos : QueuePosition} {e : BookEvent}

/-! ### Runs -/

theorem make_some {lo hi : Price} {size : Qty} {latency : Ts} {model : FillModel} {mo ml : ℕ}
    {mm : MarketMaker} (h : make lo hi size latency model mo ml = some mm) :
    ∃ b, HybridBook.make lo hi mo ml = some b ∧
      mm = { book := b, quoteSize := size, latency := latency, fillModel := model } := by
  simp only [make, Option.bind_eq_bind, Option.bind_eq_some_iff] at h
  obtain ⟨b, hb, h⟩ := h
  exact ⟨b, hb, (Option.some.inj h).symm⟩

theorem run_cons {x : Input} {xs : List Input} {fills : List Fill}
    (h : mm.run (x :: xs) = some (mm', fills)) :
    ∃ mm1 f1 f2, mm.input x = some (mm1, f1) ∧ mm1.run xs = some (mm', f2) ∧ fills = f1 ++ f2 := by
  simp only [run, Option.bind_eq_bind, Option.bind_eq_some_iff] at h
  obtain ⟨⟨mm1, f1⟩, h1, ⟨mm2, f2⟩, h2, h3⟩ := h
  obtain ⟨rfl, rfl⟩ := Prod.mk.inj (Option.some.inj h3)
  exact ⟨mm1, f1, f2, h1, h2, rfl⟩

theorem run_snoc {x : Input} {xs : List Input} {fills : List Fill}
    (h : mm.run (xs ++ [x]) = some (mm', fills)) :
    ∃ mm1 f1 f2, mm.run xs = some (mm1, f1) ∧ mm1.input x = some (mm', f2) ∧ fills = f1 ++ f2 := by
  induction xs generalizing mm fills with
  | nil =>
    obtain ⟨mm1, f1, f2, h1, h2, rfl⟩ := run_cons h
    obtain ⟨rfl, rfl⟩ := Prod.mk.inj (Option.some.inj h2)
    exact ⟨mm, [], f1, rfl, h1, by simp⟩
  | cons y ys ih =>
    obtain ⟨mm1, f1, f2, h1, h2, rfl⟩ := run_cons h
    obtain ⟨mm2, g1, g2, k1, k2, rfl⟩ := ih h2
    refine ⟨mm2, f1 ++ g1, g2, ?_, k2, (List.append_assoc ..).symm⟩
    simp only [run, h1, k1, Option.bind_eq_bind, Option.bind_some]
    rfl

/-- A condition on each input and the state before it. -/
def along (P : MarketMaker → Input → Prop) : MarketMaker → List Input → Prop
  | _, [] => True
  | mm, x :: xs => P mm x ∧ ∀ mm' fills, mm.input x = some (mm', fills) → along P mm' xs

/-- The condition holds along a run if it does after each part of it. -/
theorem along_of_takes {P : MarketMaker → Input → Prop} {xs : List Input}
    (h : ∀ k mm' fills x, mm.run (xs.take k) = some (mm', fills) → xs[k]? = some x → P mm' x) :
    along P mm xs := by
  induction xs generalizing mm with
  | nil => trivial
  | cons x xs ih =>
    refine ⟨h 0 mm [] x rfl rfl, fun mm1 f1 h1 => ih fun k mm' fills y hrun hy => ?_⟩
    refine h (k + 1) mm' (f1 ++ fills) y ?_ hy
    simp only [List.take_succ_cons, run, h1, hrun, Option.bind_eq_bind, Option.bind_some]
    rfl

/-! ### Stages of an event -/

theorem onEvent_some {fills : List Fill} (h : mm.onEvent e = some (mm', fills)) :
    ∃ mm1 pre book, mm.landEarlier e.ts = some mm1 ∧ mm1.resolve e = some pre ∧
      mm1.book.step e.op = some book ∧
      (({ mm1 with book := book }.stepSides pre e).1).requote e.ts = some mm' ∧
      fills = ({ mm1 with book := book }.stepSides pre e).2 := by
  simp only [onEvent, Option.bind_eq_bind, Option.bind_eq_some_iff] at h
  obtain ⟨mm1, h1, pre, h2, book, h3, mm2, h4, h5⟩ := h
  obtain ⟨rfl, rfl⟩ := Prod.mk.inj (Option.some.inj h5)
  exact ⟨mm1, pre, book, h1, h2, h3, h4, rfl⟩

theorem queryTouch_some {bb ba : Price} {mm1 : MarketMaker} :
    mm.queryTouch = some (bb, ba, mm1) ↔ ∃ b1 b2, mm.book.bestBid = some (bb, b1) ∧
      b1.bestAsk = some (ba, b2) ∧ mm1 = { mm with book := b2 } := by
  simp only [queryTouch, Option.bind_eq_bind, Option.bind_eq_some_iff]
  constructor
  · rintro ⟨⟨bb', b1⟩, h1, ⟨ba', b2⟩, h2, h3⟩
    simp only [Option.pure_def, Option.some.injEq, Prod.mk.injEq] at h3
    obtain ⟨rfl, rfl, rfl⟩ := h3
    exact ⟨b1, b2, h1, h2, rfl⟩
  · rintro ⟨b1, b2, h1, h2, rfl⟩
    exact ⟨(bb, b1), h1, (ba, b2), h2, rfl⟩

theorem setSide_quote (mm : MarketMaker) (side : Side) (q : Quote) (pos : QueuePosition) :
    (mm.setSide side q pos).quote s = if s = side then q else mm.quote s := by
  simp only [setSide, Function.update_apply]

theorem setSide_pos (mm : MarketMaker) (side : Side) (q : Quote) (pos : QueuePosition) :
    (mm.setSide side q pos).pos s = if s = side then pos else mm.pos s := by
  simp only [setSide, Function.update_apply]

/-- The fields no quote change writes. -/
structure SameDesk (mm mm' : MarketMaker) : Prop where
  book : mm'.book = mm.book
  quoteSize : mm'.quoteSize = mm.quoteSize
  latency : mm'.latency = mm.latency
  fillModel : mm'.fillModel = mm.fillModel
  allow : mm'.allow = mm.allow

theorem SameDesk.refl (mm : MarketMaker) : SameDesk mm mm := ⟨rfl, rfl, rfl, rfl, rfl⟩

theorem SameDesk.trans {a b c : MarketMaker} (h : SameDesk a b) (h' : SameDesk b c) :
    SameDesk a c :=
  ⟨h'.book.trans h.book, h'.quoteSize.trans h.quoteSize, h'.latency.trans h.latency,
    h'.fillModel.trans h.fillModel, h'.allow.trans h.allow⟩

theorem setSide_same (mm : MarketMaker) (side : Side) (q : Quote) (pos : QueuePosition) :
    SameDesk mm (mm.setSide side q pos) := ⟨rfl, rfl, rfl, rfl, rfl⟩

/-! ### Landing -/

/-- The shares a quote joins behind. -/
def resting (b : HybridBook) (side : Side) (target : Price) : Option Qty :=
  (b.levelFor side target).map fun level => (level.map HybridBook.Level.qty).getD 0

theorem join_some {side : Side} {target : Price} (h : mm.join side target = some mm') :
    SameDesk mm mm' ∧ ∃ r, resting mm.book side target = some r ∧
      mm'.quote side = { mm.quote side with
        active := true, px := target, remaining := mm.quoteSize, aheadAtJoin := r } ∧
      mm'.pos side = (mm.pos side).join r mm.book.nextSeq ∧
      ∀ s, s ≠ side → mm'.quote s = mm.quote s ∧ mm'.pos s = mm.pos s := by
  simp only [join, Option.bind_eq_bind, Option.bind_eq_some_iff] at h
  obtain ⟨level, hl, h⟩ := h
  obtain rfl := Option.some.inj h
  cases level with
  | none =>
    refine ⟨⟨rfl, rfl, rfl, rfl, rfl⟩, 0, by rw [resting, hl]; rfl, ?_, ?_, fun s hs => ?_⟩
    · simp only [setSide, Function.update_self]
    · simp only [setSide, Function.update_self]
    · simp only [setSide, Function.update_of_ne hs, and_self]
  | some level =>
    refine ⟨⟨rfl, rfl, rfl, rfl, rfl⟩, level.qty, by rw [resting, hl]; rfl, ?_, ?_, fun s hs => ?_⟩
    · simp only [setSide, Function.update_self]
    · simp only [setSide, Function.update_self]
    · simp only [setSide, Function.update_of_ne hs, and_self]

def due (q : Quote) (now : Ts) : Prop := q.inFlight = true ∧ ¬now < q.landsAt

instance (q : Quote) (now : Ts) : Decidable (due q now) :=
  inferInstanceAs (Decidable (_ ∧ _))

/-- How a side's quote stands once its landing is dealt with. -/
inductive Landed (mm : MarketMaker) (s : Side) (target : Price) (now : Ts) :
    Quote → QueuePosition → Prop where
  | wait : ¬due (mm.quote s) now → Landed mm s target now (mm.quote s) (mm.pos s)
  | gone : due (mm.quote s) now → (mm.quote s).wantActive = false →
      Landed mm s target now { mm.quote s with inFlight := false, active := false }
        (mm.pos s).leave
  | joined (r : Qty) : due (mm.quote s) now → (mm.quote s).wantActive = true →
      resting mm.book s target = some r →
      Landed mm s target now { mm.quote s with
        inFlight := false, active := true, px := target, remaining := mm.quoteSize,
        aheadAtJoin := r } ((mm.pos s).join r mm.book.nextSeq)

theorem landIfDue_landed {side : Side} {target : Price} {now : Ts}
    (h : mm.landIfDue side target now = some mm') :
    SameDesk mm mm' ∧ Landed mm side target now (mm'.quote side) (mm'.pos side) ∧
      ∀ s, s ≠ side → mm'.quote s = mm.quote s ∧ mm'.pos s = mm.pos s := by
  by_cases hd : due (mm.quote side) now
  · have hc : ¬(¬(mm.quote side).inFlight = true ∨ now < (mm.quote side).landsAt) := by
      rw [not_or, not_not]
      exact hd
    simp only [landIfDue, if_neg hc] at h
    by_cases hw : (mm.quote side).wantActive = true
    · rw [if_neg (not_not.mpr hw)] at h
      obtain ⟨hsame, r, hr, hq, hp, ho⟩ := join_some h
      refine ⟨(setSide_same ..).trans hsame, ?_, fun s hs => ?_⟩
      · rw [setSide_quote, if_pos rfl] at hq
        rw [setSide_pos, if_pos rfl] at hp
        rw [hq, hp]
        exact .joined r hd hw hr
      · obtain ⟨h1, h2⟩ := ho s hs
        rw [setSide_quote, if_neg hs] at h1
        rw [setSide_pos, if_neg hs] at h2
        exact ⟨h1, h2⟩
    · rw [if_pos hw] at h
      obtain rfl := Option.some.inj h
      refine ⟨setSide_same .., ?_, fun s hs => ⟨?_, ?_⟩⟩
      · rw [setSide_quote, if_pos rfl, setSide_pos, if_pos rfl]
        exact .gone hd (by simpa using hw)
      · rw [setSide_quote, if_neg hs]
      · rw [setSide_pos, if_neg hs]
  · have hc : ¬(mm.quote side).inFlight = true ∨ now < (mm.quote side).landsAt := by
      by_contra hc
      rw [not_or, not_not] at hc
      exact hd hc
    simp only [landIfDue, if_pos hc] at h
    obtain rfl := Option.some.inj h
    exact ⟨SameDesk.refl mm, .wait hd, fun s _ => ⟨rfl, rfl⟩⟩

/-- The touch of a side. -/
def touchOf (bb ba : Price) : Side → Price
  | .buy => bb
  | .sell => ba

theorem Landed.of_wait {target : Price} {now : Ts} (h : Landed mm s target now q pos)
    (hn : ¬due (mm.quote s) now) : q = mm.quote s ∧ pos = mm.pos s := by
  cases h with
  | wait => exact ⟨rfl, rfl⟩
  | gone hd => exact absurd hd hn
  | joined r hd => exact absurd hd hn

theorem Landed.congr {target : Price} {now : Ts} (h : Landed mm s target now q pos)
    (hd : SameDesk mm mm') (hq : mm'.quote s = mm.quote s) (hp : mm'.pos s = mm.pos s) :
    Landed mm' s target now q pos := by
  cases h with
  | wait hw =>
    rw [← hq, ← hp]
    exact .wait (by rwa [hq])
  | gone hdue hw =>
    rw [← hq, ← hp]
    exact .gone (by rwa [hq]) (by rwa [hq])
  | joined r hdue hw hr =>
    rw [← hq, ← hp, ← hd.quoteSize, ← hd.book]
    exact .joined r (by rwa [hq]) (by rwa [hq]) (by rwa [hd.book])

theorem land_both {mm1 : MarketMaker} {bb ba : Price} {now : Ts}
    (h1 : mm.landIfDue .buy bb now = some mm1) (h2 : mm1.landIfDue .sell ba now = some mm') :
    SameDesk mm mm' ∧ ∀ s, Landed mm s (touchOf bb ba s) now (mm'.quote s) (mm'.pos s) := by
  obtain ⟨d1, l1, o1⟩ := landIfDue_landed h1
  obtain ⟨d2, l2, o2⟩ := landIfDue_landed h2
  refine ⟨d1.trans d2, fun s => ?_⟩
  cases s with
  | buy =>
    obtain ⟨hq, hp⟩ := o2 .buy (by simp)
    rw [hq, hp]
    exact l1
  | sell =>
    obtain ⟨hq, hp⟩ := o1 .sell (by simp)
    have hback : SameDesk mm1 mm :=
      ⟨d1.book.symm, d1.quoteSize.symm, d1.latency.symm, d1.fillModel.symm, d1.allow.symm⟩
    exact l2.congr hback hq.symm hp.symm

theorem landEarlier_stages {now : Ts} (h : mm.landEarlier now = some mm') :
    ∃ bb ba mm1, mm.queryTouch = some (bb, ba, mm1) ∧
      ((¬usable bb ba = true ∧ mm' = mm1) ∨ (usable bb ba = true ∧ ∃ mm2,
        mm1.landIfDue .buy bb now = some mm2 ∧ mm2.landIfDue .sell ba now = some mm')) := by
  obtain ⟨⟨bb, ba, mm1⟩, hq, h⟩ := Option.bind_eq_some_iff.mp h
  refine ⟨bb, ba, mm1, hq, ?_⟩
  dsimp only at h
  by_cases hu : usable bb ba = true
  · rw [if_pos hu] at h
    exact Or.inr ⟨hu, Option.bind_eq_some_iff.mp h⟩
  · rw [if_neg hu] at h
    exact Or.inl ⟨hu, (Option.some.inj h).symm⟩

/-- Replacements that landed before the event; the touch is queried either way. -/
theorem landEarlier_some {now : Ts} (h : mm.landEarlier now = some mm') :
    ∃ bb ba mm1, mm.queryTouch = some (bb, ba, mm1) ∧ SameDesk mm1 mm' ∧
      ((¬usable bb ba = true ∧ mm' = mm1) ∨
        (usable bb ba = true ∧
          ∀ s, Landed mm1 s (touchOf bb ba s) now (mm'.quote s) (mm'.pos s))) := by
  obtain ⟨bb, ba, mm1, hq, hcase⟩ := landEarlier_stages h
  refine ⟨bb, ba, mm1, hq, ?_⟩
  rcases hcase with ⟨hu, rfl⟩ | ⟨hu, mm2, h1, h2⟩
  · exact ⟨SameDesk.refl _, Or.inl ⟨hu, rfl⟩⟩
  · obtain ⟨hd, hl⟩ := land_both h1 h2
    exact ⟨hd, Or.inr ⟨hu, hl⟩⟩

theorem landEarlier_idle {now : Ts} (hidle : ∀ s, (mm.quote s).inFlight = false)
    (h : mm.landEarlier now = some mm') :
    (∃ bb ba mm1, mm.queryTouch = some (bb, ba, mm1) ∧ mm'.book = mm1.book) ∧
      mm'.quoteSize = mm.quoteSize ∧ mm'.latency = mm.latency ∧ mm'.fillModel = mm.fillModel ∧
      mm'.allow = mm.allow ∧ mm'.quote = mm.quote ∧ mm'.pos = mm.pos := by
  obtain ⟨bb, ba, mm1, hq, hd, hcase⟩ := landEarlier_some h
  obtain ⟨b1, b2, -, -, rfl⟩ := queryTouch_some.mp hq
  have hsides : ∀ s, mm'.quote s = mm.quote s ∧ mm'.pos s = mm.pos s := by
    intro s
    rcases hcase with ⟨-, rfl⟩ | ⟨-, hl⟩
    · exact ⟨rfl, rfl⟩
    · refine (hl s).of_wait fun hc => ?_
      have hf : (mm.quote s).inFlight = true := hc.1
      rw [hidle s] at hf
      cases hf
  exact ⟨⟨bb, ba, _, hq, hd.book⟩, hd.quoteSize, hd.latency, hd.fillModel, hd.allow,
    funext fun s => (hsides s).1, funext fun s => (hsides s).2⟩

/-! ### Requoting -/

/-- The decisions taken at a usable touch. -/
def decided (mm : MarketMaker) (bb ba : Price) (now : Ts) : MarketMaker :=
  { mm with quote := fun side => match side with
      | .buy => decide mm.latency (mm.quote .buy) bb now (mm.allow .buy)
      | .sell => decide mm.latency (mm.quote .sell) ba now (mm.allow .sell) }

theorem decided_quote (mm : MarketMaker) (bb ba : Price) (now : Ts) (s : Side) :
    (mm.decided bb ba now).quote s =
      decide mm.latency (mm.quote s) (touchOf bb ba s) now (mm.allow s) := by
  cases s <;> rfl

theorem requote_stages {now : Ts} (h : mm.requote now = some mm') :
    ∃ bb ba mm1, mm.queryTouch = some (bb, ba, mm1) ∧
      ((¬usable bb ba = true ∧ mm' = mm1) ∨ (usable bb ba = true ∧ ∃ mm2 mm3,
        (mm1.decided bb ba now).landIfDue .buy bb now = some mm2 ∧
        mm2.landIfDue .sell ba now = some mm3 ∧
        mm' = { mm3 with mid := ((bb.toNat : ℚ) + ba.toNat) / 2, haveMid := true })) := by
  obtain ⟨⟨bb, ba, mm1⟩, hq, h⟩ := Option.bind_eq_some_iff.mp h
  refine ⟨bb, ba, mm1, hq, ?_⟩
  dsimp only at h
  by_cases hu : usable bb ba = true
  · rw [if_pos hu] at h
    obtain ⟨mm2, h1, h⟩ := Option.bind_eq_some_iff.mp h
    obtain ⟨mm3, h2, h⟩ := Option.bind_eq_some_iff.mp h
    exact Or.inr ⟨hu, mm2, mm3, h1, h2, (Option.some.inj h).symm⟩
  · rw [if_neg hu] at h
    exact Or.inl ⟨hu, (Option.some.inj h).symm⟩

theorem requote_some {now : Ts} (h : mm.requote now = some mm') :
    ∃ bb ba mm1, mm.queryTouch = some (bb, ba, mm1) ∧ SameDesk mm1 mm' ∧
      ((¬usable bb ba = true ∧ mm' = mm1) ∨
        (usable bb ba = true ∧ ∀ s, Landed (mm1.decided bb ba now) s (touchOf bb ba s) now
          (mm'.quote s) (mm'.pos s))) := by
  obtain ⟨bb, ba, mm1, hq, hcase⟩ := requote_stages h
  refine ⟨bb, ba, mm1, hq, ?_⟩
  rcases hcase with ⟨hu, rfl⟩ | ⟨hu, mm2, mm3, h1, h2, rfl⟩
  · exact ⟨SameDesk.refl _, Or.inl ⟨hu, rfl⟩⟩
  · obtain ⟨hd, hl⟩ := land_both h1 h2
    exact ⟨⟨hd.book, hd.quoteSize, hd.latency, hd.fillModel, hd.allow⟩, Or.inr ⟨hu, hl⟩⟩

/-- Nothing to decide: the quote is where it is wanted. -/
def settled (q : Quote) (target : Price) (allow : Bool) : Prop :=
  q.active = allow ∧ (¬q.active = true ∨ q.px = target)

instance (q : Quote) (target : Price) (allow : Bool) : Decidable (settled q target allow) :=
  inferInstanceAs (Decidable (_ ∧ _))

theorem decide_idle {latency now : Ts} {target : Price} {allow : Bool} (hq : q.inFlight = false) :
    decide latency q target now allow = if settled q target allow then q
      else { q with inFlight := true, wantActive := allow, landsAt := now + latency } := by
  simp only [decide, hq, settled, Bool.false_eq_true, if_false]
  rfl

/-- With no latency a decision lands in the event that takes it. -/
theorem requote_zero {now : Ts} (hlat : mm.latency = 0)
    (hidle : ∀ s, (mm.quote s).inFlight = false) (h : mm.requote now = some mm') :
    ∃ bb ba mm1, mm.queryTouch = some (bb, ba, mm1) ∧ SameDesk mm1 mm' ∧
      ((¬usable bb ba = true ∧ mm'.quote = mm.quote) ∨
        (usable bb ba = true ∧ ∀ s, (settled (mm.quote s) (touchOf bb ba s) (mm.allow s) ∧
            mm'.quote s = mm.quote s) ∨
          (¬settled (mm.quote s) (touchOf bb ba s) (mm.allow s) ∧
            (mm'.quote s).inFlight = false ∧ (mm'.quote s).active = mm.allow s ∧
            (mm.allow s = true → (mm'.quote s).px = touchOf bb ba s ∧
              (mm'.quote s).remaining = mm.quoteSize ∧
              ∃ r, resting mm'.book s (touchOf bb ba s) = some r ∧
                mm'.pos s = (mm.pos s).join r mm'.book.nextSeq)))) := by
  obtain ⟨bb, ba, mm1, hq, hd, hcase⟩ := requote_some h
  obtain ⟨b1, b2, -, -, hmm1⟩ := queryTouch_some.mp hq
  refine ⟨bb, ba, mm1, hq, hd, ?_⟩
  rcases hcase with ⟨hu, rfl⟩ | ⟨hu, hl⟩
  · exact Or.inl ⟨hu, by rw [hmm1]⟩
  · refine Or.inr ⟨hu, fun s => ?_⟩
    have hquote : (mm1.decided bb ba now).quote s =
        if settled (mm.quote s) (touchOf bb ba s) (mm.allow s) then mm.quote s
        else { mm.quote s with inFlight := true, wantActive := mm.allow s, landsAt := now } := by
      rw [decided_quote, hmm1, decide_idle (hidle s), hlat, UInt64.add_zero]
    by_cases hs : settled (mm.quote s) (touchOf bb ba s) (mm.allow s)
    · rw [if_pos hs] at hquote
      refine Or.inl ⟨hs, ?_⟩
      have hnot : ¬due ((mm1.decided bb ba now).quote s) now := by
        rw [hquote]
        rintro ⟨hf, -⟩
        rw [hidle s] at hf
        cases hf
      rw [((hl s).of_wait hnot).1, hquote]
    · rw [if_neg hs] at hquote
      have hdue : due ((mm1.decided bb ba now).quote s) now := by
        rw [hquote]
        exact ⟨rfl, UInt64.lt_irrefl now⟩
      have hwant : ((mm1.decided bb ba now).quote s).wantActive = mm.allow s := by rw [hquote]
      have hsize : (mm1.decided bb ba now).quoteSize = mm.quoteSize := by rw [hmm1]; rfl
      right
      have hland := hl s
      generalize mm'.quote s = q' at hland ⊢
      generalize mm'.pos s = pos' at hland
      cases hland with
      | wait hn => exact absurd hdue hn
      | gone _ hw =>
        rw [hwant] at hw
        refine ⟨hs, rfl, hw.symm, fun ha => ?_⟩
        rw [hw] at ha
        cases ha
      | joined r _ hw hr =>
        rw [hwant] at hw
        refine ⟨hs, rfl, hw.symm, fun _ => ⟨rfl, hsize, r, ?_, ?_⟩⟩
        · rw [hd.book]
          exact hr
        · rw [hd.book, hmm1]
          rfl

/-! ### Fills -/

/-- An execution that takes shares of the quote: of an order at its price, or at a
worse one. -/
def hits (side : Side) (q : Quote) (pre : Pre) (e : BookEvent) : Prop :=
  q.active = true ∧ pre.side = side ∧ e.type = .execute ∧
    (strictlyBetter side q.px pre.px = true ∨ pre.px = q.px)

def live (q : Quote) : ℕ := if q.active then q.remaining.toNat else 0

theorem filled_spec (ts : Ts) (side : Side) (pos : QueuePosition) {f : Qty} (swept : Bool)
    (ha : q.active = true) (hf : f ≤ q.remaining) :
    shares side (filled ts side q pos f swept).2.2 = f.toNat ∧
    (∀ x ∈ (filled ts side q pos f swept).2.2, x.side = side) ∧
    live (filled ts side q pos f swept).1 + f.toNat = live q ∧
    (filled ts side q pos f swept).1.px = q.px ∧
    (filled ts side q pos f swept).1.inFlight = q.inFlight ∧
    ((filled ts side q pos f swept).1.active = true → 0 < q.remaining.toNat →
      0 < (filled ts side q pos f swept).1.remaining.toNat) := by
  unfold filled
  by_cases h0 : f = 0
  · rw [if_pos h0, h0]
    refine ⟨rfl, fun x hx => (by cases hx), rfl, rfl, rfl, fun _ h => h⟩
  · rw [if_neg h0]
    have hle := UInt32.le_iff_toNat_le.mp hf
    have hsub : (q.remaining - f).toNat = q.remaining.toNat - f.toNat :=
      UInt32.toNat_sub_of_le _ _ hf
    have hone : shares side [(⟨ts, q.px, f, side, q.aheadAtJoin, q.inFlight, swept⟩ : Fill)] =
        f.toNat := by
      simp [shares]
    unfold take
    by_cases hz : q.remaining - f = 0
    · have hz' : q.remaining.toNat - f.toNat = 0 := by rw [← hsub, hz]; rfl
      simp only [hz, if_true]
      refine ⟨hone, by simp, ?_, trivial, trivial, fun h => absurd h (by simp)⟩
      simp only [live, ha, if_true, Bool.false_eq_true, if_false]
      omega
    · simp only [hz, if_false]
      refine ⟨hone, by simp, ?_, trivial, trivial, fun _ _ => ?_⟩
      · simp only [live, ha, if_true, hsub]
        omega
      · rw [hsub]
        have hne : q.remaining.toNat - f.toNat ≠ 0 := by
          intro h
          exact hz (UInt32.toNat_inj.mp (by rw [hsub, h]; rfl))
        omega

theorem strictlyBetter_irrefl (side : Side) (p : Price) : strictlyBetter side p p = false := by
  cases side <;> simp [strictlyBetter]

theorem least_le (a b : Qty) : (if a < b then a else b) ≤ b ∧
    (if a < b then a else b).toNat = min a.toNat b.toNat := by
  split
  · rename_i h
    have h' := UInt32.lt_iff_toNat_lt.mp h
    exact ⟨UInt32.le_of_lt h, by omega⟩
  · rename_i h
    have h' : ¬a.toNat < b.toNat := fun hc => h (UInt32.lt_iff_toNat_lt.mpr hc)
    exact ⟨UInt32.le_refl b, by omega⟩

theorem onExecution_le (pos : QueuePosition) (seq : UInt32) (executed rem : Qty) :
    (pos.onExecution seq executed rem).1 ≤ rem ∧
      (pos.onExecution seq executed rem).1.toNat ≤ executed.toNat := by
  have hle : ∀ ahead : Qty, ¬executed ≤ ahead → (executed - ahead).toNat ≤ executed.toNat := by
    intro ahead h
    have hlt : ahead ≤ executed := by
      rw [UInt32.le_iff_toNat_le] at h ⊢
      omega
    rw [UInt32.toNat_sub_of_le _ _ hlt]
    exact Nat.sub_le ..
  have hcase : ∀ p : QueuePosition, ((if executed ≤ p.ahead
      then ((0 : Qty), { p with ahead := p.ahead - executed })
      else (if executed - p.ahead < rem then executed - p.ahead else rem, { p with ahead := 0 })
      : Qty × QueuePosition).1) ≤ rem ∧ ((if executed ≤ p.ahead
      then ((0 : Qty), { p with ahead := p.ahead - executed })
      else (if executed - p.ahead < rem then executed - p.ahead else rem, { p with ahead := 0 })
      : Qty × QueuePosition).1).toNat ≤ executed.toNat := by
    intro p
    split
    · exact ⟨UInt32.zero_le, Nat.zero_le _⟩
    · rename_i h
      obtain ⟨h1, h2⟩ := least_le (executed - p.ahead) rem
      refine ⟨h1, ?_⟩
      have := hle p.ahead h
      show (if executed - p.ahead < rem then executed - p.ahead else rem).toNat ≤ _
      omega
  exact hcase _

/-- What one execution, cancel or delete does to a quote: `f` shares are taken. -/
structure Taken (side : Side) (q q' : Quote) (fills : List Fill) (f : ℕ) : Prop where
  shares : shares side fills = f
  side : ∀ x ∈ fills, x.side = side
  live : live q' + f = live q
  px : q'.px = q.px
  inFlight : q'.inFlight = q.inFlight
  active : q'.active = true → q.active = true
  left : q'.active = true → 0 < q.remaining.toNat → 0 < q'.remaining.toNat

theorem taken_none (side : Side) (q : Quote) : Taken side q q [] 0 :=
  ⟨rfl, fun _ h => absurd h List.not_mem_nil, rfl, rfl, rfl, id, fun _ h => h⟩

theorem taken_filled (ts : Ts) (side : Side) (pos : QueuePosition) {f : Qty} (swept : Bool)
    (ha : q.active = true) (hf : f ≤ q.remaining) :
    Taken side q (filled ts side q pos f swept).1 (filled ts side q pos f swept).2.2 f.toNat := by
  obtain ⟨h1, h2, h3, h4, h5, h6⟩ := filled_spec ts side pos swept ha hf
  exact ⟨h1, h2, h3, h4, h5, fun _ => ha, h6⟩

/-- Under the naive model a hit takes all it can. -/
theorem stepSide_naive (q : Quote) (pos : QueuePosition) (side : Side) (pre : Pre)
    (e : BookEvent) : ∃ f, Taken side q (stepSide .naive q pos side pre e).1
      (stepSide .naive q pos side pre e).2.2 f ∧
      (hits side q pre e → f = min e.shares.toNat q.remaining.toNat) ∧
      (¬hits side q pre e → f = 0) := by
  unfold stepSide
  by_cases h1 : ¬q.active = true ∨ pre.side ≠ side
  · rw [if_pos h1]
    refine ⟨0, taken_none side q, fun h => ?_, fun _ => rfl⟩
    rcases h1 with h1 | h1
    · exact absurd h.1 h1
    · exact absurd h.2.1 h1
  · rw [if_neg h1]
    rw [not_or, not_not, not_not] at h1
    obtain ⟨hle, hmin⟩ := least_le e.shares q.remaining
    by_cases h2 : e.type = .execute ∧ strictlyBetter side q.px pre.px = true
    · rw [if_pos h2]
      exact ⟨_, taken_filled _ _ _ _ h1.1 hle, fun _ => hmin,
        fun h => absurd ⟨h1.1, h1.2, h2.1, Or.inl h2.2⟩ h⟩
    · rw [if_neg h2]
      by_cases h3 : pre.px ≠ q.px
      · rw [if_pos h3]
        refine ⟨0, taken_none side q, fun h => ?_, fun _ => rfl⟩
        rcases h.2.2.2 with h4 | h4
        · exact absurd ⟨h.2.2.1, h4⟩ h2
        · exact absurd h4 h3
      · rw [if_neg h3]
        have h3' := not_not.mp h3
        unfold stepAtPrice
        cases he : e.type with
        | execute =>
          exact ⟨_, taken_filled _ _ _ _ h1.1 hle, fun _ => hmin,
            fun h => absurd ⟨h1.1, h1.2, he, Or.inr h3'⟩ h⟩
        | add => exact ⟨0, taken_none side q, fun h => absurd (he.symm.trans h.2.2.1) (by simp),
            fun _ => rfl⟩
        | cancel => exact ⟨0, taken_none side q, fun h => absurd (he.symm.trans h.2.2.1) (by simp),
            fun _ => rfl⟩
        | delete => exact ⟨0, taken_none side q, fun h => absurd (he.symm.trans h.2.2.1) (by simp),
            fun _ => rfl⟩
        | replace => exact ⟨0, taken_none side q, fun h => absurd (he.symm.trans h.2.2.1) (by simp),
            fun _ => rfl⟩

/-- Under the queue model a hit takes at most that. -/
theorem stepSide_queueAware (q : Quote) (pos : QueuePosition) (side : Side) (pre : Pre)
    (e : BookEvent) : ∃ f, Taken side q (stepSide .queueAware q pos side pre e).1
      (stepSide .queueAware q pos side pre e).2.2 f ∧
      (hits side q pre e → f ≤ min e.shares.toNat q.remaining.toNat) ∧
      (¬hits side q pre e → f = 0) := by
  unfold stepSide
  by_cases h1 : ¬q.active = true ∨ pre.side ≠ side
  · rw [if_pos h1]
    exact ⟨0, taken_none side q, fun _ => Nat.zero_le _, fun _ => rfl⟩
  · rw [if_neg h1]
    rw [not_or, not_not, not_not] at h1
    by_cases h2 : e.type = .execute ∧ strictlyBetter side q.px pre.px = true
    · rw [if_pos h2]
      obtain ⟨hle, hmin⟩ := least_le e.shares q.remaining
      exact ⟨_, taken_filled _ _ _ _ h1.1 hle, fun _ => hmin.le,
        fun h => absurd ⟨h1.1, h1.2, h2.1, Or.inl h2.2⟩ h⟩
    · rw [if_neg h2]
      by_cases h3 : pre.px ≠ q.px
      · rw [if_pos h3]
        exact ⟨0, taken_none side q, fun _ => Nat.zero_le _, fun _ => rfl⟩
      · rw [if_neg h3]
        have h3' := not_not.mp h3
        unfold stepAtPrice
        cases he : e.type with
        | execute =>
          obtain ⟨hle, hex⟩ := onExecution_le pos pre.seq e.shares q.remaining
          refine ⟨(pos.onExecution pre.seq e.shares q.remaining).1.toNat,
            taken_filled _ _ _ _ h1.1 hle, fun _ => ?_, fun h => absurd ⟨h1.1, h1.2, he, Or.inr h3'⟩ h⟩
          have hle' := UInt32.le_iff_toNat_le.mp hle
          omega
        | add => exact ⟨0, taken_none side q, fun _ => Nat.zero_le _, fun _ => rfl⟩
        | cancel => exact ⟨0, taken_none side q, fun _ => Nat.zero_le _, fun _ => rfl⟩
        | delete => exact ⟨0, taken_none side q, fun _ => Nat.zero_le _, fun _ => rfl⟩
        | replace => exact ⟨0, taken_none side q, fun _ => Nat.zero_le _, fun _ => rfl⟩

theorem filled_keeps (ts : Ts) (side : Side) (pos : QueuePosition) (f : Qty) (swept : Bool) :
    ∃ active remaining, (filled ts side q pos f swept).1 =
      { q with active := active, remaining := remaining } := by
  unfold filled take
  by_cases h0 : f = 0
  · rw [if_pos h0]
    exact ⟨q.active, q.remaining, rfl⟩
  · rw [if_neg h0]
    by_cases hz : q.remaining - f = 0
    · simp only [hz, if_true]
      exact ⟨false, 0, rfl⟩
    · simp only [hz, if_false]
      exact ⟨q.active, q.remaining - f, rfl⟩

/-- An event changes no more of a quote than what it still has. -/
theorem stepSide_keeps (model : FillModel) (q : Quote) (pos : QueuePosition) (side : Side)
    (pre : Pre) (e : BookEvent) : ∃ active remaining, (stepSide model q pos side pre e).1 =
      { q with active := active, remaining := remaining } := by
  unfold stepSide
  split
  · exact ⟨q.active, q.remaining, rfl⟩
  · split
    · exact filled_keeps ..
    · split
      · exact ⟨q.active, q.remaining, rfl⟩
      · unfold stepAtPrice
        cases e.type with
        | execute =>
          cases model with
          | naive => exact filled_keeps ..
          | queueAware => exact filled_keeps ..
        | _ => exact ⟨q.active, q.remaining, rfl⟩

theorem stepSide_taken (model : FillModel) (q : Quote) (pos : QueuePosition) (side : Side)
    (pre : Pre) (e : BookEvent) : ∃ f, Taken side q (stepSide model q pos side pre e).1
      (stepSide model q pos side pre e).2.2 f := by
  cases model with
  | naive =>
    obtain ⟨f, ht, -⟩ := stepSide_naive q pos side pre e
    exact ⟨f, ht⟩
  | queueAware =>
    obtain ⟨f, ht, -⟩ := stepSide_queueAware q pos side pre e
    exact ⟨f, ht⟩

/-- A fill's price and its two marks, read off the quote and the order it is hit with. -/
def Marked (q : Quote) (side : Side) (pre : Pre) (e : BookEvent) (f : Fill) : Prop :=
  f.side = side ∧ f.price = q.px ∧ f.stale = q.inFlight ∧
    (f.swept = true → q.active = true ∧ pre.side = side ∧ e.type = .execute ∧
      strictlyBetter side q.px pre.px = true)

theorem filled_marks (ts : Ts) (side : Side) (pos : QueuePosition) (f : Qty) (swept : Bool)
    {x : Fill} (hx : x ∈ (filled ts side q pos f swept).2.2) :
    x.side = side ∧ x.price = q.px ∧ x.stale = q.inFlight ∧ x.swept = swept := by
  unfold filled at hx
  by_cases h0 : f = 0
  · rw [if_pos h0] at hx
    cases hx
  · rw [if_neg h0] at hx
    obtain rfl := List.mem_singleton.mp hx
    exact ⟨rfl, rfl, rfl, rfl⟩

theorem stepSide_marks (model : FillModel) (q : Quote) (pos : QueuePosition) (side : Side)
    (pre : Pre) (e : BookEvent) {x : Fill} (hx : x ∈ (stepSide model q pos side pre e).2.2) :
    Marked q side pre e x := by
  have hplain : ∀ p f, x ∈ (filled e.ts side q p f false).2.2 → Marked q side pre e x := by
    intro p f h
    obtain ⟨h1, h2, h3, h4⟩ := filled_marks e.ts side p f false h
    refine ⟨h1, h2, h3, fun hs => ?_⟩
    rw [h4] at hs
    cases hs
  unfold stepSide at hx
  by_cases h1 : ¬q.active = true ∨ pre.side ≠ side
  · rw [if_pos h1] at hx
    cases hx
  · rw [if_neg h1] at hx
    rw [not_or, not_not, not_not] at h1
    by_cases h2 : e.type = .execute ∧ strictlyBetter side q.px pre.px = true
    · rw [if_pos h2] at hx
      obtain ⟨hs, hp, hf, -⟩ := filled_marks _ _ _ _ _ hx
      exact ⟨hs, hp, hf, fun _ => ⟨h1.1, h1.2, h2.1, h2.2⟩⟩
    · rw [if_neg h2] at hx
      by_cases h3 : pre.px ≠ q.px
      · rw [if_pos h3] at hx
        cases hx
      · rw [if_neg h3] at hx
        unfold stepAtPrice at hx
        cases he : e.type with
        | execute =>
          rw [he] at hx
          cases model with
          | naive => exact hplain _ _ hx
          | queueAware => exact hplain _ _ hx
        | _ =>
          rw [he] at hx
          cases hx

theorem stepSides_none : mm.stepSides none e = (mm, []) := rfl

theorem stepSides_some (pre : Pre) :
    SameDesk mm (mm.stepSides (some pre) e).1 ∧
    (∀ s, (mm.stepSides (some pre) e).1.quote s =
      (stepSide mm.fillModel (mm.quote s) (mm.pos s) s pre e).1) ∧
    (∀ s, (mm.stepSides (some pre) e).1.pos s =
      (stepSide mm.fillModel (mm.quote s) (mm.pos s) s pre e).2.1) ∧
    (mm.stepSides (some pre) e).2 =
      (stepSide mm.fillModel (mm.quote .buy) (mm.pos .buy) .buy pre e).2.2 ++
      (stepSide mm.fillModel (mm.quote .sell) (mm.pos .sell) .sell pre e).2.2 := by
  refine ⟨⟨rfl, rfl, rfl, rfl, rfl⟩, fun s => ?_, fun s => ?_, rfl⟩
  · simp only [stepSides, setSide_quote, setSide_pos]
    cases s <;> rfl
  · simp only [stepSides, setSide_quote, setSide_pos]
    cases s <;> rfl

theorem stepSides_desk (pre : Option Pre) : SameDesk mm (mm.stepSides pre e).1 := by
  cases pre with
  | none => exact SameDesk.refl mm
  | some pre => exact (stepSides_some pre).1

theorem stepSides_marks (pre : Option Pre) {x : Fill} (hx : x ∈ (mm.stepSides pre e).2) :
    ∃ p, pre = some p ∧ Marked (mm.quote x.side) x.side p e x := by
  cases pre with
  | none => cases hx
  | some p =>
    rw [(stepSides_some p).2.2.2] at hx
    cases List.mem_append.mp hx with
    | inl hx =>
      have hm := stepSide_marks _ _ _ _ _ _ hx
      rw [hm.1]
      exact ⟨p, rfl, hm⟩
    | inr hx =>
      have hm := stepSide_marks _ _ _ _ _ _ hx
      rw [hm.1]
      exact ⟨p, rfl, hm⟩

/-- What a market maker is made with. -/
structure SameSetup (mm mm' : MarketMaker) : Prop where
  quoteSize : mm'.quoteSize = mm.quoteSize
  latency : mm'.latency = mm.latency
  fillModel : mm'.fillModel = mm.fillModel

theorem SameSetup.trans {a b c : MarketMaker} (h : SameSetup a b) (h' : SameSetup b c) :
    SameSetup a c :=
  ⟨h'.quoteSize.trans h.quoteSize, h'.latency.trans h.latency, h'.fillModel.trans h.fillModel⟩

theorem SameDesk.setup (h : SameDesk mm mm') : SameSetup mm mm' :=
  ⟨h.quoteSize, h.latency, h.fillModel⟩

theorem queryTouch_setup {bb ba : Price} (h : mm.queryTouch = some (bb, ba, mm')) :
    SameSetup mm mm' := by
  obtain ⟨b1, b2, -, -, rfl⟩ := queryTouch_some.mp h
  exact ⟨rfl, rfl, rfl⟩

theorem stepSides_setup (pre : Option Pre) : SameSetup mm (mm.stepSides pre e).1 :=
  (stepSides_desk pre).setup

theorem landEarlier_setup {now : Ts} (h : mm.landEarlier now = some mm') : SameSetup mm mm' := by
  obtain ⟨bb, ba, mm1, hq, hd, -⟩ := landEarlier_some h
  exact (queryTouch_setup hq).trans hd.setup

theorem input_setup {x : Input} {fills : List Fill} (h : mm.input x = some (mm', fills)) :
    SameSetup mm mm' := by
  cases x with
  | quoting allowBid allowAsk =>
    obtain ⟨rfl, -⟩ := Prod.mk.inj (Option.some.inj h)
    exact ⟨rfl, rfl, rfl⟩
  | event e =>
    obtain ⟨mm1, pre, book, h1, -, -, h4, -⟩ := onEvent_some h
    obtain ⟨bb, ba, mm2, hq, hd, -⟩ := requote_some h4
    have hbook : SameSetup mm1 { mm1 with book := book } := ⟨rfl, rfl, rfl⟩
    exact (landEarlier_setup h1).trans (hbook.trans
      ((stepSides_setup pre).trans ((queryTouch_setup hq).trans hd.setup)))

theorem run_setup {xs : List Input} {fills : List Fill} (h : mm.run xs = some (mm', fills)) :
    SameSetup mm mm' := by
  induction xs generalizing mm fills with
  | nil =>
    obtain ⟨rfl, -⟩ := Prod.mk.inj (Option.some.inj h)
    exact ⟨rfl, rfl, rfl⟩
  | cons x xs ih =>
    obtain ⟨mm1, f1, f2, h1, h2, -⟩ := run_cons h
    exact (input_setup h1).trans (ih h2)

theorem shares_stepSides (pre : Pre) (s : Side)
    (h : ∀ s x, x ∈ (stepSide mm.fillModel (mm.quote s) (mm.pos s) s pre e).2.2 → x.side = s) :
    shares s (mm.stepSides (some pre) e).2 =
      shares s (stepSide mm.fillModel (mm.quote s) (mm.pos s) s pre e).2.2 := by
  rw [(stepSides_some pre).2.2.2, shares_append]
  cases s with
  | buy =>
    have hsell : shares .buy
        (stepSide mm.fillModel (mm.quote .sell) (mm.pos .sell) .sell pre e).2.2 = 0 := by
      apply shares_other
      intro x hx
      rw [h .sell x hx]
      simp
    rw [hsell, Nat.add_zero]
  | sell =>
    have hbuy : shares .sell
        (stepSide mm.fillModel (mm.quote .buy) (mm.pos .buy) .buy pre e).2.2 = 0 := by
      apply shares_other
      intro x hx
      rw [h .buy x hx]
      simp
    rw [hbuy, Nat.zero_add]

end MarketMaker

end Hotpath.Sim
