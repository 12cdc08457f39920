import Hotpath.Book.HybridFifo
import Hotpath.Sim.QueueAhead

/-!
# No event leaves the model

A market maker whose book is well-formed and whose pools fit their indices
handles every event: no lookup, landing or query of it reads a vector outside
its range.
-/

namespace Hotpath.Sim
open Hotpath.Book Hotpath.Book.HybridBook Hotpath.Support

namespace MarketMaker

variable {mm mm' : MarketMaker} {Q : Queues} {e : BookEvent} {s : Side}

/-- A book on which no operation fails. -/
def Usable (b : HybridBook) : Prop := Small b ∧ ∃ Q, Rep b Q

theorem Usable.setHint {b : HybridBook} {r : ℤ} (h : Usable b) (hf : HintFor b s r) :
    Usable (b.setHint s r) := by
  obtain ⟨hs, Q, hr⟩ := h
  exact ⟨⟨hs.orders, hs.levels⟩, Q, hr.setHint s hf⟩

theorem queryTouch_total (h : Usable mm.book) :
    ∃ bb ba mm1, mm.queryTouch = some (bb, ba, mm1) ∧ Usable mm1.book := by
  obtain ⟨bb, rb, hfb, hb⟩ := h.2.choose_spec.grid.best_some .buy
  have h1 := h.setHint hfb
  obtain ⟨ba, ra, hfa, ha⟩ := h1.2.choose_spec.grid.best_some .sell
  exact ⟨bb, ba, _, queryTouch_some.mpr ⟨_, _, hb, ha, rfl⟩, h1.setHint hfa⟩

theorem join_total (h : Usable mm.book) (target : Price) :
    ∃ mm', mm.join s target = some mm' ∧ Usable mm'.book := by
  obtain ⟨hs, Q, hr⟩ := h
  have hrest := resting_eq hr s target
  obtain ⟨level, hl, -⟩ := Option.map_eq_some_iff.mp hrest
  simp only [join, hl, Option.bind_eq_bind, Option.bind_some]
  exact ⟨_, rfl, hs, Q, hr⟩

theorem landIfDue_total (h : Usable mm.book) (target : Price) (now : Ts) :
    ∃ mm', mm.landIfDue s target now = some mm' ∧ Usable mm'.book := by
  unfold landIfDue
  dsimp only
  split
  · exact ⟨mm, rfl, h⟩
  · split
    · exact ⟨_, rfl, h⟩
    · exact join_total (by exact h) target

theorem landEarlier_total (h : Usable mm.book) (now : Ts) :
    ∃ mm', mm.landEarlier now = some mm' ∧ Usable mm'.book := by
  obtain ⟨bb, ba, mm1, hq, h1⟩ := queryTouch_total h
  simp only [landEarlier, hq, Option.bind_eq_bind, Option.bind_some]
  split
  · obtain ⟨mm2, hbuy, h2⟩ := landIfDue_total (s := .buy) h1 bb now
    obtain ⟨mm3, hsell, h3⟩ := landIfDue_total (s := .sell) h2 ba now
    exact ⟨mm3, by rw [hbuy]; exact hsell, h3⟩
  · exact ⟨mm1, rfl, h1⟩

theorem requote_total (h : Usable mm.book) (now : Ts) :
    ∃ mm', mm.requote now = some mm' ∧ Usable mm'.book := by
  obtain ⟨bb, ba, mm1, hq, h1⟩ := queryTouch_total h
  simp only [requote, hq, Option.bind_eq_bind, Option.bind_some]
  split
  · have hdecided : Usable (mm1.decided bb ba now).book := h1
    obtain ⟨mm2, hbuy, h2⟩ := landIfDue_total (s := .buy) hdecided bb now
    obtain ⟨mm3, hsell, h3⟩ := landIfDue_total (s := .sell) h2 ba now
    refine ⟨{ mm3 with mid := ((bb.toNat : ℚ) + ba.toNat) / 2, haveMid := true }, ?_, h3⟩
    show ((mm1.decided bb ba now).landIfDue .buy bb now).bind _ = _
    rw [hbuy, Option.bind_some, hsell]
    rfl
  · exact ⟨mm1, rfl, h1⟩

theorem resolve_total (h : Usable mm.book) (hrefs : ∀ r ∈ e.op.refs, r ≠ OpenHashMap.kEmpty) :
    ∃ pre, mm.resolve e = some pre := by
  obtain ⟨-, Q, hr⟩ := h
  by_cases he : e.type = .add
  · exact ⟨none, by unfold resolve; rw [if_pos he]⟩
  · have href : e.order_ref ≠ OpenHashMap.kEmpty := by
      apply hrefs
      unfold BookEvent.op
      cases ht : e.type with
      | add => exact absurd ht he
      | execute => simp [Op.refs]
      | cancel => simp [Op.refs]
      | delete => simp [Op.refs]
      | replace => simp [Op.refs]
    cases hr.found href with
    | inl hl => exact ⟨none, resolve_none hr he href hl⟩
    | inr hl =>
      obtain ⟨n, s, p, l, r, hlk, hq, -⟩ := hl
      exact ⟨_, resolve_some hr he href hlk hq⟩

theorem onEvent_total (h : Usable mm.book) (hrefs : ∀ r ∈ e.op.refs, r ≠ OpenHashMap.kEmpty) :
    ∃ mm' fills, mm.onEvent e = some (mm', fills) ∧ Usable mm'.book := by
  obtain ⟨mm1, hland, h1⟩ := landEarlier_total h e.ts
  obtain ⟨pre, hpre⟩ := resolve_total h1 hrefs
  obtain ⟨hs, Q, hr⟩ := h1
  obtain ⟨book, hstep, hs'⟩ := hr.step_total hs e.op hrefs
  obtain ⟨-, Q', hr', -⟩ := hr.step_sim e.op hrefs hstep
  have h2 : Usable ({ mm1 with book := book }.stepSides pre e).1.book := by
    rw [(stepSides_desk pre).book]
    exact ⟨hs', Q', hr'⟩
  obtain ⟨mm3, hreq, h3⟩ := requote_total h2 e.ts
  refine ⟨mm3, ({ mm1 with book := book }.stepSides pre e).2, ?_, h3⟩
  have happly : Book.apply mm1.book e = some book := hstep
  simp only [onEvent, hland, hpre, happly, hreq, Option.bind_eq_bind, Option.bind_some]
  rfl

def Input.refs : Input → List OrderId
  | .quoting _ _ => []
  | .event e => e.op.refs

theorem run_usable (h : Usable mm.book) (xs : List Input)
    (hreal : ∀ x ∈ xs, ∀ r ∈ x.refs, r ≠ OpenHashMap.kEmpty) :
    ∃ mm' fills, mm.run xs = some (mm', fills) ∧ Usable mm'.book := by
  induction xs generalizing mm with
  | nil => exact ⟨mm, [], rfl, h⟩
  | cons x xs ih =>
    have hrest : ∀ y ∈ xs, ∀ r ∈ y.refs, r ≠ OpenHashMap.kEmpty :=
      fun y hy => hreal y (List.mem_cons_of_mem _ hy)
    obtain ⟨mm1, f1, h1, hu1⟩ : ∃ mm1 f1, mm.input x = some (mm1, f1) ∧ Usable mm1.book := by
      cases x with
      | quoting bid ask => exact ⟨_, _, rfl, h⟩
      | event e => exact onEvent_total h (hreal _ (List.mem_cons_self ..))
    obtain ⟨mm2, f2, h2, hu2⟩ := ih hu1 hrest
    exact ⟨mm2, f1 ++ f2, by simp only [run, h1, h2, Option.bind_eq_bind, Option.bind_some]; rfl,
      hu2⟩

theorem make_usable {lo hi : Price} {size : Qty} {latency : Ts} {model : FillModel}
    {maxOrders maxLevels : ℕ} (h : make lo hi size latency model maxOrders maxLevels = some mm)
    (horders : maxOrders ≤ 2 ^ 31) (hlevels : maxLevels ≤ 2 ^ 31) : Usable mm.book := by
  obtain ⟨b, hb, rfl⟩ := make_some h
  obtain ⟨hr, -, -, -, ho, hl, -⟩ := Rep.make hb
  exact ⟨⟨by rw [ho]; exact horders, by rw [hl]; exact hlevels⟩, noQueues, hr⟩

/-- With pools that fit their indices every stream of real orders runs to its end. -/
theorem run_total (lo hi : Price) (size : Qty) (latency : Ts) (model : FillModel)
    (maxOrders maxLevels : ℕ) (horders : maxOrders ≤ 2 ^ 31) (hlevels : maxLevels ≤ 2 ^ 31)
    (mm0 : MarketMaker) (hmake : make lo hi size latency model maxOrders maxLevels = some mm0)
    (xs : List Input) (hreal : ∀ x ∈ xs, ∀ r ∈ x.refs, r ≠ 0) :
    ∃ mm fills, mm0.run xs = some (mm, fills) := by
  obtain ⟨mm, fills, hrun, -⟩ := run_usable (make_usable hmake horders hlevels) xs hreal
  exact ⟨mm, fills, hrun⟩

end MarketMaker

end Hotpath.Sim
