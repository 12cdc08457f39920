import Hotpath.Book.HybridFifo
import Hotpath.Sim.Quoting

/-!
# Who rested ahead when a quote joined

`Watched` runs a market maker and notes, at every landing that joins a queue,
the refs resting there: the membership set that the stamp comparison of the
queue model replaces. The notes change nothing the market maker does.
-/

namespace Hotpath.Sim
open Hotpath.Book Hotpath.Book.HybridBook Hotpath.Support

structure Watched where
  mm : MarketMaker
  members : Side → List OrderId

namespace Watched
open MarketMaker

def landIfDue (w : Watched) (side : Side) (target : Price) (now : Ts) : Option Watched := do
  let mm ← w.mm.landIfDue side target now
  if due (w.mm.quote side) now ∧ (w.mm.quote side).wantActive = true then
    return ⟨mm, Function.update w.members side
      ((w.mm.book.fifo side target).map HybridBook.Resting.id)⟩
  else return ⟨mm, w.members⟩

def landBoth (w : Watched) (bb ba : Price) (now : Ts) : Option Watched := do
  let w ← w.landIfDue .buy bb now
  w.landIfDue .sell ba now

def landEarlier (w : Watched) (now : Ts) : Option Watched := do
  let (bb, ba, mm) ← w.mm.queryTouch
  if usable bb ba then landBoth ⟨mm, w.members⟩ bb ba now else return ⟨mm, w.members⟩

def requote (w : Watched) (now : Ts) : Option Watched := do
  let (bb, ba, mm) ← w.mm.queryTouch
  if usable bb ba then
    let w ← landBoth ⟨mm.decided bb ba now, w.members⟩ bb ba now
    return ⟨{ w.mm with mid := ((bb.toNat : ℚ) + ba.toNat) / 2, haveMid := true }, w.members⟩
  else return ⟨mm, w.members⟩

def onEvent (w : Watched) (e : BookEvent) : Option (Watched × List Fill) := do
  let w ← w.landEarlier e.ts
  let pre ← w.mm.resolve e
  let book ← Book.apply w.mm.book e
  let (mm, fills) := { w.mm with book := book }.stepSides pre e
  let w ← requote ⟨mm, w.members⟩ e.ts
  return (w, fills)

def input (w : Watched) : Input → Option (Watched × List Fill)
  | .quoting allowBid allowAsk => some (⟨w.mm.setQuoting allowBid allowAsk, w.members⟩, [])
  | .event e => w.onEvent e

def run : Watched → List Input → Option (Watched × List Fill)
  | w, [] => some (w, [])
  | w, x :: xs => do
    let (w, fills) ← w.input x
    let (w, rest) ← run w xs
    return (w, fills ++ rest)

variable {w w' : Watched} {mm mm' : MarketMaker} {s : Side} {e : BookEvent} {fills : List Fill}

/-! ### The notes change nothing -/

theorem landIfDue_lift (members : Side → List OrderId) {side : Side} {target : Price} {now : Ts}
    (h : mm.landIfDue side target now = some mm') :
    ∃ members', landIfDue ⟨mm, members⟩ side target now = some ⟨mm', members'⟩ := by
  simp only [landIfDue, h, Option.bind_eq_bind, Option.bind_some]
  split
  · exact ⟨_, rfl⟩
  · exact ⟨_, rfl⟩

theorem landEarlier_lift (members : Side → List OrderId) {now : Ts} (h : mm.landEarlier now = some mm') :
    ∃ members', landEarlier ⟨mm, members⟩ now = some ⟨mm', members'⟩ := by
  obtain ⟨bb, ba, mm1, hq, hcase⟩ := landEarlier_stages h
  simp only [landEarlier, hq, Option.bind_eq_bind, Option.bind_some]
  rcases hcase with ⟨hu, rfl⟩ | ⟨hu, mm2, h1, h2⟩
  · rw [if_neg hu]
    exact ⟨members, rfl⟩
  · obtain ⟨m1, k1⟩ := landIfDue_lift members h1
    obtain ⟨m2, k2⟩ := landIfDue_lift m1 h2
    refine ⟨m2, ?_⟩
    rw [if_pos hu, landBoth, k1]
    exact k2

theorem requote_lift (members : Side → List OrderId) {now : Ts} (h : mm.requote now = some mm') :
    ∃ members', requote ⟨mm, members⟩ now = some ⟨mm', members'⟩ := by
  obtain ⟨bb, ba, mm1, hq, hcase⟩ := requote_stages h
  simp only [requote, hq, Option.bind_eq_bind, Option.bind_some]
  rcases hcase with ⟨hu, rfl⟩ | ⟨hu, mm2, mm3, h1, h2, rfl⟩
  · rw [if_neg hu]
    exact ⟨members, rfl⟩
  · obtain ⟨m1, k1⟩ := landIfDue_lift members h1
    obtain ⟨m2, k2⟩ := landIfDue_lift m1 h2
    refine ⟨m2, ?_⟩
    rw [if_pos hu, landBoth, k1, Option.bind_eq_bind, Option.bind_some, k2]
    rfl

theorem onEvent_lift (members : Side → List OrderId) (h : mm.onEvent e = some (mm', fills)) :
    ∃ members', onEvent ⟨mm, members⟩ e = some (⟨mm', members'⟩, fills) := by
  obtain ⟨mm1, pre, book, h1, h2, h3, h4, rfl⟩ := onEvent_some h
  obtain ⟨m1, k1⟩ := landEarlier_lift members h1
  obtain ⟨m2, k2⟩ := requote_lift m1 h4
  have h3' : Book.apply mm1.book e = some book := h3
  refine ⟨m2, ?_⟩
  simp only [onEvent, k1, h2, h3', k2, Option.bind_eq_bind, Option.bind_some]
  rfl

/-! ### Stages of an event, with the notes -/

/-- The refs noted for a side once its landing is dealt with. -/
def noted (mm : MarketMaker) (s : Side) (target : Price) (now : Ts) (members : List OrderId) :
    List OrderId :=
  if due (mm.quote s) now ∧ (mm.quote s).wantActive = true
    then (mm.book.fifo s target).map HybridBook.Resting.id else members

theorem landIfDue_noted {side : Side} {target : Price} {now : Ts}
    (h : w.landIfDue side target now = some w') :
    w.mm.landIfDue side target now = some w'.mm ∧
      w'.members side = noted w.mm side target now (w.members side) ∧
      ∀ s, s ≠ side → w'.members s = w.members s := by
  simp only [landIfDue, Option.bind_eq_bind, Option.bind_eq_some_iff] at h
  obtain ⟨mm1, h1, h⟩ := h
  unfold noted
  split at h
  · rename_i hd
    obtain rfl := Option.some.inj h
    rw [if_pos hd]
    exact ⟨h1, Function.update_self .., fun s hs => Function.update_of_ne hs ..⟩
  · rename_i hd
    obtain rfl := Option.some.inj h
    rw [if_neg hd]
    exact ⟨h1, rfl, fun _ _ => rfl⟩

theorem landBoth_noted {bb ba : Price} {now : Ts} (h : w.landBoth bb ba now = some w') :
    SameDesk w.mm w'.mm ∧ ∀ s,
      Landed w.mm s (touchOf bb ba s) now (w'.mm.quote s) (w'.mm.pos s) ∧
      w'.members s = noted w.mm s (touchOf bb ba s) now (w.members s) := by
  simp only [landBoth, Option.bind_eq_bind, Option.bind_eq_some_iff] at h
  obtain ⟨w1, h1, h2⟩ := h
  obtain ⟨g1, n1, o1⟩ := landIfDue_noted h1
  obtain ⟨g2, n2, o2⟩ := landIfDue_noted h2
  obtain ⟨hd, hl⟩ := land_both g1 g2
  obtain ⟨d1, -, q1⟩ := landIfDue_landed g1
  refine ⟨hd, fun s => ⟨hl s, ?_⟩⟩
  cases s with
  | buy =>
    rw [o2 .buy (by simp), n1]
    rfl
  | sell =>
    have hq : w1.mm.quote .sell = w.mm.quote .sell := (q1 .sell (by simp)).1
    rw [n2, o1 .sell (by simp), noted, noted, hq, d1.book]
    rfl

theorem landEarlier_noted {now : Ts} (h : w.landEarlier now = some w') :
    ∃ bb ba mm1, w.mm.queryTouch = some (bb, ba, mm1) ∧ SameDesk mm1 w'.mm ∧
      (w' = ⟨mm1, w.members⟩ ∨ ∀ s,
        Landed mm1 s (touchOf bb ba s) now (w'.mm.quote s) (w'.mm.pos s) ∧
        w'.members s = noted mm1 s (touchOf bb ba s) now (w.members s)) := by
  simp only [landEarlier, Option.bind_eq_bind, Option.bind_eq_some_iff] at h
  obtain ⟨⟨bb, ba, mm1⟩, hq, h⟩ := h
  refine ⟨bb, ba, mm1, hq, ?_⟩
  dsimp only at h
  split at h
  · obtain ⟨hd, hl⟩ := landBoth_noted h
    exact ⟨hd, Or.inr hl⟩
  · obtain rfl := Option.some.inj h
    exact ⟨SameDesk.refl _, Or.inl rfl⟩

theorem requote_noted {now : Ts} (h : w.requote now = some w') :
    ∃ bb ba mm1, w.mm.queryTouch = some (bb, ba, mm1) ∧ SameDesk mm1 w'.mm ∧
      (w' = ⟨mm1, w.members⟩ ∨ ∀ s, Landed (mm1.decided bb ba now) s (touchOf bb ba s) now
          (w'.mm.quote s) (w'.mm.pos s) ∧
        w'.members s = noted (mm1.decided bb ba now) s (touchOf bb ba s) now (w.members s)) := by
  simp only [requote, Option.bind_eq_bind, Option.bind_eq_some_iff] at h
  obtain ⟨⟨bb, ba, mm1⟩, hq, h⟩ := h
  refine ⟨bb, ba, mm1, hq, ?_⟩
  dsimp only at h
  split at h
  · obtain ⟨w1, h1, h⟩ := Option.bind_eq_some_iff.mp h
    obtain rfl := Option.some.inj h
    obtain ⟨hd, hl⟩ := landBoth_noted h1
    exact ⟨⟨hd.book, hd.quoteSize, hd.latency, hd.fillModel, hd.allow⟩, Or.inr hl⟩
  · obtain rfl := Option.some.inj h
    exact ⟨SameDesk.refl _, Or.inl rfl⟩

theorem onEvent_noted (h : w.onEvent e = some (w', fills)) :
    ∃ w1 pre book, w.landEarlier e.ts = some w1 ∧ w1.mm.resolve e = some pre ∧
      w1.mm.book.step e.op = some book ∧
      requote ⟨({ w1.mm with book := book }.stepSides pre e).1, w1.members⟩ e.ts = some w' := by
  simp only [onEvent, Option.bind_eq_bind, Option.bind_eq_some_iff] at h
  obtain ⟨w1, h1, pre, h2, book, h3, w2, h4, h5⟩ := h
  obtain ⟨rfl, -⟩ := Prod.mk.inj (Option.some.inj h5)
  exact ⟨w1, pre, book, h1, h2, h3, h4⟩

end Watched

end Hotpath.Sim
