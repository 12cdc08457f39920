import Hotpath.Sim.SharedBook

/-!
# Microstructure signals (sim/signals.hpp)

What is read off the touch, and the order flow imbalance accumulated over touches. A
`double` is a rational; `decay` stands for `std::exp(-dt / tau)`.
-/

namespace Hotpath.Sim

namespace Touch

def valid (t : Touch) : Bool :=
  t.bidPx ≠ 0 ∧ t.askPx ≠ 0 ∧ t.bidPx < t.askPx ∧ t.bidQty + t.askQty > 0

def mid (t : Touch) : ℚ := ((t.bidPx.toNat : ℚ) + t.askPx.toNat) / 2

def spread (t : Touch) : ℚ := (t.askPx.toNat : ℚ) - t.bidPx.toNat

/-- The shares on both sides. -/
def size (t : Touch) : ℚ := (t.bidQty.toNat : ℚ) + t.askQty.toNat

def imbalance (t : Touch) : ℚ :=
  if t.size > 0 then ((t.bidQty.toNat : ℚ) - t.askQty.toNat) / t.size else 0

/-- The mid weighted by the opposite side's size. -/
def microprice (t : Touch) : ℚ :=
  if t.size ≤ 0 then t.mid
  else ((t.bidQty.toNat : ℚ) * t.askPx.toNat + t.askQty.toNat * t.bidPx.toNat) / t.size

def microTilt (t : Touch) : ℚ :=
  if t.spread / 2 > 0 then (t.microprice - t.mid) / (t.spread / 2) else 0

/-- The tilt of the microprice is the imbalance, whatever the prices: one signal, not two. -/
theorem microTilt_eq_imbalance {t : Touch} (h : t.bidPx < t.askPx) :
    t.microTilt = t.imbalance := by
  have hlt : (t.bidPx.toNat : ℚ) < t.askPx.toNat := by
    exact_mod_cast UInt32.lt_iff_toNat_lt.mp h
  have hs : t.spread / 2 > 0 := half_pos (sub_pos.mpr hlt)
  rw [microTilt, if_pos hs, imbalance, microprice]
  by_cases ht : t.size > 0
  · have hne : t.size ≠ 0 := ne_of_gt ht
    have hgap : t.spread / 2 ≠ 0 := ne_of_gt hs
    rw [if_neg (not_le.mpr ht), if_pos ht, div_eq_div_iff hgap hne, sub_mul, div_mul_cancel₀ _ hne,
      mid, spread, size]
    ring
  · rw [if_pos (not_lt.mp ht), if_neg ht, sub_self, zero_div]

theorem imbalance_range (t : Touch) : -1 ≤ t.imbalance ∧ t.imbalance ≤ 1 := by
  have hb : (0 : ℚ) ≤ t.bidQty.toNat := Nat.cast_nonneg _
  have ha : (0 : ℚ) ≤ t.askQty.toNat := Nat.cast_nonneg _
  rw [imbalance]
  by_cases ht : t.size > 0
  · rw [if_pos ht, le_div_iff₀ ht, div_le_iff₀ ht, size]
    constructor <;> linarith
  · rw [if_neg ht]
    constructor <;> norm_num

end Touch

structure OrderFlowImbalance where
  prev : Touch := {}
  havePrev : Bool := false
  ofi : ℚ := 0
  depth : ℚ := 0
  lastTs : Ts := 0
  deriving DecidableEq

namespace OrderFlowImbalance

/-- One event's contribution: positive is buy pressure. -/
def increment (p c : Touch) : ℚ :=
  let e : ℚ := 0
  let e := if c.bidPx ≥ p.bidPx then e + c.bidQty.toNat else e
  let e := if c.bidPx ≤ p.bidPx then e - p.bidQty.toNat else e
  let e := if c.askPx ≤ p.askPx then e - c.askQty.toNat else e
  if c.askPx ≥ p.askPx then e + p.askQty.toNat else e

/-- The nanoseconds since the last touch; none where the clock went back. -/
def elapsed (s : OrderFlowImbalance) (ts : Ts) : Ts := if ts ≥ s.lastTs then ts - s.lastTs else 0

def update (decay : Ts → ℚ) (s : OrderFlowImbalance) (t : Touch) (ts : Ts) :
    OrderFlowImbalance :=
  if ¬s.havePrev then { s with prev := t, lastTs := ts, havePrev := true, depth := t.size / 2 }
  else
    let k := decay (s.elapsed ts)
    { s with
      ofi := s.ofi * k + increment s.prev t
      depth := s.depth * k + t.size / 2 * (1 - k)
      prev := t
      lastTs := ts }

def raw (s : OrderFlowImbalance) : ℚ := s.ofi

def normalized (s : OrderFlowImbalance) : ℚ := if s.depth > 1 then s.ofi / s.depth else 0

/-- The signal after a series of touches. -/
def updates (decay : Ts → ℚ) (s : OrderFlowImbalance) (ts : List (Touch × Ts)) :
    OrderFlowImbalance :=
  ts.foldl (fun s x => s.update decay x.1 x.2) s

/-! ### The other side of the book -/

/-- The book seen from the other side: its sides exchanged, its prices reflected. -/
structure Reflects (p : ℕ) (t t' : Touch) : Prop where
  bid : t'.bidPx.toNat + t.askPx.toNat = p
  ask : t'.askPx.toNat + t.bidPx.toNat = p
  bidQty : t'.bidQty = t.askQty
  askQty : t'.askQty = t.bidQty

variable {p : ℕ} {a b a' b' : Touch}

theorem Reflects.size (h : Reflects p a a') : a'.size = a.size := by
  rw [Touch.size, Touch.size, h.bidQty, h.askQty, add_comm]

theorem Reflects.imbalance (h : Reflects p a a') : a'.imbalance = -a.imbalance := by
  rw [Touch.imbalance, Touch.imbalance, h.size, h.bidQty, h.askQty]
  split
  · rw [← neg_div, neg_sub]
  · rw [neg_zero]

/-- What the bid adds on one side, the ask takes on the other. -/
theorem Reflects.increment (ha : Reflects p a a') (hb : Reflects p b b') :
    increment a' b' = -increment a b := by
  have hbid : (b'.bidPx ≥ a'.bidPx ↔ b.askPx ≤ a.askPx) ∧
      (b'.bidPx ≤ a'.bidPx ↔ b.askPx ≥ a.askPx) := by
    simp only [ge_iff_le, UInt32.le_iff_toNat_le]
    have h1 := ha.bid
    have h2 := hb.bid
    constructor <;> constructor <;> intro h <;> omega
  have hask : (b'.askPx ≤ a'.askPx ↔ b.bidPx ≥ a.bidPx) ∧
      (b'.askPx ≥ a'.askPx ↔ b.bidPx ≤ a.bidPx) := by
    simp only [ge_iff_le, UInt32.le_iff_toNat_le]
    have h1 := ha.ask
    have h2 := hb.ask
    constructor <;> constructor <;> intro h <;> omega
  simp only [OrderFlowImbalance.increment, hbid.1, hbid.2, hask.1, hask.2, ha.bidQty, ha.askQty,
    hb.bidQty, hb.askQty]
  split_ifs <;> ring

/-- The two signals of a market and of its reflection. -/
structure Opposed (p : ℕ) (s s' : OrderFlowImbalance) : Prop where
  havePrev : s'.havePrev = s.havePrev
  prev : s.havePrev = true → Reflects p s.prev s'.prev
  ofi : s'.ofi = -s.ofi
  depth : s'.depth = s.depth
  lastTs : s'.lastTs = s.lastTs

variable {decay : Ts → ℚ} {s s' : OrderFlowImbalance}

theorem Opposed.update (h : Opposed p s s') (hab : Reflects p a a') (ts : Ts) :
    Opposed p (s.update decay a ts) (s'.update decay a' ts) := by
  unfold OrderFlowImbalance.update
  rw [h.havePrev]
  by_cases hp : s.havePrev = true
  · rw [if_neg (not_not.mpr hp), if_neg (not_not.mpr hp)]
    have hk : s'.elapsed ts = s.elapsed ts := by rw [elapsed, elapsed, h.lastTs]
    constructor
    case havePrev => rfl
    case prev => exact fun _ => hab
    case ofi =>
      show s'.ofi * decay (s'.elapsed ts) + _ = -(s.ofi * decay (s.elapsed ts) + _)
      rw [hk, h.ofi, (h.prev hp).increment hab]
      ring
    case depth =>
      show s'.depth * decay (s'.elapsed ts) + _ = _
      rw [hk, h.depth, hab.size]
    case lastTs => rfl
  · rw [if_pos hp, if_pos hp]
    exact ⟨rfl, fun _ => hab, h.ofi, congrArg (· / 2) hab.size, rfl⟩

theorem Opposed.updates (h : Opposed p s s') {ts ts' : List (Touch × Ts)}
    (hts : List.Forall₂ (fun x x' => Reflects p x.1 x'.1 ∧ x'.2 = x.2) ts ts') :
    Opposed p (s.updates decay ts) (s'.updates decay ts') := by
  induction hts generalizing s s' with
  | nil => exact h
  | @cons x x' xs xs' hx hxs ih =>
    have hstep := @Opposed.update _ _ _ decay _ _ h hx.1 x.2
    show Opposed p ((s.update decay x.1 x.2).updates decay xs)
      ((s'.update decay x'.1 x'.2).updates decay xs')
    rw [hx.2]
    exact ih hstep

/-- On any series of touches, and whatever the decay, a market seen from its other side gives
the opposite signals: the imbalance of every touch, the accumulated order flow and the order flow
by depth. -/
theorem reflected_signals (decay : Ts → ℚ) (p : ℕ) (ts ts' : List (Touch × Ts))
    (hts : List.Forall₂ (fun x x' => Reflects p x.1 x'.1 ∧ x'.2 = x.2) ts ts') :
    (({} : OrderFlowImbalance).updates decay ts').raw =
        -(({} : OrderFlowImbalance).updates decay ts).raw ∧
      (({} : OrderFlowImbalance).updates decay ts').normalized =
        -(({} : OrderFlowImbalance).updates decay ts).normalized ∧
      List.Forall₂ (fun x x' => x'.1.imbalance = -x.1.imbalance) ts ts' := by
  have hstart : Opposed p {} {} := ⟨rfl, (fun h => by cases h), neg_zero.symm, rfl, rfl⟩
  have hend := @Opposed.updates p decay _ _ hstart ts ts' hts
  refine ⟨hend.ofi, ?_, hts.imp fun _ _ hx => hx.1.imbalance⟩
  rw [normalized, normalized, hend.ofi, hend.depth]
  split
  · rw [neg_div]
  · rw [neg_zero]

/-- Shares added at the bid, and the same shares added at the ask of the reflected market. -/
theorem reflected_signals_two : List.Forall₂ (fun x x' : Touch × Ts =>
      Reflects 1000 x.1 x'.1 ∧ x'.2 = x.2)
    [(⟨400, 500, 5, 5⟩, 1), (⟨400, 500, 9, 5⟩, 2)] [(⟨500, 600, 5, 5⟩, 1), (⟨500, 600, 5, 9⟩, 2)] ∧
    (({} : OrderFlowImbalance).updates (fun _ => 1)
      [(⟨400, 500, 5, 5⟩, 1), (⟨400, 500, 9, 5⟩, 2)]).raw = 4 ∧
    (({} : OrderFlowImbalance).updates (fun _ => 1)
      [(⟨500, 600, 5, 5⟩, 1), (⟨500, 600, 5, 9⟩, 2)]).raw = -4 := by
  have hts : List.Forall₂ (fun x x' : Touch × Ts => Reflects 1000 x.1 x'.1 ∧ x'.2 = x.2)
      [(⟨400, 500, 5, 5⟩, 1), (⟨400, 500, 9, 5⟩, 2)]
      [(⟨500, 600, 5, 5⟩, 1), (⟨500, 600, 5, 9⟩, 2)] :=
    .cons ⟨⟨rfl, rfl, rfl, rfl⟩, rfl⟩ (.cons ⟨⟨rfl, rfl, rfl, rfl⟩, rfl⟩ .nil)
  have hraw : (({} : OrderFlowImbalance).updates (fun _ => 1)
      [(⟨400, 500, 5, 5⟩, 1), (⟨400, 500, 9, 5⟩, 2)]).raw = 4 := by decide +kernel
  exact ⟨hts, hraw, by rw [(reflected_signals (fun _ => 1) 1000 _ _ hts).1, hraw]⟩

end OrderFlowImbalance

end Hotpath.Sim
