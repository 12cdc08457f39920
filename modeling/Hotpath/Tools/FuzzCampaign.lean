import Hotpath.Book.FuzzBook
import Hotpath.Itch.Builder
import Hotpath.Itch.FuzzParse
import Hotpath.Support.XorShift

/-!
# The fuzz campaign (fuzz_campaign.cpp, fuzz_core.hpp)

From a seed the campaign draws random bytes, corrupted streams and book scripts, and counts
how often a target throws. In which order a call evaluates arguments that draw is up to
the compiler.
-/

namespace Hotpath.Tools
open Hotpath.Itch Hotpath.Support

namespace Fuzz

/-- The generator's state is never zero: from zero it would not come away. -/
structure Rng where
  s : UInt64
  live : s ≠ 0

namespace Rng

def of (seed : UInt64) : Rng :=
  if h : seed = 0 then ⟨1, by decide⟩ else ⟨seed, h⟩

def shiftLeft13 (s : UInt64) : UInt64 := s ^^^ (s <<< 13)
def shiftRight7 (s : UInt64) : UInt64 := s ^^^ (s >>> 7)
def shiftLeft17 (s : UInt64) : UInt64 := s ^^^ (s <<< 17)

theorem shifts_ne_zero {s : UInt64} (h : s ≠ 0) :
    shiftLeft17 (shiftRight7 (shiftLeft13 s)) ≠ 0 := by
  have h13 : shiftLeft13 s ≠ 0 := @xor_shiftLeft_ne_zero s 13 h (by decide) (by decide)
  have h7 := @xor_shiftRight_ne_zero _ 7 h13 (by decide) (by decide)
  exact @xor_shiftLeft_ne_zero _ 17 h7 (by decide) (by decide)

end Rng

/-- What draws from the generator; `none` is a subscript outside a vector. -/
abbrev Draw := StateT Rng Option

def next : Draw UInt64 := fun r =>
  let s := Rng.shiftLeft17 (Rng.shiftRight7 (Rng.shiftLeft13 r.s))
  some (s, ⟨s, Rng.shifts_ne_zero r.live⟩)

def below (n : UInt32) : Draw UInt32 :=
  if n = 0 then return 0 else return (← next) % n.toUInt64 |>.toUInt32

def randomBytes : ℕ → Draw (List UInt8)
  | 0 => return []
  | n + 1 => do
    let b ← next
    let bs ← randomBytes n
    return b.toUInt8 :: bs

/-! ### Arguments -/

/-- The order in which two arguments of a call are evaluated. -/
inductive Two where
  | leftFirst
  | rightFirst

def Two.args {α β : Type} (o : Two) (x : Draw α) (y : Draw β) : Draw (α × β) :=
  match o with
  | .leftFirst => do
    let a ← x
    let b ← y
    return (a, b)
  | .rightFirst => do
    let b ← y
    let a ← x
    return (a, b)

/-- The order of three: which is the first, and the order of the others. -/
structure Three where
  first : Fin 3
  others : Two

def Three.args {α β γ : Type} (o : Three) (x : Draw α) (y : Draw β) (z : Draw γ) :
    Draw (α × β × γ) :=
  match o.first with
  | 0 => do
    let a ← x
    let (b, c) ← o.others.args y z
    return (a, b, c)
  | 1 => do
    let b ← y
    let (a, c) ← o.others.args x z
    return (a, b, c)
  | 2 => do
    let c ← z
    let (a, b) ← o.others.args x y
    return (a, b, c)

/-- A compiler's choice for each call of `mutated_itch` with several draws. -/
structure Compiler where
  add : Three
  execute : Two
  replace : Two

variable (cc : Compiler)

/-! ### Inputs -/

/-- The text of the symbol that every add is for. -/
def aapl : List UInt8 := [ch 'A', ch 'A', ch 'P', ch 'L']

def randomMessage : Draw Sent := do
  let id := (1 + (← below 64)).toUInt64
  let kind ← below 6
  if kind = 0 then
    let (side, shares, px) ← cc.add.args next (below 1000) (below 5000)
    let side := if side &&& 1 ≠ 0 then Side.buy else .sell
    return .addOrder id side (1 + shares) aapl (1000000 + px) 1 0
  else if kind = 1 then
    let (shares, matchNo) ← cc.execute.args (below 500) next
    return .orderExecuted id (1 + shares) matchNo 1 0
  else if kind = 2 then return .orderCancel id (1 + (← below 500)) 1 0
  else if kind = 3 then return .orderDelete id 1 0
  else if kind = 4 then
    let (shares, px) ← cc.replace.args (below 500) (below 5000)
    return .orderReplace id (id + 1000) (1 + shares) (1000000 + px) 1 0
  else return .systemEvent (ch 'A' + (← below 26).toUInt8) 0

def randomMessages : ℕ → Draw (List Sent)
  | 0 => return []
  | n + 1 => do
    let m ← randomMessage cc
    let ms ← randomMessages n
    return m :: ms

/-- One bit somewhere in the vector; the bit is drawn before the place. -/
def flipBit (v : List UInt8) : Draw (List UInt8) := do
  let bit ← below 8
  let i ← below (UInt32.ofNat v.length)
  if i.toNat < v.length then
    return v.modify i.toNat fun b => b ^^^ ((1 : UInt32) <<< bit).toUInt8
  else failure

def flipBits : ℕ → List UInt8 → Draw (List UInt8)
  | 0, v => return v
  | n + 1, v => do flipBits n (← flipBit v)

/-- `v.resize(n)`. -/
def resize (v : List UInt8) (n : ℕ) : List UInt8 := v.take n ++ List.replicate (n - v.length) 0

def mutatedItch (messages : ℕ) : Draw (List UInt8) := do
  let v := build (← randomMessages cc messages)
  if v = [] then return v
  else
    let flips := 1 + (← below 8)
    let v ← flipBits flips.toNat v
    if (← next) &&& 1 ≠ 0 then
      return resize v ((← below (UInt32.ofNat v.length)).toNat + 1)
    else return v

inductive Kind where
  | random
  | mutatedItch
  | bookScript
  deriving DecidableEq, Repr

def draw : Draw (Kind × List UInt8) := do
  let which ← below 3
  if which = 0 then return (.random, ← randomBytes ((← below 1024).toNat + 1))
  else if which = 1 then return (.mutatedItch, ← mutatedItch cc (1 + (← below 48)).toNat)
  else return (.bookScript, ← randomBytes ((← below 4096).toNat + 8))

structure Campaign where
  failures : ℕ := 0
  bytes : UInt64 := 0
  deriving DecidableEq, Repr

variable (wide : UInt8 → UInt64)

/-- Whether the target for a kind of input returns instead of throwing. -/
def passes : Kind → List UInt8 → Option Bool
  | .bookScript, input => (Book.Fuzz.fuzzBookDifferential input).map Except.isOk
  | .random, input => (Itch.Fuzz.fuzzItchParse wide input).map Except.isOk
  | .mutatedItch, input => (Itch.Fuzz.fuzzItchParse wide input).map Except.isOk

def loop (seed : UInt64) : ℕ → UInt64 → Campaign → Option Campaign
  | 0, _, c => some c
  | n + 1, i, c => do
    let ((kind, input), _) ← (draw cc).run (.of (seed + i * 0x9E3779B97F4A7C15))
    let c := { c with bytes := c.bytes + UInt64.ofNat input.length }
    if ← passes wide kind input then loop seed n (i + 1) c
    else
      let c := { c with failures := c.failures + 1 }
      if 10 ≤ c.failures then return c else loop seed n (i + 1) c

/-- What `main` returns. -/
def campaign (seed iterations : UInt64) : Option ℕ := do
  let c ← loop cc wide seed iterations.toNat 0 {}
  return if c.failures = 0 then 0 else 1

/-! ### No draw fails -/

/-- Whatever the state, something is drawn, and it has the property. -/
def Draws {α : Type} (P : α → Prop) (g : Draw α) : Prop :=
  ∀ r, ∃ x r', g.run r = some (x, r') ∧ P x

section Draws
variable {α β : Type} {P : α → Prop} {Q : β → Prop} {g : Draw α} {f : α → Draw β} {x : α}

theorem Draws.pure (h : P x) : Draws P (return x) := fun r => ⟨x, r, rfl, h⟩

theorem Draws.bind (hg : Draws P g) (hf : ∀ x, P x → Draws Q (f x)) : Draws Q (g >>= f) := by
  intro r
  obtain ⟨x, r₁, hrun, hP⟩ := hg r
  obtain ⟨y, r₂, hrest, hQ⟩ := hf x hP r₁
  refine ⟨y, r₂, ?_, hQ⟩
  rw [StateT.run_bind, hrun]
  exact hrest

end Draws

/-- Any value at all. -/
def Any {α : Type} (_ : α) : Prop := True

theorem draws_next : Draws Any next := fun _ => ⟨_, _, rfl, trivial⟩

theorem draws_below (n : UInt32) : Draws (fun v => v = 0 ∨ v < n) (below n) := by
  rw [below]
  split
  · exact .pure (.inl rfl)
  · rename_i hn
    refine draws_next.bind fun v _ => .pure (.inr ?_)
    have hpos : 0 < n.toNat := Nat.pos_of_ne_zero fun hzero => hn (UInt32.toNat_inj.mp hzero)
    have hlt := Nat.mod_lt v.toNat hpos
    have hbound := n.toNat_lt
    rw [UInt32.lt_iff_toNat_lt, UInt64.toNat_toUInt32, UInt64.toNat_mod, UInt32.toNat_toUInt64]
    exact Nat.lt_of_le_of_lt (Nat.mod_le ..) hlt

theorem draws_randomBytes (n : ℕ) : Draws Any (randomBytes n) := by
  induction n with
  | zero => exact .pure trivial
  | succ n ih => exact draws_next.bind fun b _ => ih.bind fun bs _ => .pure trivial

/-- Whatever the order, each argument is drawn. -/
theorem Two.draws_args {α β : Type} (o : Two) {x : Draw α} {y : Draw β} (hx : Draws Any x)
    (hy : Draws Any y) : Draws Any (o.args x y) := by
  cases o with
  | leftFirst => exact hx.bind fun a _ => hy.bind fun b _ => .pure trivial
  | rightFirst => exact hy.bind fun b _ => hx.bind fun a _ => .pure trivial

theorem Three.draws_args {α β γ : Type} (o : Three) {x : Draw α} {y : Draw β} {z : Draw γ}
    (hx : Draws Any x) (hy : Draws Any y) (hz : Draws Any z) : Draws Any (o.args x y z) := by
  obtain ⟨first, others⟩ := o
  match first with
  | 0 => exact hx.bind fun a _ => (others.draws_args hy hz).bind fun bc _ => .pure trivial
  | 1 => exact hy.bind fun b _ => (others.draws_args hx hz).bind fun ac _ => .pure trivial
  | 2 => exact hz.bind fun c _ => (others.draws_args hx hy).bind fun ab _ => .pure trivial

theorem draws_below_any (n : UInt32) : Draws Any (below n) := by
  intro r
  obtain ⟨v, r', hrun, -⟩ := draws_below n r
  exact ⟨v, r', hrun, trivial⟩

theorem draws_randomMessage : Draws Any (randomMessage cc) := by
  refine (draws_below 64).bind fun id _ => (draws_below 6).bind fun kind _ => ?_
  split_ifs
  · exact (cc.add.draws_args draws_next (draws_below_any _) (draws_below_any _)).bind
      fun drawn _ => .pure trivial
  · exact (cc.execute.draws_args (draws_below_any _) draws_next).bind fun drawn _ => .pure trivial
  · exact (draws_below 500).bind fun shares _ => .pure trivial
  · exact .pure trivial
  · exact (cc.replace.draws_args (draws_below_any _) (draws_below_any _)).bind
      fun drawn _ => .pure trivial
  · exact (draws_below 26).bind fun code _ => .pure trivial

theorem draws_randomMessages (n : ℕ) : Draws Any (randomMessages cc n) := by
  induction n with
  | zero => exact .pure trivial
  | succ n ih => exact (draws_randomMessage cc).bind fun m _ => ih.bind fun ms _ => .pure trivial

/-- The place of a bit is inside the vector, as long as that is not empty. -/
theorem draws_flipBit {v : List UInt8} (hv : v ≠ []) :
    Draws (fun v' => v'.length = v.length) (flipBit v) := by
  refine (draws_below 8).bind fun bit _ => (draws_below (UInt32.ofNat v.length)).bind fun i hi => ?_
  have hpos := List.length_pos_of_ne_nil hv
  have hin : i.toNat < v.length := by
    have hsize : (UInt32.ofNat v.length).toNat = v.length % 2 ^ 32 := UInt32.toNat_ofNat'
    have hle := Nat.mod_le v.length (2 ^ 32)
    cases hi with
    | inl hzero =>
      rw [hzero]
      exact hpos
    | inr hlt =>
      have hlt := UInt32.lt_iff_toNat_lt.mp hlt
      omega
  rw [if_pos hin]
  exact .pure (List.length_modify ..)

theorem draws_flipBits (n : ℕ) {v : List UInt8} (hv : v ≠ []) : Draws Any (flipBits n v) := by
  induction n generalizing v with
  | zero => exact .pure trivial
  | succ n ih =>
    refine (draws_flipBit hv).bind fun v' hlen => ih ?_
    exact List.ne_nil_of_length_pos (hlen ▸ List.length_pos_of_ne_nil hv)

theorem draws_mutatedItch (messages : ℕ) : Draws Any (mutatedItch cc messages) := by
  refine (draws_randomMessages cc messages).bind fun ms _ => ?_
  show Draws Any (if build ms = [] then return build ms else _)
  split
  · exact .pure trivial
  · rename_i hv
    refine (draws_below 8).bind fun flips _ => (draws_flipBits _ hv).bind fun v _ =>
      draws_next.bind fun cut _ => ?_
    split
    · exact (draws_below _).bind fun n _ => .pure trivial
    · exact .pure trivial

theorem draws_draw : Draws Any (draw cc) := by
  refine (draws_below 3).bind fun which _ => ?_
  split_ifs
  · exact (draws_below 1024).bind fun n _ => (draws_randomBytes _).bind fun bs _ => .pure trivial
  · exact (draws_below 48).bind fun n _ => (draws_mutatedItch cc _).bind fun v _ => .pure trivial
  · exact (draws_below 4096).bind fun n _ => (draws_randomBytes _).bind fun bs _ => .pure trivial

/-! ### No target throws -/

theorem passes_every (kind : Kind) (input : List UInt8) : passes wide kind input = some true := by
  cases kind with
  | random =>
    rw [passes, Itch.Fuzz.fuzz_parse_sums]
    rfl
  | mutatedItch =>
    rw [passes, Itch.Fuzz.fuzz_parse_sums]
    rfl
  | bookScript =>
    rw [passes, Book.Fuzz.fuzz_never_throws]
    rfl

theorem loop_passes (seed : UInt64) (n : ℕ) (i : UInt64) {c : Campaign} (hc : c.failures = 0) :
    ∃ c', loop cc wide seed n i c = some c' ∧ c'.failures = 0 := by
  induction n generalizing i c with
  | zero => exact ⟨c, rfl, hc⟩
  | succ n ih =>
    obtain ⟨⟨kind, input⟩, r, hdraw, -⟩ := draws_draw cc (.of (seed + i * 0x9E3779B97F4A7C15))
    simp only [loop, hdraw, passes_every, Option.bind_eq_bind, Option.bind_some]
    exact ih (i + 1) hc

/-- No input makes a target throw, or subscript outside anything: the four designs agree on
every script, and every stream is parsed to what its frames add up to. So the campaign
returns zero from every seed, over any number of iterations, in whatever order the
compiler has arguments evaluated. -/
theorem campaign_passes (cc : Compiler) (wide : UInt8 → UInt64) :
    (∀ data, Book.Fuzz.fuzzBookDifferential data = some (.ok ())) ∧
    (∀ data, Itch.Fuzz.fuzzItchParse wide data =
      some (.ok (Itch.Fuzz.touched wide (frames data)).sum)) ∧
    ∀ seed iterations, campaign cc wide seed iterations = some 0 := by
  refine ⟨Book.Fuzz.fuzz_never_throws, Itch.Fuzz.fuzz_parse_sums wide, fun seed iterations => ?_⟩
  obtain ⟨c, hloop, hc⟩ := @loop_passes cc wide seed iterations.toNat 0 {} rfl
  rw [campaign, hloop]
  show some (if c.failures = 0 then 0 else 1) = _
  rw [if_pos hc]

end Fuzz

end Hotpath.Tools
