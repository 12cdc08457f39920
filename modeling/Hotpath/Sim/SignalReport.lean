import Hotpath.Sim.SignalStudy
import Hotpath.Support.Fallible

/-!
# The report of a signal study (src/signal_study.cpp)

How a signal goes with the return over a horizon: their correlation over the samples that
have a return, and the mean return in each tenth of them by the signal. The returns are exact
here; the correlation, whose guard and range its rounding decides, is any function of the signals
and the returns.
-/

namespace Hotpath.Sim
open Hotpath.Support

namespace Study

/-- A line of the report. -/
inductive Line (γ : Type) where
  | few
  | shown (n : ℕ) (corr : γ) (deciles : List ℚ)

variable {γ : Type} (pearson : List ℚ → List ℚ → γ)

variable {s : List Sample} {get : Sample → ℚ} {horizon : Ts}

variable {v : List (ℚ × ℚ)}

/-- The pairs of a decile, where these stand in the order of their signals. -/
def part (w : List (ℚ × ℚ)) (d : ℕ) : List (ℚ × ℚ) :=
  (w.drop (d * (w.length / 10))).take
    ((if d = 9 then w.length else d * (w.length / 10) + w.length / 10) - d * (w.length / 10))

def mean (p : List (ℚ × ℚ)) : ℚ := (p.map Prod.snd).sum / p.length

/-- What the deciles of some pairs are: each of the pairs is in one of ten parts, the signals
rise from part to part, and a decile is the mean return of its part. -/
structure Deciles (v : List (ℚ × ℚ)) (deciles : List ℚ) (parts : List (List (ℚ × ℚ))) : Prop where
  means : deciles = parts.map mean
  ten : parts.length = 10
  all : parts.flatten.Perm v
  rising : parts.Pairwise fun p q => ∀ x ∈ p, ∀ y ∈ q, x.1 ≤ y.1
  size : ∀ p ∈ parts, v.length / 10 ≤ p.length

/-- What a line says of the pairs it is about. -/
inductive Line.Of (v : List (ℚ × ℚ)) : Line γ → Prop
  | few : v.length < 100 → Of v .few
  | shown (deciles : List ℚ) (parts : List (List (ℚ × ℚ))) : 100 ≤ v.length →
      Deciles v deciles parts →
      Of v (.shown v.length (pearson (v.map Prod.fst) (v.map Prod.snd)) deciles)

end Study

end Hotpath.Sim
