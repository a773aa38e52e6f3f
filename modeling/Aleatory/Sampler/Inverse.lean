import Aleatory.Experiment
import Aleatory.Sampler.Parameter

/-!
# Sampling by inversion

Each sampler takes one word, turns it into a number of the unit interval and applies the inverse
of the distribution function.  The samplers of unbounded support use the open unit interval, where
the logarithm is finite.
-/

namespace Aleatory

namespace Inverse

variable {F : Mode} {σ χ : Type} [Generator σ]

/-- The midpoint `(k + 1/2) / 2 ^ 52` for the number `k` made of the upper 52 bits of a word. -/
def openUnitOfWord (bits : UInt64) : Float :=
  ((bits >>> 12).toFloat + 0.5) * (1.0 / 4503599627370496.0)

/-- A number strictly between zero and one. -/
def openUnit : Experiment F σ χ Float := .map .word openUnitOfWord

/-- The point that divides an interval as `u` divides the unit interval; what rounding moves onto
the upper bound goes to the lower one. -/
def uniformAt (low high u : Float) : Float :=
  let x := low + (high - low) * u
  if x < high then x else low

/-- The running sums of a list of weights, started at zero. -/
def runningSums (weights : List Float) : List Float := go 0.0 weights
where
  go (sum : Float) : List Float → List Float
    | [] => []
    | w :: rest => (sum + w) :: go (sum + w) rest

/-- The last index with a positive weight, or zero. -/
def lastPositive (weights : List Float) : Nat :=
  ((weights.zipIdx.filter fun (w, _) => 0.0 < w).getLast?.map (·.2)).getD 0

/-- The index whose share of the total contains the share `u`: the number of leading running sums
that do not exceed it, but never behind the last positive weight. -/
def indexAt (sums : List Float) (last : Nat) (u : Float) : Nat :=
  let target := u * sums.getLastD 0.0
  min (sums.takeWhile (· ≤ target)).length last

/-- Uniform on a half-open interval. -/
def uniform (low high : Float) : Except ParameterError (Experiment F σ χ Float) :=
  match checkInterval low high with
  | .ok () => .ok (.map .unit (uniformAt low high))
  | .error e => .error e

/-- True with a given probability. -/
def bernoulli (p : Float) : Except ParameterError (Experiment F σ χ Bool) :=
  match checkProbability p with
  | .ok () => .ok (.map .unit fun u => u < p)
  | .error e => .error e

/-- An index, in proportion to its weight. -/
def categorical (weights : List Float) : Except ParameterError (Experiment F σ χ Nat) :=
  match checkWeights weights with
  | .ok () =>
    let sums := runningSums weights
    let last := lastPositive weights
    .ok (.map .unit (indexAt sums last))
  | .error e => .error e

/-- Exponential with a given rate. -/
def exponential (rate : Float) : Except ParameterError (Experiment F σ χ Float) :=
  match checkRate rate with
  | .ok () => .ok (.map openUnit fun v => -v.log / rate)
  | .error e => .error e

/-- Gumbel with a given location and scale. -/
def gumbel (location scale : Float) : Except ParameterError (Experiment F σ χ Float) :=
  match checkLocationScale location scale with
  | .ok () => .ok (.map openUnit fun v => location - scale * (-v.log).log)
  | .error e => .error e

end Inverse

end Aleatory
