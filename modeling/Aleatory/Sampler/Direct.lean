import Aleatory.Sampler.Inverse
import Aleatory.Sampler.Layers

/-!
# Sampling from bits

These samplers work on the bits of words: an interval is scaled so that no word reaches its upper
bound, a probability becomes an integer threshold, weights are searched by a uniform share of
their total, and the exponential distribution is drawn by layers, which mostly need one word and
no logarithm.

Except for the checks of parameters, they are the samplers that `rand` 0.8 (intervals,
probabilities, weights) and `rand_distr` 0.4 (exponential and Gumbel numbers) document, word by
word; each definition below says which of them it follows.
-/

namespace Aleatory

namespace Direct

variable {F : Mode} {σ χ : Type} [Generator σ]

/-- The double in `[1, 2)` whose fraction is the upper 52 bits of a word; `rand` 0.8 takes its
points of an interval from it. -/
def oneToTwo (bits : UInt64) : Float := Float.ofBits ((bits >>> 12) ||| 0x3ff0000000000000)

/-- Whether a width, given by the bits of a double, keeps the largest share of an interval below
its upper bound. The largest share is one less the gap behind one. -/
def fits (low high : Float) (bits : Nat) : Bool :=
  !(high ≤ Float.ofBits bits.toUInt64 * (1.0 - 2.220446049250313e-16) + low)

/-- Halves the gap between a number that fits and one that does not, down to neighbours. -/
def bisect (fits : Nat → Bool) : Nat → Nat → Nat → Nat
  | 0, good, _ => good
  | rounds + 1, good, bad =>
    let middle := (good + bad) / 2
    if fits middle then bisect fits rounds middle bad else bisect fits rounds good middle

/-- The largest fitting width at or below the width of an interval.  For the scale of a `Uniform`,
`rand` 0.8 takes the width of the interval and goes down one double at a time until the largest
share stays below the upper bound.  A smaller width never reaches further, so the widths that fit
are the ones up to this one, and halving finds it. -/
def fittingWidth (low high : Float) : Float :=
  let bits := (high - low).toBits.toNat
  if fits low high bits then high - low
  else Float.ofBits (bisect (fits low high) 64 0 bits).toUInt64

/-- A uniform point of the interval that starts at `low` and has a given width, as a `Uniform` of
`rand` 0.8 draws it. -/
def within (low width : Float) : Draws σ Float := do
  return (oneToTwo (← Draws.word) - 1.0) * width + low

/-- Uniform on a half-open interval. -/
def uniform (low high : Float) : Except ParameterError (Experiment F σ χ Float) :=
  match checkInterval low high with
  | .ok () =>
    let width := fittingWidth low high
    .ok (.ofDraws (within low width))
  | .error e => .error e

/-- The number of words that count as true for a probability below one.  A `Bernoulli` of `rand` 0.8
keeps the probability as this number: the probability times `2 ^ 64`, cut off to an integer. -/
def threshold (p : Float) : UInt64 := (p * 18446744073709551616.0).toUInt64

/-- True with a given probability: a `Bernoulli` of `rand` 0.8 is true for the words below its
threshold, and for the probability one without taking a word. -/
def bernoulli (p : Float) : Except ParameterError (Experiment F σ χ Bool) :=
  if 0.0 ≤ p ∧ p < 1.0 then
    .ok (.ofDraws do return (← Draws.word) < threshold p)
  else if p == 1.0 then .ok (.ofDraws (pure true))
  else .error .outsideUnitInterval

/-- The number of running sums, the last one apart, that do not exceed a share. -/
def indexBelow (sums : List Float) (share : Float) : Nat :=
  (sums.dropLast.takeWhile (· ≤ share)).length

/-- An index, in proportion to its weight.  A `WeightedIndex` of `rand` 0.8 refuses an empty list, a
weight that is not at least zero, and a total of zero, in this order.  It draws a share of the total
from a `Uniform`, which has to have a finite width, and looks for the first running sum above the
share.  So weights whose total overflows pass the check of the single weights and then have no
interval to draw from. -/
def categorical (weights : List Float) :
    Except Fault (Except ParameterError (Experiment F σ χ Nat)) :=
  let sums := Inverse.runningSums weights
  let total := sums.getLastD 0.0
  if weights.isEmpty then .ok (.error .noWeights)
  else if weights.any fun w => !(0.0 ≤ w) then .ok (.error .negativeWeight)
  else if total == 0.0 then .ok (.error .onlyZeroWeights)
  else if !total.isFinite then .error .unboundedTotal
  else
    let width := fittingWidth 0.0 total
    .ok (.ok (.ofDraws do return indexBelow sums (← within 0.0 width)))

/-- An exponential number of rate one, by the layers of `rand_distr` 0.4.  A word chooses a layer
and a point of its rectangle; a point left of the next edge is under the density, any other one is
put to the test by one more word, and the widest layer continues into the tail.  A rejected point
costs a round. -/
def unitExponential : Nat → Draws σ Float
  | 0 => fun _ => .fail .passesExhausted
  | rounds + 1 => do
    let bits ← Draws.word
    let layer := bits.toNat % 256
    have inner : layer < 256 := Nat.mod_lt _ (by decide)
    have outer : layer + 1 < 257 := by omega
    have inRange : layer < 257 := by omega
    let x := (oneToTwo bits - (1.0 - 1.1102230246251565e-16)) * Layers.edge[layer]
    if x < Layers.edge[layer + 1] then return x
    else if layer = 0 then return Layers.tail - (← Draws.unit).log
    else
      let share ← Draws.unit
      let low := Layers.height[layer + 1]
      if low + (Layers.height[layer] - low) * share < (-x).exp then return x
      else unitExponential rounds

/-- Exponential with a given rate: an `Exp` of `rand_distr` 0.4 multiplies by the reciprocal. -/
def exponential (rate : Float) : Except ParameterError (Experiment F σ χ Float) :=
  match checkRate rate with
  | .ok () => .ok (.ofDraws do return (← unitExponential UInt64.size) * (1.0 / rate))
  | .error e => .error e

/-- A multiple of `2 ^ -53` in `(0, 1]`, the numbers of `OpenClosed01` in `rand` 0.8. -/
def positiveUnitOfWord (bits : UInt64) : Float :=
  ((bits >>> 11) + 1).toFloat * (1.0 / 9007199254740992.0)

/-- Gumbel with a given location and scale, as `rand_distr` 0.4 inverts it. -/
def gumbel (location scale : Float) : Except ParameterError (Experiment F σ χ Float) :=
  match checkLocationScale location scale with
  | .ok () => .ok (.ofDraws do
      return location - scale * (-(positiveUnitOfWord (← Draws.word)).log).log)
  | .error e => .error e

end Direct

end Aleatory
