import Aleatory.Decimal.Shortest
import Aleatory.Numeric.Elementary

/-!
# Parameters of samplers

A sampler is built only for parameters that describe a distribution.  `ParameterError` names the
first thing that is wrong with them, and its message says so.
-/

namespace Aleatory

/-- The reasons for which parameters are refused. -/
inductive ParameterError where
  | unboundedInterval (low high : Float)
  | emptyInterval (low high : Float)
  | improbable (p : Float)
  | noWeights
  | badWeight (index : Nat) (weight : Float)
  | badTotal (total : Float)
  | badRate (rate : Float)
  | badLocation (location : Float)
  | badScale (scale : Float)
  /-- The three reasons below do not carry the offending number. -/
  | outsideUnitInterval
  | negativeWeight
  | onlyZeroWeights

namespace ParameterError

/-- The name of the parameter that is at fault. -/
def parameter : ParameterError → String
  | unboundedInterval _ _ | emptyInterval _ _ => "low/high"
  | improbable _ | outsideUnitInterval => "p"
  | noWeights | badWeight _ _ | badTotal _ | negativeWeight | onlyZeroWeights => "weights"
  | badRate _ => "rate"
  | badLocation _ => "location"
  | badScale _ => "scale"

def reason : ParameterError → String
  | unboundedInterval low high =>
    "bounds must be finite, got [" ++ plainText low ++ ", " ++ plainText high ++ ")"
  | emptyInterval low high =>
    "low must be below high, got [" ++ plainText low ++ ", " ++ plainText high ++ ")"
  | improbable p => "must lie in [0, 1], got " ++ plainText p
  | noWeights => "Categorical weights are empty"
  | badWeight index weight =>
    "weight " ++ toString index ++ " must be finite and non-negative, got " ++ plainText weight
  | badTotal total => "total weight must be positive and finite, got " ++ plainText total
  | badRate rate => "must be positive and finite, got " ++ plainText rate
  | badLocation location => "must be finite, got " ++ plainText location
  | badScale scale => "must be positive and finite, got " ++ plainText scale
  | outsideUnitInterval => "p is outside [0, 1] in Bernoulli distribution"
  | negativeWeight => "A weight is invalid in distribution"
  | onlyZeroWeights => "All weights are zero in distribution"

def message : ParameterError → String
  | noWeights => reason noWeights
  | e => "Invalid parameter \x60" ++ e.parameter ++ "\x60: " ++ e.reason

end ParameterError

/-- A number that is positive and finite. -/
def isPositiveFinite (x : Float) : Bool := 0.0 < x && x.isFinite

def totalWeight (weights : List Float) : Float := Elementary.sum weights

/-- Bounds of a half-open interval of finite width that is not empty. -/
def checkInterval (low high : Float) : Except ParameterError Unit :=
  if !low.isFinite || !high.isFinite || !(high - low).isFinite then
    .error (.unboundedInterval low high)
  else if high ≤ low then .error (.emptyInterval low high)
  else .ok ()

/-- A number between zero and one, both included. -/
def checkProbability (p : Float) : Except ParameterError Unit :=
  if 0.0 ≤ p ∧ p ≤ 1.0 then .ok () else .error (.improbable p)

/-- Weights that are finite and not negative, with a positive and finite total. -/
def checkWeights (weights : List Float) : Except ParameterError Unit :=
  if weights.isEmpty then .error .noWeights
  else
    match weights.zipIdx.find? fun (w, _) => !w.isFinite || w < 0.0 with
    | some (w, index) => .error (.badWeight index w)
    | none =>
      if isPositiveFinite (totalWeight weights) then .ok ()
      else .error (.badTotal (totalWeight weights))

/-- A rate that is positive and finite. -/
def checkRate (rate : Float) : Except ParameterError Unit :=
  if isPositiveFinite rate then .ok () else .error (.badRate rate)

/-- A finite location, and a scale that is positive and finite. -/
def checkLocationScale (location scale : Float) : Except ParameterError Unit :=
  if !location.isFinite then .error (.badLocation location)
  else if isPositiveFinite scale then .ok ()
  else .error (.badScale scale)

end Aleatory
