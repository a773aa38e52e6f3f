import Aleatory.Numeric.Exponential

/-!
# The logarithm of one and a bit

`lnOnePlus x` is `ln (1 + x)` without the loss of the digits of a small `x` in the sum.  The sum
is written as `2 ^ k * (1 + f)` with `1 + f` between `√2 / 2` and `√2`, what the rounding of the
sum lost is carried along as a correction, and `ln (1 + f)` comes from a series in `f / (2 + f)`.
These are the steps in which C libraries document their `log1p`.
-/

namespace Aleatory

namespace Numeric

/-- A number `2 ^ places * (1 + fraction)`, up to the relative error `correction`. -/
structure Normalized where
  places : Int
  fraction : Float
  correction : Float

/-- Twice the even part of the series for `ln (1 + f)`, as a function of `s = f / (2 + f)`. -/
def logSeries (s : Float) : Float :=
  let z := s * s
  let z2 := z * z
  let z4 := z2 * z2
  let z6 := z4 * z2
  let first := z * 6.666666666666735130e-01
  let second := 3.999999999940941908e-01 + z * 2.857142874366239149e-01
  let third := 2.222219843214978396e-01 + z * 1.818357216161805012e-01
  let fourth := 1.531383769920937332e-01 + z * 1.479819860511658591e-01
  first + z2 * second + z4 * third + z6 * fourth

/-- The lowest 52 bits of a double. -/
def fractionBits (u : Float) : UInt64 := u.toBits &&& 0x000fffffffffffff

/-- The power of two below a positive normal double. -/
def binaryExponent (u : Float) : Int := (u.toBits >>> 52).toNat - 1023

/-- `1 + x` in normalized form. -/
def normalizeOnePlus (x : Float) : Normalized :=
  let u := if x < 9007199254740992.0 then 1.0 + x else x
  let k := binaryExponent u
  let lost := if x < 9007199254740992.0 then
      if 0 < k then 1.0 - (u - x) else x - (u - 1.0)
    else 0.0
  let bits := fractionBits u
  if bits < 0x0006a09e00000000 then
    ⟨k, Float.ofBits (bits ||| 0x3ff0000000000000) - 1.0, lost / u⟩
  else ⟨k + 1, Float.ofBits (bits ||| 0x3fe0000000000000) - 1.0, lost / u⟩

/-- The logarithm of a normalized number. -/
def lnNormalized (n : Normalized) : Float :=
  let f := n.fraction
  let places := Float.ofInt n.places
  let low := places * ln2Low + n.correction
  let half := 0.5 * f * f
  if -1.430511474609375e-06 ≤ f ∧ f < 9.5367431640625e-07 then
    if f == 0.0 then places * ln2High + low
    else
      let r := half * (1.0 - 0.66666666666666666 * f)
      places * ln2High - ((r - low) - f)
  else
    let s := f / (2.0 + f)
    places * ln2High - ((half - (s * (half + logSeries s) + low)) - f)

def lnOnePlus (x : Float) : Float :=
  if x.isNaN then x
  else if x < -1.0 then 0.0 / 0.0
  else if x == -1.0 then -1.0 / 0.0
  else if x.isInf then x
  else if x.abs < 5.551115123125783e-17 then x
  else if x.abs < 1.862645149230957e-09 then x - x * x * 0.5
  else if -0.2928934097290039 < x ∧ x < 0.4142136573791504 then
    let half := 0.5 * x * x
    let s := x / (2.0 + x)
    x - (half - s * (half + logSeries s))
  else lnNormalized (normalizeOnePlus x)

end Numeric

end Aleatory
