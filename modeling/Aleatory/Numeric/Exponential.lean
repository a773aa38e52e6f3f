/-!
# The exponential function less one

`expLessOne x` is `exp x - 1` without the cancellation that the difference suffers near zero.  The
argument is reduced to `r = x - k * ln 2` with `|r| ≤ ln 2 / 2`; on that interval a rational
function gives `exp r - 1`, and the result is scaled back by `2 ^ k`.  These are the steps in which
C libraries document their `expm1`.
-/

namespace Aleatory

namespace Numeric

/-- `2 ^ k`, for the exponents of normal doubles. -/
def twoTo (k : Int) : Float := Float.ofBits ((1023 + k).toNat.toUInt64 <<< 52)

/-- `x * 2 ^ k`, by two factors where `2 ^ k` itself is too large for a double. -/
def scaleBy (x : Float) (k : Int) : Float :=
  if k ≤ 1023 then x * twoTo k else x * twoTo 1023 * twoTo (k - 1023)

/-- The leading bits of `ln 2`: its multiples by exponents are exact. -/
def ln2High : Float := 6.93147180369123816490e-01

/-- What the leading bits leave over. -/
def ln2Low : Float := 1.90821492927058770002e-10

/-- The correction that turns `r` into `exp r - 1`, for a reduced argument, before the rounding
error of the reduction is taken into account. -/
def reducedCorrection (r : Float) : Float :=
  let half := 0.5 * r
  let square := r * half
  let fourth := square * square
  let low := 1.0 + square * -3.33333333333331316428e-02
  let middle := 1.58730158725481460165e-03 + square * -7.93650757867487942473e-05
  let high := 4.00821782732936239552e-06 + square * -2.01099218183624371326e-07
  let series := low + fourth * middle + fourth * fourth * high
  let t := 3.0 - series * half
  square * ((series - t) / (6.0 - r * t))

/-- The nearest whole number of times that `ln 2` goes into `x`. -/
def binaryPlaces (x : Float) : Int :=
  if 1.0397205352783203 ≤ x.abs then
    (1.44269504088896338700e+00 * x + (if x < 0.0 then -0.5 else 0.5)).toInt64.toInt
  else if x < 0.0 then -1 else 1

/-- `exp x - 1` for an argument that needs reduction. -/
def expLessOneReduced (x : Float) : Float :=
  let k := binaryPlaces x
  let places := Float.ofInt k
  let high := x - places * ln2High
  let low := places * ln2Low
  let r := high - low
  let error := (high - r) - low
  let correction := (r * (reducedCorrection r - error) - error) - r * (0.5 * r)
  if k = -1 then 0.5 * (r - correction) - 0.5
  else if k = 1 then
    if r < -0.25 then -2.0 * (correction - (r + 0.5)) else 1.0 + 2.0 * (r - correction)
  else if k ≤ -2 ∨ 56 < k then scaleBy (1.0 - (correction - r)) k - 1.0
  else if k < 20 then scaleBy ((1.0 - twoTo (-k)) - (correction - r)) k
  else scaleBy ((r - (correction + twoTo (-k))) + 1.0) k

def expLessOne (x : Float) : Float :=
  if x.isNaN then x
  else if x ≤ -38.81622314453125 then -1.0
  else if 7.09782712893383973096e+02 < x then 1.0 / 0.0
  else if x.abs < 5.551115123125783e-17 then x
  else if 0.3465735912322998 ≤ x.abs then expLessOneReduced x
  else
    let square := x * (0.5 * x)
    x - (x * reducedCorrection x - square)

end Numeric

end Aleatory
