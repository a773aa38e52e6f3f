import Aleatory.Numeric.Elementary

/-!
# The logarithm of the gamma function

From one half on, Lanczos' approximation with `g = 7` and nine coefficients; below one half the
reflection `Γ x * Γ (1 - x) = π / sin (π x)`, whose other argument lies above one half.
-/

namespace Aleatory

namespace Elementary

variable {ρ : Type} [Elementary ρ]

/-- Lanczos' partial fractions at `x`, for the coefficients behind the constant one. -/
def lanczosFractions (x : ρ) : List (ρ × ρ) :=
  [(676.5203681218851, 1.0), (-1259.1392167224028, 2.0), (771.32342877765313, 3.0),
    (-176.61502916214059, 4.0), (12.507343278686905, 5.0), (-0.13857109526572012, 6.0),
    (9.9843695780195716e-6, 7.0), (1.5056327351493116e-7, 8.0)].map fun (c, i) => (c, x + i)

/-- Lanczos' series at `x`. -/
def lanczosSeries (x : ρ) : ρ :=
  (lanczosFractions x).foldl (fun sum (c, d) => sum + c / d) 0.99999999999980993

/-- The logarithm of the gamma function from one half on. -/
def logGammaUpper (x : ρ) : ρ :=
  let x := x - 1.0
  let t := x + 7.5
  0.5 * ln (2.0 * pi) + (x + 0.5) * ln t - t + ln (lanczosSeries x)

/-- The logarithm of the gamma function. -/
def logGamma (x : ρ) : ρ :=
  if lt x 0.5 then ln pi - ln (abs (sin (pi * x))) - logGammaUpper (1.0 - x)
  else logGammaUpper x

end Elementary

end Aleatory
