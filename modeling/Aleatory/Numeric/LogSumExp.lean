import Aleatory.Numeric.Elementary

/-!
# The logarithm of a sum of exponentials

`logSumExp a b` is `ln (exp a + exp b)`, computed from the larger argument and the distance of the
two, so that neither exponential overflows.  Equal arguments are told apart first: two equal
infinities have no distance.
-/

namespace Aleatory

namespace Elementary

variable {ρ : Type} [Elementary ρ]

/-- The logarithm of the sum of two exponentials. -/
def logSumExp (a b : ρ) : ρ :=
  if eq a b then a + lnTwo else max a b + lnOnePlus (exp (-(abs (a - b))))

end Elementary

end Aleatory
