import Aleatory.Fault
import Aleatory.Numeric.LogGamma
import Aleatory.Numeric.LogSumExp

/-!
# Likelihoods of histograms

Two histograms over one sample space either come from one distribution or from two.  With a
Dirichlet prior over the distributions, both hypotheses have a closed marginal likelihood in terms
of the gamma function, and with even odds before the data the posterior probability of two
distributions is `1 - exp (same - logSumExp same different)`.
-/

namespace Aleatory

/-- Numbers with a logarithm of the gamma function. -/
class GammaArithmetic (ρ : Type) extends Elementary ρ where
  lnGamma : ρ → ρ

/-- The doubles, with given transcendental functions and Lanczos' approximation over them. -/
@[reducible]
def GammaArithmetic.double (functions : Transcendental Float) : GammaArithmetic Float :=
  let _ : Elementary Float := .double functions
  { lnGamma := Elementary.logGamma }

instance : GammaArithmetic Float := .double .double

namespace Likelihood

open Elementary GammaArithmetic

variable {ρ : Type} [GammaArithmetic ρ]

/-- A sum of counts as a number. -/
def countTotal (counts : List UInt64) : Except Fault ρ :=
  match sumCounts counts with
  | .ok n => .ok (ofCount n)
  | .error fault => .error fault

/-- The contribution of one outcome to the likelihood of one histogram. -/
def singleTerm (count : UInt64) (a : ρ) : ρ :=
  let x : ρ := ofCount count
  lnGamma (x + a) - lnGamma a - lnGamma (x + 1.0)

/-- The logarithm of the probability of a histogram, all orders of its samples taken together. -/
def single (counts : List UInt64) (alpha : List ρ) : Except Fault ρ := do
  if counts.length ≠ alpha.length then throw .lengthMismatch
  let alphaSum := sum alpha
  let n ← countTotal counts
  let terms := sum (List.zipWith singleTerm counts alpha)
  return lnGamma alphaSum + lnGamma (n + 1.0) - lnGamma (n + alphaSum) + terms

/-- The contribution of one outcome to the likelihood of two histograms from one distribution. -/
def jointTerm (first second : UInt64) (a : ρ) : ρ :=
  let x : ρ := ofCount first
  let y : ρ := ofCount second
  lnGamma (x + y + a) - lnGamma a - (lnGamma (x + 1.0) + lnGamma (y + 1.0))

/-- The logarithm of the probability of two histograms from one distribution. -/
def joint (first second : List UInt64) (alpha : List ρ) : Except Fault ρ := do
  if first.length ≠ alpha.length then throw .lengthMismatch
  if second.length ≠ alpha.length then throw .lengthMismatch
  let alphaSum := sum alpha
  let n ← countTotal first
  let m ← countTotal second
  let terms := sum (List.zipWith (fun (x, y) a => jointTerm x y a) (first.zip second) alpha)
  return lnGamma alphaSum + (lnGamma (n + 1.0) + lnGamma (m + 1.0)) - lnGamma (n + m + alphaSum)
    + terms

/-- The posterior probability that two histograms come from different distributions, for the
likelihoods of the two hypotheses. -/
def posterior (same different : ρ) : ρ :=
  clamp 0.0 1.0 (-(expLessOne (same - logSumExp same different)))

/-- The posterior probability that two histograms come from different distributions. -/
def probabilityOfDifference (first second : List UInt64) (alpha : List ρ) : Except Fault ρ := do
  let same ← joint first second alpha
  let ofFirst ← single first alpha
  let ofSecond ← single second alpha
  return posterior same (ofFirst + ofSecond)

end Likelihood

end Aleatory
