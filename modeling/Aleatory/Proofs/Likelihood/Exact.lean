import Mathlib
import Aleatory.Equivalence.Likelihood
import Aleatory.Proofs.Equivalence.Frequency
import Aleatory.Proofs.Likelihood.Exchange

/-!
# Likelihoods in exact arithmetic

The formulas of the likelihoods are written over any type of numbers, so they can be read over the
real numbers, with the functions that they name: `GammaArithmetic.exact`. There they are the
Dirichlet-multinomial likelihoods `logSingle` and `logJoint`, which make sense for counts of any
size (`single_ofFn`, `joint_ofFn`).
-/

namespace Aleatory

noncomputable def Transcendental.exact : Transcendental ℝ where
  exp := Real.exp
  ln := Real.log
  sin := Real.sin
  expLessOne x := Real.exp x - 1
  lnOnePlus x := Real.log (1 + x)

/-- The real numbers, with nothing rounded and no special numbers. -/
@[reducible]
noncomputable def GammaArithmetic.exact : GammaArithmetic ℝ where
  transcendental := .exact
  eq a b := decide (a = b)
  lt a b := decide (a < b)
  le a b := decide (a ≤ b)
  abs x := |x|
  isFinite _ := true
  pi := Real.pi
  lnTwo := Real.log 2
  ofCount n := n.toNat
  lnGamma x := Real.log (Real.Gamma x)

namespace Exact

noncomputable scoped instance : GammaArithmetic ℝ := .exact

end Exact

open Exact

theorem Elementary.sum_exact (xs : List ℝ) : Elementary.sum xs = xs.sum := by
  have hzero : (-0.0 : ℝ) = 0 := by norm_num
  rw [Elementary.sum, List.sum_eq_foldl]
  exact congrArg (fun start : ℝ => xs.foldl (· + ·) start) hzero

namespace Likelihood

open Real (Gamma log)

variable {K : ℕ}

/-- The logarithm of the probability of a table of counts. -/
noncomputable def logSingle (x : Fin K → ℕ) (α : Fin K → ℝ) : ℝ :=
  log (Gamma (∑ k, α k)) + log (Gamma ((∑ k, x k : ℕ) + 1)) -
      log (Gamma ((∑ k, x k : ℕ) + ∑ k, α k)) +
    ∑ k, (log (Gamma (x k + α k)) - log (Gamma (α k)) - log (Gamma (x k + 1)))

/-- The logarithm of the probability of two tables of counts from one distribution. -/
noncomputable def logJoint (x y : Fin K → ℕ) (α : Fin K → ℝ) : ℝ :=
  log (Gamma (∑ k, α k)) +
        (log (Gamma ((∑ k, x k : ℕ) + 1)) + log (Gamma ((∑ k, y k : ℕ) + 1))) -
      log (Gamma ((∑ k, x k : ℕ) + (∑ k, y k : ℕ) + ∑ k, α k)) +
    ∑ k, (log (Gamma (x k + y k + α k)) - log (Gamma (α k)) -
      (log (Gamma (x k + 1)) + log (Gamma (y k + 1))))

theorem countTotal_ofFn (x : Fin K → UInt64) (hx : ∑ k, (x k).toNat < UInt64.size) :
    (countTotal (List.ofFn x) : Except Fault ℝ) = .ok (∑ k, (x k).toNat : ℕ) := by
  have hsum : ((List.ofFn x).map UInt64.toNat).sum = ∑ k, (x k).toNat := by
    rw [List.map_ofFn, List.sum_ofFn]
    rfl
  obtain ⟨n, hn, htoNat⟩ := exists_sumCounts_of_lt (List.ofFn x) (hsum ▸ hx)
  rw [countTotal, hn, ← hsum, ← htoNat]
  rfl

theorem zipWith_ofFn {α β γ : Type} (f : α → β → γ) (a : Fin K → α) (b : Fin K → β) :
    List.zipWith f (List.ofFn a) (List.ofFn b) = List.ofFn fun k => f (a k) (b k) :=
  List.ext_getElem (by simp) (by simp)

/-- Over the real numbers, the likelihood of a table whose total fits in 64 bits is the logarithm
of its probability. -/
theorem single_ofFn (x : Fin K → UInt64) (α : Fin K → ℝ)
    (hx : ∑ k, (x k).toNat < UInt64.size) :
    single (List.ofFn x) (List.ofFn α) = .ok (logSingle (fun k => (x k).toNat) α) := by
  have hlength : (List.ofFn x).length = (List.ofFn α).length := by simp
  have hone : (1.0 : ℝ) = 1 := by norm_num
  simp only [single, hlength, countTotal_ofFn x hx, ne_eq, not_true_eq_false, if_false,
    zipWith_ofFn, Elementary.sum_exact, List.sum_ofFn]
  change Except.ok _ = Except.ok _
  simp only [singleTerm, logSingle, ← hone]
  rfl

theorem joint_ofFn (x y : Fin K → UInt64) (α : Fin K → ℝ)
    (hx : ∑ k, (x k).toNat < UInt64.size) (hy : ∑ k, (y k).toNat < UInt64.size) :
    joint (List.ofFn x) (List.ofFn y) (List.ofFn α) =
      .ok (logJoint (fun k => (x k).toNat) (fun k => (y k).toNat) α) := by
  have hone : (1.0 : ℝ) = 1 := by norm_num
  rw [joint_of_totals (by simp) (by simp) (countTotal_ofFn x hx) (countTotal_ofFn y hy)]
  simp only [List.zip, zipWith_ofFn, Elementary.sum_exact, List.sum_ofFn, jointTerm, logJoint,
    ← hone]
  rfl

end Likelihood

end Aleatory
