import Mathlib
import Aleatory.Proofs.Likelihood.Exact

/-!
# The likelihoods form one probability model

In exact arithmetic the likelihood of one table is a quotient of multiset coefficients
(`exp_logSingle`), and the likelihood of two tables is that of the first, times that of the second
under the prior to which the first one leads (`logJoint_eq_add`). By the identity of Chu and
Vandermonde the likelihoods of all the tables of one total add up to one, and so the likelihoods
of two tables add up, over all the second ones of one total, to the likelihood of the first.
-/

namespace Aleatory

open Ring (multichoose)
open Finset.HasAntidiagonal (antidiagonal)
open Finset.Nat (antidiagonalTuple)

section Multichoose

theorem factorial_mul_multichoose (a : ℝ) (n : ℕ) :
    n.factorial * multichoose a n = (ascPochhammer ℝ n).eval a := by
  rw [← nsmul_eq_mul, Ring.factorial_nsmul_multichoose_eq_ascPochhammer,
    Polynomial.ascPochhammer_smeval_eq_eval]

theorem multichoose_pos {a : ℝ} (ha : 0 < a) (n : ℕ) : 0 < multichoose a n := by
  have hpoly := ascPochhammer_pos n a ha
  rw [← factorial_mul_multichoose] at hpoly
  exact pos_of_mul_pos_right hpoly (Nat.cast_nonneg _)

theorem gamma_natCast_add {a : ℝ} (ha : 0 < a) (n : ℕ) :
    Real.Gamma (n + a) = Real.Gamma a * (n.factorial * multichoose a n) := by
  rw [factorial_mul_multichoose]
  induction n with
  | zero => simp
  | succ n ih =>
      have hne : (n + a : ℝ) ≠ 0 := by positivity
      calc Real.Gamma ((n + 1 : ℕ) + a)
          = Real.Gamma (n + a + 1) := by push_cast; ring_nf
        _ = (n + a) * (Real.Gamma a * (ascPochhammer ℝ n).eval a) := by
            rw [Real.Gamma_add_one hne, ih]
        _ = Real.Gamma a * (ascPochhammer ℝ (n + 1)).eval a := by
            rw [ascPochhammer_succ_eval]; ring

theorem multichoose_eq_choose_neg (a : ℝ) (n : ℕ) :
    multichoose a n = (n : ℤ).negOnePow * Ring.choose (-a) n := by
  rw [Ring.choose_neg', Units.smul_def, zsmul_eq_mul, ← mul_assoc, ← Int.cast_mul,
    ← Units.val_mul, Int.units_mul_self]
  simp

/-- Choosing from two parts. -/
theorem sum_multichoose_mul (a b : ℝ) (n : ℕ) :
    ∑ ij ∈ antidiagonal n, multichoose a ij.1 * multichoose b ij.2 = multichoose (a + b) n := by
  have hsign {ij : ℕ × ℕ} (h : ij ∈ antidiagonal n) :
      multichoose a ij.1 * multichoose b ij.2 =
        (n : ℤ).negOnePow * (Ring.choose (-a) ij.1 * Ring.choose (-b) ij.2) := by
    rw [multichoose_eq_choose_neg, multichoose_eq_choose_neg,
      ← Finset.HasAntidiagonal.mem_antidiagonal.mp h, Nat.cast_add, Int.negOnePow_add]
    push_cast
    ring
  rw [Finset.sum_congr rfl fun ij h => hsign h, ← Finset.mul_sum,
    ← Ring.add_choose_eq n (Commute.all _ _), ← neg_add, ← multichoose_eq_choose_neg]

theorem sum_antidiagonalTuple_succ (K n : ℕ) (f : (Fin (K + 1) → ℕ) → ℝ) :
    ∑ y ∈ antidiagonalTuple (K + 1) n, f y =
      ∑ ij ∈ antidiagonal n, ∑ y ∈ antidiagonalTuple K ij.2, f (Fin.cons ij.1 y) := by
  change ((List.Nat.antidiagonalTuple (K + 1) n).map f).sum =
    ((List.Nat.antidiagonal n).map fun ij =>
      ((List.Nat.antidiagonalTuple K ij.2).map fun y => f (Fin.cons ij.1 y)).sum).sum
  simp only [List.Nat.antidiagonalTuple, List.flatMap_def, List.map_flatten, List.sum_flatten,
    List.map_map, Function.comp_def]

/-- Choosing from any number of parts. -/
theorem sum_prod_multichoose {K : ℕ} (α : Fin K → ℝ) (n : ℕ) :
    ∑ y ∈ antidiagonalTuple K n, ∏ k, multichoose (α k) (y k) = multichoose (∑ k, α k) n := by
  induction K generalizing n with
  | zero =>
      cases n with
      | zero => simp
      | succ n => simp [Ring.multichoose_zero_succ]
  | succ K ih =>
      simp only [sum_antidiagonalTuple_succ, Fin.prod_univ_succ, Fin.cons_zero, Fin.cons_succ,
        ← Finset.mul_sum, ih, Fin.sum_univ_succ, sum_multichoose_mul]

end Multichoose

namespace Likelihood

open Real (Gamma log exp)

variable {K : ℕ} {α : Fin K → ℝ}

theorem log_gamma_natCast_add {a : ℝ} (ha : 0 < a) (n : ℕ) :
    log (Gamma (n + a)) - log (Gamma a) - log (Gamma (n + 1)) = log (multichoose a n) := by
  have hgamma : Gamma a ≠ 0 := (Real.Gamma_pos_of_pos ha).ne'
  have hfactorial : (n.factorial : ℝ) ≠ 0 := by exact_mod_cast n.factorial_ne_zero
  rw [gamma_natCast_add ha, Real.Gamma_nat_eq_factorial, Real.log_mul hgamma
    (mul_ne_zero hfactorial (multichoose_pos ha n).ne'), Real.log_mul hfactorial
    (multichoose_pos ha n).ne']
  ring

theorem logSingle_eq (hα : ∀ k, 0 < α k) (hK : 0 < ∑ k, α k) (x : Fin K → ℕ) :
    logSingle x α =
      ∑ k, log (multichoose (α k) (x k)) - log (multichoose (∑ k, α k) (∑ k, x k)) := by
  have hterm := Finset.sum_congr rfl fun k (_ : k ∈ Finset.univ) =>
    log_gamma_natCast_add (hα k) (x k)
  rw [logSingle, hterm, ← log_gamma_natCast_add hK (∑ k, x k)]
  ring

/-- The probability of a table: its share of all the multisets of its total. -/
theorem exp_logSingle (hα : ∀ k, 0 < α k) (hK : 0 < ∑ k, α k) (x : Fin K → ℕ) :
    exp (logSingle x α) =
      (∏ k, multichoose (α k) (x k)) / multichoose (∑ k, α k) (∑ k, x k) := by
  rw [logSingle_eq hα hK, Real.exp_sub, Real.exp_sum, Real.exp_log (multichoose_pos hK _)]
  congr 1
  exact Finset.prod_congr rfl fun k _ => Real.exp_log (multichoose_pos (hα k) _)

/-- Two tables are as likely as the first one, and then the second one under the prior that the
counts of the first one are added to. -/
theorem logJoint_eq_add (x y : Fin K → ℕ) (α : Fin K → ℝ) :
    logJoint x y α = logSingle x α + logSingle y fun k => x k + α k := by
  have hgamma (k : Fin K) : (x k + y k + α k : ℝ) = y k + (x k + α k) := by ring
  have htotal : ((∑ k, x k : ℕ) + (∑ k, y k : ℕ) + ∑ k, α k : ℝ) =
      (∑ k, y k : ℕ) + ∑ k, (x k + α k) := by
    rw [Finset.sum_add_distrib]
    push_cast
    ring
  have hprior : (∑ k, (x k + α k) : ℝ) = (∑ k, x k : ℕ) + ∑ k, α k := by
    rw [Finset.sum_add_distrib]
    push_cast
    rfl
  simp only [logJoint, logSingle, hgamma, htotal, Finset.sum_sub_distrib, Finset.sum_add_distrib]
  rw [← Finset.sum_add_distrib, hprior]
  ring

theorem sum_exp_logSingle (hα : ∀ k, 0 < α k) (hK : 0 < ∑ k, α k) (n : ℕ) :
    ∑ y ∈ antidiagonalTuple K n, exp (logSingle y α) = 1 := by
  have hshare {y : Fin K → ℕ} (hy : y ∈ antidiagonalTuple K n) : exp (logSingle y α) =
      (∏ k, multichoose (α k) (y k)) / multichoose (∑ k, α k) n := by
    rw [exp_logSingle hα hK, Finset.Nat.mem_antidiagonalTuple.mp hy]
  rw [Finset.sum_congr rfl fun y hy => hshare hy, ← Finset.sum_div, sum_prod_multichoose,
    div_self (multichoose_pos hK n).ne']

theorem logJoint_zero (x : Fin K → ℕ) (α : Fin K → ℝ) : logJoint x 0 α = logSingle x α := by
  simp [logJoint_eq_add, logSingle]

open Exact in
/-- In exact arithmetic the likelihoods are those of one probability model, for a prior over any
number of outcomes and tables of any size: the likelihoods of two tables add up, over the second
one, to the likelihood of the first; without a second one they are that of the first; and the
likelihoods of the tables of one total add up to one. They are what the likelihoods of the library
read over the real numbers, wherever the totals of the counts fit in 64 bits. -/
theorem likelihoods_consistent (hK : 0 < K) (hα : ∀ k, 0 < α k) :
    (∀ (x : Fin K → ℕ) (n : ℕ),
      ∑ y ∈ antidiagonalTuple K n, exp (logJoint x y α) = exp (logSingle x α)) ∧
    (∀ x : Fin K → ℕ, logJoint x 0 α = logSingle x α) ∧
    (∀ n : ℕ, ∑ y ∈ antidiagonalTuple K n, exp (logSingle y α) = 1) ∧
    (∀ x : Fin K → UInt64, ∑ k, (x k).toNat < UInt64.size →
      single (List.ofFn x) (List.ofFn α) = .ok (logSingle (fun k => (x k).toNat) α)) ∧
    ∀ x y : Fin K → UInt64, ∑ k, (x k).toNat < UInt64.size → ∑ k, (y k).toNat < UInt64.size →
      joint (List.ofFn x) (List.ofFn y) (List.ofFn α) =
        .ok (logJoint (fun k => (x k).toNat) (fun k => (y k).toNat) α) := by
  have hne : (Finset.univ : Finset (Fin K)).Nonempty := ⟨⟨0, hK⟩, Finset.mem_univ _⟩
  have hpos {β : Fin K → ℝ} (hβ : ∀ k, 0 < β k) : 0 < ∑ k, β k :=
    Finset.sum_pos (fun k _ => hβ k) hne
  refine ⟨fun x n => ?_, fun x => logJoint_zero x α, sum_exp_logSingle hα (hpos hα),
    fun x => single_ofFn x α, fun x y => joint_ofFn x y α⟩
  have hupdated (k : Fin K) : 0 < (x k : ℝ) + α k := by
    have := hα k
    positivity
  calc ∑ y ∈ antidiagonalTuple K n, exp (logJoint x y α)
      = exp (logSingle x α) *
          ∑ y ∈ antidiagonalTuple K n, exp (logSingle y fun k => x k + α k) := by
        simp only [logJoint_eq_add, Real.exp_add, Finset.mul_sum]
    _ = exp (logSingle x α) := by
        rw [sum_exp_logSingle hupdated (hpos hupdated), mul_one]

theorem likelihoods_consistent_three :
    0 < 3 ∧ (∀ k, 0 < (![1 / 2, 3 / 2, 2] : Fin 3 → ℝ) k) ∧
      ∑ y ∈ antidiagonalTuple 3 6, exp (logJoint ![4, 0, 7] y ![1 / 2, 3 / 2, 2]) =
        exp (logSingle ![4, 0, 7] ![1 / 2, 3 / 2, 2]) := by
  have hα : ∀ k, 0 < (![1 / 2, 3 / 2, 2] : Fin 3 → ℝ) k := by
    intro k
    fin_cases k <;> norm_num
  exact ⟨by decide, hα, (likelihoods_consistent (by decide) hα).1 ![4, 0, 7] 6⟩

end Likelihood

end Aleatory
