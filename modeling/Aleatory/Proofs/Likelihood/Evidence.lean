import Mathlib
import Aleatory.Equivalence.Oracle
import Aleatory.Proofs.Likelihood.Consistency

/-!
# Weighing the evidence

In exact arithmetic the posterior probability of a difference is the share of the likelihood of
two distributions in the sum of both likelihoods (`Likelihood.unclamped_exact`): the logarithms,
the shift by the larger one and the subtraction from one leave no trace. The share lies strictly
between zero and one, so it is not clamped, and it is at most a threshold `t` just if the odds for
two distributions are at most `t` to `1 - t` (`Likelihood.evidence_decides`).
-/

namespace Aleatory

open Exact

namespace Elementary

theorem lt_exact_iff {a b : ℝ} : lt a b = true ↔ a < b := decide_eq_true_iff

theorem eq_exact_iff {a b : ℝ} : eq a b = true ↔ a = b := decide_eq_true_iff

theorem le_exact_iff {a b : ℝ} : le a b = true ↔ a ≤ b := decide_eq_true_iff

theorem max_exact (a b : ℝ) : Elementary.max a b = Max.max a b := by
  have heq (x : ℝ) : Elementary.eq x x = true := eq_exact_iff.mpr rfl
  simp only [Elementary.max, heq, Bool.not_true, Bool.false_eq_true, if_false, lt_exact_iff]
  by_cases h : a < b
  · rw [if_pos h, max_eq_right h.le]
  · rw [if_neg h, max_eq_left (not_lt.mp h)]

theorem clamp_exact {low high x : ℝ} (hlow : low ≤ x) (hhigh : x ≤ high) :
    clamp low high x = x := by
  simp only [clamp, lt_exact_iff, not_lt.mpr hlow, not_lt.mpr hhigh, if_false]

theorem logSumExp_exact (a b : ℝ) :
    logSumExp a b = Real.log (Real.exp a + Real.exp b) := by
  have hfactor (x y : ℝ) :
      Real.log (Real.exp x + Real.exp y) = x + Real.log (1 + Real.exp (y - x)) := by
    have hne : 1 + Real.exp (y - x) ≠ 0 := by positivity
    have hproduct : Real.exp x + Real.exp y = Real.exp x * (1 + Real.exp (y - x)) := by
      rw [mul_add, mul_one, ← Real.exp_add, add_sub_cancel]
    rw [hproduct, Real.log_mul (Real.exp_ne_zero x) hne, Real.log_exp]
  rw [logSumExp]
  by_cases h : a = b
  · subst h
    rw [if_pos (eq_exact_iff.mpr rfl), hfactor, sub_self, Real.exp_zero, one_add_one_eq_two]
    rfl
  · rw [if_neg (mt eq_exact_iff.mp h), max_exact]
    change Max.max a b + Real.log (1 + Real.exp (-|a - b|)) = _
    rcases le_total a b with hle | hle
    · rw [max_eq_right hle, abs_of_nonpos (sub_nonpos.mpr hle), add_comm (Real.exp a), hfactor,
        neg_neg]
    · rw [max_eq_left hle, abs_of_nonneg (sub_nonneg.mpr hle), hfactor, neg_sub]

end Elementary

namespace Likelihood

open Real (exp log)

/-- The posterior probability of two distributions is their share of the evidence. -/
theorem unclamped_exact (same different : ℝ) :
    -(Elementary.expLessOne (same - Elementary.logSumExp same different)) =
      exp different / (exp same + exp different) := by
  have hsame := Real.exp_pos same
  have hdifferent := Real.exp_pos different
  rw [Elementary.logSumExp_exact]
  change -(exp (same - log (exp same + exp different)) - 1) = _
  rw [Real.exp_sub, Real.exp_log (add_pos hsame hdifferent)]
  field_simp
  ring

theorem share_pos (same different : ℝ) : 0 < exp different / (exp same + exp different) := by
  positivity

theorem share_lt_one (same different : ℝ) : exp different / (exp same + exp different) < 1 := by
  rw [div_lt_one (by positivity)]
  exact lt_add_of_pos_left _ (Real.exp_pos same)

/-- The share is not clamped. -/
theorem posterior_exact (same different : ℝ) :
    posterior same different = exp different / (exp same + exp different) := by
  have hone : (1.0 : ℝ) = 1 := by norm_num
  have hzero : (0.0 : ℝ) = 0 := by norm_num
  rw [posterior, unclamped_exact, hone, hzero]
  exact Elementary.clamp_exact (share_pos same different).le (share_lt_one same different).le

theorem posterior_le_half {same different : ℝ} (h : different ≤ same) :
    posterior same different ≤ 1 / 2 := by
  have hexp := Real.exp_le_exp.mpr h
  have hpos := Real.exp_pos different
  rw [posterior_exact, div_le_div_iff₀ (by positivity) two_pos]
  linarith

/-- A threshold for the share is one for the odds. -/
theorem share_le_iff (same different t : ℝ) :
    exp different / (exp same + exp different) ≤ t ↔ exp different * (1 - t) ≤ t * exp same := by
  rw [div_le_iff₀ (by positivity)]
  constructor <;> intro h <;> linarith

/-- What weighing the likelihoods of the two hypotheses comes to. -/
structure Weighs (same different p : ℝ) : Prop where
  share : p = exp different / (exp same + exp different)
  unclamped : -(Elementary.expLessOne (same - Elementary.logSumExp same different)) = p
  clamped : posterior same different = p
  pos : 0 < p
  lt_one : p < 1
  le_iff : ∀ t, p ≤ t ↔ exp different * (1 - t) ≤ t * exp same

theorem weighs (same different : ℝ) :
    Weighs same different (exp different / (exp same + exp different)) where
  share := rfl
  unclamped := unclamped_exact same different
  clamped := posterior_exact same different
  pos := share_pos same different
  lt_one := share_lt_one same different
  le_iff := share_le_iff same different

/-! ## Shares of tables -/

section Tables

open Ring (multichoose)

variable {K : ℕ} {α : Fin K → ℝ}

/-- The probability of a table of counts under a prior: its share of all the multisets of its
total. -/
noncomputable def tableProbability (α : Fin K → ℝ) (x : Fin K → ℕ) : ℝ :=
  (∏ k, multichoose (α k) (x k)) / multichoose (∑ k, α k) (∑ k, x k)

variable (hK : 0 < K) (hα : ∀ k, 0 < α k)

include hK hα

theorem exp_logSingle_eq (x : Fin K → ℕ) : exp (logSingle x α) = tableProbability α x := by
  have hne : (Finset.univ : Finset (Fin K)).Nonempty := ⟨⟨0, hK⟩, Finset.mem_univ _⟩
  exact exp_logSingle hα (Finset.sum_pos (fun k _ => hα k) hne) x

theorem exp_logJoint_eq (x y : Fin K → ℕ) :
    exp (logJoint x y α) =
      tableProbability α x * tableProbability (fun k => x k + α k) y := by
  have hupdated (k : Fin K) : 0 < (x k : ℝ) + α k :=
    add_pos_of_nonneg_of_pos (Nat.cast_nonneg _) (hα k)
  rw [logJoint_eq_add, Real.exp_add, exp_logSingle_eq hK hα, exp_logSingle_eq hK hupdated]

theorem exp_logSingle_add_eq (x y : Fin K → ℕ) :
    exp (logSingle x α + logSingle y α) = tableProbability α x * tableProbability α y := by
  rw [Real.exp_add, exp_logSingle_eq hK hα, exp_logSingle_eq hK hα]

/-- The evidence for a difference is how likely the second table is without the first one, against
how likely it is after the first one. -/
theorem share_eq (x y : Fin K → ℕ) :
    exp (logSingle x α + logSingle y α) /
        (exp (logJoint x y α) + exp (logSingle x α + logSingle y α)) =
      tableProbability α y / (tableProbability (fun k => x k + α k) y + tableProbability α y) := by
  have hpos : tableProbability α x ≠ 0 := by
    rw [← exp_logSingle_eq hK hα]
    exact Real.exp_ne_zero _
  rw [exp_logJoint_eq hK hα, exp_logSingle_add_eq hK hα, ← mul_add, mul_div_mul_left _ _ hpos]

end Tables

/-- In exact arithmetic a comparison weighs the likelihood `D` of two distributions against the
likelihood `S` of one: the probability of a difference is `D / (S + D)`, strictly between zero and
one and so never clamped, on every branch of the sum of exponentials, and it is found to be at
most `t` just if `D * (1 - t) ≤ t * S`. With a positive prior, `S` and `D` are the probabilities
of the tables, of any size. -/
theorem evidence_decides :
    (∀ a b : ℝ, Elementary.logSumExp a b = log (exp a + exp b)) ∧
    (∀ {K : ℕ} {α : Fin K → ℝ}, 0 < K → (∀ k, 0 < α k) → ∀ x y : Fin K → ℕ,
      exp (logJoint x y α) =
          tableProbability α x * tableProbability (fun k => x k + α k) y ∧
        exp (logSingle x α + logSingle y α) = tableProbability α x * tableProbability α y ∧
        Weighs (logJoint x y α) (logSingle x α + logSingle y α)
          (tableProbability α y /
            (tableProbability (fun k => x k + α k) y + tableProbability α y))) ∧
    ∀ (test : BayesTest ℝ) (first second : Histogram),
      Comparable first.counts.toList second.counts.toList test.prior →
      ∃ same one other p,
        joint first.counts.toList second.counts.toList test.prior = .ok same ∧
        single first.counts.toList test.prior = .ok one ∧
        single second.counts.toList test.prior = .ok other ∧
        Weighs same (one + other) p ∧
        probabilityOfDifference first.counts.toList second.counts.toList test.prior = .ok p ∧
        test.verdict first second = .ok ⟨p, decide
          (exp (one + other) * (1 - test.threshold) ≤ test.threshold * exp same)⟩ := by
  refine ⟨Elementary.logSumExp_exact, fun hK hα x y => ?_, fun test first second h => ?_⟩
  · refine ⟨exp_logJoint_eq hK hα x y, exp_logSingle_add_eq hK hα x y, ?_⟩
    rw [← share_eq hK hα]
    exact weighs _ _
  · obtain ⟨same, one, other, hsame, hone, hother⟩ := h.exists_likelihoods
    have hweighs := weighs same (one + other)
    have hp : probabilityOfDifference first.counts.toList second.counts.toList test.prior =
        .ok (exp (one + other) / (exp same + exp (one + other))) := by
      rw [probabilityOfDifference_eq hsame hone hother, hweighs.clamped]
    refine ⟨same, one, other, _, hsame, hone, hother, hweighs, hp, ?_⟩
    rw [BayesTest.verdict, hp]
    simp only [← hweighs.le_iff]
    rfl

section Witness

theorem comparable_opposite : Comparable [1, 0] [0, 1] [1, (1 : ℝ)] :=
  ⟨rfl, rfl, by decide, by decide⟩

theorem likelihoods_opposite :
    joint [1, 0] [0, 1] [1, (1 : ℝ)] = .ok (logJoint ![1, 0] ![0, 1] ![1, 1]) ∧
      single [1, 0] [1, (1 : ℝ)] = .ok (logSingle ![1, 0] ![1, 1]) ∧
      single [0, 1] [1, (1 : ℝ)] = .ok (logSingle ![0, 1] ![1, 1]) := by
  have hjoint := joint_ofFn ![1, 0] ![0, 1] ![1, (1 : ℝ)] (by decide) (by decide)
  have hfirst := single_ofFn ![1, 0] ![1, (1 : ℝ)] (by decide)
  have hsecond := single_ofFn ![0, 1] ![1, (1 : ℝ)] (by decide)
  have hx : (fun k => ((![1, 0] : Fin 2 → UInt64) k).toNat) = ![1, 0] := by decide
  have hy : (fun k => ((![0, 1] : Fin 2 → UInt64) k).toNat) = ![0, 1] := by decide
  rw [hx, hy] at hjoint
  rw [hx] at hfirst
  rw [hy] at hsecond
  exact ⟨hjoint, hfirst, hsecond⟩

/-- Two opposite samples: one distribution has the likelihood `1 / 6`, and two have `1 / 4`. -/
theorem evidence_decides_opposite :
    exp (logJoint ![1, 0] ![0, 1] ![1, 1]) = 1 / 6 ∧
      exp (logSingle ![1, 0] ![1, 1] + logSingle ![0, 1] ![1, 1]) = 1 / 4 ∧
      probabilityOfDifference [1, 0] [0, 1] [1, (1 : ℝ)] = .ok (3 / 5) ∧
      (BayesTest.mk [1, (1 : ℝ)] 0.61).verdict ⟨#[1, 0], 0⟩ ⟨#[0, 1], 0⟩ = .ok ⟨3 / 5, true⟩ ∧
      (BayesTest.mk [1, (1 : ℝ)] 0.59).verdict ⟨#[1, 0], 0⟩ ⟨#[0, 1], 0⟩ =
        .ok ⟨3 / 5, false⟩ := by
  have hα : ∀ k, 0 < (![1, 1] : Fin 2 → ℝ) k := by
    intro k
    fin_cases k <;> norm_num
  obtain ⟨-, htables, hcode⟩ := evidence_decides
  obtain ⟨hsame, hdifferent, hweighs⟩ := htables (by decide) hα ![1, 0] ![0, 1]
  have hfirst : tableProbability ![1, (1 : ℝ)] ![1, 0] = 1 / 2 := by
    simp [tableProbability, Fin.prod_univ_succ, Fin.sum_univ_succ, one_add_one_eq_two]
  have hsecond : tableProbability ![1, (1 : ℝ)] ![0, 1] = 1 / 2 := by
    simp [tableProbability, Fin.prod_univ_succ, Fin.sum_univ_succ, one_add_one_eq_two]
  have hupdated : tableProbability (fun k => (![1, 0] : Fin 2 → ℕ) k + ![1, (1 : ℝ)] k)
      ![0, 1] = 1 / 3 := by
    norm_num [tableProbability, Fin.prod_univ_succ, Fin.sum_univ_succ]
  rw [hfirst, hupdated] at hsame
  rw [hfirst, hsecond] at hdifferent
  rw [hupdated, hsecond] at hweighs
  have hanswer (t : ℝ) : probabilityOfDifference [1, 0] [0, 1] [1, (1 : ℝ)] = .ok (3 / 5) ∧
      (BayesTest.mk [1, (1 : ℝ)] t).verdict ⟨#[1, 0], 0⟩ ⟨#[0, 1], 0⟩ =
        .ok ⟨3 / 5, decide (3 / 5 ≤ t)⟩ := by
    obtain ⟨hjoint, hone, hother⟩ := likelihoods_opposite
    obtain ⟨same, one, other, p, hjoint', hone', hother', hweighs', hp, hverdict⟩ :=
      hcode ⟨[1, 1], t⟩ ⟨#[1, 0], 0⟩ ⟨#[0, 1], 0⟩ comparable_opposite
    obtain rfl := Except.ok.inj (hjoint.symm.trans hjoint')
    obtain rfl := Except.ok.inj (hone.symm.trans hone')
    obtain rfl := Except.ok.inj (hother.symm.trans hother')
    have hthree : p = 3 / 5 := by
      rw [hweighs'.share, ← hweighs.share]
      norm_num
    simp only [← hweighs'.le_iff] at hverdict
    rw [hthree] at hp hverdict
    exact ⟨hp, hverdict⟩
  refine ⟨by rw [hsame]; norm_num, by rw [hdifferent]; norm_num, (hanswer 0).1, ?_, ?_⟩
  · rw [(hanswer _).2, decide_eq_true (by norm_num)]
  · rw [(hanswer _).2, decide_eq_false (by norm_num)]

end Witness

end Likelihood

end Aleatory
