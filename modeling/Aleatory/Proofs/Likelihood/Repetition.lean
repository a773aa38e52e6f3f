import Mathlib
import Aleatory.Proofs.Likelihood.Exact

/-!
# Meeting a table again

A table is at least as likely to be met again, from the distribution that it was met from, as it
was at first (`add_self_logSingle_le`). For two outcomes this says that the second moment of
`x ^ c * (1 - x) ^ d` under a beta distribution is at least the square of the first one
(`beta_sq_le`); in logarithms it is the subadditivity of `gain`, which any number of outcomes
follow from.
-/

namespace Aleatory

open MeasureTheory ProbabilityTheory

section Beta

/-- The density of a beta distribution, before it is normalized. -/
noncomputable def betaWeight (a b x : ℝ) : ℝ :=
  if 0 < x ∧ x < 1 then x ^ (a - 1) * (1 - x) ^ (b - 1) else 0

theorem betaWeight_eq {a b : ℝ} (ha : 0 < a) (hb : 0 < b) (x : ℝ) :
    betaWeight a b x = beta a b * betaPDFReal a b x := by
  have hbeta := (beta_pos ha hb).ne'
  rw [betaWeight, betaPDFReal]
  split
  · field_simp
  · rw [mul_zero]

theorem betaWeight_nonneg {a b : ℝ} (x : ℝ) : 0 ≤ betaWeight a b x := by
  rw [betaWeight]
  split
  · next hx =>
    have := sub_nonneg.mpr hx.2.le
    have := hx.1.le
    positivity
  · exact le_rfl

/-- Raising the parameters multiplies by powers. -/
theorem betaWeight_add (a b c d x : ℝ) :
    betaWeight (a + c) (b + d) x = betaWeight a b x * (x ^ c * (1 - x) ^ d) := by
  rw [betaWeight, betaWeight]
  split
  · next hx =>
    rw [show a + c - 1 = a - 1 + c by ring, show b + d - 1 = b - 1 + d by ring,
      Real.rpow_add hx.1, Real.rpow_add (sub_pos.mpr hx.2)]
    ring
  · rw [zero_mul]

theorem integral_betaWeight {a b : ℝ} (ha : 0 < a) (hb : 0 < b) :
    Integrable (betaWeight a b) ∧ ∫ x, betaWeight a b x = beta a b := by
  have hnonneg (x : ℝ) : 0 ≤ betaPDFReal a b x := by
    rw [← mul_le_mul_iff_right₀ (beta_pos ha hb), mul_zero, ← betaWeight_eq ha hb]
    exact betaWeight_nonneg x
  have hone : ∫⁻ x, ENNReal.ofReal (betaPDFReal a b x) = 1 := lintegral_betaPDF_eq_one ha hb
  have hmeas := (stronglyMeasurable_betaPDFReal a b).aestronglyMeasurable (μ := volume)
  have hint : Integrable (betaPDFReal a b) := by
    refine ⟨hmeas, ?_⟩
    rw [hasFiniteIntegral_iff_ofReal (.of_forall hnonneg), hone]
    exact ENNReal.one_lt_top
  rw [funext (betaWeight_eq ha hb)]
  refine ⟨hint.const_mul _, ?_⟩
  rw [integral_const_mul, integral_eq_lintegral_of_nonneg_ae (.of_forall hnonneg) hmeas, hone,
    ENNReal.toReal_one, mul_one]

/-- The second moment of `x ^ c * (1 - x) ^ d` is at least the square of the first one. -/
theorem beta_sq_le {a b c d : ℝ} (ha : 0 < a) (hb : 0 < b) (hc : 0 ≤ c) (hd : 0 ≤ d) :
    beta (a + c) (b + d) ^ 2 ≤ beta a b * beta (a + c + c) (b + d + d) := by
  obtain ⟨hint₀, hmoment₀⟩ := integral_betaWeight ha hb
  obtain ⟨hint₁, hmoment₁⟩ :=
    integral_betaWeight (add_pos_of_pos_of_nonneg ha hc) (add_pos_of_pos_of_nonneg hb hd)
  obtain ⟨hint₂, hmoment₂⟩ := integral_betaWeight (a := a + c + c) (b := b + d + d)
    (by positivity) (by positivity)
  have hsquare (t : ℝ) : ∫ x, betaWeight a b x * (x ^ c * (1 - x) ^ d - t) ^ 2 =
      beta (a + c + c) (b + d + d) - 2 * t * beta (a + c) (b + d) + t ^ 2 * beta a b := by
    have hdifference : Integrable fun x =>
        betaWeight (a + c + c) (b + d + d) x - 2 * t * betaWeight (a + c) (b + d) x :=
      hint₂.sub (hint₁.const_mul _)
    rw [← hmoment₀, ← hmoment₁, ← hmoment₂, ← integral_const_mul, ← integral_const_mul,
      ← integral_sub hint₂ (hint₁.const_mul _), ← integral_add hdifference (hint₀.const_mul _)]
    congr 1
    funext x
    simp only [betaWeight_add]
    ring
  have hpos := beta_pos ha hb
  have hmean : 0 ≤ ∫ x, betaWeight a b x *
      (x ^ c * (1 - x) ^ d - beta (a + c) (b + d) / beta a b) ^ 2 :=
    integral_nonneg fun x => mul_nonneg (betaWeight_nonneg x) (sq_nonneg _)
  rw [hsquare] at hmean
  field_simp at hmean
  linarith

end Beta

namespace Likelihood

open Real (Gamma log)

/-- By how much an outcome with `c` counts so far is more likely to have `c` more of them, in the
logarithm; its prior entry is `a`. -/
noncomputable def gain (a c : ℝ) : ℝ :=
  log (Gamma (a + c + c)) + log (Gamma a) - 2 * log (Gamma (a + c))

theorem log_beta {a b : ℝ} (ha : 0 < a) (hb : 0 < b) :
    log (beta a b) = log (Gamma a) + log (Gamma b) - log (Gamma (a + b)) := by
  have hA := (Real.Gamma_pos_of_pos ha).ne'
  have hB := (Real.Gamma_pos_of_pos hb).ne'
  have hAB := (Real.Gamma_pos_of_pos (add_pos ha hb)).ne'
  rw [beta, Real.log_div (mul_ne_zero hA hB) hAB, Real.log_mul hA hB]

theorem gain_add_le {a b c d : ℝ} (ha : 0 < a) (hb : 0 < b) (hc : 0 ≤ c) (hd : 0 ≤ d) :
    gain (a + b) (c + d) ≤ gain a c + gain b d := by
  have ha₁ : 0 < a + c := by positivity
  have hb₁ : 0 < b + d := by positivity
  have ha₂ : 0 < a + c + c := by positivity
  have hb₂ : 0 < b + d + d := by positivity
  have hlog := Real.log_le_log (pow_pos (beta_pos ha₁ hb₁) 2) (beta_sq_le ha hb hc hd)
  rw [Real.log_pow, Real.log_mul (beta_pos ha hb).ne' (beta_pos ha₂ hb₂).ne', log_beta ha hb,
    log_beta ha₁ hb₁, log_beta ha₂ hb₂, show a + c + (b + d) = a + b + (c + d) by ring,
    show a + c + c + (b + d + d) = a + b + (c + d) + (c + d) by ring] at hlog
  simp only [gain]
  push_cast at hlog
  linarith

theorem gain_sum_le {ι : Type} {s : Finset ι} (hs : s.Nonempty) {α c : ι → ℝ}
    (hα : ∀ k, 0 < α k) (hc : ∀ k, 0 ≤ c k) :
    gain (∑ k ∈ s, α k) (∑ k ∈ s, c k) ≤ ∑ k ∈ s, gain (α k) (c k) := by
  have key := Finset.le_sum_nonempty_of_subadditive_on_pred (fun x : ℝ × ℝ => gain x.1 x.2)
    (fun x => 0 < x.1 ∧ 0 ≤ x.2) (fun x y hx hy => gain_add_le hx.1 hy.1 hx.2 hy.2)
    (fun x y hx hy => ⟨add_pos hx.1 hy.1, add_nonneg hx.2 hy.2⟩) (fun k => (α k, c k)) s hs
    fun k _ => ⟨hα k, hc k⟩
  simpa only [Prod.fst_sum, Prod.snd_sum] using key

theorem logJoint_self {K : ℕ} (c : Fin K → ℕ) (α : Fin K → ℝ) :
    logJoint c c α = logSingle c α + logSingle c α +
      (∑ k, gain (α k) (c k) - gain (∑ k, α k) (∑ k, (c k : ℝ))) := by
  have hterm (k : Fin K) : (c k + c k + α k : ℝ) = α k + c k + c k := by ring
  have htotal (n A : ℝ) : n + n + A = A + n + n := by ring
  simp only [logJoint, logSingle, gain, hterm, htotal, Finset.sum_sub_distrib,
    Finset.sum_add_distrib, ← Finset.mul_sum, Nat.cast_sum, add_comm _ (α _),
    add_comm _ (∑ k, α k)]
  ring

/-- Two equal tables are at least as likely from one distribution as from two. -/
theorem add_self_logSingle_le {K : ℕ} {α : Fin K → ℝ} (hα : ∀ k, 0 < α k) (c : Fin K → ℕ) :
    logSingle c α + logSingle c α ≤ logJoint c c α := by
  rcases Nat.eq_zero_or_pos K with rfl | hK
  · simp [logSingle, logJoint]
  · have hgain := gain_sum_le (s := Finset.univ) ⟨⟨0, hK⟩, Finset.mem_univ _⟩ hα
      (c := fun k => (c k : ℝ)) fun k => Nat.cast_nonneg _
    rw [logJoint_self]
    linarith

end Likelihood

end Aleatory
