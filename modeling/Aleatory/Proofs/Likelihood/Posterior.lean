import Aleatory.Proofs.Numeric.LogSumExp

/-!
# The posterior probability in doubles

The posterior probability of two likelihoods is a number between zero and one, or it is NaN. It is
NaN just if one of the likelihoods is, if the first is infinite upwards, or if both are infinite
downwards: then the first likelihood less the logarithm of the sum of both is undetermined.
-/

namespace Aleatory

namespace Double

open Float.Model Float.Model.UnpackedFloat

/-! ## The posterior probability -/

/-- Two likelihoods whose posterior probability is not determined. -/
def Undetermined (same different : Float) : Prop :=
  same.isNaN = true ∨ different.isNaN = true ∨ (same == 1.0 / 0.0) = true ∨
    ((same == -(1.0 / 0.0)) = true ∧ (different == -(1.0 / 0.0)) = true)

theorem undetermined_iff {a b : Float} : Undetermined a b ↔
    view a = .notANumber ∨ view b = .notANumber ∨ view a = .infinity .positive ∨
      (view a = .infinity .negative ∧ view b = .infinity .negative) := by
  rw [Undetermined, isNaN_iff, isNaN_iff, beq_infinity_iff, beq_negInfinity_iff,
    beq_negInfinity_iff]

theorem not_undetermined {a b : Float} (ha : a.isFinite = true) (hb : b.isFinite = true) :
    ¬Undetermined a b := by
  rw [undetermined_iff]
  rintro (h | h | h | ⟨h, -⟩)
  · exact view_ne_of_number (isNaN_of_isFinite ha) h
  · exact view_ne_of_number (isNaN_of_isFinite hb) h
  · exact view_ne_infinity_of_isFinite ha _ h
  · exact view_ne_infinity_of_isFinite ha _ h

section

variable {functions : Transcendental Float}

theorem clamp_double (functions : Transcendental Float) (low high x : Float) :
    @Elementary.clamp Float (.double functions) low high x =
      if high < (if x < low then low else x) then high else if x < low then low else x := by
  have h : @Elementary.clamp Float (.double functions) low high x =
      if decide (high < if decide (x < low) = true then low else x) = true then high
      else if decide (x < low) = true then low else x := rfl
  simpa only [decide_eq_true_eq] using h

theorem clamp_bounds {x : Float} (h : x.isNaN = false) :
    0.0 ≤ @Elementary.clamp Float (.double functions) 0.0 1.0 x ∧
      @Elementary.clamp Float (.double functions) 0.0 1.0 x ≤ 1.0 := by
  have hunit : (0.0 : Float) ≤ 1.0 ∧ (1.0 : Float) ≤ 1.0 ∧ ¬(1.0 : Float) < 0.0 := by decide
  rw [clamp_double]
  by_cases hlow : x < 0.0
  · rw [if_pos hlow, if_neg hunit.2.2]
    exact ⟨zero_le_zero, hunit.1⟩
  · rw [if_neg hlow]
    by_cases hhigh : 1.0 < x
    · rw [if_pos hhigh]
      exact ⟨hunit.1, hunit.2.1⟩
    · rw [if_neg hhigh]
      exact ⟨le_of_not_lt rfl h hlow, le_of_not_lt h rfl hhigh⟩

theorem clamp_nan {x : Float} (h : x.isNaN = true) (low high : Float) :
    @Elementary.clamp Float (.double functions) low high x = x := by
  rw [clamp_double, if_neg (not_lt_of_nan (.inl h)), if_neg (not_lt_of_nan (.inr h))]

variable (hf : functions.Sound) {a b : Float}

include hf

/-- The first likelihood less the logarithm of the sum of both. -/
theorem isNaN_sub_logSumExp_iff :
    (a - @Elementary.logSumExp Float (.double functions) a b).isNaN = true ↔ Undetermined a b := by
  rw [isNaN_sub_iff, undetermined_iff, isNaN_iff, isNaN_iff]
  rcases hb : b.isNaN with _ | _
  · rcases ha : a.isNaN with _ | _
    · obtain ⟨hle, -⟩ := le_logSumExp hf.bounded ha hb
      have hlse := view_ne_of_number (isNaN_of_le hle).2
      have hnegative := view_logSumExp_eq_negInfinity_iff hf.bounded ha hb
      rcases finite_or a with hfinite | ⟨_ | _, ha'⟩ | ha'
      · simp [view_ne_infinity_of_isFinite hfinite, view_ne_of_number ha, hlse,
          view_ne_of_number hb]
      · simp [ha', hnegative, hlse, view_ne_of_number hb]
      · simp [ha', view_of_infinity_le hle ha']
      · exact absurd ha' (view_ne_of_number ha)
    · simp [isNaN_iff.mp ha]
  · have hlse := logSumExp_nan hf.bounded (a := a) (.inr hb)
    rw [isNaN_iff] at hb hlse
    simp [hb, hlse]

/-- The posterior probability is a number between zero and one, if it is determined at all. -/
theorem posterior_spec :
    ((@Likelihood.posterior Float (.double functions) a b).isNaN = true ↔ Undetermined a b) ∧
      (¬Undetermined a b → 0.0 ≤ @Likelihood.posterior Float (.double functions) a b ∧
        @Likelihood.posterior Float (.double functions) a b ≤ 1.0) := by
  have hdouble : @Likelihood.posterior Float (.double functions) a b =
      @Elementary.clamp Float (.double functions) 0.0 1.0
        (-(functions.expLessOne (a - @Elementary.logSumExp Float (.double functions) a b))) := rfl
  have hnan : (-(functions.expLessOne
      (a - @Elementary.logSumExp Float (.double functions) a b))).isNaN = true ↔
        Undetermined a b := by
    rw [isNaN_neg, hf.expLessOne_nan, isNaN_sub_logSumExp_iff hf]
  rw [hdouble]
  by_cases h : Undetermined a b
  · rw [clamp_nan (hnan.mpr h)]
    exact ⟨hnan, fun hnot => absurd h hnot⟩
  · have hnumber := (Bool.not_eq_true _).mp (mt hnan.mp h)
    have hbounds := @clamp_bounds functions _ hnumber
    have hclamped := isFinite_of_le_of_le rfl rfl hbounds.1 hbounds.2
    refine ⟨⟨fun hclamp => ?_, fun hu => absurd hu h⟩, fun _ => hbounds⟩
    rw [isNaN_of_isFinite hclamped] at hclamp
    cases hclamp

end

end Double

end Aleatory
