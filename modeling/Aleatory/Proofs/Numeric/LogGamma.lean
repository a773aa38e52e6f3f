import Aleatory.Equivalence.Likelihood
import Aleatory.Proofs.Numeric.Transcendental

/-!
# The logarithm of the gamma function in doubles

Lanczos' series is a sum of partial fractions of both signs. From minus one half on it stays away
from zero, by more than all of its rounding errors, so its logarithm is a number. With rough bounds
for the transcendental functions (`Transcendental.Sound`) the logarithm of the gamma function of a
positive number is finite, and at most `2 ^ 16` times as large as a power of two above the number.
-/

namespace Aleatory

namespace Double

open Float.Model Float.Model.UnpackedFloat

/-! ## Lanczos' series -/

/-- The partial fractions with the largest coefficients are positive together. -/
theorem leading_fractions_pos {y : ℝ} (hy : -(1 / 2) ≤ y) :
    0 < 676 / (y + 1) - 1260 / (y + 2) + 771 / (y + 3) - 177 / (y + 4) := by
  obtain ⟨z, hz, rfl⟩ : ∃ z : ℝ, 0 ≤ z ∧ y = z - 1 / 2 := ⟨y + 1 / 2, by linarith, by ring⟩
  have hsum : 676 / (z - 1 / 2 + 1) - 1260 / (z - 1 / 2 + 2) + 771 / (z - 1 / 2 + 3) -
      177 / (z - 1 / 2 + 4) = (10 * z ^ 3 + 324 * z ^ 2 + 4303 / 2 * z + 5052) /
        ((z + 1 / 2) * (z + 3 / 2) * (z + 5 / 2) * (z + 7 / 2)) := by
    have h₁ : z - 1 / 2 + 1 = z + 1 / 2 := by ring
    have h₂ : z - 1 / 2 + 2 = z + 3 / 2 := by ring
    have h₃ : z - 1 / 2 + 3 = z + 5 / 2 := by ring
    have h₄ : z - 1 / 2 + 4 = z + 7 / 2 := by ring
    rw [h₁, h₂, h₃, h₄]
    field_simp
    ring
  rw [hsum]
  positivity

/-- A double is close to a number that it has been rounded from. -/
def Near (t : Float) (q : ℝ) : Prop := Within 12 t ∧ |real t - q| ≤ 2 ^ (-13 : ℤ)

/-- A rounded divisor changes a quotient by little. -/
theorem abs_div_sub_div_le {c d y : ℝ} (hc : |c| ≤ 2 ^ 11) (hd : 1 / 2 ≤ d) (hy : 0 < y)
    (hclose : |d - y| ≤ 2 ^ (-53 : ℤ) * y) : |c / d - c / y| ≤ 2 ^ (-41 : ℤ) := by
  have hpos : 0 < d := by linarith
  have hdiff : c / d - c / y = -(c * (d - y)) / (d * y) := by
    field_simp
    ring
  rw [hdiff, abs_div, abs_neg, abs_mul, abs_of_pos (mul_pos hpos hy), div_le_iff₀ (by positivity)]
  calc |c| * |d - y|
      ≤ 2 ^ 11 * (2 ^ (-53 : ℤ) * y) := mul_le_mul hc hclose (abs_nonneg _) (by positivity)
    _ = 2 ^ (-41 : ℤ) * (1 / 2 * y) := by
        norm_num
        ring
    _ ≤ 2 ^ (-41 : ℤ) * (d * y) := by gcongr

/-- A divisor of the series: a rounded sum of at least one half. -/
theorem divisor_close {k : ℕ} {x i : Float} (hx : Within k x) (hi : Within k i) (hk : k ≤ 1000)
    (hhalf : -(1 / 2) ≤ real x) (hone : 1 ≤ real i) :
    (x + i).isFinite = true ∧ 1 / 2 ≤ real (x + i) ∧
      |real (x + i) - (real x + real i)| ≤ 2 ^ (-53 : ℤ) * (real x + real i) := by
  obtain ⟨hsum, hsum_eq⟩ := add_eq_nearest hx hi (by omega)
  have hlow : 1 / 2 ≤ real x + real i := by linarith
  have hmono := nearest_mono hlow
  have hclose := abs_nearest_sub_le_mul (x := real x + real i) (by
    rw [abs_of_pos (by linarith)]
    exact (zpow_le_zpow_right₀ one_le_two (by norm_num : (-1022 : ℤ) ≤ -1)).trans
      (by norm_num; linarith))
  rw [nearest_half] at hmono
  rw [abs_of_pos (by linarith : 0 < real x + real i)] at hclose
  rw [hsum_eq]
  exact ⟨hsum.isFinite, hmono, hclose⟩

/-- A quotient whose divisor is itself a rounded sum. -/
theorem div_add_close {k : ℕ} {c x i : Float} (hc : Within 11 c) (hx : Within k x)
    (hi : Within k i) (hk : k ≤ 1000) (hhalf : -(1 / 2) ≤ real x) (hone : 1 ≤ real i) :
    Near (c / (x + i)) (real c / (real x + real i)) := by
  obtain ⟨hfinite, hdivisor, hclose⟩ := divisor_close hx hi hk hhalf hone
  obtain ⟨hquotient, hquotient_eq⟩ := div_eq_nearest hc hfinite hdivisor (by norm_num)
  refine ⟨hquotient, ?_⟩
  have hbound : |real c / real (x + i)| ≤ 2 ^ (12 : ℤ) := by
    rw [abs_div, abs_of_pos (by linarith : 0 < real (x + i)), div_le_iff₀ (by linarith)]
    have := hc.abs_le
    norm_num at this ⊢
    linarith
  have hrounded := abs_nearest_sub_le_of_le (by norm_num) hbound
  have hexact := abs_div_sub_div_le hc.abs_le hdivisor (by linarith) hclose
  rw [hquotient_eq]
  calc |nearest (real c / real (x + i)) - real c / (real x + real i)|
      ≤ |nearest (real c / real (x + i)) - real c / real (x + i)| +
          |real c / real (x + i) - real c / (real x + real i)| := abs_sub_le _ _ _
    _ ≤ 2 ^ ((12 : ℤ) - 54) + 2 ^ (-41 : ℤ) := add_le_add hrounded hexact
    _ ≤ 2 ^ (-13 : ℤ) := by norm_num

/-- One more summand makes a sum as much less accurate as it is itself. -/
theorem add_close {k : ℕ} {start t : Float} {target q ε : ℝ} (hk : 12 ≤ k) (hk' : k < 40)
    (hstart : Within k start) (hclose : |real start - target| ≤ ε) (ht : Near t q) :
    Within (k + 1) (start + t) ∧ |real (start + t) - (target + q)| ≤ ε + 2 ^ (-12 : ℤ) := by
  obtain ⟨hsum, hsum_eq⟩ := add_eq_nearest hstart (ht.1.mono hk) (by omega)
  refine ⟨hsum, ?_⟩
  have hbound : |real start + real t| ≤ 2 ^ ((k : ℤ) + 1) := by
    have hadd := (abs_add_le (real start) (real t)).trans
      (add_le_add hstart.abs_le (ht.1.mono hk).abs_le)
    rw [zpow_add_one₀ two_ne_zero, zpow_natCast]
    linarith
  have hrounded := abs_nearest_sub_le_of_le (by omega) hbound
  have hsmall : (2 : ℝ) ^ ((k : ℤ) + 1 - 54) ≤ 2 ^ (-13 : ℤ) :=
    zpow_le_zpow_right₀ one_le_two (by omega)
  have hsplit : real (start + t) - (target + q) =
      (nearest (real start + real t) - (real start + real t)) +
        ((real start - target) + (real t - q)) := by
    rw [hsum_eq]
    ring
  have hhalves : (2 : ℝ) ^ (-12 : ℤ) = 2 ^ (-13 : ℤ) + 2 ^ (-13 : ℤ) := by norm_num
  have hinner := (abs_add_le (real start - target) (real t - q)).trans (add_le_add hclose ht.2)
  have houter := abs_add_le (nearest (real start + real t) - (real start + real t))
    ((real start - target) + (real t - q))
  rw [hsplit, hhalves]
  linarith

/-- The error of a sum of a few rounded summands. -/
theorem foldl_close {terms : List Float} {targets : List ℝ} (h : List.Forall₂ Near terms targets)
    {start : Float} {target ε : ℝ} {k : ℕ} (hk : 12 ≤ k) (hlength : k + terms.length ≤ 40)
    (hstart : Within k start) (hclose : |real start - target| ≤ ε) :
    Within (k + terms.length) (terms.foldl (· + ·) start) ∧
      |real (terms.foldl (· + ·) start) - (target + targets.sum)| ≤
        ε + terms.length * 2 ^ (-12 : ℤ) := by
  induction h generalizing start target ε k with
  | nil => simpa using ⟨hstart, hclose⟩
  | @cons t q terms targets ht _ ih =>
      rw [List.length_cons] at hlength
      obtain ⟨hsum, hnext⟩ := add_close hk (by omega) hstart hclose ht
      obtain ⟨hwithin, hrest⟩ := ih (by omega) (by omega) hsum hnext
      rw [List.foldl_cons, List.length_cons, List.sum_cons, ← add_assoc target]
      refine ⟨by rwa [← Nat.add_assoc, Nat.add_right_comm], ?_⟩
      push_cast
      linarith

/-- The partial fractions of the series are never far below zero together. -/
theorem fractions_lower_bound {y c₁ c₂ c₃ c₄ c₅ c₆ c₇ c₈ : ℝ} (hy : -(1 / 2) ≤ y)
    (h₁ : 676 ≤ c₁) (h₂ : -1260 ≤ c₂) (h₃ : 771 ≤ c₃) (h₄ : -177 ≤ c₄) (h₅ : 0 ≤ c₅)
    (h₆ : -1 ≤ c₆) (h₇ : 0 ≤ c₇) (h₈ : 0 ≤ c₈) :
    -(1 / 5) ≤ [c₁ / (y + 1), c₂ / (y + 2), c₃ / (y + 3), c₄ / (y + 4), c₅ / (y + 5),
      c₆ / (y + 6), c₇ / (y + 7), c₈ / (y + 8)].sum := by
  have hleading := leading_fractions_pos hy
  have hdiv {a b : ℝ} (h : a ≤ b) (i : ℝ) (hi : 1 ≤ i) : a / (y + i) ≤ b / (y + i) :=
    div_le_div_of_nonneg_right h (by linarith)
  have hsix : -(1 / 5) ≤ -1 / (y + 6) := by
    rw [le_div_iff₀ (by linarith)]
    linarith
  have hfive : 0 ≤ c₅ / (y + 5) := div_nonneg h₅ (by linarith)
  have hseven : 0 ≤ c₇ / (y + 7) := div_nonneg h₇ (by linarith)
  have height : 0 ≤ c₈ / (y + 8) := div_nonneg h₈ (by linarith)
  have htwo : -(1260 / (y + 2)) ≤ c₂ / (y + 2) := by
    rw [← neg_div]
    exact hdiv h₂ 2 (by norm_num)
  have hfour : -(177 / (y + 4)) ≤ c₄ / (y + 4) := by
    rw [← neg_div]
    exact hdiv h₄ 4 (by norm_num)
  have hone := hdiv h₁ 1 (by norm_num)
  have hthree := hdiv h₃ 3 (by norm_num)
  have hsix' := hdiv h₆ 6 (by norm_num)
  simp only [List.sum_cons, List.sum_nil]
  linarith

theorem lanczosSeries_double (functions : Transcendental Float) (x : Float) :
    @Elementary.lanczosSeries Float (.double functions) x =
      [676.5203681218851 / (x + 1.0), -1259.1392167224028 / (x + 2.0),
        771.32342877765313 / (x + 3.0), -176.61502916214059 / (x + 4.0),
        12.507343278686905 / (x + 5.0), -0.13857109526572012 / (x + 6.0),
        9.9843695780195716e-6 / (x + 7.0), 1.5056327351493116e-7 / (x + 8.0)].foldl (· + ·)
          0.99999999999980993 := rfl

/-- A rounded partial fraction, for a literal `i` that is a small whole number. -/
theorem fraction_near {k n : ℕ} {c x i : Float} {r : ℝ} (hx : Within k x) (hk : 3 ≤ k)
    (hk' : k ≤ 1000) (hhalf : -(1 / 2) ≤ real x) (hc : Within 11 c) (hi : Between n n i)
    (hr : (n : ℝ) = r) (hn : 1 ≤ n ∧ n ≤ 8) : Near (c / (x + i)) (real c / (real x + r)) := by
  have hone : 1 ≤ real i := by
    rw [hi.real_eq]
    exact_mod_cast hn.1
  rw [← hr, ← hi.real_eq]
  exact div_add_close hc hx ((hi.within (k := 3) hn.2).mono hk) hk' hhalf hone

theorem coefficients_between :
    Between 676 677 676.5203681218851 ∧ Between 1259 1260 1259.1392167224028 ∧
    Between 771 772 771.32342877765313 ∧ Between 176 177 176.61502916214059 ∧
    Between 12 13 12.507343278686905 ∧ Between 0 1 0.13857109526572012 ∧
    Between 0 1 9.9843695780195716e-6 ∧ Between 0 1 1.5056327351493116e-7 := by
  decide

/-- The partial fractions at a number. -/
noncomputable def fractions (y : ℝ) : List ℝ :=
  [real 676.5203681218851 / (y + 1), real (-1259.1392167224028) / (y + 2),
    real 771.32342877765313 / (y + 3), real (-176.61502916214059) / (y + 4),
    real 12.507343278686905 / (y + 5), real (-0.13857109526572012) / (y + 6),
    real 9.9843695780195716e-6 / (y + 7), real 1.5056327351493116e-7 / (y + 8)]

theorem le_sum_fractions {y : ℝ} (hy : -(1 / 2) ≤ y) : -(1 / 5) ≤ (fractions y).sum := by
  obtain ⟨h₁, h₂, h₃, h₄, h₅, h₆, h₇, h₈⟩ := coefficients_between
  have hc₁ : 676 ≤ real 676.5203681218851 := by simpa using h₁.bounds.1
  have hc₂ : -1260 ≤ real (-1259.1392167224028) := by simpa using h₂.bounds.2
  have hc₃ : 771 ≤ real 771.32342877765313 := by simpa using h₃.bounds.1
  have hc₄ : -177 ≤ real (-176.61502916214059) := by simpa using h₄.bounds.2
  have hc₆ : -1 ≤ real (-0.13857109526572012) := by simpa using h₆.bounds.2
  exact fractions_lower_bound hy hc₁ hc₂ hc₃ hc₄ ((Nat.cast_nonneg _).trans h₅.bounds.1) hc₆
    ((Nat.cast_nonneg _).trans h₇.bounds.1) ((Nat.cast_nonneg _).trans h₈.bounds.1)

theorem fractions_near {x : Float} {k : ℕ} (hx : Within k x) (hk : 3 ≤ k) (hk' : k ≤ 1000)
    (hhalf : -(1 / 2) ≤ real x) :
    List.Forall₂ Near
      [676.5203681218851 / (x + 1.0), -1259.1392167224028 / (x + 2.0),
        771.32342877765313 / (x + 3.0), -176.61502916214059 / (x + 4.0),
        12.507343278686905 / (x + 5.0), -0.13857109526572012 / (x + 6.0),
        9.9843695780195716e-6 / (x + 7.0), 1.5056327351493116e-7 / (x + 8.0)]
      (fractions (real x)) := by
  obtain ⟨h₁, h₂, h₃, h₄, h₅, h₆, h₇, h₈⟩ := coefficients_between
  have hterm {n : ℕ} {c i : Float} {r : ℝ} := @fraction_near k n c x i r hx hk hk' hhalf
  exact
    .cons (hterm (n := 1) (h₁.within (by decide)) (by decide) (by norm_num) (by decide))
    (.cons (hterm (n := 2) (h₂.within (by decide)).neg (by decide) (by norm_num) (by decide))
    (.cons (hterm (n := 3) (h₃.within (by decide)) (by decide) (by norm_num) (by decide))
    (.cons (hterm (n := 4) (h₄.within (by decide)).neg (by decide) (by norm_num) (by decide))
    (.cons (hterm (n := 5) (h₅.within (by decide)) (by decide) (by norm_num) (by decide))
    (.cons (hterm (n := 6) (h₆.within (by decide)).neg (by decide) (by norm_num) (by decide))
    (.cons (hterm (n := 7) (h₇.within (by decide)) (by decide) (by norm_num) (by decide))
    (.cons (hterm (n := 8) (h₈.within (by decide)) (by decide) (by norm_num) (by decide))
      .nil)))))))

/-- From minus one half on, the series overflows nowhere and stays away from zero. -/
theorem lanczosSeries_bounds (functions : Transcendental Float) {x : Float} {k : ℕ}
    (hx : Within k x) (hk : 3 ≤ k) (hk' : k ≤ 1000) (hhalf : -(1 / 2) ≤ real x) :
    Within 20 (@Elementary.lanczosSeries Float (.double functions) x) ∧
      0 < real (@Elementary.lanczosSeries Float (.double functions) x) := by
  have hconstant : Between 0 1 0.99999999999980993 := by decide
  have hstart : 1 / 2 ≤ real 0.99999999999980993 := by
    rw [← real_half]
    exact (le_iff_real (by decide) (by decide)).mp (by decide)
  have hself : |real 0.99999999999980993 - real 0.99999999999980993| ≤ 0 := by simp
  obtain ⟨hwithin, hclose⟩ := foldl_close (fractions_near hx hk hk' hhalf) (k := 12) le_rfl
    (by simp) (hconstant.within (by decide)) hself
  rw [lanczosSeries_double]
  refine ⟨hwithin, ?_⟩
  have hfractions := le_sum_fractions hhalf
  have hlow := (abs_le.mp hclose).1
  generalize List.foldl _ _ _ = series at hlow ⊢
  norm_num at hlow
  linarith

/-! ## The logarithm of the gamma function -/

theorem logGammaUpper_double (functions : Transcendental Float) (x : Float) :
    @Elementary.logGammaUpper Float (.double functions) x =
      0.5 * functions.ln (2.0 * 3.141592653589793) +
          (x - 1.0 + 0.5) * functions.ln (x - 1.0 + 7.5) - (x - 1.0 + 7.5) +
        functions.ln (@Elementary.lanczosSeries Float (.double functions) (x - 1.0)) := rfl

theorem logGamma_double (functions : Transcendental Float) (x : Float) :
    @Elementary.logGamma Float (.double functions) x =
      if decide (x < 0.5) = true then
        functions.ln 3.141592653589793 - functions.ln (functions.sin (3.141592653589793 * x)).abs -
          @Elementary.logGammaUpper Float (.double functions) (1.0 - x)
      else @Elementary.logGammaUpper Float (.double functions) x := rfl

section

variable {functions : Transcendental Float} (hf : functions.Sound) {x : Float} {k : ℕ}

include hf

theorem within_ln (hx : x.isFinite = true) (hpos : 0 < real x) : Within 10 (functions.ln x) := by
  obtain ⟨hlow, hhigh⟩ := hf.ln_bounds hx ((lt_iff_real rfl hx).mpr hpos)
  have hfinite := isFinite_of_le_of_le (by decide) (by decide) hlow hhigh
  rw [le_iff_real (by decide) hfinite, real_neg] at hlow
  rw [le_iff_real hfinite (by decide)] at hhigh
  have hbound : real 1024.0 = 2 ^ 10 := by
    have h := real_toFloat (n := 1024) (by decide)
    norm_num at h ⊢
    exact h
  rw [hbound] at hlow hhigh
  exact ⟨hfinite, abs_le.mpr ⟨hlow, hhigh⟩⟩

/-- Half of the logarithm of `2 * π`. -/
theorem within_half_ln : Within 10 (0.5 * functions.ln (2.0 * 3.141592653589793)) := by
  have htwo : Between 6 7 (2.0 * 3.141592653589793) := by decide
  have hpos : 0 < real (2.0 * 3.141592653589793) := by
    have h := htwo.bounds.1
    norm_num at h
    linarith
  simpa using within_half.mul (within_ln hf htwo.isFinite hpos) (by norm_num)

theorem logGammaUpper_within (hx : Within k x) (hk : 3 ≤ k) (hk' : k ≤ 990)
    (hhalf : 1 / 2 ≤ real x) :
    Within (k + 15) (@Elementary.logGammaUpper Float (.double functions) x) := by
  obtain ⟨hshifted, hshifted_eq⟩ := sub_eq_nearest hx (within_one.mono (Nat.zero_le k)) (by omega)
  have hlow : -(1 / 2) ≤ real (x - 1.0) := by
    have h := nearest_mono (show -(1 / 2) ≤ real x - 1 by linarith)
    rwa [hshifted_eq, real_one, ← nearest_half, ← nearest_neg]
  have hseven : Between 7 8 7.5 := by decide
  obtain ⟨hargument, hargument_eq⟩ := add_eq_nearest hshifted
    (hseven.within (k := 3) (by decide) |>.mono (by omega)) (by omega)
  have hargument_pos : 0 < real (x - 1.0 + 7.5) := by
    have hle : (2 : ℝ) ^ (2 : ℤ) ≤ real (x - 1.0) + real 7.5 := by
      have h := hseven.bounds.1
      norm_num at h ⊢
      linarith
    have h := nearest_mono hle
    rw [nearest_two_zpow (by norm_num)] at h
    rw [hargument_eq]
    exact lt_of_lt_of_le (by positivity) h
  have hproduct : Within (k + 12) ((x - 1.0 + 0.5) * functions.ln (x - 1.0 + 7.5)) := by
    have hln := within_ln hf hargument.isFinite hargument_pos
    exact (hshifted.add (within_half.mono (by omega)) (by omega)).mul hln (by omega)
  obtain ⟨hseries, hseries_pos⟩ :=
    lanczosSeries_bounds functions hshifted (by omega) (by omega) hlow
  have hln := within_ln hf hseries.isFinite hseries_pos
  have hsum := ((within_half_ln hf).mono (show 10 ≤ k + 12 by omega)).add hproduct (by omega)
  have hrest := hsum.sub (hargument.mono (by omega)) (by omega)
  exact hrest.add (hln.mono (by omega)) (by omega)

/-- The sine of the reflection is taken of a number between zero and two. -/
theorem within_ln_sin (hx : x.isFinite = true) (hpos : 0 < real x) (hhalf : real x < 1 / 2) :
    Within 10 (functions.ln (functions.sin (3.141592653589793 * x)).abs) := by
  have hwithin : Within 0 x := ⟨hx, by rw [abs_of_pos hpos]; norm_num; linarith⟩
  have hpi : Between 3 4 3.141592653589793 := by decide
  have hpi_bounds := hpi.bounds
  norm_num at hpi_bounds
  obtain ⟨hproduct, hproduct_eq⟩ := mul_eq_nearest (hpi.within (k := 2) (by decide)) hwithin
    (by norm_num)
  have hlow : 0 < real (3.141592653589793 * x) := by
    have h := nearest_mono (show real x ≤ real 3.141592653589793 * real x by nlinarith)
    rw [nearest_real] at h
    rw [hproduct_eq]
    linarith
  have hhigh : real (3.141592653589793 * x) ≤ real 2.0 := by
    rw [hproduct_eq, ← nearest_real 2.0, real_two]
    exact nearest_mono (by nlinarith)
  obtain ⟨hsin, hsin'⟩ := hf.sin_bounds ((lt_iff_real rfl hproduct.isFinite).mpr hlow)
    ((le_iff_real hproduct.isFinite rfl).mpr hhigh)
  have hfinite := isFinite_of_le_of_le rfl rfl (le_iff_lt_or_beq.mpr (.inl hsin)) hsin'
  have hsin_pos := (lt_iff_real rfl hfinite).mp hsin
  refine within_ln hf ((isFinite_abs _).trans hfinite) ?_
  rw [real_abs]
  exact abs_pos.mpr hsin_pos.ne'

/-- The logarithm of the gamma function of a positive number that is not too large. -/
theorem logGamma_within (hx : Within k x) (hk : 3 ≤ k) (hk' : k ≤ 990) (hpos : 0 < real x) :
    Within (k + 16) (@Elementary.logGamma Float (.double functions) x) := by
  rw [logGamma_double]
  split
  · rename_i hlt
    have hhalf : real x < 1 / 2 := by
      rw [← real_half]
      exact (lt_iff_real hx.isFinite rfl).mp (of_decide_eq_true hlt)
    have hwithin : Within 0 x := ⟨hx.isFinite, by rw [abs_of_pos hpos]; norm_num; linarith⟩
    obtain ⟨hreflected, hreflected_eq⟩ := sub_eq_nearest within_one hwithin (by norm_num)
    have hupper : 1 / 2 ≤ real (1.0 - x) := by
      rw [hreflected_eq, real_one, ← nearest_half]
      exact nearest_mono (by linarith)
    have hpi : Between 3 4 3.141592653589793 := by decide
    have hpi_bounds := hpi.bounds.1
    norm_num at hpi_bounds
    have hln := within_ln hf hpi.isFinite (by linarith)
    have hsin := within_ln_sin hf hx.isFinite hpos hhalf
    have hgamma := logGammaUpper_within hf (hreflected.mono (by omega : 1 ≤ 3)) le_rfl (by omega)
      hupper
    exact (((hln.sub hsin (by omega)).mono (by omega)).sub hgamma (by omega)).mono (by omega)
  · rename_i hge
    have hhalf : 1 / 2 ≤ real x := by
      rw [← real_half]
      by_contra hlt
      exact hge (decide_eq_true ((lt_iff_real hx.isFinite rfl).mpr (not_le.mp hlt)))
    exact (logGammaUpper_within hf hx hk hk' hhalf).mono (by omega)

end

end Double

end Aleatory
