import Aleatory.Proofs.Decimal.Shortest
import Aleatory.Proofs.Json.Numeral
import Aleatory.Proofs.Numeric.Fraction

/-!
# Doubles below one that are written and read

A double is written in the fewest digits that tell it apart and read by dividing these digits by a
power of ten. For a double below one this comes close to it (`abs_reread_sub_le`) and gives back a
double of few decimals (`reread_of_decimals`), but it need not lead back to the double: the last one
before one is written as sixteen nines, and these are read as one (`reread_lastBeforeOne`).
-/

namespace Aleatory

namespace Double

open Float.Model Float.Model.UnpackedFloat

/-- The double that a double below one becomes when its text is read: the shortest digits that tell
it apart, divided by their power of ten. -/
def reread (t : Float) : Float :=
  match Reading.ofFloat t with
  | .finite _ b =>
    let d := Decimal.shortest .even b
    Fraction.read d.coefficient (-d.exponent).toNat
  | _ => t

section Digits

variable {t : Float} {m : ℕ} {e : ℤ} {hm : 0 < m} (hview : view t = .finite .positive m e hm)

include hview

theorem real_binary : Binary.real ⟨m, e⟩ = real t := (real_of_view hview).symm

theorem leadingPlace_lower : -324 ≤ Binary.leadingPlace ⟨m, e⟩ := by
  obtain ⟨-, hlead⟩ := Binary.leadingPlace_spec (b := ⟨m, e⟩) hm
  have hone : (1 : ℝ) ≤ m := by exact_mod_cast hm
  have hbottom : (2 : ℝ) ^ (-1074 : ℤ) ≤ 2 ^ e :=
    zpow_le_zpow_right₀ one_le_two (shape_of_view hview).1.bottom
  have hleast : (2 : ℝ) ^ (-1074 : ℤ) ≤ Binary.real ⟨m, e⟩ :=
    hbottom.trans (le_mul_of_one_le_left (by positivity) hone)
  have hpowers : (10 : ℝ) ^ (-324 : ℤ) < 2 ^ (-1074 : ℤ) := by
    have hnat : (2 : ℝ) ^ 1074 < 10 ^ 324 := by
      exact_mod_cast (by decide +kernel : 2 ^ 1074 < 10 ^ 324)
    rw [zpow_neg, zpow_neg]
    exact inv_strictAnti₀ (by positivity) hnat
  have hlt := (zpow_lt_zpow_iff_right₀ (by norm_num : (1 : ℝ) < 10)).mp
    (hpowers.trans (hleast.trans_lt hlead))
  omega

theorem nearest_shortest : nearest (Decimal.shortest .even ⟨m, e⟩).real = real t := by
  have hshape := (shape_of_view hview).1
  obtain ⟨hreads, -⟩ := Decimal.shortest_spec .even (b := ⟨m, e⟩) hshape hm
  exact ((nearest_eq_iff hshape hm).mpr hreads.near).trans (real_binary hview)

theorem coefficient_shortest_pos : 0 < (Decimal.shortest .even ⟨m, e⟩).coefficient := by
  by_contra hzero
  have hnearest := nearest_shortest hview
  rw [Decimal.real, Nat.eq_zero_of_not_pos hzero, Nat.cast_zero, zero_mul, nearest_zero] at hnearest
  exact (real_pos_of_view hview).ne hnearest

variable (hone : real t < 1)

include hone

theorem shortest_lt_one : (Decimal.shortest .even ⟨m, e⟩).real < 1 := by
  by_contra hge
  have hone_le := one_le_nearest (not_lt.mp hge)
  rw [nearest_shortest hview] at hone_le
  linarith

theorem shortest_fraction : Fraction t (Decimal.shortest .even ⟨m, e⟩).coefficient
    (-(Decimal.shortest .even ⟨m, e⟩).exponent).toNat := by
  have hten : (1 : ℝ) < 10 := by norm_num
  obtain ⟨hreads, hbottom, -⟩ :=
    Decimal.shortest_spec .even (b := ⟨m, e⟩) (shape_of_view hview).1 hm
  obtain ⟨-, hlead⟩ := Binary.leadingPlace_spec (b := ⟨m, e⟩) hm
  have hlower := leadingPlace_lower hview
  have hnearest := nearest_shortest hview
  have hbelow := shortest_lt_one hview hone
  have hcoefficient := coefficient_shortest_pos hview
  have hlength := Decimal.length_add_exponent_le hcoefficient hbelow
  rw [real_binary hview] at hlead
  generalize Binary.leadingPlace ⟨m, e⟩ = lead at *
  generalize Decimal.shortest .even ⟨m, e⟩ = d at *
  have hdigits : d.coefficient ≤ 10 ^ 18 := by
    have hplace : (10 : ℝ) ^ (lead + 1) ≤ 10 ^ (18 : ℤ) * 10 ^ d.exponent := by
      rw [← zpow_add₀ (by norm_num)]
      exact zpow_le_zpow_right₀ hten.le (by omega)
    exact hreads.coefficient_le (by rw [real_binary hview]; exact_mod_cast hlead.trans_le hplace)
  have hreal : (d.coefficient : ℝ) / 10 ^ (-d.exponent).toNat = d.real := by
    have hzero : d.exponent.toNat = 0 := by omega
    rw [Decimal.real, zpow_eq_pow_div_pow, hzero, pow_zero, mul_one_div]
  exact ⟨hreal ▸ hnearest, hreal ▸ hbelow, hcoefficient, hdigits, by omega⟩

/-- A double near fifteen decimals is no smaller than about one unit of the last of them. -/
theorem leadingPlace_of_decimals {n : ℕ} (hn : real t = nearest (n / 10 ^ 15)) :
    -16 ≤ Binary.leadingPlace ⟨m, e⟩ ∧ Binary.leadingPlace ⟨m, e⟩ < 0 := by
  have hten : (1 : ℝ) < 10 := by norm_num
  obtain ⟨hlow, hhigh⟩ := Binary.leadingPlace_spec (b := ⟨m, e⟩) hm
  rw [real_binary hview] at hlow hhigh
  have hn_pos : (1 : ℝ) ≤ n := by
    rw [Nat.one_le_cast]
    by_contra hzero
    rw [Nat.eq_zero_of_not_pos hzero, Nat.cast_zero, zero_div, nearest_zero] at hn
    exact (real_pos_of_view hview).ne' hn
  have hunit : (2 : ℝ) ^ (-50 : ℤ) ≤ n / 10 ^ 15 := by
    norm_num
    linarith
  have hleast := two_zpow_le_nearest (by norm_num) hunit
  rw [← hn] at hleast
  have hpowers : (10 : ℝ) ^ (-16 : ℤ) < 2 ^ (-50 : ℤ) := by norm_num
  have hlt := (zpow_lt_zpow_iff_right₀ hten).mp (hpowers.trans_le (hleast.trans hhigh.le))
  refine ⟨by omega, ?_⟩
  rw [← zpow_lt_zpow_iff_right₀ hten, zpow_zero]
  exact hlow.trans_lt hone

/-- Fifteen decimals are few enough for both the digits and the power of ten to be doubles. -/
theorem shortest_of_decimals (hdecimals : ∃ n : ℕ, real t = nearest (n / 10 ^ 15)) :
    (-(Decimal.shortest .even ⟨m, e⟩).exponent).toNat ≤ 22 ∧
      (Decimal.shortest .even ⟨m, e⟩).coefficient < 2 ^ 53 := by
  obtain ⟨n, hn⟩ := hdecimals
  have hshape := (shape_of_view hview).1
  obtain ⟨hreads, -, hcoarsest⟩ := Decimal.shortest_spec .even (b := ⟨m, e⟩) hshape hm
  obtain ⟨hbelow, habove⟩ := leadingPlace_of_decimals hview hone hn
  obtain ⟨-, hlead⟩ := Binary.leadingPlace_spec (b := ⟨m, e⟩) hm
  rw [real_binary hview] at hlead
  have hnear : Nearby m e (n * 10 ^ (-15 : ℤ)) := by
    have hdouble : (m : ℝ) * 2 ^ e = real t := real_binary hview
    rw [← nearest_eq_iff hshape hm, hdouble, hn, zpow_neg, div_eq_mul_inv]
    rfl
  have hexponent := hcoarsest n (-15) (by omega) hnear
  generalize Binary.leadingPlace ⟨m, e⟩ = lead at *
  generalize Decimal.shortest .even ⟨m, e⟩ = d at *
  have hcoefficient : d.coefficient ≤ 10 ^ 15 := by
    have hplace : real t < 10 ^ min (lead + 1) 0 := by
      rcases min_choice (lead + 1) 0 with hmin | hmin
      · rwa [hmin]
      · rwa [hmin, zpow_zero]
    have hscale : (10 : ℝ) ^ min (lead + 1) 0 ≤ 10 ^ (15 : ℤ) * 10 ^ d.exponent := by
      rw [← zpow_add₀ (by norm_num)]
      exact zpow_le_zpow_right₀ (by norm_num) (by omega)
    refine hreads.coefficient_le ?_
    rw [real_binary hview]
    exact_mod_cast hplace.trans_le hscale
  exact ⟨by omega, by omega⟩

omit hone in
theorem ofFloat?_eq : Numeral.ofFloat? t =
    some (Numeral.ofDecimal false (Decimal.shortest .even ⟨m, e⟩)) := by
  rw [Numeral.ofFloat?, reading_of_view hview]
  exact congrArg some (if_neg hm.ne')

omit hone in
theorem reread_eq : reread t = Fraction.read (Decimal.shortest .even ⟨m, e⟩).coefficient
    (-(Decimal.shortest .even ⟨m, e⟩).exponent).toNat := by
  rw [reread, reading_of_view hview]

theorem double?_shortest :
    (Numeral.ofDecimal false (Decimal.shortest .even ⟨m, e⟩)).double? = some (reread t) := by
  have hbelow := Decimal.length_add_exponent_le (coefficient_shortest_pos hview)
    (shortest_lt_one hview hone)
  have hdigits := (shortest_fraction hview hone).digits_le
  have hfits : (Decimal.shortest .even ⟨m, e⟩).coefficient < UInt64.size := by
    show _ < 2 ^ 64
    omega
  rw [reread_eq hview]
  exact Numeral.double?_ofDecimal hfits hbelow

/-- Only the last double before one is that close to it. -/
theorem eq_of_one_sub_lt (hlast : 1 - 2 ^ (-52 : ℤ) < real t) : m = 2 ^ 53 - 1 ∧ e = -53 := by
  obtain ⟨hdigits, hbottom, hnormal⟩ := (shape_of_view hview).1
  rw [← real_binary hview, Binary.real] at hone hlast
  have hupper : (m : ℝ) < 2 ^ 53 := by exact_mod_cast hdigits
  have hexponent : -54 < e := by
    by_contra hsmall
    have hscale : (2 : ℝ) ^ e ≤ 2 ^ (-54 : ℤ) :=
      zpow_le_zpow_right₀ one_le_two (not_lt.mp hsmall)
    have hproduct : (m : ℝ) * 2 ^ e ≤ 2 ^ 53 * 2 ^ (-54 : ℤ) := by gcongr
    norm_num at hproduct hlast
    linarith
  have hlarge : (2 : ℝ) ^ 52 ≤ m := by exact_mod_cast hnormal.resolve_right (by omega)
  have hexponent' : e < -52 := by
    by_contra hlarge'
    have hscale : (2 : ℝ) ^ (-52 : ℤ) ≤ 2 ^ e :=
      zpow_le_zpow_right₀ one_le_two (not_lt.mp hlarge')
    have hproduct : (2 : ℝ) ^ 52 * 2 ^ (-52 : ℤ) ≤ m * 2 ^ e := by gcongr
    norm_num at hproduct hone
    linarith
  obtain rfl : e = -53 := by omega
  refine ⟨?_, rfl⟩
  have hmantissa : (2 : ℝ) ^ 53 < m + 2 := by
    norm_num at hlast
    linarith
  have hmantissa' : 2 ^ 53 < m + 2 := by exact_mod_cast hmantissa
  omega

omit hone in
/-- Only the least positive double is that small. -/
theorem eq_of_lt_two_zpow (hleast : real t < 2 ^ (-1073 : ℤ)) : m = 1 ∧ e = -1074 := by
  have hbottom := (shape_of_view hview).1.bottom
  rw [← real_binary hview, Binary.real] at hleast
  have hm_one : (1 : ℝ) ≤ m := by exact_mod_cast hm
  have hscale_pos : (0 : ℝ) < 2 ^ e := by positivity
  have hexponent : e < -1073 := by
    rw [← zpow_lt_zpow_iff_right₀ (one_lt_two (α := ℝ))]
    exact (le_mul_of_one_le_left hscale_pos.le hm_one).trans_lt hleast
  obtain rfl : e = -1074 := by omega
  refine ⟨?_, rfl⟩
  rw [show (-1073 : ℤ) = 1 + -1074 by norm_num, zpow_add₀ two_ne_zero,
    mul_lt_mul_iff_left₀ hscale_pos] at hleast
  have htwo : m < 2 := by exact_mod_cast hleast
  omega

end Digits

/-! ## Texts of doubles below one -/

/-- The last double before one. -/
def lastBeforeOne : Float := Float.ofBits 0x3fefffffffffffff

/-- The sixteen nines that are printed for the last double before one are read as `10 ^ 16` over
`10 ^ 16`. -/
theorem read_nines : Fraction.read 9999999999999999 16 = 1.0 := by
  rw [Fraction.read, Numeral.scaleDown, if_pos (by decide)]
  decide +kernel

/-- The single digit that is printed for the least positive double is read as that double. -/
theorem read_five : 0 < real (Fraction.read 5 324) := by
  have hread : Fraction.read 5 324 = Float.ofBits 1 := by
    rw [Fraction.read, Numeral.scaleDown, if_neg (by decide), if_neg (by decide +kernel),
      Numeral.scaleDown, if_pos (by decide)]
    decide +kernel
  have hview : view (Float.ofBits 1) = .finite .positive 1 (-1074) one_pos := rfl
  exact hread ▸ real_pos_of_view hview

section Reread

variable {t : Float} (hpos : 0 < real t) (hone : real t < 1)

include hpos hone

theorem exists_numeral :
    ∃ n, Numeral.ofFloat? t = some n ∧ n.WellFormed ∧ n.double? = some (reread t) := by
  obtain ⟨m, e, hm, hview⟩ := view_of_pos hpos
  exact ⟨_, ofFloat?_eq hview,
    Numeral.wellFormed_ofDecimal false (coefficient_shortest_pos hview).ne',
    double?_shortest hview hone⟩

theorem abs_reread_sub_le :
    |real (reread t) - real t| ≤ 2 ^ (-49 : ℤ) * real t + 2 ^ (-1073 : ℤ) := by
  obtain ⟨m, e, hm, hview⟩ := view_of_pos hpos
  rw [reread_eq hview]
  exact (shortest_fraction hview hone).abs_read_sub_le

theorem reread_inside (hlast : t ≠ lastBeforeOne) : 0 < real (reread t) ∧ real (reread t) < 1 := by
  obtain ⟨m, e, hm, hview⟩ := view_of_pos hpos
  have hfraction := shortest_fraction hview hone
  rw [reread_eq hview]
  constructor
  · rcases le_or_gt (2 ^ (-1073 : ℤ)) (real t) with hlarge | hsmall
    · exact hfraction.zero_lt_read hlarge
    · obtain ⟨rfl, rfl⟩ := eq_of_lt_two_zpow hview hsmall
      have hshortest : Decimal.shortest .even ⟨1, -1074⟩ = ⟨5, -324⟩ := by decide +kernel
      rw [hshortest]
      exact read_five
  · rcases le_or_gt (real t) (1 - 2 ^ (-52 : ℤ)) with hsmall | hlarge
    · exact hfraction.read_lt_one hsmall
    · obtain ⟨rfl, rfl⟩ := eq_of_one_sub_lt hview hone hlarge
      exact absurd (eq_of_view_eq hview rfl) hlast

theorem reread_of_decimals (hdecimals : ∃ n : ℕ, real t = nearest (n / 10 ^ 15)) :
    reread t = t := by
  obtain ⟨m, e, hm, hview⟩ := view_of_pos hpos
  obtain ⟨hplaces, hdigits⟩ := shortest_of_decimals hview hone hdecimals
  rw [reread_eq hview]
  exact (shortest_fraction hview hone).read_eq hpos hplaces hdigits

end Reread

theorem reread_lastBeforeOne : reread lastBeforeOne = 1.0 := by
  have hview : view lastBeforeOne = .finite .positive (2 ^ 53 - 1) (-53) (by decide) := rfl
  have hshortest : Decimal.shortest .even ⟨2 ^ 53 - 1, -53⟩ = ⟨9999999999999999, -16⟩ := by
    decide +kernel
  rw [reread_eq hview, hshortest]
  exact read_nines

end Double

end Aleatory
