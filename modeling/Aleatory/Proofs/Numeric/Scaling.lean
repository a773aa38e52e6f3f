import Aleatory.Json.Numeral
import Aleatory.Proofs.Numeric.Bits

/-!
# Division by powers of ten

A numeral is read by dividing its digits by a power of ten. The powers of ten up to `10 ^ 22` are
doubles, so division by them is rounded once; a larger power is itself rounded, and beyond
`10 ^ 308` the division takes two steps. In each case the quotient is a number close to the exact
one, rounded to the nearest double (`scaleDown_spec`).
-/

namespace Aleatory

namespace Double

open Float.Model Float.Model.UnpackedFloat Numeral

/-! ## Relative errors -/

/-- A number differs from a positive one by no more than a part of it. -/
def Close (u x y : ℝ) : Prop := |x - y| ≤ u * y

section

variable {u w x y z : ℝ}

theorem Close.mono (h : Close u x y) (hy : 0 ≤ y) (huw : u ≤ w) : Close w x y :=
  h.trans (mul_le_mul_of_nonneg_right huw hy)

theorem Close.bounds (h : Close u x y) : (1 - u) * y ≤ x ∧ x ≤ (1 + u) * y := by
  obtain ⟨hlow, hhigh⟩ := abs_le.mp h
  constructor <;> linarith

theorem Close.trans (hzx : Close w z x) (hxy : Close u x y) (hw : 0 ≤ w) :
    Close (u + w + w * u) z y := by
  have hx : w * x ≤ w * ((1 + u) * y) := mul_le_mul_of_nonneg_left hxy.bounds.2 hw
  calc |z - y|
      ≤ |z - x| + |x - y| := abs_sub_le _ _ _
    _ ≤ w * x + u * y := add_le_add hzx hxy
    _ ≤ (u + w + w * u) * y := by linarith

theorem Close.mul_right (h : Close u x y) (hz : 0 ≤ z) : Close u (x * z) (y * z) := by
  rw [Close, ← sub_mul, abs_mul, abs_of_nonneg hz, ← mul_assoc]
  exact mul_le_mul_of_nonneg_right h hz

/-- A quotient by a number that is close to another one. -/
theorem Close.div_left (h : Close u x y) (hy : 0 < y) (hu : u ≤ 1 / 2) (hz : 0 ≤ z) :
    Close (2 * u) (z / x) (z / y) := by
  have hx : y / 2 ≤ x := by
    have hlow := h.bounds.1
    nlinarith
  have hx_pos : 0 < x := by linarith
  have hnonneg : 0 ≤ u * y := (abs_nonneg _).trans h
  have hsub : z / x - z / y = z / y * ((y - x) / x) := by
    field_simp
  have hpart : |(y - x) / x| ≤ 2 * u := by
    rw [abs_div, abs_of_pos hx_pos, div_le_iff₀ hx_pos, abs_sub_comm]
    have hu_nonneg : 0 ≤ u := nonneg_of_mul_nonneg_left hnonneg hy
    calc |x - y|
        ≤ u * y := h
      _ ≤ 2 * u * x := by nlinarith
  rw [Close, hsub, abs_mul, abs_of_nonneg (div_nonneg hz hy.le), mul_comm (2 * u)]
  exact mul_le_mul_of_nonneg_left hpart (div_nonneg hz hy.le)

/-- Rounding adds half of a last place, and a part of the number itself. -/
theorem abs_nearest_sub_le_add (x : ℝ) :
    |nearest x - x| ≤ 2 ^ (-53 : ℤ) * |x| + 2 ^ (-1075 : ℤ) := by
  rcases le_or_gt (2 ^ (-1022 : ℤ)) |x| with hle | hlt
  · exact (abs_nearest_sub_le_mul hle).trans (le_add_of_nonneg_right (by positivity))
  · have hmul : (0 : ℝ) ≤ 2 ^ (-53 : ℤ) * |x| := by positivity
    have hsub := abs_nearest_sub_le_of_le (k := -1021) le_rfl
      (hlt.le.trans (zpow_le_zpow_right₀ one_le_two (by norm_num)))
    exact hsub.trans (le_add_of_nonneg_left hmul)

theorem close_nearest (h : 2 ^ (-1022 : ℤ) ≤ x) : Close (2 ^ (-53 : ℤ)) (nearest x) x := by
  have hpos : 0 < x := lt_of_lt_of_le (by positivity) h
  have hclose := abs_nearest_sub_le_mul (x := x) (by rwa [abs_of_pos hpos])
  rwa [abs_of_pos hpos] at hclose

/-- Somewhat below the least normal double, the error is still small in proportion. -/
theorem close_nearest_of_subnormal (h : 2 ^ (-1024 : ℤ) ≤ x) :
    Close (2 ^ (-51 : ℤ)) (nearest x) x := by
  have hpos : 0 < x := lt_of_lt_of_le (by positivity) h
  rcases le_or_gt (2 ^ (-1022 : ℤ)) x with hle | hlt
  · exact (close_nearest hle).mono hpos.le (zpow_le_zpow_right₀ one_le_two (by norm_num))
  · have hbelow : |x| ≤ 2 ^ (-1021 : ℤ) := by
      rw [abs_of_pos hpos]
      exact hlt.le.trans (zpow_le_zpow_right₀ one_le_two (by norm_num))
    calc |nearest x - x|
        ≤ 2 ^ (-1021 - 54 : ℤ) := abs_nearest_sub_le_of_le le_rfl hbelow
      _ = 2 ^ (-51 : ℤ) * 2 ^ (-1024 : ℤ) := by
          rw [← zpow_add₀ two_ne_zero]
          norm_num
      _ ≤ 2 ^ (-51 : ℤ) * x := mul_le_mul_of_nonneg_left h (by positivity)

end

/-! ## Powers of ten -/

/-- A double that is larger than the powers of ten. -/
def beyondPowers : Float := Float.ofBits 0x7fe8000000000000

theorem real_beyondPowers : real beyondPowers = 3 * 2 ^ (1022 : ℤ) := by
  have h : view beyondPowers = .finite .positive (3 * 2 ^ 51) 971 (by decide) := by rfl
  have hmantissa : ((Sign.positive.apply (3 * 2 ^ 51 : ℕ) : ℤ) : ℝ) = 3 * 2 ^ (51 : ℤ) := by
    norm_num [Sign.apply]
  rw [real_of_view h, hmantissa, mul_assoc, ← zpow_add₀ two_ne_zero]
  rfl

/-- Whether a double is a given whole number. -/
def isWhole (n : ℕ) : UnpackedFloat → Bool
  | .finite .positive m e _ => m * 2 ^ e.toNat == n * 2 ^ (-e).toNat
  | _ => false

theorem real_of_isWhole {n : ℕ} {x : Float} (h : isWhole n (view x) = true) :
    x.isFinite = true ∧ real x = n := by
  rw [isFinite_eq, real]
  rcases hx : view x with _ | _ | _ | ⟨_ | _, m, e, hm⟩ <;> rw [hx] at h
  · cases h
  · cases h
  · cases h
  · cases h
  · have hwhole : m * 2 ^ e.toNat = n * 2 ^ (-e).toNat := by simpa [isWhole] using h
    have hcast : (m : ℝ) * 2 ^ e.toNat = n * 2 ^ (-e).toNat := by exact_mod_cast hwhole
    refine ⟨rfl, ?_⟩
    rw [value_finite, zpow_eq_pow_div_pow, mul_div_assoc', div_eq_iff (by positivity)]
    exact hcast

/-- The powers of ten up to `10 ^ 22` are doubles. -/
theorem tenTo_of_le {e : ℕ} (he : e ≤ 22) :
    (tenTo e).isFinite = true ∧ real (tenTo e) = 10 ^ e := by
  have hall : ∀ e ≤ 22, isWhole (10 ^ e) (view (tenTo e)) = true := by decide +kernel
  simpa using real_of_isWhole (hall e he)

/-- A larger power of ten is rounded. -/
theorem rounds_tenTo {e : ℕ} (he : 22 < e) (hmax : e ≤ 308) : Rounds (10 ^ e) (view (tenTo e)) := by
  have hpos : 0 < 10 ^ e := by positivity
  have hmodel : tenTo e = .ofModel (Float.Model.ofScientific 1 e) := by
    have hlarge : ¬(1 < 2 ^ 53 ∧ e ≤ 22) := by omega
    rw [tenTo, Float.ofScientific, dif_neg hlarge]
    rfl
  have hproduct : UnpackedFloat.ofScientific .binary64 1 e = UnpackedFloat.mul .binary64
      (.finite .positive (1 <<< 53) (-53) (by decide)) (.finite .positive (10 ^ e) 0 hpos) := by
    have hfits : ¬(e : ℤ) > 2 ^ Format.binary64.exponentBits := by
      show ¬(e : ℤ) > 2 ^ 11
      omega
    have hbottom : ¬(e : ℤ) < -(2 ^ Format.binary64.exponentBits + (Nat.log2 1 : ℕ)) := by
      show ¬(e : ℤ) < -(2 ^ 11 + (Nat.log2 1 : ℕ))
      omega
    rw [UnpackedFloat.ofScientific, dif_neg one_ne_zero, if_neg hfits, if_neg hbottom,
      if_pos (by omega)]
    rfl
  have hdigits : 52 ≤ ((1 <<< 53) * 10 ^ e).log2 := by
    apply (Nat.le_log2 (Nat.mul_pos (by decide) hpos).ne').mpr
    calc 2 ^ 52 ≤ (1 <<< 53) * 1 := by decide
      _ ≤ (1 <<< 53) * 10 ^ e := Nat.mul_le_mul_left _ hpos
  have hvalue : value (.finite .positive (1 <<< 53) (-53) (by decide)) *
      value (.finite .positive (10 ^ e) 0 hpos) = 10 ^ e := by
    rw [value_finite, value_finite]
    simp only [Sign.apply, Nat.shiftLeft_eq]
    push_cast
    norm_num
  rw [hmodel]
  show Rounds _ (Float.Model.pack (UnpackedFloat.ofScientific .binary64 1 e)).unpack
  rw [hproduct, ← hvalue]
  exact rounds_mul_finite (by decide) hpos (.inl hdigits)

theorem isFinite_tenTo {e : ℕ} (he : e ≤ 308) : (tenTo e).isFinite = true := by
  rcases Nat.lt_or_ge 22 e with hlarge | hsmall
  · refine (rounds_tenTo hlarge he).isFinite_of_le (c := beyondPowers) ?_
    have hpow : (10 : ℝ) ^ e ≤ 10 ^ 308 := pow_le_pow_right₀ (by norm_num) he
    have hbeyond : (10 : ℝ) ^ 308 ≤ 3 * 2 ^ 1022 := by
      exact_mod_cast (by decide +kernel : 10 ^ 308 ≤ 3 * 2 ^ 1022)
    have hcast : (2 : ℝ) ^ (1022 : ℤ) = 2 ^ 1022 := zpow_natCast 2 1022
    rw [real_beyondPowers, hcast, abs_of_nonneg (by positivity), abs_of_nonneg (by positivity)]
    exact hpow.trans hbeyond
  · exact (tenTo_of_le hsmall).1

theorem close_tenTo {e : ℕ} (he : e ≤ 308) : Close (2 ^ (-53 : ℤ)) (real (tenTo e)) (10 ^ e) := by
  rcases Nat.lt_or_ge 22 e with hlarge | hsmall
  · rw [(rounds_tenTo hlarge he).real_eq (isFinite_tenTo he)]
    refine close_nearest (le_trans ?_ (one_le_pow₀ (by norm_num)))
    exact zpow_le_one_of_nonpos₀ one_le_two (by norm_num)
  · rw [(tenTo_of_le hsmall).2, Close, sub_self, abs_zero]
    positivity

theorem one_le_real_tenTo {e : ℕ} (he : e ≤ 308) : 1 ≤ real (tenTo e) := by
  have hone : (1 : ℝ) ≤ 10 ^ e := one_le_pow₀ (by norm_num)
  rcases Nat.lt_or_ge 22 e with hlarge | hsmall
  · rw [(rounds_tenTo hlarge he).real_eq (isFinite_tenTo he)]
    exact one_le_nearest hone
  · rwa [(tenTo_of_le hsmall).2]

/-! ## Division -/

section

variable {f : Float} (hf : f.isFinite = true) (hnonneg : 0 ≤ real f)

include hf hnonneg

/-- Division by a power of ten that is a double, or close to one. -/
theorem div_tenTo_spec {k : ℕ} (hk : k ≤ 308) :
    (f / tenTo k).isFinite = true ∧ real (f / tenTo k) = nearest (real f / real (tenTo k)) ∧
      Close (2 ^ (-52 : ℤ)) (real f / real (tenTo k)) (real f / 10 ^ k) := by
  have hone := one_le_real_tenTo hk
  have hrounds := rounds_div hf (isFinite_tenTo hk) (by linarith)
  have hle : |real f / real (tenTo k)| ≤ |real f| := by
    rw [abs_div, abs_of_pos (by linarith : 0 < real (tenTo k))]
    exact div_le_self (abs_nonneg _) hone
  have hfinite := hrounds.isFinite_of_le hle
  have hclose := (close_tenTo hk).div_left (by positivity) (by norm_num) hnonneg
  exact ⟨hfinite, hrounds.real_eq hfinite, hclose.mono (by positivity) (by norm_num)⟩

end

theorem two_zpow_le_one_div : (2 : ℝ) ^ (-1024 : ℤ) ≤ 3 / 4 * (1 / 10 ^ 308) := by
  have hnat : (4 : ℝ) * 10 ^ 308 ≤ 3 * 2 ^ 1024 := by
    exact_mod_cast (by decide +kernel : 4 * 10 ^ 308 ≤ 3 * 2 ^ 1024)
  have hcast : (2 : ℝ) ^ (-1024 : ℤ) = 1 / 2 ^ 1024 := by
    rw [zpow_neg, one_div]
    rfl
  rw [hcast, div_mul_div_comm, div_le_div_iff₀ (by positivity) (by positivity), one_mul, mul_one]
  exact hnat

/-- Division by any power of ten that a double has room for. -/
theorem scaleDown_spec {f : Float} (hf : f.isFinite = true) (hone : 1 ≤ real f) {k : ℕ}
    (hk : k ≤ 616) :
    ∃ q, (scaleDown f k).isFinite = true ∧ real (scaleDown f k) = nearest q ∧
      Close (5 * 2 ^ (-52 : ℤ)) q (real f / 10 ^ k) ∧ (k ≤ 22 → q = real f / 10 ^ k) := by
  have hnonneg : 0 ≤ real f := zero_le_one.trans hone
  rcases Nat.lt_or_ge 308 k with hlarge | hsmall
  · have hzero : ¬(f == 0.0) = true := by
      rw [beq_iff_real hf rfl, real_zero]
      linarith
    have hscale : scaleDown f k = f / tenTo 308 / tenTo (k - 308) := by
      rw [scaleDown, if_neg (Nat.not_le.mpr hlarge), if_neg hzero, scaleDown, if_pos (by omega)]
    obtain ⟨hfinite, hreal, hclose⟩ := div_tenTo_spec hf hnonneg (k := 308) le_rfl
    have hsubnormal : 2 ^ (-1024 : ℤ) ≤ real f / real (tenTo 308) := by
      have hpart : 3 / 4 * (1 / 10 ^ 308) ≤ (1 - 2 ^ (-52 : ℤ)) * (real f / 10 ^ 308) :=
        mul_le_mul (by norm_num) (div_le_div_of_nonneg_right hone (by positivity)) (by positivity)
          (by norm_num)
      exact two_zpow_le_one_div.trans (hpart.trans hclose.bounds.1)
    have hfirst := (close_nearest_of_subnormal hsubnormal).trans hclose (by positivity)
    have hnonneg' : 0 ≤ real (f / tenTo 308) := by
      rw [hreal]
      exact nearest_nonneg (le_trans (by positivity) hsubnormal)
    obtain ⟨hfinite', hreal', hclose'⟩ := div_tenTo_spec hfinite hnonneg' (k := k - 308) (by omega)
    have hsplit (x : ℝ) : x / 10 ^ k = x / 10 ^ 308 * (1 / 10 ^ (k - 308)) := by
      rw [div_mul_div_comm, mul_one, ← pow_add, Nat.add_sub_cancel' hlarge.le]
    have hboth : Close (2 ^ (-52 : ℤ) + 2 ^ (-51 : ℤ) + 2 ^ (-51 : ℤ) * 2 ^ (-52 : ℤ))
        (real (f / tenTo 308) / 10 ^ (k - 308)) (real f / 10 ^ k) := by
      rw [hreal, hsplit, div_eq_mul_one_div (nearest _)]
      exact hfirst.mul_right (by positivity)
    rw [hscale]
    refine ⟨_, hfinite', hreal', ?_, fun hexact => by omega⟩
    exact (hclose'.trans hboth (by positivity)).mono (by positivity) (by norm_num)
  · have hscale : scaleDown f k = f / tenTo k := by rw [scaleDown, if_pos hsmall]
    obtain ⟨hfinite, hreal, hclose⟩ := div_tenTo_spec hf hnonneg hsmall
    rw [hscale]
    refine ⟨_, hfinite, hreal, hclose.mono (by positivity) (by norm_num), fun hexact => ?_⟩
    rw [(tenTo_of_le hexact).2]

/-- Whole digits divided by a power of ten, both of which may be rounded first. -/
theorem scaleDown_toFloat_spec {n : UInt64} (hn : n ≠ 0) {k : ℕ} (hk : k ≤ 616) :
    ∃ q, (scaleDown n.toFloat k).isFinite = true ∧ real (scaleDown n.toFloat k) = nearest q ∧
      Close (3 * 2 ^ (-51 : ℤ)) q (n.toNat / 10 ^ k) ∧
      (k ≤ 22 → Close (2 ^ (-53 : ℤ)) q (n.toNat / 10 ^ k)) ∧
      (k ≤ 22 → n.toNat < 2 ^ 53 → q = n.toNat / 10 ^ k) := by
  have hone : (1 : ℝ) ≤ n.toNat := by
    have hpos : n.toNat ≠ 0 := fun h => hn (UInt64.toNat_inj.mp h)
    exact_mod_cast Nat.one_le_iff_ne_zero.mpr hpos
  have hfloat := (toFloat_eq_nearest n).2
  have hclose : Close (2 ^ (-53 : ℤ)) (real n.toFloat) n.toNat := by
    rw [hfloat]
    exact close_nearest (le_trans (zpow_le_one_of_nonpos₀ one_le_two (by norm_num)) hone)
  have hone' : 1 ≤ real n.toFloat := hfloat ▸ one_le_nearest hone
  have hdivided : Close (2 ^ (-53 : ℤ)) (real n.toFloat / 10 ^ k) (n.toNat / 10 ^ k) := by
    rw [div_eq_mul_one_div, div_eq_mul_one_div (n.toNat : ℝ)]
    exact hclose.mul_right (by positivity)
  obtain ⟨q, hfinite, hreal, hq, hexact⟩ := scaleDown_spec (isFinite_toFloat n) hone' hk
  refine ⟨q, hfinite, hreal, ?_, fun h => hexact h ▸ hdivided, fun h hsmall => ?_⟩
  · exact (hq.trans hdivided (by positivity)).mono (by positivity) (by norm_num)
  · rw [hexact h, real_toFloat hsmall]

end Double

end Aleatory
