import Aleatory.Proofs.Numeric.Scaling

/-!
# Decimal fractions that are read by division

A decimal fraction `n / 10 ^ k` of at most eighteen digits is read by dividing its digits by the
power of ten. What it is read as need not be the double nearest to it. It is that double if the
digits and the power of ten are doubles themselves (`Fraction.read_eq`), and it is never far from it
(`Fraction.abs_read_sub_le`). A fraction below one is read as a double between zero and one, unless
the double nearest to it is the least positive one or the last one before one
(`Fraction.zero_lt_read`, `Fraction.read_lt_one`).
-/

namespace Aleatory

namespace Double

open Float.Model Float.Model.UnpackedFloat Numeral

/-- A decimal fraction below one of at most eighteen digits, and the double nearest to it. -/
structure Fraction (t : Float) (n k : ℕ) : Prop where
  near : nearest (n / 10 ^ k) = real t
  below_one : (n : ℝ) / 10 ^ k < 1
  digits_pos : 0 < n
  digits_le : n ≤ 10 ^ 18
  places_le : k ≤ 616

/-- What a decimal fraction is read as. -/
def Fraction.read (n k : ℕ) : Float := scaleDown n.toUInt64.toFloat k

namespace Fraction

variable {t : Float} {n k : ℕ} (h : Fraction t n k)

include h

theorem pos : (0 : ℝ) < n / 10 ^ k := by
  have hn : (0 : ℝ) < n := by exact_mod_cast h.digits_pos
  positivity

/-- The quotient that is rounded is close to the fraction. -/
theorem exists_quotient :
    ∃ q, (read n k).isFinite = true ∧ real (read n k) = nearest q ∧
      Close (3 * 2 ^ (-51 : ℤ)) q (n / 10 ^ k) ∧
      (k ≤ 22 → Close (2 ^ (-53 : ℤ)) q (n / 10 ^ k)) ∧
      (k ≤ 22 → n < 2 ^ 53 → q = n / 10 ^ k) := by
  have hdigits := h.digits_le
  have hpos := h.digits_pos
  have hcast : n.toUInt64.toNat = n := UInt64.toNat_ofNat_of_lt' (by
    show n < 2 ^ 64
    omega)
  have hne : n.toUInt64 ≠ 0 := by
    intro hzero
    rw [hzero] at hcast
    exact hpos.ne hcast
  have hspec := scaleDown_toFloat_spec hne h.places_le
  rwa [hcast] at hspec

/-- Digits that are a double, divided by a power of ten that is one, are read as the nearest
double. -/
theorem read_eq (ht : 0 < real t) (hk : k ≤ 22) (hn : n < 2 ^ 53) : read n k = t := by
  obtain ⟨q, -, hreal, -, -, hexact⟩ := h.exists_quotient
  rw [hexact hk hn, h.near] at hreal
  exact eq_of_real_eq (hreal ▸ ht) hreal

theorem abs_read_sub_le :
    |real (read n k) - real t| ≤ 2 ^ (-49 : ℤ) * real t + 2 ^ (-1073 : ℤ) := by
  obtain ⟨q, -, hreal, hclose, -⟩ := h.exists_quotient
  have hpos := h.pos
  have hround := abs_nearest_sub_le_add ((n : ℝ) / 10 ^ k)
  have hround' := abs_nearest_sub_le_add q
  have hnear := h.near
  generalize (n : ℝ) / 10 ^ k = v at *
  have hq : 0 ≤ q := by
    have hlow := hclose.bounds.1
    norm_num at hlow
    linarith
  rw [abs_of_pos hpos, hnear, abs_le] at hround
  rw [abs_of_nonneg hq, ← hreal, abs_le] at hround'
  obtain ⟨hlow, hhigh⟩ := abs_le.mp hclose
  have hlast : (2 : ℝ) ^ (-1073 : ℤ) = 4 * 2 ^ (-1075 : ℤ) := by
    rw [show (4 : ℝ) = 2 ^ (2 : ℤ) by norm_num, ← zpow_add₀ two_ne_zero]
    norm_num
  have hlast_pos : (0 : ℝ) < 2 ^ (-1075 : ℤ) := by positivity
  rw [hlast, abs_le]
  generalize (2 : ℝ) ^ (-1075 : ℤ) = w at *
  norm_num at hround hround' hlow hhigh ⊢
  constructor <;> linarith

/-- A fraction below one is not read as zero, unless the least positive double is nearest to it. -/
theorem zero_lt_read (ht : 2 ^ (-1073 : ℤ) ≤ real t) : 0 < real (read n k) := by
  obtain ⟨q, -, hreal, hclose, -⟩ := h.exists_quotient
  have hpos := h.pos
  have hround := abs_nearest_sub_le_add ((n : ℝ) / 10 ^ k)
  have hlast : (2 : ℝ) ^ (-1073 : ℤ) = 2 * 2 ^ (-1074 : ℤ) ∧
      (2 : ℝ) ^ (-1075 : ℤ) = 1 / 2 * 2 ^ (-1074 : ℤ) := by
    rw [show (-1073 : ℤ) = -1074 + 1 by norm_num, show (-1075 : ℤ) = -1074 - 1 by norm_num,
      zpow_add_one₀ two_ne_zero, zpow_sub_one₀ two_ne_zero]
    constructor <;> ring
  have hlast_pos : (0 : ℝ) < 2 ^ (-1074 : ℤ) := by positivity
  have hlow := hclose.bounds.1
  have hle : (2 : ℝ) ^ (-1074 : ℤ) ≤ q := by
    rw [h.near, abs_of_pos hpos, abs_le, hlast.2] at hround
    rw [hlast.1] at ht
    generalize (2 : ℝ) ^ (-1074 : ℤ) = w at *
    norm_num at hround hlow
    linarith
  rw [hreal]
  exact hlast_pos.trans_le (two_zpow_le_nearest le_rfl hle)

/-- A fraction below one is not read as one, unless the last double before one is nearest to it. -/
theorem read_lt_one (ht : real t ≤ 1 - 2 ^ (-52 : ℤ)) : real (read n k) < 1 := by
  obtain ⟨q, -, hreal, hclose, hnarrow, -⟩ := h.exists_quotient
  have hpos := h.pos
  rw [hreal]
  rcases Nat.lt_or_ge 22 k with hlarge | hsmall
  · -- Eighteen digits that far behind the point are a small number.
    have hdigits : (n : ℝ) ≤ 10 ^ 18 := by exact_mod_cast h.digits_le
    have hplaces : (10 : ℝ) ^ 23 ≤ 10 ^ k := pow_le_pow_right₀ (by norm_num) hlarge
    have hfraction : (n : ℝ) / 10 ^ k ≤ 10 ^ 18 / 10 ^ 23 :=
      div_le_div₀ (by positivity) hdigits (by positivity) hplaces
    have hhigh := hclose.bounds.2
    norm_num at hfraction hhigh
    have hmono := nearest_mono (show q ≤ 1 / 2 by linarith)
    rw [nearest_half] at hmono
    linarith
  · have hround {x : ℝ} (hx : 0 ≤ x) (hone : x ≤ 1) : |nearest x - x| ≤ 2 ^ (-54 : ℤ) :=
      abs_nearest_sub_le_of_le (k := 0) (by norm_num) (by rwa [abs_of_nonneg hx, zpow_zero])
    have hfraction := hround hpos.le h.below_one.le
    rw [h.near] at hfraction
    obtain ⟨hlow, hhigh⟩ := (hnarrow hsmall).bounds
    generalize (n : ℝ) / 10 ^ k = v at *
    have hbelow := (abs_le.mp hfraction).1
    norm_num at ht hbelow hlow hhigh
    have hquotient := hround (x := q) (by linarith) (by linarith)
    have habove := (abs_le.mp hquotient).2
    norm_num at habove
    linarith

end Fraction

end Double

end Aleatory
