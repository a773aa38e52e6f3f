import Aleatory.Proofs.Numeric.Magnitude

/-!
# Doubles as integers

A double becomes an integer by truncation: a finite one that is not negative becomes the largest
integer at or below it, or the last word if that is too large (`Double.toNat_toUInt64`).
Multiplying by a power of two shifts the digits of a double and rounds none of them away
(`Double.real_scaled`), so a double that is scaled first and then truncated is rounded only once,
by the truncation.
-/

namespace Aleatory

namespace Double

open Float.Model Float.Model.UnpackedFloat

/-- Shifting a mantissa out to the exponent zero leaves its digits before the point. -/
theorem roundToInt_positive (m : ℕ) (e : ℤ) :
    roundToInt .positive m e = ⌊(m : ℝ) * 2 ^ e⌋ := by
  obtain ⟨k, hk⟩ : ∃ k : ℕ, (e - 0).toNat = k := ⟨_, rfl⟩
  obtain ⟨j, hj⟩ : ∃ j : ℕ, (0 - (e - k)).toNat = j := ⟨_, rfl⟩
  have hexponent : e = k - j := by omega
  have hshifted := (represents_exact (m <<< k)).shiftRight j
  have hvalue : ((m <<< k : ℕ) : ℝ) / 2 ^ j = m * 2 ^ e := by
    rw [hexponent, zpow_sub₀ two_ne_zero, zpow_natCast, zpow_natCast, Nat.shiftLeft_eq]
    push_cast
    ring
  rw [hvalue] at hshifted
  rw [hshifted.floor]
  simp only [roundToInt, decreaseExponent, shiftToExponent, hk, hj]
  rfl

theorem toNat_toUInt64 {x : Float} (hzero : 0.0 ≤ x) (hx : x.isFinite = true) :
    x.toUInt64.toNat = min ⌊real x⌋₊ (UInt64.size - 1) := by
  have hint : (view x).toInt 0 (UInt64.size - 1) = ⌊real x⌋ := by
    rw [zero_le_iff] at hzero
    rcases cases_of_isFinite hx with ⟨s, hview⟩ | ⟨s, m, e, hm, hview⟩
    · rw [real, hview, value_zero, Int.floor_zero]
      rfl
    · rw [hview] at hzero
      obtain rfl : s = .positive := hzero
      rw [real_of_view hview, hview]
      exact roundToInt_positive m e
  show (UInt64.ofNatClamp ((view x).toInt 0 (UInt64.size - 1)).toNat).toNat = _
  rw [hint, Int.floor_toNat]
  rcases lt_or_ge ⌊real x⌋₊ UInt64.size with hlt | hge
  · rw [UInt64.toNat_ofNatClamp_of_lt hlt, min_eq_left (Nat.le_sub_one_of_lt hlt)]
  · rw [UInt64.toNat_ofNatClamp_of_le hge, min_eq_right ((Nat.sub_le _ _).trans hge)]

/-- The digits of a double are still those of a double behind a larger exponent. -/
theorem nearest_real_mul_two_pow (x : Float) (k : ℕ) :
    nearest (real x * 2 ^ k) = real x * 2 ^ k := by
  obtain ⟨n, e, hdigits, hbottom, hreal⟩ := exists_digits x
  have hshift : real x * 2 ^ k = n * 2 ^ (e + k) := by
    rw [hreal, zpow_add₀ two_ne_zero, zpow_natCast, mul_assoc]
  rw [hshift]
  exact nearest_eq_self hdigits (by omega)

/-- Multiplication by a power of two is not rounded. -/
theorem real_scaled {a c : Float} {j k n : ℕ} (ha : Within j a) (hc : Within k c)
    (hjk : j + k ≤ 1023) (hpower : real c = 2 ^ n) : real (a * c) = real a * 2 ^ n := by
  rw [(mul_eq_nearest ha hc hjk).2, hpower, nearest_real_mul_two_pow]

end Double

end Aleatory
