import Aleatory.Generator
import Aleatory.Proofs.Numeric.Magnitude

/-!
# The unit interval

A word stands for the fraction of its upper 53 bits. Neither the conversion nor the multiplication
that makes this fraction is rounded, so the fractions are those of a grid below one, in the order
of the words.
-/

namespace Aleatory

open Double Float.Model Float.Model.UnpackedFloat

theorem toNat_shiftRight_lt (bits : UInt64) : (bits >>> 11).toNat < 2 ^ 53 := by
  have hbits := bits.toNat_lt
  rw [UInt64.toNat_shiftRight, Nat.shiftRight_eq_div_pow]
  exact Nat.div_lt_of_lt_mul (by simpa using hbits)

theorem real_gridStep : real (1.0 / 9007199254740992.0) = 2 ^ (-53 : ℤ) := by
  have hview : view (1.0 / 9007199254740992.0) =
      .finite .positive (2 ^ 52) (-105) (by decide) := rfl
  rw [real_of_view hview]
  norm_num [Sign.apply]

/-- The fraction of a word is not rounded. -/
theorem real_unitOfWord (bits : UInt64) :
    (unitOfWord bits).isFinite = true ∧
      real (unitOfWord bits) = (bits >>> 11).toNat * 2 ^ (-53 : ℤ) := by
  have hstep : Within 0 (1.0 / 9007199254740992.0) := by
    refine ⟨rfl, ?_⟩
    rw [real_gridStep]
    norm_num
  obtain ⟨hwithin, hnearest⟩ := mul_eq_nearest (within_toFloat (bits >>> 11)) hstep (by norm_num)
  have hlt := toNat_shiftRight_lt bits
  refine ⟨hwithin.isFinite, hnearest.trans ?_⟩
  rw [real_toFloat hlt, real_gridStep]
  exact nearest_natCast_mul hlt (by norm_num)

theorem unitOfWord_mem (bits : UInt64) : 0.0 ≤ unitOfWord bits ∧ unitOfWord bits < 1.0 := by
  obtain ⟨hfinite, hreal⟩ := real_unitOfWord bits
  rw [le_iff_real rfl hfinite, lt_iff_real hfinite rfl, hreal, real_zero, real_one]
  have hlt : ((bits >>> 11).toNat : ℝ) < 2 ^ (53 : ℤ) := by exact_mod_cast toNat_shiftRight_lt bits
  refine ⟨by positivity, ?_⟩
  calc ((bits >>> 11).toNat : ℝ) * 2 ^ (-53 : ℤ)
      < 2 ^ (53 : ℤ) * 2 ^ (-53 : ℤ) := mul_lt_mul_of_pos_right hlt (by positivity)
    _ = 1 := by norm_num

theorem unitOfWord_mono {bits bits' : UInt64} (h : bits ≤ bits') :
    unitOfWord bits ≤ unitOfWord bits' := by
  obtain ⟨hfinite, hreal⟩ := real_unitOfWord bits
  obtain ⟨hfinite', hreal'⟩ := real_unitOfWord bits'
  have hshift : (bits >>> 11).toNat ≤ (bits' >>> 11).toNat := by
    simp only [UInt64.toNat_shiftRight, Nat.shiftRight_eq_div_pow]
    exact Nat.div_le_div_right (UInt64.le_iff_toNat_le.mp h)
  rw [le_iff_real hfinite hfinite', hreal, hreal']
  gcongr

end Aleatory
