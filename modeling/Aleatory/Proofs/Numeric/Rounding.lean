import Aleatory.Proofs.Numeric.Nearest

/-!
# Rounding and packing of doubles

A result of an operation is first a mantissa and an exponent, with a round bit and a sticky bit
for what the mantissa leaves out. Rounding brings it to the nearest double
(`roundWithAccuracy_spec`), and packing keeps every double up to the largest one (`unpack_pack`).
-/

namespace Aleatory

namespace Double

open Float.Model Float.Model.UnpackedFloat

/-! ## Mantissas with residual bits -/

/-- The numbers that a mantissa with a round bit and a sticky bit stands for. -/
def Represents : ExtendedMantissa → ℝ → Prop
  | ⟨m, false, false⟩, y => y = m
  | ⟨m, false, true⟩, y => m < y ∧ y < m + 1 / 2
  | ⟨m, true, false⟩, y => y = m + 1 / 2
  | ⟨m, true, true⟩, y => m + 1 / 2 < y ∧ y < m + 1

theorem Represents.floor {em : ExtendedMantissa} {y : ℝ} (h : Represents em y) :
    ⌊y⌋ = em.mantissa := by
  apply Int.floor_eq_iff.mpr
  rcases em with ⟨m, _ | _, _ | _⟩ <;> simp only [Represents] at h <;> push_cast <;>
    constructor <;> linarith

theorem Represents.roundedMantissa {em : ExtendedMantissa} {y : ℝ} (h : Represents em y) :
    (em.roundedMantissa : ℤ) = roundEven y := by
  have hfloor := h.floor
  have hfract : Int.fract y = y - em.mantissa := by
    rw [Int.fract, hfloor]
    push_cast
    rfl
  simp only [roundEven, hfract, hfloor, Int.even_iff]
  rcases em with ⟨m, _ | _, _ | _⟩ <;> simp only [Represents] at h <;>
    simp only [ExtendedMantissa.roundedMantissa, ExtendedMantissa.accuracy,
      Accuracy.roundToNearestEven] <;>
    push_cast <;> split_ifs <;> first | omega | (exfalso; linarith)

theorem Represents.shiftRightOne {em : ExtendedMantissa} {y : ℝ} (h : Represents em y) :
    Represents em.shiftRightOne (y / 2) := by
  obtain ⟨m, r, s⟩ := em
  have hmod : ((m % 2 : ℕ) : ℝ) + 2 * ((m / 2 : ℕ) : ℝ) = m := by exact_mod_cast Nat.mod_add_div m 2
  rcases Nat.mod_two_eq_zero_or_one m with hparity | hparity <;> rw [hparity] at hmod <;>
    push_cast at hmod <;> cases r <;> cases s <;> simp only [Represents] at h <;>
    simp [ExtendedMantissa.shiftRightOne, hparity, Represents] <;>
    first | (constructor <;> linarith) | linarith

theorem Represents.shiftRight {em : ExtendedMantissa} {y : ℝ} (h : Represents em y) (n : ℕ) :
    Represents (em >>> n) (y / 2 ^ n) := by
  show Represents (n.repeat ExtendedMantissa.shiftRightOne em) _
  induction n with
  | zero => simpa [Nat.repeat] using h
  | succ n ih =>
      rw [Nat.repeat, pow_succ, div_mul_eq_div_div]
      exact ih.shiftRightOne

theorem Represents.bounds {em : ExtendedMantissa} {y : ℝ} (h : Represents em y) :
    em.mantissa ≤ y ∧ y < em.mantissa + 1 := by
  have hfloor := Int.floor_eq_iff.mp h.floor
  simpa using hfloor

/-! ## Rounding a mantissa -/

/-- The mantissa and the exponent of a double, if there were no largest one. -/
structure Shape (m : ℕ) (e : ℤ) : Prop where
  digits : m < 2 ^ 53
  bottom : -1074 ≤ e
  normal : 2 ^ 52 ≤ m ∨ e = -1074

theorem targetExponent_eq (m : ℕ) (e : ℤ) :
    Format.binary64.targetExponent (totalExponent m e) = max (m.log2 + e - 52) (-1074) := by
  simp only [Format.targetExponent, totalExponent, Format.mantissaBits, Format.minExponent]
  norm_num
  omega

/-- The place that a mantissa is rounded to is the place of the number that it stands for, if it
has enough digits. -/
theorem place_eq {m : ℕ} {e : ℤ} {y : ℝ} (hdigits : 52 ≤ m.log2 ∨ e ≤ -1074)
    (hbounds : m ≤ y ∧ y < m + 1) (hy : 0 < y) :
    place (y * 2 ^ e) = max (m.log2 + e - 52) (-1074) := by
  have hscale : (0 : ℝ) < 2 ^ e := by positivity
  have hpos : 0 < y * 2 ^ e := mul_pos hy hscale
  have habove : Int.log 2 (y * 2 ^ e) < m.log2 + 1 + e := by
    apply (Int.lt_zpow_iff_log_lt (by norm_num) hpos).mp
    have hlt : y < 2 ^ (m.log2 + 1) := by
      have hnat : m + 1 ≤ 2 ^ (m.log2 + 1) := Nat.lt_log2_self
      have hcast : (m : ℝ) + 1 ≤ 2 ^ (m.log2 + 1) := by exact_mod_cast hnat
      exact hbounds.2.trans_le hcast
    push_cast
    rw [zpow_add₀ two_ne_zero]
    exact mul_lt_mul_of_pos_right (by exact_mod_cast hlt) hscale
  rw [place, abs_of_pos hpos]
  rcases Nat.eq_zero_or_pos m with rfl | hm
  · rw [Nat.log2_zero] at hdigits habove ⊢
    omega
  · have hbelow : m.log2 + e ≤ Int.log 2 (y * 2 ^ e) := by
      apply (Int.zpow_le_iff_le_log (by norm_num) hpos).mp
      have hnat : 2 ^ m.log2 ≤ m := Nat.log2_self_le hm.ne'
      have hcast : (2 : ℝ) ^ m.log2 ≤ m := by exact_mod_cast hnat
      push_cast
      rw [zpow_add₀ two_ne_zero, zpow_natCast]
      exact mul_le_mul_of_nonneg_right (hcast.trans hbounds.1) hscale.le
    omega

/-- The first shift of a rounding brings a mantissa to its place, where its nearest whole number
is the nearest double. -/
theorem shiftToTargetExponent_spec {m : ℕ} {e : ℤ} {accuracy : Accuracy} {y : ℝ}
    (hdigits : 52 ≤ m.log2 ∨ e ≤ -1074)
    (hy : Represents (.ofMantissaAndAccuracy m accuracy) y) (hpos : 0 < y) :
    (shiftToTargetExponent .binary64 m e accuracy).2 = place (y * 2 ^ e) ∧
    (shiftToTargetExponent .binary64 m e accuracy).1.roundedMantissa * 2 ^ place (y * 2 ^ e) =
      nearest (y * 2 ^ e) := by
  have hmantissa : (ExtendedMantissa.ofMantissaAndAccuracy m accuracy).mantissa = m := by
    rcases accuracy with _ | _ | _ | _ <;> rfl
  have hplace := place_eq hdigits (hmantissa ▸ hy.bounds) hpos
  have hle : e ≤ place (y * 2 ^ e) := by
    rw [hplace]
    omega
  obtain ⟨k, hk⟩ : ∃ k : ℕ, place (y * 2 ^ e) = e + k :=
    ⟨(place (y * 2 ^ e) - e).toNat, by omega⟩
  have hshift : (Format.binary64.targetExponent (totalExponent m e) - e).toNat = k := by
    rw [targetExponent_eq, ← hplace, hk]
    omega
  have hrounded := (hy.shiftRight k).roundedMantissa
  simp only [shiftToTargetExponent, shiftToExponent, hshift]
  refine ⟨hk.symm, ?_⟩
  have hquotient : y * 2 ^ e / 2 ^ place (y * 2 ^ e) = y / 2 ^ k := by
    rw [hk, zpow_add₀ two_ne_zero, zpow_natCast]
    field_simp
  rw [nearest, hquotient, ← hrounded]
  norm_cast

theorem shiftRight_zero (em : ExtendedMantissa) : em >>> 0 = em := rfl

/-- The second shift of a rounding changes no number. -/
theorem shiftToTargetExponent_exact {r : ℕ} {t : ℤ} (hr : r ≤ 2 ^ 53) (ht : -1074 ≤ t)
    (hnormal : 2 ^ 52 ≤ r ∨ t = -1074) :
    Shape (shiftToTargetExponent .binary64 r t .exact).1.mantissa
      (shiftToTargetExponent .binary64 r t .exact).2 ∧
    ((shiftToTargetExponent .binary64 r t .exact).1.mantissa : ℝ) *
      2 ^ (shiftToTargetExponent .binary64 r t .exact).2 = r * 2 ^ t := by
  rcases hr.lt_or_eq with hlt | rfl
  · have hlog : r.log2 ≤ 52 := by
      rcases eq_or_ne r 0 with rfl | hzero
      · simp
      · exact Nat.lt_succ_iff.mp ((Nat.log2_lt hzero).mpr hlt)
    have hshift : (max ((r.log2 : ℤ) + t - 52) (-1074) - t).toNat = 0 := by omega
    simp only [shiftToTargetExponent, shiftToExponent, targetExponent_eq, hshift, shiftRight_zero]
    refine ⟨⟨hlt, by simpa using ht, ?_⟩, by simp [ExtendedMantissa.ofMantissaAndAccuracy]⟩
    simpa [ExtendedMantissa.ofMantissaAndAccuracy] using hnormal
  · have hshift : (max (((2 ^ 53 : ℕ).log2 : ℤ) + t - 52) (-1074) - t).toNat = 1 := by
      rw [Nat.log2_two_pow]
      omega
    have hhalf : (ExtendedMantissa.ofMantissaAndAccuracy (2 ^ 53) .exact >>> 1).mantissa = 2 ^ 52 :=
      rfl
    simp only [shiftToTargetExponent, shiftToExponent, targetExponent_eq, hshift, hhalf]
    refine ⟨⟨by norm_num, by push_cast; omega, .inl le_rfl⟩, ?_⟩
    rw [Nat.cast_one, zpow_add_one₀ two_ne_zero]
    push_cast
    ring

/-- Rounding a mantissa gives the nearest double. -/
theorem roundWithAccuracy_spec (sign : Sign) {m : ℕ} {e : ℤ} {accuracy : Accuracy} {y : ℝ}
    (hdigits : 52 ≤ m.log2 ∨ e ≤ -1074)
    (hy : Represents (.ofMantissaAndAccuracy m accuracy) y) (hpos : 0 < y) :
    ∃ r t, Shape r t ∧ r * 2 ^ t = nearest (y * 2 ^ e) ∧
      roundWithAccuracy .binary64 sign m e accuracy =
        if h : r = 0 then .zero sign else .finite sign r t (Nat.pos_of_ne_zero h) := by
  obtain ⟨hplace, hvalue⟩ := shiftToTargetExponent_spec hdigits hy hpos
  set first := shiftToTargetExponent .binary64 m e accuracy with hfirst
  have hscale : (0 : ℝ) < 2 ^ place (y * 2 ^ e) := by positivity
  have hargument : 0 < y * 2 ^ e := by positivity
  have hbottom : -1074 ≤ place (y * 2 ^ e) := le_max_right _ _
  have hdigits' : first.1.roundedMantissa ≤ 2 ^ 53 := by
    have hle : nearest (y * 2 ^ e) ≤ 2 ^ (place (y * 2 ^ e) + 53) := by
      refine (le_abs_self _).trans (abs_nearest_le_two_zpow (by omega) ?_)
      exact (lt_two_zpow_place _).le
    rw [← hvalue, Int.add_comm, zpow_add₀ two_ne_zero] at hle
    exact_mod_cast le_of_mul_le_mul_right hle hscale
  have hnormal : 2 ^ 52 ≤ first.1.roundedMantissa ∨ place (y * 2 ^ e) = -1074 := by
    rcases hbottom.lt_or_eq with hlt | heq
    · have hle : 2 ^ (place (y * 2 ^ e) + 52) ≤ nearest (y * 2 ^ e) := by
        have hlow := two_zpow_place_le hargument.ne' hlt
        rw [abs_of_pos hargument] at hlow
        have hmono := nearest_mono hlow
        rwa [nearest_two_zpow (by omega)] at hmono
      rw [← hvalue, Int.add_comm, zpow_add₀ two_ne_zero] at hle
      exact .inl (by exact_mod_cast le_of_mul_le_mul_right hle hscale)
    · exact .inr heq.symm
  obtain ⟨hshape, hexact⟩ := shiftToTargetExponent_exact hdigits' hbottom hnormal
  refine ⟨_, _, hshape, hexact.trans hvalue, ?_⟩
  rw [roundWithAccuracy, ← hfirst]
  simp only [hplace]

/-! ## Packing -/

theorem sign_ofBitVec_toBitVec (s : Sign) : Sign.ofBitVec s.toBitVec = s := by
  cases s <;> rfl

theorem unpack_normal {s : Sign} {m : ℕ} {e : ℤ} (hm : 2 ^ 52 ≤ m) (hdigits : m < 2 ^ 53)
    (hbottom : -1074 ≤ e) (htop : e ≤ 971) :
    UnpackedFloat.unpack .binary64 (packComponents .binary64 s (.ofNat 11 (e + 1075).toNat)
      (.ofNat 52 m)) = .finite s m e (by omega) := by
  have hexponent : (BitVec.ofNat 11 (e + 1075).toNat).toNat = (e + 1075).toNat := by
    rw [BitVec.toNat_ofNat]
    omega
  have hmax : BitVec.ofNat 11 (e + 1075).toNat ≠ -1#11 := by
    intro h
    have h' := congrArg BitVec.toNat h
    rw [hexponent] at h'
    change (e + 1075).toNat = 2047 at h'
    omega
  have hzero : BitVec.ofNat 11 (e + 1075).toNat ≠ 0#11 := by
    intro h
    have h' := congrArg BitVec.toNat h
    rw [hexponent] at h'
    change (e + 1075).toNat = 0 at h'
    omega
  have hmantissa : (1#1 ++ BitVec.ofNat 52 m).toNat = m := by
    rw [BitVec.toNat_append, ← Nat.shiftLeft_add_eq_or_of_lt (BitVec.isLt _), BitVec.toNat_ofNat]
    show 1 <<< 52 + m % 2 ^ 52 = m
    omega
  simp only [UnpackedFloat.unpack, unpackMantissa_packComponents, unpackExponent_packComponents,
    unpackSign_packComponents, sign_ofBitVec_toBitVec, hmax, hzero, if_false, hexponent,
    hmantissa]
  congr 1
  show ((e + 1075).toNat : ℤ) - (1023 + 52) = e
  omega

theorem unpack_subnormal {s : Sign} {m : ℕ} (hm : 0 < m) (hdigits : m < 2 ^ 52) :
    UnpackedFloat.unpack .binary64 (packComponents .binary64 s 0#11 (.ofNat 52 m)) =
      .finite s m (-1074) hm := by
  have hmantissa : (BitVec.ofNat 52 m).toNat = m := by
    rw [BitVec.toNat_ofNat, Nat.mod_eq_of_lt hdigits]
  have hnonzero : BitVec.ofNat 52 m ≠ 0#52 := by
    intro h
    have h' := congrArg BitVec.toNat h
    rw [hmantissa] at h'
    exact hm.ne' h'
  have hmax : 0#11 ≠ -1#11 := by decide
  simp only [UnpackedFloat.unpack, unpackMantissa_packComponents, unpackExponent_packComponents,
    unpackSign_packComponents, sign_ofBitVec_toBitVec, hmax, if_false, if_true, hnonzero,
    dite_false, hmantissa]
  rfl

/-- What fits is packed without a loss, and what is too large is packed as an infinity. -/
theorem unpack_pack {s : Sign} {m : ℕ} {e : ℤ} (hm : 0 < m) (h : Shape m e) :
    (Float.Model.pack (.finite s m e hm)).unpack =
      if e ≤ 971 then .finite s m e hm else .infinity s := by
  have hbottom := h.bottom
  have hdigits := h.digits
  have hbiased : (e + Format.binary64.exponentBias +
      Format.binary64.mantissaBitsWithoutImplicit).toNat = (e + 1075).toNat := by
    show (e + 1023 + 52).toNat = _
    rw [Int.add_assoc]
    rfl
  show UnpackedFloat.unpack .binary64 (UnpackedFloat.pack .binary64 (.finite s m e hm)) = _
  simp only [UnpackedFloat.pack, hbiased]
  by_cases he : e ≤ 971
  · have hfits : ¬2 ^ Format.binary64.exponentBits ≤ (e + 1075).toNat + 1 := by
      show ¬2 ^ 11 ≤ _
      omega
    rw [if_neg hfits, if_pos he]
    by_cases hnormal : 2 ^ 52 ≤ m
    · have hlog : m.log2 + 1 = Format.binary64.mantissaBits := by
        rw [(Nat.log2_eq_iff hm.ne').mpr ⟨hnormal, hdigits⟩]
        rfl
      rw [if_pos hlog]
      exact unpack_normal hnormal hdigits hbottom he
    · have hlog : m.log2 + 1 ≠ Format.binary64.mantissaBits := by
        have hlt := (Nat.log2_lt hm.ne').mpr (Nat.lt_of_not_le hnormal)
        show m.log2 + 1 ≠ 53
        omega
      obtain rfl := h.normal.resolve_left hnormal
      rw [if_neg hlog]
      exact unpack_subnormal hm (Nat.lt_of_not_le hnormal)
  · have hover : 2 ^ Format.binary64.exponentBits ≤ (e + 1075).toNat + 1 := by
      show 2 ^ 11 ≤ _
      omega
    rw [if_pos hover, if_neg he]
    cases s <;> rfl

end Double

end Aleatory
