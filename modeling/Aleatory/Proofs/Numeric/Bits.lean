import Aleatory.Decimal.Binary
import Aleatory.Proofs.Numeric.Magnitude

/-!
# The bits of a double

The sign, mantissa and exponent that the arithmetic of doubles works with are the ones that the
printer of doubles reads off the 64 bits (`reading_of_view`). So a positive double is determined,
down to its bits, by the number that it stands for (`eq_of_real_eq`).
-/

namespace Aleatory

namespace Double

open Float.Model Float.Model.UnpackedFloat

/-- Sixty-four bits are a sign bit, the exponent bits and the fraction bits. -/
theorem toNat_fields (bits : BitVec Format.binary64.numBits) :
    bits.toNat = (unpackSign bits).toNat * 2 ^ 63 + (unpackExponent bits).toNat * 2 ^ 52 +
      (unpackMantissa bits).toNat := by
  have hbits := bits.isLt
  change bits.toNat < 2 ^ 64 at hbits
  have hsign : (unpackSign bits).toNat = bits.toNat / 2 ^ 63 % 2 ^ 1 := by
    rw [unpackSign, BitVec.toNat_cast, BitVec.extractLsb_toNat, Nat.shiftRight_eq_div_pow]
    rfl
  have hexponent : (unpackExponent bits).toNat = bits.toNat / 2 ^ 52 % 2 ^ 11 := by
    rw [unpackExponent, BitVec.toNat_cast, BitVec.extractLsb_toNat, Nat.shiftRight_eq_div_pow]
    rfl
  have hmantissa : (unpackMantissa bits).toNat = bits.toNat / 2 ^ 0 % 2 ^ 52 := by
    rw [unpackMantissa, BitVec.toNat_cast, BitVec.extractLsb_toNat, Nat.shiftRight_eq_div_pow]
    rfl
  rw [hsign, hexponent, hmantissa]
  omega

/-- Where a finite double has its sign, its exponent and its fraction. -/
theorem fields_of_view {x : Float} {s : Sign} {m : ℕ} {e : ℤ} {hm : 0 < m}
    (h : view x = .finite s m e hm) :
    ∃ exponent fraction : ℕ, exponent < 2047 ∧ fraction < 2 ^ 52 ∧
      x.toBits.toNat = s.toBitVec.toNat * 2 ^ 63 + exponent * 2 ^ 52 + fraction ∧
      (exponent = 0 ∧ m = fraction ∧ e = -1074 ∨
        0 < exponent ∧ m = 2 ^ 52 + fraction ∧ e = exponent - 1075) := by
  change UnpackedFloat.unpack .binary64 x.toModel.toBits.toBitVec = _ at h
  have hfields : x.toBits.toNat = _ := toNat_fields x.toModel.toBits.toBitVec
  rw [hfields]
  generalize (x.toModel.toBits.toBitVec : BitVec Format.binary64.numBits) = bits at h
  have hmantissa := (@unpackMantissa .binary64 bits).isLt
  have hexponent := (@unpackExponent .binary64 bits).isLt
  change (@unpackMantissa .binary64 bits).toNat < 2 ^ 52 at hmantissa
  change (@unpackExponent .binary64 bits).toNat < 2 ^ 11 at hexponent
  have hsign (b : BitVec 1) : (Sign.ofBitVec b).toBitVec = b := by
    revert b
    decide
  have hmax' (hmax : @unpackExponent .binary64 bits ≠ -1#11) :
      (@unpackExponent .binary64 bits).toNat < 2047 := by
    have hne : (@unpackExponent .binary64 bits).toNat ≠ 2047 :=
      fun h => hmax (BitVec.eq_of_toNat_eq h)
    omega
  simp only [UnpackedFloat.unpack] at h
  split at h
  · split at h <;> cases h
  · rename_i hmax
    refine ⟨(@unpackExponent .binary64 bits).toNat, (@unpackMantissa .binary64 bits).toNat,
      hmax' hmax, hmantissa, ?_⟩
    split at h
    · rename_i hzero
      split at h
      · cases h
      · cases h
        rw [hsign, hzero]
        exact ⟨rfl, .inl ⟨rfl, rfl, by decide⟩⟩
    · rename_i hzero
      cases h
      have hlarge : (1#1 ++ @unpackMantissa .binary64 bits).toNat =
          2 ^ 52 + (@unpackMantissa .binary64 bits).toNat := by
        rw [BitVec.toNat_append, ← Nat.shiftLeft_add_eq_or_of_lt (BitVec.isLt _)]
        rfl
      have hzero' : (@unpackExponent .binary64 bits).toNat ≠ 0 :=
        fun h => hzero (BitVec.eq_of_toNat_eq h)
      rw [hsign]
      exact ⟨rfl, .inr ⟨by omega, hlarge, by rfl⟩⟩

/-- The printer reads the sign, the mantissa and the exponent that the arithmetic works with. -/
theorem reading_of_view {x : Float} {s : Sign} {m : ℕ} {e : ℤ} {hm : 0 < m}
    (h : view x = .finite s m e hm) :
    Reading.ofFloat x = .finite (s.toBitVec == 1#1) ⟨m, e⟩ := by
  obtain ⟨exponent, fraction, hexponent, hfraction, hbits, hcases⟩ := fields_of_view h
  have hsign : s.toBitVec.toNat < 2 := s.toBitVec.isLt
  have hexponent' : ((x.toBits >>> 52) &&& 0x7ff).toNat = exponent := by
    rw [UInt64.toNat_and, UInt64.toNat_shiftRight, hbits, Nat.shiftRight_eq_div_pow]
    show _ / 2 ^ 52 &&& 2 ^ 11 - 1 = _
    rw [Nat.and_two_pow_sub_one_eq_mod]
    omega
  have hfraction' : (x.toBits &&& 0x000fffffffffffff).toNat = fraction := by
    rw [UInt64.toNat_and, hbits]
    show _ &&& 2 ^ 52 - 1 = _
    rw [Nat.and_two_pow_sub_one_eq_mod]
    omega
  have hnegative : x.toBits.toNat.testBit 63 = (s.toBitVec == 1#1) := by
    have hbit : x.toBits.toNat / 2 ^ 63 = s.toBitVec.toNat := by omega
    rw [Nat.testBit_eq_decide_div_mod_eq, hbit]
    cases s <;> rfl
  simp only [Reading.ofFloat, Reading.ofBits, hexponent', hfraction', hnegative,
    if_neg hexponent.ne]
  rcases hcases with ⟨hzero, rfl, rfl⟩ | ⟨hpos, rfl, rfl⟩
  · rw [if_pos hzero]
  · rw [if_neg hpos.ne']
    rfl

theorem eq_of_view_eq {x y : Float} {s : Sign} {m : ℕ} {e : ℤ} {hm : 0 < m}
    (hx : view x = .finite s m e hm) (hy : view y = .finite s m e hm) : x = y := by
  obtain ⟨exponent, fraction, -, hfraction, hbits, hcases⟩ := fields_of_view hx
  obtain ⟨exponent', fraction', -, hfraction', hbits', hcases'⟩ := fields_of_view hy
  have htoBits : x.toBits = y.toBits := by
    apply UInt64.toNat_inj.mp
    rw [hbits, hbits']
    omega
  obtain ⟨⟨xbits, _⟩⟩ := x
  obtain ⟨⟨ybits, _⟩⟩ := y
  cases (htoBits : xbits = ybits)
  rfl

theorem real_pos_of_view {x : Float} {m : ℕ} {e : ℤ} {hm : 0 < m}
    (h : view x = .finite .positive m e hm) : 0 < real x := by
  have hm_pos : (0 : ℝ) < m := by exact_mod_cast hm
  have hreal : real x = m * 2 ^ e := real_of_view h
  rw [hreal]
  positivity

theorem view_of_pos {x : Float} (hpos : 0 < real x) :
    ∃ m e hm, view x = .finite .positive m e hm := by
  rw [real] at hpos
  rcases hx : view x with _ | _ | _ | ⟨_ | _, m, e, hm⟩ <;> rw [hx] at hpos
  · exact absurd hpos (lt_irrefl _)
  · exact absurd hpos (lt_irrefl _)
  · exact absurd hpos (lt_irrefl _)
  · have hmagnitude : (0 : ℝ) ≤ m * 2 ^ e := by positivity
    simp only [value_finite, Sign.apply, Int.cast_neg, Int.cast_natCast, neg_mul] at hpos
    linarith
  · exact ⟨m, e, hm, rfl⟩

/-- Positive doubles that stand for the same number are the same. -/
theorem eq_of_real_eq {x y : Float} (hpos : 0 < real x) (h : real x = real y) : x = y := by
  obtain ⟨m, e, hm, hx⟩ := view_of_pos hpos
  obtain ⟨m', e', hm', hy⟩ := view_of_pos (h ▸ hpos)
  have hcompare := compare_shape (shape_of_view hx).1 (shape_of_view hy).1
  have hequal : (m : ℝ) * 2 ^ e = m' * 2 ^ e' := by
    rw [real_of_view hx, real_of_view hy] at h
    exact h
  rw [hequal, cmp_self_eq_eq, Ordering.then_eq_eq, Int.compare_eq_eq, Nat.compare_eq_eq] at hcompare
  obtain ⟨rfl, rfl⟩ := hcompare
  exact eq_of_view_eq hx hy

end Double

end Aleatory
