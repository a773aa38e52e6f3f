import Aleatory.Json.Numeral
import Mathlib.Tactic.Positivity
import Mathlib.Tactic.SplitIfs

/-!
# What numerals stand for

The digits of a count are gathered to the count. A decimal below one is written with as many zeros
or with such a power of ten that its digits are divided by the power of ten of the decimal, whether
it is written in place or not (`double?_ofDecimal`).
-/

namespace Aleatory

namespace Decimal

theorem digits_ne_nil (n : ℕ) : digits n ≠ [] := Nat.toDigits_ne_nil

theorem isDigit_of_mem_digits {n : ℕ} {c : Char} (hc : c ∈ digits n) : c.isDigit = true :=
  Nat.isDigit_of_mem_toDigits (by norm_num) (by norm_num) hc

/-- Only the digits of zero start with a zero. -/
theorem head?_digits_ne_zero {n : ℕ} (hn : n ≠ 0) : (digits n).head? ≠ some '0' := by
  induction n using Nat.strong_induction_on with
  | _ n ih =>
      rw [digits]
      rcases Nat.lt_or_ge n 10 with hlt | hge
      · rw [Nat.toDigits_of_lt_base hlt, List.head?_cons, Ne, Option.some_inj,
          Nat.digitChar_eq_zero]
        exact hn
      · rw [Nat.toDigits_of_base_le (by norm_num) hge,
          List.head?_append_of_ne_nil _ Nat.toDigits_ne_nil]
        exact ih (n / 10) (by omega) (by omega)

theorem digits_ne_zero_cons (n : ℕ) (c : Char) (cs : List Char) : digits n ≠ '0' :: c :: cs := by
  intro h
  rcases eq_or_ne n 0 with rfl | hn
  · rw [digits, Nat.toDigits_zero] at h
    cases h
  · exact head?_digits_ne_zero hn (by rw [h]; rfl)

end Decimal

open Decimal

namespace Numeral

/-- A numeral of digits, at least one of them before the point, and no zero in front of others. -/
structure WellFormed (n : Numeral) : Prop where
  whole_digits : ∀ c ∈ n.whole, c.isDigit = true
  whole_ne_nil : n.whole ≠ []
  no_zero_in_front : ∀ c cs, n.whole ≠ '0' :: c :: cs
  decimals_digits : ∀ c ∈ n.decimals, c.isDigit = true

theorem WellFormed.exists_digit {n : Numeral} (h : n.WellFormed) :
    ∃ d ds, n.whole = d :: ds ∧ d.isDigit = true := by
  obtain ⟨d, ds, hds⟩ := List.exists_cons_of_ne_nil h.whole_ne_nil
  exact ⟨d, ds, hds, h.whole_digits d (by rw [hds]; exact List.mem_cons_self)⟩

theorem wellFormed_ofNat (n : ℕ) : (ofNat n).WellFormed where
  whole_digits _ := isDigit_of_mem_digits
  whole_ne_nil := digits_ne_nil n
  no_zero_in_front := digits_ne_zero_cons n
  decimals_digits := nofun

theorem wellFormed_ofDecimal (negative : Bool) {d : Decimal} (hd : d.coefficient ≠ 0) :
    (ofDecimal negative d).WellFormed := by
  obtain ⟨first, rest, hdigits⟩ := List.exists_cons_of_ne_nil (digits_ne_nil d.coefficient)
  have hfirst : first ≠ '0' := by
    rintro rfl
    exact head?_digits_ne_zero hd (by rw [hdigits]; rfl)
  have hall : ∀ c ∈ first :: rest, c.isDigit = true :=
    fun c hc => isDigit_of_mem_digits (hdigits ▸ hc)
  have hzeros (n : ℕ) : ∀ c ∈ List.replicate n '0', c.isDigit = true := by
    intro c hc
    rw [(List.mem_replicate.mp hc).2]
    rfl
  simp only [ofDecimal, hdigits]
  split_ifs with hplaced hwhole hzero
  · refine ⟨fun c hc => ?_, by simp, fun c cs h => hfirst (List.cons.inj h).1, by simp⟩
    exact (List.mem_append.mp hc).elim (hall c) (hzeros _ c)
  · obtain ⟨k, hk⟩ : ∃ k, ((first :: rest).length + d.exponent).toNat = k + 1 :=
      ⟨_, (Nat.succ_pred_eq_of_pos (by omega)).symm⟩
    rw [hk]
    exact ⟨fun c hc => hall c (List.mem_of_mem_take hc), by simp,
      fun c cs h => hfirst (List.cons.inj h).1, fun c hc => hall c (List.mem_of_mem_drop hc)⟩
  · refine ⟨by simp, by simp, fun c cs h => by simp at h, fun c hc => ?_⟩
    exact (List.mem_append.mp hc).elim (hzeros _ c) (hall c)
  · exact ⟨fun c hc => hall c (List.mem_of_mem_take hc), by simp, fun c cs h => by simp at h,
      fun c hc => hall c (List.mem_of_mem_drop hc)⟩

/-! ## Values -/

/-- Digits behind a significand make it no smaller. -/
theorem le_ofDigitChars (cs : List Char) (significand : ℕ) :
    significand ≤ Nat.ofDigitChars 10 cs significand := by
  have hten : significand ≤ 10 ^ cs.length * significand :=
    Nat.le_mul_of_pos_left _ (by positivity)
  rw [Nat.ofDigitChars_eq_ofDigitChars_zero]
  omega

/-- No digit is left over as long as the number fits. -/
theorem gather_eq {cs : List Char} {significand : ℕ}
    (h : Nat.ofDigitChars 10 cs significand < UInt64.size) :
    gather significand cs = (Nat.ofDigitChars 10 cs significand, 0) := by
  induction cs generalizing significand with
  | nil => rfl
  | cons c cs ih =>
      rw [Nat.ofDigitChars_cons] at h ⊢
      have hlonger : 10 * significand + digitValue c < UInt64.size :=
        lt_of_le_of_lt (le_ofDigitChars cs _) h
      rw [gather, if_pos hlonger]
      exact ih h

theorem gather_digits {n : ℕ} (hn : n < UInt64.size) : gather 0 (digits n) = (n, 0) := by
  have hvalue : Nat.ofDigitChars 10 (digits n) 0 = n := Nat.ofDigitChars_ten_toDigits
  rw [gather_eq (by rwa [hvalue]), hvalue]

/-- Digits may be gathered in two goes. -/
theorem gather_append {cs ds : List Char} {n : ℕ} (hn : n < UInt64.size)
    (h : Nat.ofDigitChars 10 (cs ++ ds) 0 = n) :
    ∃ m, gather 0 cs = (m, 0) ∧ gather m ds = (n, 0) := by
  rw [Nat.ofDigitChars_append] at h
  have hfirst : Nat.ofDigitChars 10 cs 0 < UInt64.size :=
    lt_of_le_of_lt (le_ofDigitChars ds _) (h ▸ hn)
  exact ⟨_, gather_eq hfirst, h ▸ gather_eq (h ▸ hn)⟩

theorem count?_ofNat {n : ℕ} (hn : n < UInt64.size) : (ofNat n).count? = some n.toUInt64 := by
  simp only [ofNat, count?, gather_digits hn]

/-- A numeral whose digits fit is its digits, scaled. -/
theorem double?_eq {whole decimals : List Char} {power : Option ℤ} {n : ℕ} {e : ℤ}
    (hn : n < UInt64.size) (hvalue : Nat.ofDigitChars 10 (whole ++ decimals) 0 = n)
    (he : e = power.getD 0 - decimals.length) :
    double? { whole, decimals, power } = scale? n.toUInt64.toFloat e := by
  obtain ⟨m, hwhole, hdecimals⟩ := gather_append hn hvalue
  have hexponent : ((0 : ℕ) : ℤ) - ((decimals.length - 0 : ℕ) : ℤ) + power.getD 0 = e := by
    omega
  simp only [double?, hwhole, hdecimals, hexponent]
  exact Option.bind_fun_some _

/-- A decimal below one is read by one division of its digits. -/
theorem double?_ofDecimal {d : Decimal} (hfits : d.coefficient < UInt64.size)
    (hbelow : (digits d.coefficient).length + d.exponent ≤ 0) :
    (ofDecimal false d).double? =
      some (scaleDown d.coefficient.toUInt64.toFloat (-d.exponent).toNat) := by
  have hlength : 0 < (digits d.coefficient).length := Nat.length_toDigits_pos
  have hvalue : Nat.ofDigitChars 10 (digits d.coefficient) 0 = d.coefficient :=
    Nat.ofDigitChars_ten_toDigits
  have hscale : scale? d.coefficient.toUInt64.toFloat d.exponent =
      some (scaleDown d.coefficient.toUInt64.toFloat (-d.exponent).toNat) := by
    rw [scale?, if_pos (by omega)]
  have hplaced : ¬(0 < (digits d.coefficient).length + d.exponent ∧
      (digits d.coefficient).length + d.exponent ≤ 16) := by omega
  rw [ofDecimal, if_neg hplaced, ← hscale]
  split_ifs with hzeros
  · refine double?_eq hfits ?_ ?_
    · rw [Nat.ofDigitChars_append, Nat.ofDigitChars_append, Nat.ofDigitChars_replicate_zero]
      exact hvalue
    · rw [List.length_append, List.length_replicate, Option.getD_none]
      omega
  · refine double?_eq hfits ?_ ?_
    · rw [List.take_append_drop, hvalue]
    · rw [List.length_drop, Option.getD_some]
      omega

end Numeral

end Aleatory
