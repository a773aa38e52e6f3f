import Aleatory.Decimal.Shortest
import Aleatory.Proofs.Numeric.Neighbourhood

/-!
# The shortest decimal of a double

Whether a decimal reads back as a double is asked in whole numbers. The answer is whether it lies
near the double (`Binary.readsBack_iff`), so the shortest decimal of a double rounds to the double
(`Decimal.shortest_spec`), and no decimal on a coarser grid does.
-/

namespace Aleatory

open Double

namespace Decimal

/-- The number that a decimal stands for. -/
noncomputable def real (d : Decimal) : ℝ := d.coefficient * 10 ^ d.exponent

theorem digits_bounds {n : ℕ} (hn : 0 < n) :
    10 ^ ((Nat.toDigits 10 n).length - 1) ≤ n ∧ n < 10 ^ (Nat.toDigits 10 n).length := by
  have hlength := Nat.length_toDigits_pos (b := 10) (n := n)
  refine ⟨?_, (Nat.length_toDigits_le_iff (by norm_num) hlength).mp le_rfl⟩
  by_contra hlt
  rcases Nat.eq_zero_or_pos ((Nat.toDigits 10 n).length - 1) with hone | hmore
  · rw [hone] at hlt
    omega
  · have := (Nat.length_toDigits_le_iff (by norm_num) hmore).mpr (not_le.mp hlt)
    omega

/-- All digits of a decimal below one stand behind the point. -/
theorem length_add_exponent_le {d : Decimal} (hpos : 0 < d.coefficient) (hone : d.real < 1) :
    (digits d.coefficient).length + d.exponent ≤ 0 := by
  have hten : (1 : ℝ) < 10 := by norm_num
  have hnonempty : 0 < (digits d.coefficient).length := Nat.length_toDigits_pos
  have hleading : (10 : ℝ) ^ (((digits d.coefficient).length - 1 : ℕ) : ℤ) ≤ d.coefficient := by
    exact_mod_cast (digits_bounds hpos).1
  have hlt : (10 : ℝ) ^ ((((digits d.coefficient).length - 1 : ℕ) : ℤ) + d.exponent) <
      10 ^ (0 : ℤ) := by
    rw [zpow_add₀ (by norm_num), zpow_zero]
    exact (mul_le_mul_of_nonneg_right hleading (by positivity)).trans_lt hone
  have := (zpow_lt_zpow_iff_right₀ hten).mp hlt
  omega

end Decimal

namespace Binary

/-- The number that a significand and an exponent stand for. -/
noncomputable def real (b : Binary) : ℝ := b.significand * 2 ^ b.exponent

theorem real_mul_den (b : Binary) : b.real * b.den = b.num := by
  rw [real, zpow_eq_pow_div_pow, num, den]
  push_cast
  simp only [Nat.pow_eq]
  push_cast
  field_simp

section Grid

variable (b : Binary) (p : ℤ)

theorem quotientBy_pos : 0 < (b.quotientBy p).2 :=
  Nat.mul_pos b.den_pos (Nat.pow_pos (by norm_num))

theorem quotientBy_eq : ((b.quotientBy p).1 : ℝ) * 10 ^ p = b.real * (b.quotientBy p).2 := by
  simp only [quotientBy, Nat.pow_eq]
  push_cast
  rw [← real_mul_den, zpow_eq_pow_div_pow 10 p]
  field_simp

/-- The points of a grid that are next to a number. -/
theorem floor_quotientBy :
    (((b.quotientBy p).1 / (b.quotientBy p).2 : ℕ) : ℝ) * 10 ^ p ≤ b.real ∧
      b.real < (((b.quotientBy p).1 / (b.quotientBy p).2 : ℕ) + 1) * 10 ^ p := by
  have hden : (0 : ℝ) < (b.quotientBy p).2 := by exact_mod_cast b.quotientBy_pos p
  have hplace : (0 : ℝ) < 10 ^ p := by positivity
  have heq := b.quotientBy_eq p
  have hlow : (((b.quotientBy p).1 / (b.quotientBy p).2 : ℕ) : ℝ) * (b.quotientBy p).2 ≤
      (b.quotientBy p).1 := by exact_mod_cast Nat.div_mul_le_self _ _
  have hhigh : ((b.quotientBy p).1 : ℝ) <
      (((b.quotientBy p).1 / (b.quotientBy p).2 : ℕ) + 1) * (b.quotientBy p).2 := by
    exact_mod_cast Nat.lt_mul_of_div_lt (Nat.lt_succ_self _) (b.quotientBy_pos p)
  constructor
  · refine le_of_mul_le_mul_right ?_ hden
    calc _ = ((b.quotientBy p).1 / (b.quotientBy p).2 : ℕ) * ((b.quotientBy p).2 : ℝ) * 10 ^ p := by
            ring
      _ ≤ (b.quotientBy p).1 * 10 ^ p := mul_le_mul_of_nonneg_right hlow hplace.le
      _ = _ := heq
  · refine lt_of_mul_lt_mul_right ?_ hden.le
    calc _ = ((b.quotientBy p).1 : ℝ) * 10 ^ p := heq.symm
      _ < _ := mul_lt_mul_of_pos_right hhigh hplace
      _ = _ := by ring

theorem abs_roundAt_sub_le : |(b.roundAt p).real - b.real| ≤ 1 / 2 * 10 ^ p := by
  have hden : (0 : ℝ) < (b.quotientBy p).2 := by exact_mod_cast b.quotientBy_pos p
  have hplace : (0 : ℝ) < 10 ^ p := by positivity
  have heq := b.quotientBy_eq p
  obtain ⟨hlow, hhigh⟩ := roundHalfEven_within (b.quotientBy p).1 (b.quotientBy_pos p)
  have hround : (b.roundAt p).real =
      roundHalfEven (b.quotientBy p).1 (b.quotientBy p).2 * 10 ^ p := rfl
  rw [hround]
  generalize (b.quotientBy p).1 = num at *
  generalize (b.quotientBy p).2 = den at *
  generalize roundHalfEven num den = r at *
  have hlow' : 2 * (num : ℝ) ≤ (2 * r + 1) * den := by exact_mod_cast hlow
  have hhigh' : 2 * (r * den : ℝ) ≤ 2 * num + den := by exact_mod_cast hhigh
  have hbelow := mul_le_mul_of_nonneg_right hlow' hplace.le
  have habove := mul_le_mul_of_nonneg_right hhigh' hplace.le
  rw [abs_le]
  constructor <;> refine le_of_mul_le_mul_right ?_ hden <;> linarith

end Grid

/-- Whether a decimal reads back is asked without fractions. -/
theorem readsBack_iff {b : Binary} (hpos : 0 < b.significand) (p : ℤ) (c : ℕ) :
    b.readsBack p c = true ↔ Nearby b.significand b.exponent (c * 10 ^ p) := by
  obtain ⟨m, e⟩ := b
  replace hpos : 0 < m := hpos
  have hscale : (0 : ℝ) < 2 ^ (-e).toNat * 10 ^ (-p).toNat := by positivity
  have hpoint : ((4 * c * (2 ^ (-e).toNat * 10 ^ p.toNat) : ℕ) : ℝ) =
      4 * (c * 10 ^ p) * (2 ^ (-e).toNat * 10 ^ (-p).toNat) := by
    rw [zpow_eq_pow_div_pow 10 p]
    push_cast
    field_simp
  have hunit (k : ℝ) : k * (2 ^ e.toNat * 10 ^ (-p).toNat) =
      k * 2 ^ e * (2 ^ (-e).toNat * 10 ^ (-p).toNat) := by
    rw [zpow_eq_pow_div_pow 2 e]
    field_simp
  have hnarrow : (narrowBelow ⟨m, e⟩ = true) ↔ m = 2 ^ 52 ∧ -1074 < e := by
    simp [narrowBelow, leadingBit]
  have hlow : (((4 * m - if narrowBelow ⟨m, e⟩ then 1 else 2) *
      (2 ^ e.toNat * 10 ^ (-p).toNat) : ℕ) : ℝ) =
      (4 * m - quartersBelow m e) * 2 ^ e * (2 ^ (-e).toNat * 10 ^ (-p).toNat) := by
    have hquarters : ((4 * m - if narrowBelow ⟨m, e⟩ then 1 else 2 : ℕ) : ℝ) =
        4 * m - quartersBelow m e := by
      rw [Nat.cast_sub (by split_ifs <;> omega), quartersBelow]
      simp only [hnarrow]
      split_ifs <;> push_cast <;> rfl
    rw [Nat.cast_mul, hquarters, ← hunit]
    push_cast
    rfl
  have hhigh : (((4 * m + 2) * (2 ^ e.toNat * 10 ^ (-p).toNat) : ℕ) : ℝ) =
      (4 * m + 2) * 2 ^ e * (2 ^ (-e).toNat * 10 ^ (-p).toNat) := by
    rw [← hunit]
    push_cast
    rfl
  have hle {i j : ℕ} {x y : ℝ} (hi : (i : ℝ) = x * (2 ^ (-e).toNat * 10 ^ (-p).toNat))
      (hj : (j : ℝ) = y * (2 ^ (-e).toNat * 10 ^ (-p).toNat)) : i ≤ j ↔ x ≤ y := by
    rw [← Nat.cast_le (α := ℝ), hi, hj, mul_le_mul_iff_left₀ hscale]
  have hlt {i j : ℕ} {x y : ℝ} (hi : (i : ℝ) = x * (2 ^ (-e).toNat * 10 ^ (-p).toNat))
      (hj : (j : ℝ) = y * (2 ^ (-e).toNat * 10 ^ (-p).toNat)) : i < j ↔ x < y := by
    rw [← Nat.cast_lt (α := ℝ), hi, hj, mul_lt_mul_iff_left₀ hscale]
  rw [readsBack, Nearby]
  by_cases heven : m % 2 = 0
  · rw [if_pos heven, if_pos (Nat.even_iff.mpr heven), Bool.and_eq_true, decide_eq_true_iff,
      decide_eq_true_iff]
    exact and_congr (hle hlow hpoint) (hle hpoint hhigh)
  · rw [if_neg heven, if_neg fun h => heven (Nat.even_iff.mp h), Bool.and_eq_true,
      decide_eq_true_iff, decide_eq_true_iff]
    exact and_congr (hlt hlow hpoint) (hlt hpoint hhigh)

section Search

/-- A decimal that reads back as a double and lies in reach of it on its grid. -/
structure ReadsAs (b : Binary) (d : Decimal) : Prop where
  near : Nearby b.significand b.exponent d.real
  reach : d.real ≤ b.real + 10 ^ d.exponent

/-- Where a double is below `n` units of a place, its decimal at this place has at most `n`. -/
theorem ReadsAs.coefficient_le {b : Binary} {d : Decimal} (h : b.ReadsAs d) {n : ℕ}
    (hn : b.real < n * 10 ^ d.exponent) : d.coefficient ≤ n := by
  have hscale : (0 : ℝ) < 10 ^ d.exponent := by positivity
  have hreach := h.reach
  rw [Decimal.real] at hreach
  have hlt : (d.coefficient : ℝ) * 10 ^ d.exponent < ((n + 1 : ℕ) : ℝ) * 10 ^ d.exponent := by
    push_cast
    linarith
  exact Nat.lt_succ_iff.mp (by exact_mod_cast lt_of_mul_lt_mul_right hlt hscale.le)

variable {b : Binary} (hpos : 0 < b.significand)

include hpos

theorem onGrid?_eq_some {tie : Tie} {p : ℤ} {c : ℕ} (h : b.onGrid? tie p = some c) :
    b.ReadsAs ⟨c, p⟩ := by
  obtain ⟨hlow, -⟩ := b.floor_quotientBy p
  have hplace : (0 : ℝ) < 10 ^ p := by positivity
  simp only [onGrid?] at h
  set below := (b.quotientBy p).1 / (b.quotientBy p).2 with hbelow
  have hread : b.readsBack p c = true ∧ c ≤ below + 1 := by
    split at h
    · rename_i hlower hupper
      obtain rfl := Option.some.inj h
      split_ifs
      · exact ⟨hupper, le_rfl⟩
      · exact ⟨hlower, Nat.le_succ _⟩
    · rename_i hlower _
      obtain rfl := Option.some.inj h
      exact ⟨hlower, Nat.le_succ _⟩
    · rename_i _ hupper
      obtain rfl := Option.some.inj h
      exact ⟨hupper, le_rfl⟩
    · cases h
  have hcast : (c : ℝ) ≤ below + 1 := by exact_mod_cast hread.2
  refine ⟨(readsBack_iff hpos p c).mp hread.1, ?_⟩
  show (c : ℝ) * 10 ^ p ≤ _
  calc (c : ℝ) * 10 ^ p
      ≤ (below + 1) * 10 ^ p := mul_le_mul_of_nonneg_right hcast hplace.le
    _ = below * 10 ^ p + 10 ^ p := by ring
    _ ≤ b.real + 10 ^ p := by linarith

omit hpos in
theorem real_nearby : Nearby b.significand b.exponent b.real := by
  obtain ⟨hquarters, -⟩ := quartersBelow_bounds (m := b.significand) (e := b.exponent)
  rw [real, nearby_mul_iff]
  split_ifs <;> constructor <;> linarith

/-- If one of the two neighbours on a grid does not read back, nothing on the grid does. -/
theorem onGrid?_eq_none {tie : Tie} {p : ℤ} (h : b.onGrid? tie p = none) (c : ℕ) :
    ¬Nearby b.significand b.exponent (c * 10 ^ p) := by
  obtain ⟨hlow, hhigh⟩ := b.floor_quotientBy p
  have hplace : (0 : ℝ) < 10 ^ p := by positivity
  simp only [onGrid?] at h
  set below := (b.quotientBy p).1 / (b.quotientBy p).2 with hbelow
  have hneither : b.readsBack p below ≠ true ∧ b.readsBack p (below + 1) ≠ true := by
    split at h
    · cases h
    · cases h
    · cases h
    · rename_i hlower hupper
      rw [hlower, hupper]
      exact ⟨Bool.false_ne_true, Bool.false_ne_true⟩
  intro hnear
  rcases Nat.lt_or_ge below c with hlt | hle
  · have hcast : (below : ℝ) + 1 ≤ c := by exact_mod_cast hlt
    refine hneither.2 ((readsBack_iff hpos p _).mpr ?_)
    push_cast
    exact (real_nearby).of_mem hnear hhigh.le (mul_le_mul_of_nonneg_right hcast hplace.le)
  · have hcast : (c : ℝ) ≤ below := by exact_mod_cast hle
    refine hneither.1 ((readsBack_iff hpos p _).mpr ?_)
    exact hnear.of_mem (real_nearby) (mul_le_mul_of_nonneg_right hcast hplace.le) hlow

/-- A search reads back, on the coarsest of its grids on which a decimal does. -/
theorem coarsest_spec (tie : Tie) (grids : ℕ) {place : ℤ}
    (hlast : b.ReadsAs (b.roundAt (place - grids))) :
    let d := b.coarsest tie grids place
    b.ReadsAs d ∧ place - grids ≤ d.exponent ∧
      ∀ (c : ℕ) (p : ℤ), place - grids ≤ p → p ≤ place →
        Nearby b.significand b.exponent (c * 10 ^ p) → p ≤ d.exponent := by
  induction grids generalizing place with
  | zero =>
      have hplace : place - (0 : ℕ) = place := by simp
      rw [hplace] at hlast ⊢
      exact ⟨hlast, le_rfl, fun c p _ hp _ => hp⟩
  | succ grids ih =>
      have hnext : place - 1 - (grids : ℕ) = place - (grids + 1 : ℕ) := by
        push_cast
        ring
      simp only [coarsest]
      cases hgrid : b.onGrid? tie place with
      | some c =>
          exact ⟨onGrid?_eq_some hpos hgrid, by push_cast; omega, fun c p _ hp _ => hp⟩
      | none =>
          have hlast' : b.ReadsAs (b.roundAt (place - 1 - grids)) := by rwa [hnext]
          obtain ⟨hreads, hbottom, hcoarsest⟩ := ih hlast'
          rw [hnext] at hbottom hcoarsest
          refine ⟨hreads, hbottom, fun c p hlow hhigh hnear => ?_⟩
          have hne : p ≠ place := by
            rintro rfl
            exact onGrid?_eq_none hpos hgrid c hnear
          exact hcoarsest c p hlow (by omega) hnear

end Search

/-- A positive number lies in the decade of its leading place. -/
theorem leadingPlace_spec {b : Binary} (hpos : 0 < b.significand) :
    10 ^ b.leadingPlace ≤ b.real ∧ b.real < 10 ^ (b.leadingPlace + 1) := by
  have hnum : 0 < b.num := Nat.mul_pos hpos (Nat.pow_pos (by norm_num))
  obtain ⟨hnum_low, hnum_high⟩ := Decimal.digits_bounds hnum
  obtain ⟨hden_low, hden_high⟩ := Decimal.digits_bounds b.den_pos
  have hnum_length := Nat.length_toDigits_pos (b := 10) (n := b.num)
  have hden_length := Nat.length_toDigits_pos (b := 10) (n := b.den)
  have hden : (0 : ℝ) < b.den := by exact_mod_cast b.den_pos
  have hreal := b.real_mul_den
  obtain ⟨guess, hguess⟩ : ∃ guess : ℤ, guess =
    (Nat.toDigits 10 b.num).length - (Nat.toDigits 10 b.den).length := ⟨_, rfl⟩
  have hlow : 10 ^ (guess - 1) ≤ b.real := by
    refine le_of_mul_le_mul_right ?_ hden
    calc (10 : ℝ) ^ (guess - 1) * b.den
        ≤ 10 ^ (guess - 1) * 10 ^ ((Nat.toDigits 10 b.den).length : ℤ) := by
          gcongr
          exact_mod_cast hden_high.le
      _ = 10 ^ (((Nat.toDigits 10 b.num).length - 1 : ℕ) : ℤ) := by
          rw [← zpow_add₀ (by norm_num)]
          congr 1
          omega
      _ ≤ b.num := by exact_mod_cast hnum_low
      _ = b.real * b.den := hreal.symm
  have hhigh : b.real < 10 ^ (guess + 1) := by
    refine lt_of_mul_lt_mul_right ?_ hden.le
    calc b.real * b.den
        = b.num := hreal
      _ < 10 ^ ((Nat.toDigits 10 b.num).length : ℤ) := by exact_mod_cast hnum_high
      _ = 10 ^ (guess + 1) * 10 ^ (((Nat.toDigits 10 b.den).length - 1 : ℕ) : ℤ) := by
          rw [← zpow_add₀ (by norm_num)]
          congr 1
          omega
      _ ≤ 10 ^ (guess + 1) * b.den := by
          gcongr
          exact_mod_cast hden_low
  have hquotient : (b.quotientBy guess).2 ≤ (b.quotientBy guess).1 ↔ 10 ^ guess ≤ b.real := by
    have hdivisor : (0 : ℝ) < (b.quotientBy guess).2 := by exact_mod_cast b.quotientBy_pos guess
    have hscale : (0 : ℝ) < 10 ^ guess := by positivity
    rw [← Nat.cast_le (α := ℝ), ← mul_le_mul_iff_left₀ hscale, b.quotientBy_eq guess,
      mul_comm _ ((10 : ℝ) ^ guess), mul_le_mul_iff_left₀ hdivisor]
  have hplace : b.leadingPlace = if (b.quotientBy guess).2 ≤ (b.quotientBy guess).1 then guess
      else guess - 1 := by
    rw [hguess]
    rfl
  rw [hplace]
  split_ifs with hle
  · exact ⟨hquotient.mp hle, hhigh⟩
  · rw [sub_add_cancel]
    exact ⟨hlow, not_le.mp (mt hquotient.mpr hle)⟩

theorem nearby_of_abs_lt {b : Binary} {y : ℝ} (h : |y - b.real| < 1 / 4 * 2 ^ b.exponent) :
    Nearby b.significand b.exponent y := by
  obtain ⟨hquarters, -⟩ := quartersBelow_bounds (m := b.significand) (e := b.exponent)
  have hscale : (0 : ℝ) < 2 ^ b.exponent := by positivity
  obtain ⟨hlow, hhigh⟩ := abs_lt.mp h
  rw [real] at hlow hhigh
  have hbelow : (4 * b.significand - quartersBelow b.significand b.exponent) * 2 ^ b.exponent <
      4 * y := by nlinarith
  have habove : 4 * y < (4 * b.significand + 2) * 2 ^ b.exponent := by nlinarith
  rw [Nearby]
  split_ifs
  · exact ⟨hbelow.le, habove.le⟩
  · exact ⟨hbelow, habove⟩

/-- Eighteen digits read back as the double that they are taken from. -/
theorem readsAs_roundAt {b : Binary} (hshape : Shape b.significand b.exponent)
    (hpos : 0 < b.significand) : b.ReadsAs (b.roundAt (b.leadingPlace - 17)) := by
  have hclose := b.abs_roundAt_sub_le (b.leadingPlace - 17)
  obtain ⟨hlead, -⟩ := leadingPlace_spec hpos
  have hscale : (0 : ℝ) < 2 ^ b.exponent := by positivity
  have hdigits : (b.significand : ℝ) < 2 ^ 53 := by exact_mod_cast hshape.digits
  have hplace : (10 : ℝ) ^ (b.leadingPlace - 17) ≤ 2 ^ 53 / 10 ^ 17 * 2 ^ b.exponent := by
    have hfactor : (10 : ℝ) ^ (b.leadingPlace - 17) = 10 ^ b.leadingPlace / 10 ^ 17 := by
      rw [zpow_sub₀ (by norm_num)]
      norm_cast
    have hvalue : b.real ≤ 2 ^ 53 * 2 ^ b.exponent :=
      mul_le_mul_of_nonneg_right hdigits.le hscale.le
    rw [hfactor, div_mul_eq_mul_div]
    exact div_le_div_of_nonneg_right (hlead.trans hvalue) (by positivity)
  have hreach : (0 : ℝ) < 10 ^ (b.leadingPlace - 17) := by positivity
  refine ⟨nearby_of_abs_lt (lt_of_le_of_lt hclose ?_), ?_⟩
  · norm_num at hplace ⊢
    linarith
  · show (b.roundAt _).real ≤ b.real + 10 ^ (b.leadingPlace - 17)
    linarith [(abs_le.mp hclose).2]

end Binary

namespace Decimal

open Binary

theorem trim_spec (fuel : ℕ) (d : Decimal) :
    (trim fuel d).real = d.real ∧ d.exponent ≤ (trim fuel d).exponent := by
  fun_induction trim fuel d with
  | case1 d => exact ⟨rfl, le_rfl⟩
  | case2 fuel d hzero ih =>
      obtain ⟨hreal, hexponent⟩ := ih
      refine ⟨hreal.trans ?_, (Int.le_add_one le_rfl).trans hexponent⟩
      have hten : 10 * (d.coefficient / 10) = d.coefficient :=
        Nat.mul_div_cancel' (Nat.dvd_of_mod_eq_zero hzero.2)
      have hcast : (10 : ℝ) * (d.coefficient / 10 : ℕ) = d.coefficient := by exact_mod_cast hten
      rw [real, real, ← hcast, zpow_add_one₀ (by norm_num)]
      ring
  | case3 fuel d hend => exact ⟨rfl, le_rfl⟩

/-- The shortest decimal of a double reads back. It stands at one of the seventeen places behind
the first digit of the double, or before them, and at no place before it does a decimal read
back. -/
theorem shortest_spec (tie : Tie) {b : Binary} (hshape : Shape b.significand b.exponent)
    (hpos : 0 < b.significand) :
    b.ReadsAs (shortest tie b) ∧ b.leadingPlace - 17 ≤ (shortest tie b).exponent ∧
      ∀ (c : ℕ) (p : ℤ), b.leadingPlace - 17 ≤ p →
        Nearby b.significand b.exponent (c * 10 ^ p) →
          min p b.leadingPlace ≤ (shortest tie b).exponent := by
  have hlast : b.ReadsAs (b.roundAt (b.leadingPlace - (17 : ℕ))) := readsAs_roundAt hshape hpos
  obtain ⟨⟨hnear, hreach⟩, hbottom, hcoarsest⟩ := coarsest_spec hpos tie 17 hlast
  obtain ⟨hreal, hexponent⟩ := trim_spec 17 (b.coarsest tie 17 b.leadingPlace)
  rw [shortest]
  refine ⟨⟨hreal ▸ hnear, ?_⟩, by push_cast at hbottom; omega, fun c p hp hnear => ?_⟩
  · have hmono : (10 : ℝ) ^ (b.coarsest tie 17 b.leadingPlace).exponent ≤
        10 ^ (trim 17 (b.coarsest tie 17 b.leadingPlace)).exponent :=
      zpow_le_zpow_right₀ (by norm_num) hexponent
    rw [hreal]
    linarith
  · refine le_trans ?_ hexponent
    rcases le_or_gt p b.leadingPlace with hle | hgt
    · rw [min_eq_left hle]
      exact hcoarsest c p (by push_cast; omega) hle hnear
    · -- The next power of ten lies between the double and the decimal, and is on every grid.
      rw [min_eq_right hgt.le]
      obtain ⟨-, hlead⟩ := leadingPlace_spec hpos
      have hten : ((10 : ℕ) : ℝ) * 10 ^ b.leadingPlace = 10 ^ (b.leadingPlace + 1) := by
        rw [zpow_add_one₀ (by norm_num)]
        push_cast
        ring
      have hbelow : (10 : ℝ) ^ (b.leadingPlace + 1) ≤ 10 ^ p :=
        zpow_le_zpow_right₀ (by norm_num) hgt
      have hone : (1 : ℝ) ≤ c := by
        have hpositive := (place_of_nearby hshape hpos hnear).1
        have hc : c ≠ 0 := by
          rintro rfl
          simp at hpositive
        exact_mod_cast Nat.one_le_iff_ne_zero.mpr hc
      have habove : (10 : ℝ) ^ p ≤ c * 10 ^ p := le_mul_of_one_le_left (by positivity) hone
      refine hcoarsest 10 b.leadingPlace (by push_cast; omega) le_rfl ?_
      rw [hten]
      exact real_nearby.of_mem hnear hlead.le (hbelow.trans habove)

end Decimal

end Aleatory
