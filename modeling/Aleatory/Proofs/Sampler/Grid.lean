import Aleatory.Proofs.Numeric.UnitInterval
import Aleatory.Proofs.Recipe.Words
import Aleatory.Proofs.Sampler.Bernoulli
import Aleatory.Sampler.Inverse

/-!
# Grids of the unit interval

A number of the unit interval is made of the upper bits of one word: the upper 53 bits are the
numerator of a fraction, or the upper 52 bits select the midpoint of a part. A midpoint needs one
bit more than its number has, so both come out with the 53 digits of a double and no operation on
the way rounds. The words therefore fill each grid in order, and every point comes from equally
many of them (`FillsEvenly.of_exact`).
-/

namespace Aleatory

open Double

/-- The points of a grid are given to the words in order: the lowest bits of a word do not count,
and without them the word is the number of its point. -/
structure FillsEvenly (value : UInt64 → Float) (lowest : ℕ) (point : ℕ → ℝ) : Prop where
  isFinite (w : UInt64) : (value w).isFinite = true
  exact (w : UInt64) : real (value w) = point (w.toNat / 2 ^ lowest)
  ncard_words {i : ℕ} (hi : i < 2 ^ (64 - lowest)) :
    {w : UInt64 | real (value w) = point i}.ncard = 2 ^ lowest
  mono {w w' : UInt64} (h : w ≤ w') : value w ≤ value w'

theorem ncard_words_of_number {lowest i : ℕ} (hlowest : lowest ≤ 64) (hi : i < 2 ^ (64 - lowest)) :
    {w : UInt64 | w.toNat / 2 ^ lowest = i}.ncard = 2 ^ lowest := by
  have hpos : 0 < 2 ^ lowest := Nat.two_pow_pos lowest
  have hnumber (w : UInt64) : w.toNat / 2 ^ lowest = i ↔
      i * 2 ^ lowest ≤ w.toNat ∧ w.toNat < (i + 1) * 2 ^ lowest := by
    rw [← Nat.le_div_iff_mul_le hpos, ← Nat.div_lt_iff_lt_mul hpos]
    omega
  have hlast : (i + 1) * 2 ^ lowest ≤ 2 ^ 64 := by
    calc (i + 1) * 2 ^ lowest
        ≤ 2 ^ (64 - lowest) * 2 ^ lowest := Nat.mul_le_mul_right _ hi
      _ = 2 ^ 64 := Nat.pow_sub_mul_pow 2 hlowest
  simp only [hnumber]
  rw [ncard_words_between _ hlast, ← Nat.sub_mul, Nat.add_sub_cancel_left, Nat.one_mul]

/-- Where no rounding takes place, the order of the points is all that is needed. -/
theorem FillsEvenly.of_exact {value : UInt64 → Float} {lowest : ℕ} {point : ℕ → ℝ}
    (hlowest : lowest ≤ 64) (hpoint : StrictMono point)
    (hvalue : ∀ w, (value w).isFinite = true ∧ real (value w) = point (w.toNat / 2 ^ lowest)) :
    FillsEvenly value lowest point where
  isFinite w := (hvalue w).1
  exact w := (hvalue w).2
  ncard_words hi := by
    simp only [(hvalue _).2, hpoint.injective.eq_iff]
    exact ncard_words_of_number hlowest hi
  mono {w w'} h := by
    rw [le_iff_real (hvalue w).1 (hvalue w').1, (hvalue w).2, (hvalue w').2]
    exact hpoint.monotone (Nat.div_le_div_right (UInt64.le_iff_toNat_le.mp h))

theorem toNat_upper (w : UInt64) {shift : UInt64} {k : ℕ} (hshift : shift.toNat % 64 = k) :
    (w >>> shift).toNat = w.toNat / 2 ^ k := by
  rw [UInt64.toNat_shiftRight, hshift, Nat.shiftRight_eq_div_pow]

/-! ## Fractions -/

theorem unitOfWord_fillsEvenly : FillsEvenly unitOfWord 11 fun i => i / 2 ^ 53 := by
  refine .of_exact (by norm_num) (fun i j h => ?_) fun w => ?_
  · have hcast : (i : ℝ) < j := by exact_mod_cast h
    exact div_lt_div_of_pos_right hcast (by positivity)
  · obtain ⟨hfinite, hreal⟩ := real_unitOfWord w
    refine ⟨hfinite, ?_⟩
    rw [hreal, toNat_upper w (k := 11) rfl, zpow_neg, ← div_eq_mul_inv]
    rfl

/-! ## Midpoints -/

namespace Inverse

theorem real_openStep : real (1.0 / 4503599627370496.0) = 2 ^ (-52 : ℤ) := by
  have hview : view (1.0 / 4503599627370496.0) =
      .finite .positive (2 ^ 52) (-104) (by decide) := rfl
  rw [real_of_view hview]
  norm_num [Float.Model.UnpackedFloat.Sign.apply]

/-- Two times the number of a part, and one, has the digits of a double. -/
theorem odd_lt (w : UInt64) : 2 * (w >>> 12).toNat + 1 < 2 ^ 53 := by
  have hword := w.toNat_lt
  rw [toNat_upper w (k := 12) rfl]
  omega

theorem real_middle (w : UInt64) :
    Within 65 ((w >>> 12).toFloat + 0.5) ∧
      real ((w >>> 12).toFloat + 0.5) = (2 * (w >>> 12).toNat + 1 : ℕ) * 2 ^ (-1 : ℤ) := by
  have hodd := odd_lt w
  obtain ⟨hwithin, hsum⟩ :=
    add_eq_nearest (within_toFloat (w >>> 12)) (within_half.mono (by norm_num)) (by norm_num)
  refine ⟨hwithin, ?_⟩
  rw [hsum, real_toFloat (by omega), real_half, ← nearest_natCast_mul hodd (by norm_num)]
  congr 1
  push_cast
  norm_num
  ring

/-- Of twice as many parts, the last would lose its middle. -/
example : (9007199254740991 : UInt64).toFloat + 0.5 = 9007199254740992.0 := by rfl

/-- The midpoint of a word is not rounded. -/
theorem real_openUnitOfWord (w : UInt64) :
    (openUnitOfWord w).isFinite = true ∧
      real (openUnitOfWord w) = (2 * (w >>> 12).toNat + 1 : ℕ) * 2 ^ (-53 : ℤ) := by
  obtain ⟨hmiddle, hreal⟩ := real_middle w
  have hstep : Within 0 (1.0 / 4503599627370496.0) := by
    refine ⟨rfl, ?_⟩
    rw [real_openStep]
    norm_num
  have hpowers : (2 : ℝ) ^ (-1 : ℤ) * 2 ^ (-52 : ℤ) = 2 ^ (-53 : ℤ) := by norm_num
  obtain ⟨hwithin, hproduct⟩ := mul_eq_nearest hmiddle hstep (by norm_num)
  refine ⟨hwithin.isFinite, hproduct.trans ?_⟩
  rw [hreal, real_openStep, mul_assoc, hpowers]
  exact nearest_natCast_mul (odd_lt w) (by norm_num)

theorem openUnitOfWord_mem (w : UInt64) : 0.0 < openUnitOfWord w ∧ openUnitOfWord w < 1.0 := by
  have hodd : ((2 * (w >>> 12).toNat + 1 : ℕ) : ℝ) < 2 ^ (53 : ℤ) := by exact_mod_cast odd_lt w
  obtain ⟨hfinite, hreal⟩ := real_openUnitOfWord w
  rw [lt_iff_real rfl hfinite, lt_iff_real hfinite rfl, hreal, real_zero, real_one]
  refine ⟨by positivity, ?_⟩
  calc ((2 * (w >>> 12).toNat + 1 : ℕ) : ℝ) * 2 ^ (-53 : ℤ)
      < 2 ^ (53 : ℤ) * 2 ^ (-53 : ℤ) := mul_lt_mul_of_pos_right hodd (by positivity)
    _ = 1 := by norm_num

theorem openUnitOfWord_fillsEvenly :
    FillsEvenly openUnitOfWord 12 fun i => (2 * i + 1) / 2 ^ 53 := by
  refine .of_exact (by norm_num) (fun i j h => ?_) fun w => ?_
  · have hcast : (i : ℝ) < j := by exact_mod_cast h
    exact div_lt_div_of_pos_right (by linarith) (by positivity)
  · obtain ⟨hfinite, hreal⟩ := real_openUnitOfWord w
    refine ⟨hfinite, ?_⟩
    rw [hreal, toNat_upper w (k := 12) rfl, zpow_neg, ← div_eq_mul_inv]
    push_cast
    rfl

end Inverse

/-! ## Draws from the grids -/

namespace Experiment

variable {F : Mode} {σ χ : Type} [Generator σ]

theorem unit_run (state : σ) (extras : χ) :
    ((unit : Experiment F σ χ Float).run state extras).result =
      .ok (F.ret ⟨(Generator.word state).2, extras, unitOfWord (Generator.word state).1⟩) := by
  obtain ⟨-, hends, -⟩ := run_of_tells (unit_tells (F := F) state extras)
  rw [Mode.ret_eq_conclude]
  exact (hends (show 0 < UInt64.size by decide)).2

theorem openUnit_run (state : σ) (extras : χ) :
    ((Inverse.openUnit : Experiment F σ χ Float).run state extras).result =
      .ok (F.ret ⟨(Generator.word state).2, extras,
        Inverse.openUnitOfWord (Generator.word state).1⟩) := by
  have htells : ((Inverse.openUnit : Experiment F σ χ Float).course state extras).Tells
      ⟨1, 0, extras, Inverse.openUnitOfWord (Generator.word state).1⟩ state :=
    ((word_tells state extras).map _).visit .map
  obtain ⟨-, hends, -⟩ := run_of_tells htells
  rw [Mode.ret_eq_conclude]
  exact (hends (show 0 < UInt64.size by decide)).2

end Experiment

/-- A draw from the unit interval makes a number of one word. Each of the operations that make the
number, a conversion, the sum with one half or the product with a power of two, gives its exact
result. So the fractions are the multiples of `2 ^ -53` in `[0, 1)` and the midpoints the odd
multiples of `2 ^ -53` in `(0, 1)`; both grids are filled in the order of the words, every fraction
by `2 ^ 11` of them and every midpoint by `2 ^ 12`. -/
theorem unit_grids :
    ((∀ w : UInt64,
        real (w >>> 11).toFloat = (w >>> 11).toNat ∧
        real (1.0 / 9007199254740992.0) = 2 ^ (-53 : ℤ) ∧
        real (unitOfWord w) = real (w >>> 11).toFloat * real (1.0 / 9007199254740992.0) ∧
        0.0 ≤ unitOfWord w ∧ unitOfWord w < 1.0) ∧
      FillsEvenly unitOfWord 11 fun i => i / 2 ^ 53) ∧
    ((∀ w : UInt64,
        real (w >>> 12).toFloat = (w >>> 12).toNat ∧
        real ((w >>> 12).toFloat + 0.5) = real (w >>> 12).toFloat + real 0.5 ∧
        real (1.0 / 4503599627370496.0) = 2 ^ (-52 : ℤ) ∧
        real (Inverse.openUnitOfWord w) =
          real ((w >>> 12).toFloat + 0.5) * real (1.0 / 4503599627370496.0) ∧
        0.0 < Inverse.openUnitOfWord w ∧ Inverse.openUnitOfWord w < 1.0) ∧
      FillsEvenly Inverse.openUnitOfWord 12 fun i => (2 * i + 1) / 2 ^ 53) ∧
    ∀ {F : Mode} {σ χ : Type} [Generator σ] (state : σ) (extras : χ),
      ((Experiment.unit : Experiment F σ χ Float).run state extras).result =
        .ok (F.ret ⟨(Generator.word state).2, extras, unitOfWord (Generator.word state).1⟩) ∧
      ((Inverse.openUnit : Experiment F σ χ Float).run state extras).result =
        .ok (F.ret ⟨(Generator.word state).2, extras,
          Inverse.openUnitOfWord (Generator.word state).1⟩) := by
  refine ⟨⟨fun w => ?_, unitOfWord_fillsEvenly⟩,
    ⟨fun w => ?_, Inverse.openUnitOfWord_fillsEvenly⟩, fun state extras =>
      ⟨Experiment.unit_run state extras, Experiment.openUnit_run state extras⟩⟩
  · have hnumber := real_toFloat (toNat_shiftRight_lt w)
    refine ⟨hnumber, real_gridStep, ?_, unitOfWord_mem w⟩
    rw [(real_unitOfWord w).2, hnumber, real_gridStep]
  · have hodd := Inverse.odd_lt w
    have hnumber := real_toFloat (n := w >>> 12) (by omega)
    refine ⟨hnumber, ?_, Inverse.real_openStep, ?_, Inverse.openUnitOfWord_mem w⟩
    · rw [(Inverse.real_middle w).2, hnumber, real_half]
      push_cast
      norm_num
      ring
    · rw [(Inverse.real_openUnitOfWord w).2, (Inverse.real_middle w).2, Inverse.real_openStep,
        mul_assoc]
      norm_num

end Aleatory
