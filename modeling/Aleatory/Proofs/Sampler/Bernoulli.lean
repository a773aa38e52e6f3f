import Aleatory.Proofs.Numeric.Special
import Aleatory.Proofs.Numeric.Truncation
import Aleatory.Proofs.Numeric.UnitInterval
import Aleatory.Proofs.Recipe.Words
import Aleatory.Sampler.Direct
import Mathlib.Data.Set.Card

/-!
# Which words are true

Both samplers of truth values compare one word with a threshold. Inversion compares the fraction
of the upper 53 bits of the word with the probability `p`, so a word is true just if its upper 53
bits are below `⌈p * 2 ^ 53⌉`. The other sampler compares the whole word with `⌊p * 2 ^ 64⌋`, a
number that needs no rounding but the truncation. Either way the true words are the first ones,
and how many there are differs by what the two thresholds differ: by nothing if `p` is a multiple
of `2 ^ -53`, and else by at most the `2 ^ 11` words of one fraction (`bernoulli_accepts`).
-/

namespace Aleatory

open Double Float.Model.UnpackedFloat

/-! ## Runs that decide on a word -/

/-- A run takes a number of words, splits nothing, and returns a verdict on the next word. -/
structure Experiment.Decides {F : Mode} {σ χ : Type} [Generator σ] (e : Experiment F σ χ Bool)
    (words : ℕ) (verdict : UInt64 → Bool) (state : σ) (extras : χ) : Prop where
  draws : (e.run state extras).log.count .draw = words
  splits : (e.run state extras).log.count .split = 0
  result : (e.run state extras).result = .ok (F.conclude (.ok
    ⟨⟨Generator.advance words state, extras, verdict (Generator.word state).1⟩, 0⟩))

theorem Experiment.decides_of_tells {F : Mode} {σ χ : Type} [Generator σ]
    {e : Experiment F σ χ Bool} {words : ℕ} {verdict : UInt64 → Bool} {state : σ} {extras : χ}
    (h : (e.course state extras).Tells
      ⟨words, 0, extras, verdict (Generator.word state).1⟩ state) :
    e.Decides words verdict state extras := by
  obtain ⟨hsplits, hends, -⟩ := run_of_tells h
  obtain ⟨hdraws, hresult⟩ := hends (show 0 < UInt64.size by decide)
  exact ⟨hdraws, hsplits, hresult⟩

/-- Whether inversion makes a word true. -/
def Inverse.accepts (p : Float) (w : UInt64) : Bool := unitOfWord w < p

/-- Whether a word is true for the bits of a probability; every word is if that is one. -/
def Direct.accepts (p : Float) (w : UInt64) : Bool :=
  if p < 1.0 then w < threshold p else true

/-! ## Sets of words -/

theorem ncard_words_between (low : ℕ) {high : ℕ} (hhigh : high ≤ 2 ^ 64) :
    {w : UInt64 | low ≤ w.toNat ∧ w.toNat < high}.ncard = high - low := by
  have himage : UInt64.toNat '' {w : UInt64 | low ≤ w.toNat ∧ w.toNat < high} =
      Finset.Ico low high := by
    ext n
    rw [Finset.coe_Ico, Set.mem_Ico]
    constructor
    · rintro ⟨w, hw, rfl⟩
      exact hw
    · intro hn
      have htoNat : (UInt64.ofNat n).toNat = n :=
        UInt64.toNat_ofNat_of_lt' (hn.2.trans_le hhigh)
      refine ⟨UInt64.ofNat n, ?_, htoNat⟩
      change low ≤ (UInt64.ofNat n).toNat ∧ (UInt64.ofNat n).toNat < high
      rwa [htoNat]
  have hinjective : Function.Injective UInt64.toNat := fun _ _ => UInt64.toNat_inj.mp
  rw [← Set.ncard_image_of_injective _ hinjective, himage, Set.ncard_coe_finset, Nat.card_Ico]

theorem ncard_words_below {high : ℕ} (hhigh : high ≤ 2 ^ 64) :
    {w : UInt64 | w.toNat < high}.ncard = high := by
  simpa using ncard_words_between 0 hhigh

/-! ## The two thresholds -/

section Thresholds

variable {x : ℝ} (k : ℕ)

theorem floor_scaled_le : ⌊x * 2 ^ k⌋₊ ≤ ⌈x⌉₊ * 2 ^ k := by
  have hle : x * 2 ^ k ≤ (⌈x⌉₊ * 2 ^ k : ℕ) := by
    push_cast
    gcongr
    exact Nat.le_ceil x
  exact Nat.floor_le_of_le hle

theorem ceil_scaled_le (hx : 0 ≤ x) : ⌈x⌉₊ * 2 ^ k ≤ ⌊x * 2 ^ k⌋₊ + 2 ^ k := by
  have hfloor : ⌊x⌋₊ * 2 ^ k ≤ ⌊x * 2 ^ k⌋₊ := by
    apply Nat.le_floor
    push_cast
    gcongr
    exact Nat.floor_le hx
  calc ⌈x⌉₊ * 2 ^ k
      ≤ (⌊x⌋₊ + 1) * 2 ^ k := Nat.mul_le_mul_right _ (Nat.ceil_le_floor_add_one x)
    _ = ⌊x⌋₊ * 2 ^ k + 2 ^ k := Nat.succ_mul _ _
    _ ≤ ⌊x * 2 ^ k⌋₊ + 2 ^ k := Nat.add_le_add_right hfloor _

theorem floor_scaled_natCast (n : ℕ) : ⌊(n : ℝ) * 2 ^ k⌋₊ = ⌈(n : ℝ)⌉₊ * 2 ^ k := by
  rw [Nat.ceil_natCast]
  exact_mod_cast Nat.floor_natCast (n * 2 ^ k)

/-- The thresholds meet only at a whole number. -/
theorem floor_scaled_lt (hx : 0 ≤ x) (hwhole : ∀ n : ℕ, x ≠ n) :
    ⌊x * 2 ^ k⌋₊ < ⌈x⌉₊ * 2 ^ k := by
  have hlt : x < ⌈x⌉₊ := (Nat.le_ceil x).lt_of_ne (hwhole _)
  rw [Nat.floor_lt (by positivity)]
  push_cast
  gcongr

end Thresholds

section Accepted

theorem real_wordScale : real 18446744073709551616.0 = 2 ^ 64 := by
  have hview : view 18446744073709551616.0 = .finite .positive (2 ^ 52) 12 (by decide) := rfl
  rw [real_of_view hview]
  norm_num [Sign.apply]

variable {p : Float} (hzero : 0.0 ≤ p) (hone : p ≤ 1.0)

include hzero hone

theorem isFinite_of_mem_unit : p.isFinite = true := isFinite_of_le_of_le rfl rfl hzero hone

theorem real_mem_unit : 0 ≤ real p ∧ real p ≤ 1 := by
  have hp := isFinite_of_mem_unit hzero hone
  rw [le_iff_real rfl hp, real_zero] at hzero
  rw [le_iff_real hp rfl, real_one] at hone
  exact ⟨hzero, hone⟩

theorem real_eq_one_of_not_lt (hless : ¬p < 1.0) : real p = 1 := by
  have hp := isFinite_of_mem_unit hzero hone
  rw [lt_iff_real hp rfl, real_one, not_lt] at hless
  exact le_antisymm (real_mem_unit hzero hone).2 hless

theorem Inverse.accepts_iff (w : UInt64) :
    Inverse.accepts p w = true ↔ (w >>> 11).toNat < ⌈real p * 2 ^ 53⌉₊ := by
  have hp := isFinite_of_mem_unit hzero hone
  obtain ⟨hfinite, hreal⟩ := real_unitOfWord w
  have hscale : (2 : ℝ) ^ (-53 : ℤ) = (2 ^ 53)⁻¹ := by norm_num
  rw [accepts, decide_eq_true_iff, lt_iff_real hfinite hp, hreal, hscale, ← div_eq_mul_inv,
    div_lt_iff₀ (by positivity), Nat.lt_ceil]

theorem Inverse.accepts_iff_toNat (w : UInt64) :
    Inverse.accepts p w = true ↔ w.toNat < ⌈real p * 2 ^ 53⌉₊ * 2 ^ 11 := by
  rw [Inverse.accepts_iff hzero hone, UInt64.toNat_shiftRight, Nat.shiftRight_eq_div_pow]
  exact Nat.div_lt_iff_lt_mul (by decide)

/-- Neither scaling nor truncating rounds the threshold of a probability below one. -/
theorem Direct.toNat_threshold (hless : p < 1.0) :
    (threshold p).toNat = ⌊real p * 2 ^ 64⌋₊ := by
  obtain ⟨hnonneg, hle⟩ := real_mem_unit hzero hone
  have hp := isFinite_of_mem_unit hzero hone
  have hwithin : Within 0 p := ⟨hp, by rwa [abs_of_nonneg hnonneg, pow_zero]⟩
  have hscale : Within 64 18446744073709551616.0 :=
    ⟨rfl, by rw [real_wordScale, abs_of_pos (by positivity)]⟩
  have hfinite := (hwithin.mul hscale (by norm_num)).isFinite
  have hproduct := real_scaled hwithin hscale (by norm_num) real_wordScale
  have hscaled : 0 ≤ real p * 2 ^ 64 := mul_nonneg hnonneg (by positivity)
  have hpositive : 0.0 ≤ p * 18446744073709551616.0 := by
    rwa [le_iff_real rfl hfinite, hproduct, real_zero]
  have hbelow : ⌊real p * 2 ^ 64⌋₊ < UInt64.size := by
    rw [lt_iff_real hp rfl, real_one] at hless
    rw [Nat.floor_lt hscaled]
    have hsize : ((UInt64.size : ℕ) : ℝ) = 1 * 2 ^ 64 := by norm_num [UInt64.size]
    rw [hsize]
    gcongr
  rw [threshold, toNat_toUInt64 hpositive hfinite, hproduct]
  exact min_eq_left (Nat.le_sub_one_of_lt hbelow)

theorem Direct.accepts_iff (w : UInt64) :
    Direct.accepts p w = true ↔ w.toNat < ⌊real p * 2 ^ 64⌋₊ := by
  by_cases hless : p < 1.0
  · rw [accepts, if_pos hless, decide_eq_true_iff, UInt64.lt_iff_toNat_lt,
      toNat_threshold hzero hone hless]
  · have hreal : real p = 1 := real_eq_one_of_not_lt hzero hone hless
    have hall : ⌊real p * 2 ^ 64⌋₊ = UInt64.size := by
      rw [hreal, one_mul]
      exact_mod_cast Nat.floor_natCast (R := ℝ) (2 ^ 64)
    rw [accepts, if_neg hless, hall]
    exact ⟨fun _ => w.toNat_lt_size, fun _ => rfl⟩

/-! ## How the thresholds compare -/

theorem Inverse.threshold_le : ⌈real p * 2 ^ 53⌉₊ * 2 ^ 11 ≤ 2 ^ 64 := by
  obtain ⟨-, hle⟩ := real_mem_unit hzero hone
  have hceil : ⌈real p * 2 ^ 53⌉₊ ≤ 2 ^ 53 := by
    apply Nat.ceil_le.mpr
    have hscale : (0 : ℝ) ≤ 2 ^ 53 := by positivity
    exact_mod_cast mul_le_of_le_one_left hscale hle
  exact Nat.mul_le_mul_right _ hceil

theorem Inverse.ncard_accepts :
    {w | Inverse.accepts p w = true}.ncard = ⌈real p * 2 ^ 53⌉₊ * 2 ^ 11 := by
  simp only [Inverse.accepts_iff_toNat hzero hone]
  exact ncard_words_below (Inverse.threshold_le hzero hone)

theorem Direct.accepts_iff_scaled (w : UInt64) :
    Direct.accepts p w = true ↔ w.toNat < ⌊real p * 2 ^ 53 * 2 ^ 11⌋₊ := by
  have hscale : real p * 2 ^ 64 = real p * 2 ^ 53 * 2 ^ 11 := by ring
  rw [Direct.accepts_iff hzero hone, hscale]

theorem Inverse.accepts_of_direct {w : UInt64} (hw : Direct.accepts p w = true) :
    Inverse.accepts p w = true := by
  rw [Direct.accepts_iff_scaled hzero hone] at hw
  exact (Inverse.accepts_iff_toNat hzero hone w).mpr (hw.trans_le (floor_scaled_le 11))

theorem accepts_eq_of_whole {n : ℕ} (hwhole : real p * 2 ^ 53 = n) (w : UInt64) :
    Direct.accepts p w = Inverse.accepts p w := by
  rw [Bool.eq_iff_iff, Direct.accepts_iff_scaled hzero hone, Inverse.accepts_iff_toNat hzero hone,
    hwhole, floor_scaled_natCast]

/-- The words that are judged differently lie between the thresholds. -/
theorem ncard_differ :
    {w | Direct.accepts p w ≠ Inverse.accepts p w}.ncard =
      ⌈real p * 2 ^ 53⌉₊ * 2 ^ 11 - ⌊real p * 2 ^ 53 * 2 ^ 11⌋₊ := by
  have hbetween (w : UInt64) : Direct.accepts p w ≠ Inverse.accepts p w ↔
      ⌊real p * 2 ^ 53 * 2 ^ 11⌋₊ ≤ w.toNat ∧ w.toNat < ⌈real p * 2 ^ 53⌉₊ * 2 ^ 11 := by
    have hdirect := Direct.accepts_iff_scaled hzero hone w
    have hinverse := Inverse.accepts_iff_toNat hzero hone w
    have himp := Inverse.accepts_of_direct hzero hone (w := w)
    rw [← hinverse, ← not_lt, ← hdirect]
    revert himp
    cases Direct.accepts p w <;> cases Inverse.accepts p w <;> simp
  simp only [hbetween]
  exact ncard_words_between _ (Inverse.threshold_le hzero hone)

/-! ## What is built -/

theorem Inverse.bernoulli_decides {F : Mode} {σ χ : Type} [Generator σ] :
    ∃ e : Experiment F σ χ Bool, Inverse.bernoulli p = .ok e ∧
      ∀ state extras, e.Decides 1 (Inverse.accepts p) state extras := by
  have hbuild : (Inverse.bernoulli p : Except ParameterError (Experiment F σ χ Bool)) =
      .ok (.map .unit fun u => u < p) := by
    rw [Inverse.bernoulli, checkProbability, if_pos ⟨hzero, hone⟩]
  refine ⟨_, hbuild, fun state extras => Experiment.decides_of_tells ?_⟩
  exact (Inversion.bernoulli p).course_tells hbuild state extras

/-- A certain truth takes no word. -/
theorem Direct.bernoulli_decides {F : Mode} {σ χ : Type} [Generator σ] :
    ∃ e : Experiment F σ χ Bool, Direct.bernoulli p = .ok e ∧
      ∀ state extras, e.Decides (if p < 1.0 then 1 else 0) (Direct.accepts p) state extras := by
  by_cases hless : p < 1.0
  · refine ⟨.ofDraws do return (← Draws.word) < threshold p, ?_, fun state extras => ?_⟩
    · rw [Direct.bernoulli, if_pos ⟨hzero, hless⟩]
    · rw [if_pos hless]
      apply Experiment.decides_of_tells
      rw [accepts, if_pos hless]
      exact (Course.Tells.lift rfl).visit .step
  · have hequal : (p == 1.0) = true := (le_iff_lt_or_beq.mp hone).resolve_left hless
    refine ⟨.ofDraws (pure true), ?_, fun state extras => ?_⟩
    · rw [Direct.bernoulli, if_neg fun h => hless h.2, if_pos hequal]
    · rw [if_neg hless]
      apply Experiment.decides_of_tells
      rw [accepts, if_neg hless]
      exact (Course.Tells.lift (n := 0) rfl).visit .step

end Accepted

/-- A double from one half on has no digit behind the 53rd place. -/
theorem Double.exists_whole_of_half_le {x : Float} (hx : 1 / 2 ≤ real x) :
    ∃ n : ℕ, real x * 2 ^ 53 = n := by
  obtain ⟨m, e, hdigits, -, hreal⟩ := exists_digits x
  have hscale : (0 : ℝ) < 2 ^ e := by positivity
  have hpos : 0 < m := by
    have hcast : (0 : ℝ) < m * 2 ^ e := by linarith
    exact_mod_cast (mul_pos_iff_of_pos_right hscale).mp hcast
  have hplace : -53 ≤ e := by
    by_contra hlt
    have hmantissa : (m : ℝ) < 2 ^ 53 := by exact_mod_cast (le_abs_self m).trans_lt hdigits
    have hsmall : (2 : ℝ) ^ e ≤ 2 ^ (-54 : ℤ) := zpow_le_zpow_right₀ one_le_two (by omega)
    have hhalf : (m : ℝ) * 2 ^ e < 1 / 2 := by
      calc (m : ℝ) * 2 ^ e
          < 2 ^ 53 * 2 ^ e := mul_lt_mul_of_pos_right hmantissa hscale
        _ ≤ 2 ^ 53 * 2 ^ (-54 : ℤ) := mul_le_mul_of_nonneg_left hsmall (by positivity)
        _ = 1 / 2 := by norm_num
    linarith
  obtain ⟨k, rfl⟩ : ∃ k : ℕ, e = k - 53 := ⟨(e + 53).toNat, by omega⟩
  obtain ⟨n, rfl⟩ := Int.eq_ofNat_of_zero_le hpos.le
  refine ⟨n * 2 ^ k, ?_⟩
  rw [hreal, zpow_sub₀ two_ne_zero, zpow_natCast, mul_assoc]
  norm_num

/-- Which words either sampler of truth values makes true. For inversion it is those whose upper 53
bits are below `⌈p * 2 ^ 53⌉`, for the other sampler those below `⌊p * 2 ^ 64⌋`; at probability one
that sampler draws no word and is always true. What is true for the second is true for the first.
They judge all words alike if the probability is a multiple of `2 ^ -53`, as those from one half on
are, and else all but at most `2 ^ 11` of them. -/
theorem bernoulli_accepts {p : Float} (hzero : 0.0 ≤ p) (hone : p ≤ 1.0) :
    (∀ (F : Mode) (σ χ : Type) [Generator σ], ∃ inverse direct : Experiment F σ χ Bool,
      Inverse.bernoulli p = .ok inverse ∧ Direct.bernoulli p = .ok direct ∧
      ∀ state extras, inverse.Decides 1 (Inverse.accepts p) state extras ∧
        direct.Decides (if p < 1.0 then 1 else 0) (Direct.accepts p) state extras) ∧
    (∀ w, Inverse.accepts p w = true ↔ (w >>> 11).toNat < ⌈real p * 2 ^ 53⌉₊) ∧
    {w | Inverse.accepts p w = true}.ncard = ⌈real p * 2 ^ 53⌉₊ * 2 ^ 11 ∧
    (∀ w, Direct.accepts p w = true ↔ w.toNat < ⌊real p * 2 ^ 64⌋₊) ∧
    ((p == 1.0) = true → ∀ w, Direct.accepts p w = true) ∧
    (∀ w, Direct.accepts p w = true → Inverse.accepts p w = true) ∧
    (1 / 2 ≤ real p ∨ real p = 0 → ∃ n : ℕ, real p * 2 ^ 53 = n) ∧
    (∀ n : ℕ, real p * 2 ^ 53 = n → ∀ w, Direct.accepts p w = Inverse.accepts p w) ∧
    ((∀ n : ℕ, real p * 2 ^ 53 ≠ n) →
      1 ≤ {w | Direct.accepts p w ≠ Inverse.accepts p w}.ncard ∧
        {w | Direct.accepts p w ≠ Inverse.accepts p w}.ncard ≤ 2 ^ 11) := by
  obtain ⟨hnonneg, -⟩ := real_mem_unit hzero hone
  have hscaled : 0 ≤ real p * 2 ^ 53 := mul_nonneg hnonneg (by positivity)
  refine ⟨fun F σ χ _ => ?_, Inverse.accepts_iff hzero hone, Inverse.ncard_accepts hzero hone,
    Direct.accepts_iff hzero hone, fun hequal w => ?_,
    fun _ => Inverse.accepts_of_direct hzero hone, ?_,
    fun _ => accepts_eq_of_whole hzero hone, fun hwhole => ?_⟩
  · obtain ⟨inverse, hinverse, hdecides⟩ := Inverse.bernoulli_decides (F := F) (σ := σ) (χ := χ)
      hzero hone
    obtain ⟨direct, hdirect, hdecides'⟩ := Direct.bernoulli_decides (F := F) (σ := σ) (χ := χ)
      hzero hone
    exact ⟨inverse, direct, hinverse, hdirect,
      fun state extras => ⟨hdecides state extras, hdecides' state extras⟩⟩
  · have hp := isFinite_of_mem_unit hzero hone
    have hless : ¬p < 1.0 := by
      rw [beq_iff_real hp rfl] at hequal
      rw [lt_iff_real hp rfl]
      exact hequal.not_lt
    rw [Direct.accepts, if_neg hless]
  · rintro (hhalf | hnone)
    · exact exists_whole_of_half_le hhalf
    · exact ⟨0, by rw [hnone, zero_mul, Nat.cast_zero]⟩
  · have hlt := floor_scaled_lt 11 hscaled hwhole
    have hle := ceil_scaled_le 11 hscaled
    rw [ncard_differ hzero hone]
    omega

/-- Three tenths have a digit behind the 53rd place, and one half has not. -/
theorem bernoulli_accepts_tenths :
    ((0.0 : Float) ≤ 0.3 ∧ (0.3 : Float) ≤ 1.0) ∧
      {w | Inverse.accepts 0.3 w = true}.ncard = 2702159776422298 * 2 ^ 11 ∧
      1 ≤ {w | Direct.accepts 0.3 w ≠ Inverse.accepts 0.3 w}.ncard ∧
      (∀ w, Direct.accepts 0.5 w = Inverse.accepts 0.5 w) ∧
      ∀ w, Direct.accepts 1.0 w = true := by
  have hreal : real 0.3 * 2 ^ 53 = 5404319552844595 / 2 := by
    have hview : view 0.3 = .finite .positive 5404319552844595 (-54) (by decide) := rfl
    rw [real_of_view hview]
    norm_num [Sign.apply]
  have hceil : ⌈real 0.3 * 2 ^ 53⌉₊ = 2702159776422298 := by
    rw [hreal, Nat.ceil_eq_iff (by norm_num)]
    norm_num
  have hodd (n : ℕ) : real 0.3 * 2 ^ 53 ≠ n := by
    intro h
    rw [hreal, div_eq_iff two_ne_zero] at h
    have hparity : 5404319552844595 = n * 2 := by exact_mod_cast h
    omega
  obtain ⟨-, -, hcount, -, -, -, -, -, hdiffer⟩ :=
    bernoulli_accepts (p := 0.3) (by decide) (by decide)
  obtain ⟨-, -, -, -, -, -, hwhole, hagree, -⟩ :=
    bernoulli_accepts (p := 0.5) (by decide) (by decide)
  obtain ⟨-, -, -, -, hall, -⟩ := bernoulli_accepts (p := 1.0) (by decide) (by decide)
  obtain ⟨n, hn⟩ := hwhole (.inl real_half.ge)
  exact ⟨⟨by decide, by decide⟩, hceil ▸ hcount, (hdiffer hodd).1, hagree n hn, hall (by decide)⟩

end Aleatory
