import Aleatory.Proofs.Numeric.Monotone
import Aleatory.Proofs.Numeric.UnitInterval
import Aleatory.Proofs.Recipe.Words
import Aleatory.Proofs.Sampler.Construction

/-!
# Points of a half-open interval

The point that divides an interval as a fraction divides the unit interval takes three operations,
each of them rounded: the width may be rounded up, and the sum may be rounded onto the upper bound
or beyond it. No rounding brings the point below the lower bound, since rounding is monotone and
keeps what is a double already. So it is enough to ask whether the point is below the upper bound,
as the sampler does, and every value that is drawn lies in the interval
(`Inverse.uniform_draws_inside`).
-/

namespace Aleatory

open Double

namespace Inverse

/-- The point before it is asked whether it is below the upper bound. -/
def pointAt (low high u : Float) : Float := low + (high - low) * u

section

variable {low high u : Float} (h : ValidInterval low high)

include h

theorem zero_le_width : 0.0 ≤ high - low := by
  obtain ⟨hlow, hhigh, -, hless⟩ := h
  have hreal := (lt_iff_real hlow hhigh).mp hless
  exact (rounds_of_view rfl real_zero).le (rounds_sub hhigh hlow) (by linarith)

variable (hzero : 0.0 ≤ u) (hone : u < 1.0)

include hzero hone

/-- A part of the width is a finite number that is not negative. -/
theorem part_spec : ((high - low) * u).isFinite = true ∧ 0.0 ≤ (high - low) * u := by
  have hwidth := h.2.2.1
  have hu : u.isFinite = true :=
    isFinite_of_le_of_le rfl rfl hzero (le_iff_lt_or_beq.mpr (.inl hone))
  have hpositive := (le_iff_real rfl hwidth).mp (zero_le_width h)
  rw [le_iff_real rfl hu] at hzero
  rw [lt_iff_real hu rfl, real_one] at hone
  rw [real_zero] at hzero hpositive
  have hrounds := rounds_mul hwidth hu
  have hpart : |real (high - low) * real u| ≤ |real (high - low)| := by
    rw [abs_mul, abs_of_nonneg hzero]
    exact mul_le_of_le_one_right (abs_nonneg _) hone.le
  exact ⟨hrounds.isFinite_of_le hpart,
    (rounds_of_view rfl real_zero).le hrounds (mul_nonneg hpositive hzero)⟩

theorem low_le_pointAt : low ≤ pointAt low high u := by
  obtain ⟨hfinite, hpart⟩ := part_spec h hzero hone
  exact le_add_of_nonneg h.1 hfinite hpart

/-- The value is the point, or else the lower bound where the point is not below the upper one. -/
theorem uniformAt_cases : pointAt low high u < high ∧ uniformAt low high u = pointAt low high u ∨
    high ≤ pointAt low high u ∧ uniformAt low high u = low := by
  by_cases hless : pointAt low high u < high
  · exact .inl ⟨hless, if_pos hless⟩
  · have hpoint := (isNaN_of_le (low_le_pointAt h hzero hone)).2
    exact .inr ⟨le_of_not_lt (isNaN_of_isFinite h.2.1) hpoint hless, if_neg hless⟩

theorem uniformAt_mem : low ≤ uniformAt low high u ∧ uniformAt low high u < high ∧
    (uniformAt low high u).isFinite = true := by
  have hlow := h.1
  have hbelow : low ≤ uniformAt low high u := by
    rcases uniformAt_cases h hzero hone with ⟨-, hvalue⟩ | ⟨-, hvalue⟩ <;> rw [hvalue]
    · exact low_le_pointAt h hzero hone
    · exact (le_iff_real hlow hlow).mpr le_rfl
  have habove : uniformAt low high u < high := by
    rcases uniformAt_cases h hzero hone with ⟨hless, hvalue⟩ | ⟨-, hvalue⟩ <;> rw [hvalue]
    · exact hless
    · exact h.2.2.2
  have hweak := le_iff_lt_or_beq.mpr (.inl habove)
  exact ⟨hbelow, habove, isFinite_of_le_of_le hlow h.2.1 hbelow hweak⟩

end

/-- Sampling by inversion from an accepted interval. The value is made of the fraction of the first
word. The point at this fraction is never below the lower bound; it is the value if it is below the
upper bound, and else the lower bound is. So the value is a finite number of the half-open
interval, whatever is rounded. -/
theorem uniform_draws_inside {low high : Float} (hvalid : checkInterval low high = .ok ()) :
    (∀ (F : Mode) (σ χ : Type) [Generator σ], ∃ e : Experiment F σ χ Float,
      uniform low high = .ok e ∧ ∀ state extras, (e.run state extras).result =
        .ok (F.conclude (.ok ⟨⟨Generator.advance 1 state, extras,
          uniformAt low high (unitOfWord (Generator.word state).1)⟩, 0⟩))) ∧
    ∀ bits : UInt64,
      let point := pointAt low high (unitOfWord bits)
      let value := uniformAt low high (unitOfWord bits)
      low ≤ point ∧ (point < high ∧ value = point ∨ high ≤ point ∧ value = low) ∧
        low ≤ value ∧ value < high ∧ value.isFinite = true := by
  have h : ValidInterval low high := by
    have hsettles := checkInterval_settles low high
    rwa [hvalid] at hsettles
  refine ⟨fun F σ χ _ => ?_, fun bits => ?_⟩
  · have hbuild : (uniform low high : Except ParameterError (Experiment F σ χ Float)) =
        .ok (.map .unit (uniformAt low high)) := by
      rw [uniform, hvalid]
    refine ⟨_, hbuild, fun state extras => ?_⟩
    have htells := (Inversion.uniform low high).course_tells hbuild state extras
    exact ((Experiment.run_of_tells htells).2.1 (show 0 < UInt64.size by decide)).2
  · obtain ⟨hzero, hone⟩ := unitOfWord_mem bits
    exact ⟨low_le_pointAt h hzero hone, uniformAt_cases h hzero hone, uniformAt_mem h hzero hone⟩

section Witness

def lastWord : UInt64 := 18446744073709551615

def leastPositive : Float := Float.ofBits 1

/-- One half of the largest double. -/
def halfGreatest : Float := Float.ofBits 0x7fdfffffffffffff

/-- Between neighbouring doubles, one of which may be zero, the last word is rounded onto the upper
bound. The widest interval has the largest double for its width. -/
theorem uniform_draws_inside_narrow :
    (checkInterval 1.0 1.0000000000000002 = .ok () ∧
      pointAt 1.0 1.0000000000000002 (unitOfWord lastWord) = 1.0000000000000002 ∧
      uniformAt 1.0 1.0000000000000002 (unitOfWord lastWord) < 1.0000000000000002) ∧
    (checkInterval (-0.0) leastPositive = .ok () ∧
      pointAt (-0.0) leastPositive (unitOfWord lastWord) = leastPositive ∧
      -0.0 ≤ uniformAt (-0.0) leastPositive (unitOfWord lastWord)) ∧
    checkInterval (-halfGreatest) halfGreatest = .ok () ∧
      (uniformAt (-halfGreatest) halfGreatest (unitOfWord lastWord)).isFinite = true := by
  have hnarrow : checkInterval 1.0 1.0000000000000002 = .ok () := by rfl
  have hleast : checkInterval (-0.0) leastPositive = .ok () := by rfl
  have hwide : checkInterval (-halfGreatest) halfGreatest = .ok () := by rfl
  obtain ⟨-, hinside⟩ := uniform_draws_inside hnarrow
  obtain ⟨-, hinside'⟩ := uniform_draws_inside hleast
  obtain ⟨-, hinside''⟩ := uniform_draws_inside hwide
  exact ⟨⟨hnarrow, by rfl, (hinside lastWord).2.2.2.1⟩,
    ⟨hleast, by rfl, (hinside' lastWord).2.2.1⟩, hwide, (hinside'' lastWord).2.2.2.2⟩

end Witness

end Inverse

end Aleatory
