import Aleatory.Equivalence.Likelihood
import Aleatory.Proofs.Numeric.Monotone
import Aleatory.Proofs.Numeric.Transcendental

/-!
# The logarithm of a sum of exponentials, in doubles

Whichever way the logarithm of a sum is computed, it is the larger argument plus a number between
zero and the logarithm of two (`logSumExp_eq_max_add`). As rounding is monotone, all of its bounds
follow from that, for infinite arguments as well as for finite ones. Only the symmetry needs a look
at both ways: equal arguments may be zeros of different sign, and different arguments have the same
distance from either side.
-/

namespace Aleatory

/-- Where the logarithm of a sum uses them, the exponential function and the logarithm are bounded,
the latter by a number that the logarithm of two does not exceed. They keep NaN. -/
structure Transcendental.Bounded (functions : Transcendental Float) (top : Float) : Prop where
  top_isFinite : top.isFinite = true
  lnTwo_le_top : 0.6931471805599453 ≤ top
  exp_bounds {x : Float} (h : x ≤ 0.0) : 0.0 ≤ functions.exp x ∧ functions.exp x ≤ 1.0
  exp_nan {x : Float} (h : x.isNaN = true) : (functions.exp x).isNaN = true
  lnOnePlus_bounds {x : Float} (hzero : 0.0 ≤ x) (hone : x ≤ 1.0) :
    0.0 ≤ functions.lnOnePlus x ∧ functions.lnOnePlus x ≤ top
  lnOnePlus_nan {x : Float} (h : x.isNaN = true) : (functions.lnOnePlus x).isNaN = true

theorem Transcendental.Sound.bounded {functions : Transcendental Float} (hf : functions.Sound) :
    functions.Bounded 1.0 where
  top_isFinite := rfl
  lnTwo_le_top := by decide
  exp_bounds := hf.exp_bounds
  exp_nan := hf.exp_nan
  lnOnePlus_bounds := hf.lnOnePlus_bounds
  lnOnePlus_nan := hf.lnOnePlus_nan

/-- The sharp bounds, and the values at the ends that they do not determine. -/
structure Transcendental.SoundForSums (functions : Transcendental Float) : Prop
    extends functions.Bounded 0.6931471805599453 where
  exp_negInfinity {x : Float} (h : (x == -(1.0 / 0.0)) = true) : (functions.exp x == 0.0) = true
  lnOnePlus_zero {x : Float} (h : (x == 0.0) = true) : (functions.lnOnePlus x == 0.0) = true

namespace Double

open Float.Model Float.Model.UnpackedFloat

variable {functions : Transcendental Float} {top a b : Float}

/-! ## The larger argument -/

theorem max_of_number (ha : a.isNaN = false) (hb : b.isNaN = false) :
    @Elementary.max Float (.double functions) a b = if a < b then b else a := by
  have hdouble : @Elementary.max Float (.double functions) a b =
      if (!(a == a)) = true then b else if (!(b == b)) = true then a
      else if decide (a < b) = true then b else a := rfl
  rw [hdouble, beq_self ha, beq_self hb]
  simp

theorem max_of_le (h : b ≤ a) : @Elementary.max Float (.double functions) a b = a := by
  obtain ⟨hb, ha⟩ := isNaN_of_le h
  rw [max_of_number ha hb, if_neg (not_lt_of_ordered h)]

theorem max_of_lt (h : a < b) : @Elementary.max Float (.double functions) a b = b := by
  obtain ⟨ha, hb⟩ := isNaN_of_le (le_iff_lt_or_beq.mpr (.inl h))
  rw [max_of_number ha hb, if_pos h]

/-- Two numbers and the larger of them. -/
theorem max_spec (ha : a.isNaN = false) (hb : b.isNaN = false) :
    (@Elementary.max Float (.double functions) a b).isNaN = false ∧
      a ≤ @Elementary.max Float (.double functions) a b ∧
      b ≤ @Elementary.max Float (.double functions) a b := by
  by_cases h : a < b
  · rw [max_of_lt h]
    exact ⟨hb, le_iff_lt_or_beq.mpr (.inl h), le_of_beq (beq_self hb)⟩
  · have hle := le_of_not_lt hb ha h
    rw [max_of_le hle]
    exact ⟨ha, le_of_beq (beq_self ha), hle⟩

/-- Of equal numbers, which may be zeros of different sign, the first is taken. -/
theorem max_comm_of_ne (ha : a.isNaN = false) (hb : b.isNaN = false) (h : (a == b) = false) :
    @Elementary.max Float (.double functions) a b =
      @Elementary.max Float (.double functions) b a := by
  by_cases hlt : a < b
  · rw [max_of_lt hlt, max_of_le (le_iff_lt_or_beq.mpr (.inl hlt))]
  · have hle := le_of_not_lt hb ha hlt
    have hlt' : b < a :=
      (le_iff_lt_or_beq.mp hle).resolve_right (Bool.eq_false_iff.mp (ne_symm h))
    rw [max_of_le hle, max_of_lt hlt']

/-! ## What is added to it -/

/-- What `logSumExp` adds to the larger argument. -/
def tail (functions : Transcendental Float) (a b : Float) : Float :=
  functions.lnOnePlus (functions.exp (-(a - b).abs))

theorem logSumExp_eq : @Elementary.logSumExp Float (.double functions) a b =
    if (a == b) = true then a + 0.6931471805599453
    else @Elementary.max Float (.double functions) a b + tail functions a b := rfl

theorem logSumExp_of_beq (h : (a == b) = true) :
    @Elementary.logSumExp Float (.double functions) a b = a + 0.6931471805599453 := by
  rw [logSumExp_eq, if_pos h]

theorem logSumExp_of_ne (h : (a == b) = false) :
    @Elementary.logSumExp Float (.double functions) a b =
      @Elementary.max Float (.double functions) a b + tail functions a b := by
  rw [logSumExp_eq, if_neg (by rw [h]; exact nofun)]

section

variable (hf : functions.Bounded top)

include hf

theorem tail_bounds (h : (a - b).isNaN = false) :
    0.0 ≤ tail functions a b ∧ tail functions a b ≤ top := by
  obtain ⟨hexp, hexp'⟩ := hf.exp_bounds (neg_abs_le_zero h)
  exact hf.lnOnePlus_bounds hexp hexp'

theorem tail_nan (h : (a - b).isNaN = true) : (tail functions a b).isNaN = true := by
  refine hf.lnOnePlus_nan (hf.exp_nan ?_)
  rwa [isNaN_neg, isNaN_abs]

theorem logSumExp_nan (h : a.isNaN = true ∨ b.isNaN = true) :
    (@Elementary.logSumExp Float (.double functions) a b).isNaN = true := by
  have hne : (a == b) = false := h.elim (fun ha => ne_symm (beq_nan ha)) beq_nan
  rw [logSumExp_of_ne hne, isNaN_add_iff]
  refine .inr (.inl (tail_nan hf (isNaN_sub_iff.mpr ?_)))
  exact h.imp_right .inl

/-- The logarithm of a sum is above the larger argument, by at most the logarithm of two or what
else bounds the logarithm above one. -/
theorem logSumExp_eq_max_add (ha : a.isNaN = false) (hb : b.isNaN = false) :
    ∃ t, 0.0 ≤ t ∧ t ≤ top ∧ @Elementary.logSumExp Float (.double functions) a b =
      @Elementary.max Float (.double functions) a b + t := by
  rcases heq : a == b with _ | _
  · obtain ⟨hlow, hhigh⟩ := tail_bounds hf (isNaN_sub_of_ne ha hb heq)
    exact ⟨tail functions a b, hlow, hhigh, logSumExp_of_ne heq⟩
  · refine ⟨0.6931471805599453, by decide, hf.lnTwo_le_top, ?_⟩
    rw [logSumExp_of_beq heq, max_of_le (le_of_beq (beq_symm heq))]

theorem logSumExp_bounds (ha : a.isNaN = false) (hb : b.isNaN = false) :
    @Elementary.max Float (.double functions) a b ≤
        @Elementary.logSumExp Float (.double functions) a b ∧
      @Elementary.logSumExp Float (.double functions) a b ≤
        @Elementary.max Float (.double functions) a b + top := by
  obtain ⟨t, hlow, hhigh, hlse⟩ := logSumExp_eq_max_add hf ha hb
  have hmax := (@max_spec functions _ _ ha hb).1
  have ht := isFinite_of_le_of_le rfl hf.top_isFinite hlow hhigh
  rw [hlse]
  refine ⟨?_, add_mono hmax ht hf.top_isFinite hhigh⟩
  have hzero := add_beq_of_beq_zero hmax (b := 0.0) rfl
  exact le_trans (le_of_beq (beq_symm hzero)) (add_mono hmax rfl ht hlow)

theorem le_logSumExp (ha : a.isNaN = false) (hb : b.isNaN = false) :
    a ≤ @Elementary.logSumExp Float (.double functions) a b ∧
      b ≤ @Elementary.logSumExp Float (.double functions) a b := by
  obtain ⟨-, hleft, hright⟩ := @max_spec functions _ _ ha hb
  have hmax := (logSumExp_bounds hf ha hb).1
  exact ⟨le_trans hleft hmax, le_trans hright hmax⟩

/-- Only two infinities make a sum of exponentials that vanishes. -/
theorem view_logSumExp_eq_negInfinity_iff (ha : a.isNaN = false) (hb : b.isNaN = false) :
    view (@Elementary.logSumExp Float (.double functions) a b) = .infinity .negative ↔
      view a = .infinity .negative ∧ view b = .infinity .negative := by
  constructor
  · intro h
    obtain ⟨hleft, hright⟩ := le_logSumExp hf ha hb
    exact ⟨view_of_le_negInfinity hleft h, view_of_le_negInfinity hright h⟩
  · rintro ⟨ha', hb'⟩
    have heq : (a == b) = true := by
      rw [beq_iff, ha', hb']
      rfl
    rw [logSumExp_of_beq heq]
    exact view_add_infinity ha' rfl

end

theorem logSumExp_comm (ha : a.isNaN = false) (hb : b.isNaN = false) :
    @Elementary.logSumExp Float (.double functions) a b =
      @Elementary.logSumExp Float (.double functions) b a := by
  rcases heq : a == b with _ | _
  · rw [logSumExp_of_ne heq, logSumExp_of_ne (ne_symm heq), max_comm_of_ne ha hb heq, tail, tail,
      distance_comm ha hb heq]
  · rw [logSumExp_of_beq heq, logSumExp_of_beq (beq_symm heq)]
    exact add_congr_of_beq heq rfl

/-- The negative infinity, whose exponential is zero, adds nothing. -/
theorem logSumExp_negInfinity (hf : functions.SoundForSums) (ha : view a = .infinity .negative)
    (hb : b.isNaN = false) :
    (@Elementary.logSumExp Float (.double functions) a b == b) = true := by
  have ha' := isNaN_of_infinity ha
  rcases heq : a == b with _ | _
  · have hle : a ≤ b := by
      rw [le_iff_extended ha' hb, extended_of_infinity ha]
      exact bot_le
    have hne : view b ≠ .infinity .negative := by
      intro hb'
      rw [Bool.eq_false_iff, Ne, beq_iff, ha, hb'] at heq
      exact heq rfl
    have hdistance : (-(a - b).abs == -(1.0 / 0.0)) = true := by
      rw [beq_negInfinity_iff, view_neg, view_abs, (view_sub_of_infinity ha hb hne).1]
      rfl
    rw [logSumExp_of_ne heq, max_comm_of_ne ha' hb heq, max_of_le hle]
    exact add_beq_of_beq_zero hb (hf.lnOnePlus_zero (hf.exp_negInfinity hdistance))
  · have hb' := view_of_le_negInfinity (le_of_beq (beq_symm heq)) ha
    rw [logSumExp_of_beq heq, beq_iff, view_add_infinity ha rfl, hb']
    rfl

/-- The logarithm of a sum is symmetric in two numbers, not below either of them and at most the
logarithm of two above the larger, as far as doubles can tell. It is the negative infinity only
for two of them, and NaN only next to NaN. So the posterior probability takes the exponential of a
number that is not positive. -/
theorem logSumExp_spec (hf : functions.SoundForSums) (a b : Float) :
    let lse := @Elementary.logSumExp Float (.double functions)
    let larger := @Elementary.max Float (.double functions)
    (a.isNaN = false → b.isNaN = false →
      (lse a b).isNaN = false ∧ lse a b = lse b a ∧
      a ≤ larger a b ∧ b ≤ larger a b ∧ larger a b ≤ lse a b ∧
      lse a b ≤ larger a b + 0.6931471805599453 ∧
      ((lse a b == -(1.0 / 0.0)) = true ↔
        (a == -(1.0 / 0.0)) = true ∧ (b == -(1.0 / 0.0)) = true) ∧
      ((a == -(1.0 / 0.0)) = true → (lse a b == b) = true)) ∧
    (a.isNaN = true ∨ b.isNaN = true → (lse a b).isNaN = true) ∧
    (a.isFinite = true → b.isFinite = true →
      @Likelihood.posterior Float (.double functions) a b =
        @Elementary.clamp Float (.double functions) 0.0 1.0
          (-(functions.expLessOne (a - lse a b))) ∧
      a - lse a b ≤ 0.0) := by
  refine ⟨fun ha hb => ?_, logSumExp_nan hf.toBounded, fun ha hb => ⟨rfl, ?_⟩⟩
  · obtain ⟨hlow, hhigh⟩ := logSumExp_bounds hf.toBounded ha hb
    obtain ⟨-, hleft, hright⟩ := @max_spec functions _ _ ha hb
    rw [beq_negInfinity_iff, beq_negInfinity_iff, beq_negInfinity_iff]
    exact ⟨(isNaN_of_le hlow).2, logSumExp_comm ha hb, hleft, hright, hlow, hhigh,
      view_logSumExp_eq_negInfinity_iff hf.toBounded ha hb,
      fun ha' => logSumExp_negInfinity hf ha' hb⟩
  · exact sub_le_zero ha
      (le_logSumExp hf.toBounded (isNaN_of_isFinite ha) (isNaN_of_isFinite hb)).1

/-- A crude exponential function for numbers that are not positive. -/
def crudeExp (x : Float) : Float :=
  if x.isNaN then x else if x == -(1.0 / 0.0) then 0.0 else 0.5

/-- Functions with the values that the logarithm of the sum of `exp (-1000)` and `exp (-1001)`
needs, and crude values elsewhere. -/
def tabulatedForSums : Transcendental Float where
  exp := tableValue [(-1.0, 0.36787944117144233)] crudeExp
  ln x := x
  sin x := x
  expLessOne := tableValue [(-0.3132616875182066, -0.2689414213699832)] fun x =>
    if x.isNaN then x else 0.0
  lnOnePlus := tableValue [(0.0, 0.0), (0.36787944117144233, 0.31326168751822286)] fun x =>
    if x.isNaN then x else 0.5

theorem tabulatedForSums_exp {x : Float} (hx : x.isFinite = false) :
    tabulatedForSums.exp x = crudeExp x :=
  @tableValue_of_not_finite _ crudeExp x (by decide) hx

theorem tabulatedForSums_sound : tabulatedForSums.SoundForSums where
  top_isFinite := rfl
  lnTwo_le_top := by decide
  exp_bounds {x} h := by
    refine tableValue_of_forall (P := fun y => 0.0 ≤ y ∧ y ≤ 1.0) (by decide) ?_
    rw [crudeExp, if_neg (by rw [(isNaN_of_le h).1]; exact nofun)]
    split <;> decide
  exp_nan h := by
    rw [tabulatedForSums_exp (isFinite_of_isNaN h), crudeExp, if_pos h]
    exact h
  lnOnePlus_bounds hzero _ :=
    tableValue_of_number (P := fun y => 0.0 ≤ y ∧ y ≤ 0.6931471805599453) (by decide) (by decide)
      (isNaN_of_le hzero).2
  lnOnePlus_nan h := (congrArg Float.isNaN (tableValue_nan (by decide) h)).trans h
  exp_negInfinity {x} h := by
    have hview := beq_negInfinity_iff.mp h
    have hfinite : x.isFinite = false := by
      rw [isFinite_eq, hview]
      rfl
    rw [tabulatedForSums_exp hfinite, crudeExp,
      if_neg (by rw [isNaN_of_infinity hview]; exact nofun), if_pos h]
    rfl
  lnOnePlus_zero {x} h := by
    have hvalue : tabulatedForSums.lnOnePlus x = 0.0 := by
      simp only [tabulatedForSums, tableValue, List.find?_cons_of_pos, beq_symm h]
    rw [hvalue]
    rfl

theorem logSumExp_spec_tabulated :
    let lse := @Elementary.logSumExp Float (.double tabulatedForSums)
    lse (-1000.0) (-1001.0) = -999.6867383124818 ∧
    lse (-1000.0) (-1001.0) = lse (-1001.0) (-1000.0) ∧
    -1000.0 ≤ lse (-1000.0) (-1001.0) ∧
    lse (-1000.0) (-1001.0) ≤
      @Elementary.max Float (.double tabulatedForSums) (-1000.0) (-1001.0) + 0.6931471805599453 ∧
    -1000.0 - lse (-1000.0) (-1001.0) ≤ 0.0 ∧
    (lse (-(1.0 / 0.0)) (-2.0) == -2.0) = true ∧
    (lse (-(1.0 / 0.0)) (-(1.0 / 0.0)) == -(1.0 / 0.0)) = true ∧
    (lse (0.0 / 0.0) 1.0).isNaN = true := by
  intro lse
  have hfinite := logSumExp_spec tabulatedForSums_sound (-1000.0) (-1001.0)
  obtain ⟨-, hcomm, hleft, -, hlow, hhigh, -⟩ := hfinite.1 rfl rfl
  have hmixed := logSumExp_spec tabulatedForSums_sound (-(1.0 / 0.0)) (-2.0)
  have hinfinite := logSumExp_spec tabulatedForSums_sound (-(1.0 / 0.0)) (-(1.0 / 0.0))
  have hnan := logSumExp_spec tabulatedForSums_sound (0.0 / 0.0) 1.0
  exact ⟨rfl, hcomm, le_trans hleft hlow, hhigh, (hfinite.2.2 rfl rfl).2,
    (hmixed.1 rfl rfl).2.2.2.2.2.2.2 rfl, (hinfinite.1 rfl rfl).2.2.2.2.2.2.1.mpr ⟨rfl, rfl⟩,
    hnan.2.1 (.inl rfl)⟩

end Double

end Aleatory
