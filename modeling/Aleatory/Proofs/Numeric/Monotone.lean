import Aleatory.Proofs.Numeric.Bits
import Aleatory.Proofs.Numeric.Special

/-!
# Monotone rounding

The larger of two numbers does not round to the smaller double, even where one of the results is an
infinity (`Rounds.le`). So a sum is monotone in its summands, a difference is on the same side of
zero as the exact one, and the distance of two doubles does not depend on which is taken from which
(`distance_comm`).
-/

namespace Aleatory

namespace Double

open Float.Model Float.Model.UnpackedFloat

section

variable {a b c x x' : Float} {y y' : ℝ} {s : Sign}

/-- The end of the real numbers on the side of a sign. -/
noncomputable def farEnd : Sign → EReal
  | .positive => ⊤
  | .negative => ⊥

theorem extended_of_infinity (h : view x = .infinity s) : extended x = farEnd s := by
  cases s <;> rw [extended, h, farEnd]

theorem extended_ne_farEnd (hx : x.isFinite = true) (s : Sign) : extended x ≠ farEnd s := by
  rw [extended_of_isFinite hx]
  cases s with
  | positive => exact EReal.coe_ne_top _
  | negative => exact EReal.coe_ne_bot _

/-- The place of a result: that of the nearest double, or an infinity beyond all of them. -/
theorem Rounds.extended_cases (h : Rounds y (view x)) :
    (extended x = nearest y ∧ |nearest y| < 2 ^ 1024) ∨
      (extended x = ⊤ ∧ 2 ^ 1024 ≤ nearest y) ∨ (extended x = ⊥ ∧ 2 ^ 1024 ≤ -nearest y) := by
  rcases finite_or x with hx | ⟨s, hs⟩ | hnan
  · have hreal := h.real_eq hx
    exact .inl ⟨by rw [extended_of_isFinite hx, hreal], hreal ▸ abs_real_lt x⟩
  · have hextended := extended_of_infinity hs
    rw [hs] at h
    cases h with
    | near hfinite _ => cases hfinite
    | far hfar =>
        cases s with
        | positive => exact .inr (.inl ⟨hextended, by simpa [Sign.apply] using hfar⟩)
        | negative => exact .inr (.inr ⟨hextended, by simpa [Sign.apply] using hfar⟩)
  · exact absurd hnan (view_ne_of_number h.isNaN)

/-- A larger number does not round to a smaller double. -/
theorem Rounds.le (h : Rounds y (view x)) (h' : Rounds y' (view x')) (hle : y ≤ y') : x ≤ x' := by
  have hmono := nearest_mono hle
  -- A result that overflows lies beyond every double, so only the side of the overflow counts.
  have hcases := h.extended_cases
  have hcases' := h'.extended_cases
  have hbound : (0 : ℝ) < 2 ^ 1024 := by positivity
  rw [le_iff_extended h.isNaN h'.isNaN]
  generalize (2 : ℝ) ^ 1024 = bound at hcases hcases' hbound
  rcases hcases with ⟨hx, hlt⟩ | ⟨hx, hfar⟩ | ⟨hx, hfar⟩ <;> rw [hx]
  · rcases hcases' with ⟨hx', -⟩ | ⟨hx', -⟩ | ⟨hx', hfar'⟩ <;> rw [hx']
    · exact_mod_cast hmono
    · exact le_top
    · exact absurd (abs_lt.mp hlt).1 (by linarith)
  · rcases hcases' with ⟨hx', hlt'⟩ | ⟨hx', -⟩ | ⟨hx', hfar'⟩ <;> rw [hx']
    · exact absurd (abs_lt.mp hlt').2 (by linarith)
    · linarith
  · exact bot_le

theorem add_mono (ha : a.isNaN = false) (hb : b.isFinite = true) (hc : c.isFinite = true)
    (h : b ≤ c) : a + b ≤ a + c := by
  rcases finite_or a with hfinite | ⟨s, hs⟩ | hnan
  · refine (rounds_add hfinite hb).le (rounds_add hfinite hc) ?_
    have hreal := (le_iff_real hb hc).mp h
    linarith
  · have hsum := view_add_infinity hs hb
    have hsum' := view_add_infinity hs hc
    rw [le_iff_extended (isNaN_of_infinity hsum) (isNaN_of_infinity hsum'),
      extended_of_infinity hsum, extended_of_infinity hsum']
  · exact absurd hnan (view_ne_of_number ha)

/-- A sum with what is not negative does not fall below the other summand, even if it overflows. -/
theorem le_add_of_nonneg (ha : a.isFinite = true) (hb : b.isFinite = true) (hzero : 0.0 ≤ b) :
    a ≤ a + b := by
  have hnonneg : 0 ≤ real b := (le_iff_real rfl hb).mp hzero
  exact (rounds_of_view ha rfl).le (rounds_add ha hb) (by linarith)

theorem not_lt_of_ordered (h : b ≤ a) : ¬a < b := by
  intro hlt
  rw [le_iff_lt_or_beq, lt_iff, beq_iff, compare_swap (view a), lt_iff.mp hlt] at h
  exact h.elim nofun nofun

theorem ne_symm (h : (a == b) = false) : (b == a) = false := by
  rw [Bool.eq_false_iff] at h ⊢
  exact fun h' => h (beq_symm h')

theorem view_of_le_negInfinity (h : a ≤ b) (hb : view b = .infinity .negative) :
    view a = .infinity .negative := by
  rw [le_iff_lt_or_beq, lt_iff, beq_iff, hb] at h
  revert h
  rcases view a with (_ | _) | _ | _ | ⟨_ | _, _, _, _⟩ <;> simp [UnpackedFloat.compare]

theorem view_of_infinity_le (h : a ≤ b) (ha : view a = .infinity .positive) :
    view b = .infinity .positive := by
  rw [le_iff_lt_or_beq, lt_iff, beq_iff, ha] at h
  revert h
  rcases view b with (_ | _) | _ | _ | ⟨_ | _, _, _, _⟩ <;> simp [UnpackedFloat.compare]

/-- Numbers that compare as equal are the same, or zeros of different sign. -/
theorem eq_or_zeros_of_compare {u v : UnpackedFloat} (h : u.compare v = some .eq) :
    u = v ∨ (∃ s, u = .zero s) ∧ ∃ s, v = .zero s := by
  rcases u with (_ | _) | _ | s | ⟨_ | _, m, e, _⟩ <;>
    rcases v with (_ | _) | _ | s' | ⟨_ | _, m', e', _⟩ <;>
    simp_all [UnpackedFloat.compare, Ordering.then_eq_eq]

/-- As summands next to a number that is not zero, equal numbers are the same. -/
theorem add_congr_of_beq (h : (a == b) = true) (hc : (c == 0.0) = false) : a + c = b + c := by
  rw [add_eq, add_eq]
  rcases eq_or_zeros_of_compare (beq_iff.mp h) with hview | ⟨⟨s, hs⟩, s', hs'⟩
  · rw [hview]
  · rw [Bool.eq_false_iff, Ne, beq_iff, view_zero] at hc
    rw [hs, hs']
    revert hc
    rcases view c with (_ | _) | _ | _ | ⟨_ | _, m, e, _⟩ <;>
      simp [UnpackedFloat.compare, UnpackedFloat.add]

/-- Numbers stay as they are when a zero is added. -/
theorem add_beq_of_beq_zero (ha : a.isNaN = false) (hb : (b == 0.0) = true) :
    (a + b == a) = true := by
  have hfinite := isFinite_of_beq_zero hb
  have hreal : real b = 0 := (beq_iff_real hfinite rfl).mp hb
  rcases finite_or a with ha' | ⟨s, hs⟩ | hnan
  · have hrounds := rounds_add ha' hfinite
    rw [hreal, add_zero] at hrounds
    have hsum : (a + b).isFinite = true := hrounds.isFinite_of_le le_rfl
    rw [beq_iff_real hsum ha', hrounds.real_eq hsum, nearest_real]
  · have hsum := view_add_infinity hs hfinite
    rw [beq_iff, hsum, hs]
    cases s <;> rfl
  · exact absurd hnan (view_ne_of_number ha)

end

/-! ## Distances -/

theorem view_of_real_eq_zero {x : Float} (hx : x.isFinite = true) (h : real x = 0) :
    ∃ s, view x = .zero s := by
  have hzero := beq_iff.mp ((beq_iff_real hx (b := 0.0) rfl).mpr h)
  rw [view_zero] at hzero
  revert hzero
  rcases view x with (_ | _) | _ | s | ⟨_ | _, _, _, _⟩
  all_goals first
    | exact fun _ => ⟨s, rfl⟩
    | exact nofun

theorem abs_eq_of_view {x y : Float} (h : (view x).abs = (view y).abs) : x.abs = y.abs := by
  show Float.ofModel (Float.Model.pack (view x).abs) = Float.ofModel (Float.Model.pack (view y).abs)
  rw [h]

theorem abs_eq_of_infinity {x y : Float} {s s' : Sign} (hx : view x = .infinity s)
    (hy : view y = .infinity s') : x.abs = y.abs := by
  apply abs_eq_of_view
  rw [hx, hy]
  rfl

theorem abs_flip (x : Float) : (-x).abs = x.abs := by
  apply abs_eq_of_view
  rw [view_neg]
  cases view x <;> rfl

theorem abs_eq_of_real {x y : Float} (hx : x.isFinite = true) (hy : y.isFinite = true)
    (h : |real x| = |real y|) : x.abs = y.abs := by
  rcases (abs_nonneg (real x)).eq_or_lt with hzero | hpos
  · obtain ⟨s, hs⟩ := view_of_real_eq_zero hx (abs_eq_zero.mp hzero.symm)
    obtain ⟨s', hs'⟩ := view_of_real_eq_zero hy (abs_eq_zero.mp (h ▸ hzero.symm))
    apply abs_eq_of_view
    rw [hs, hs']
    rfl
  · rw [← real_abs] at hpos
    rw [← real_abs, ← real_abs] at h
    exact eq_of_real_eq hpos h

/-- Two roundings of one number differ by the sign of a zero at most. -/
theorem Rounds.abs_eq {x x' : Float} {y : ℝ} (h : Rounds y (view x)) (h' : Rounds y (view x')) :
    x.abs = x'.abs := by
  have hextended : extended x = extended x' :=
    le_antisymm ((le_iff_extended h.isNaN h'.isNaN).mp (h.le h' le_rfl))
      ((le_iff_extended h'.isNaN h.isNaN).mp (h'.le h le_rfl))
  rcases finite_or x with hx | ⟨s, hs⟩ | hnan
  · rcases finite_or x' with hx' | ⟨s', hs'⟩ | hnan'
    · exact abs_eq_of_real hx hx' (by rw [h.real_eq hx, h'.real_eq hx'])
    · exact absurd (hextended.trans (extended_of_infinity hs')) (extended_ne_farEnd hx s')
    · exact absurd hnan' (view_ne_of_number h'.isNaN)
  · rcases finite_or x' with hx' | ⟨s', hs'⟩ | hnan'
    · exact absurd (hextended.symm.trans (extended_of_infinity hs)) (extended_ne_farEnd hx' s)
    · exact abs_eq_of_infinity hs hs'
    · exact absurd hnan' (view_ne_of_number h'.isNaN)
  · exact absurd hnan (view_ne_of_number h.isNaN)

section

variable {a b : Float}

theorem rounds_sub (ha : a.isFinite = true) (hb : b.isFinite = true) :
    Rounds (real a - real b) (view (a - b)) := by
  have h := rounds_add ha ((isFinite_neg b).trans hb)
  have hreal : real a + real (-b) = real a - real b := by
    rw [real_neg]
    ring
  rwa [← sub_eq_add_neg, hreal] at h

theorem Rounds.neg {x : Float} {y : ℝ} (h : Rounds y (view x)) : Rounds (-y) (view (-x)) := by
  by_cases hx : x.isFinite = true
  · refine .near ((isFinite_neg x).trans hx) ?_
    show real (-x) = nearest (-y)
    rw [real_neg, h.real_eq hx, nearest_neg]
  · obtain ⟨s, hs⟩ := ((finite_or x).resolve_left hx).resolve_right (view_ne_of_number h.isNaN)
    rw [view_neg, hs]
    rw [hs] at h
    cases h with
    | near hfinite _ => cases hfinite
    | far hfar =>
        refine .far (s := -s) ?_
        rw [nearest_neg]
        cases s
        · simpa [Sign.apply] using hfar
        · simpa [Sign.apply] using hfar

/-- A number less one that is not smaller. -/
theorem sub_le_zero (ha : a.isFinite = true) (h : a ≤ b) : a - b ≤ 0.0 := by
  have hb := (isNaN_of_le h).2
  rcases finite_or b with hfinite | ⟨s, hs⟩ | hnan
  · have hreal := (le_iff_real ha hfinite).mp h
    exact (rounds_sub ha hfinite).le (rounds_of_view rfl real_zero) (by linarith)
  · obtain rfl : s = .positive := by
      rw [le_iff_extended (isNaN_of_isFinite ha) hb, extended_of_infinity hs] at h
      cases s with
      | positive => rfl
      | negative => exact absurd (le_bot_iff.mp h) (extended_ne_farEnd ha .negative)
    have hdifference : view (a - b) = .infinity .negative := by
      rw [sub_eq_add_neg, add_comm]
      exact view_add_infinity (by rw [view_neg, hs]; rfl) ha
    rw [le_iff_extended (isNaN_of_infinity hdifference) rfl, extended_of_infinity hdifference]
    exact bot_le
  · exact absurd hnan (view_ne_of_number hb)

/-- An infinity less another number is that infinity, on either side. -/
theorem view_sub_of_infinity {s : Sign} (ha : view a = .infinity s) (hb : b.isNaN = false)
    (hne : view b ≠ .infinity s) :
    view (a - b) = .infinity s ∧ view (b - a) = .infinity (-s) := by
  have hneg : view (-a) = .infinity (-s) := by
    rw [view_neg, ha]
    rfl
  rw [sub_eq_add_neg, sub_eq_add_neg b, add_comm b]
  rcases finite_or b with hfinite | ⟨s', hs'⟩ | hnan
  · exact ⟨view_add_infinity ha ((isFinite_neg b).trans hfinite), view_add_infinity hneg hfinite⟩
  · obtain rfl : s' = -s := by
      cases s <;> cases s' <;> first | rfl | exact absurd hs' hne
    have hneg' : view (-b) = .infinity s := by
      rw [view_neg, hs']
      cases s <;> rfl
    exact ⟨view_infinity_add_self ha hneg', view_infinity_add_self hneg hs'⟩
  · exact absurd hnan (view_ne_of_number hb)

theorem isNaN_sub_of_ne (ha : a.isNaN = false) (hb : b.isNaN = false) (h : (a == b) = false) :
    (a - b).isNaN = false := by
  rw [Bool.eq_false_iff, Ne, isNaN_sub_iff]
  rintro (hnan | hnan | ⟨s, hs, hs'⟩)
  · exact Bool.false_ne_true (ha.symm.trans hnan)
  · exact Bool.false_ne_true (hb.symm.trans hnan)
  · rw [Bool.eq_false_iff, Ne, beq_iff, hs, hs'] at h
    exact h (by cases s <;> rfl)

/-- The distance of two different numbers, read from either of them. -/
theorem distance_comm (ha : a.isNaN = false) (hb : b.isNaN = false) (h : (a == b) = false) :
    (a - b).abs = (b - a).abs := by
  have hne (s : Sign) : ¬(view a = .infinity s ∧ view b = .infinity s) := by
    rintro ⟨hs, hs'⟩
    rw [Bool.eq_false_iff, Ne, beq_iff, hs, hs'] at h
    exact h (by cases s <;> rfl)
  rcases finite_or a with hfa | ⟨s, hs⟩ | hnan
  · rcases finite_or b with hfb | ⟨s, hs⟩ | hnan
    · have hback := (rounds_sub hfb hfa).neg
      rw [neg_sub] at hback
      rw [(rounds_sub hfa hfb).abs_eq hback, abs_flip]
    · obtain ⟨hleft, hright⟩ := view_sub_of_infinity hs ha fun hs' => hne s ⟨hs', hs⟩
      exact abs_eq_of_infinity hright hleft
    · exact absurd hnan (view_ne_of_number hb)
  · obtain ⟨hleft, hright⟩ := view_sub_of_infinity hs hb fun hs' => hne s ⟨hs, hs'⟩
    exact abs_eq_of_infinity hleft hright
  · exact absurd hnan (view_ne_of_number ha)

end

end Double

end Aleatory
