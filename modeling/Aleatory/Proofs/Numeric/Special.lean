import Aleatory.Proofs.Numeric.Magnitude

/-!
# Numbers, infinities and NaN

Which sums and differences of doubles are NaN, what becomes of an infinity in a sum, and how
numbers that may be infinite compare.
-/

namespace Aleatory

namespace Double

open Float.Model Float.Model.UnpackedFloat

/-! ## Numbers and NaN -/

theorem isNaN_eq (x : Float) : x.isNaN = (view x).isNaN := rfl

theorem isNaN_iff {x : Float} : x.isNaN = true ↔ view x = .notANumber := by
  rw [isNaN_eq]
  rcases view x with _ | _ | _ | _ <;> simp [UnpackedFloat.isNaN]

theorem view_ne_of_number {x : Float} (h : x.isNaN = false) : view x ≠ .notANumber := by
  rw [← Bool.not_eq_true, isNaN_iff] at h
  exact h

theorem isNaN_neg (x : Float) : (-x).isNaN = x.isNaN := by
  rw [isNaN_eq, view_neg, isNaN_eq]
  rcases view x with _ | _ | _ | _ <;> rfl

theorem isNaN_abs (x : Float) : x.abs.isNaN = x.isNaN := by
  rw [isNaN_eq, view_abs, isNaN_eq]
  rcases view x with _ | _ | _ | _ <;> rfl

/-- A double is finite, or an infinity, or NaN. -/
theorem finite_or (x : Float) :
    x.isFinite = true ∨ (∃ s, view x = .infinity s) ∨ view x = .notANumber := by
  rw [isFinite_eq]
  rcases view x with s | _ | _ | _
  · exact .inr (.inl ⟨s, rfl⟩)
  · exact .inr (.inr rfl)
  · exact .inl rfl
  · exact .inl rfl

theorem isNaN_of_isFinite {x : Float} (h : x.isFinite = true) : x.isNaN = false := by
  rcases cases_of_isFinite h with ⟨s, hx⟩ | ⟨s, m, e, hm, hx⟩ <;> rw [isNaN_eq, hx] <;> rfl

theorem view_ne_infinity_of_isFinite {x : Float} (h : x.isFinite = true) (s : Sign) :
    view x ≠ .infinity s := by
  intro hx
  rw [isFinite_eq, hx] at h
  cases h

theorem Rounds.isNaN {y : ℝ} {u : UnpackedFloat} (h : Rounds y u) : u.isNaN = false := by
  cases h with
  | near hfinite _ => cases u <;> first | rfl | cases hfinite
  | far _ => rfl

section

variable {a b : Float} {s : Sign}

theorem isNaN_add_of_isFinite (ha : a.isFinite = true) (hb : b.isFinite = true) :
    (a + b).isNaN = false :=
  (rounds_add ha hb).isNaN

theorem unpack_pack_infinity (s : Sign) :
    (Float.Model.pack (.infinity s)).unpack = .infinity s := by
  cases s <;> rfl

theorem view_add_infinity (ha : view a = .infinity s) (hb : b.isFinite = true) :
    view (a + b) = .infinity s := by
  have hsum : UnpackedFloat.add .binary64 (.infinity s) (view b) = .infinity s := by
    rcases cases_of_isFinite hb with ⟨s', hy⟩ | ⟨s', m, e, hm, hy⟩ <;> rw [hy] <;> cases s <;>
      simp only [UnpackedFloat.add]
  rw [view_add, ha, hsum, unpack_pack_infinity]

theorem view_infinity_add_self (ha : view a = .infinity s) (hb : view b = .infinity s) :
    view (a + b) = .infinity s := by
  rw [view_add, ha, hb]
  cases s <;> rfl

theorem view_infinity_add_neg (ha : view a = .infinity s) (hb : view b = .infinity (-s)) :
    view (a + b) = .notANumber := by
  rw [view_add, ha, hb]
  cases s <;> rfl

theorem view_add_nan (ha : view a = .notANumber) : view (a + b) = .notANumber := by
  have hsum : UnpackedFloat.add .binary64 .notANumber (view b) = .notANumber := by
    rcases view b with _ | _ | _ | _ <;> simp only [UnpackedFloat.add]
  rw [view_add, ha, hsum]
  rfl

theorem view_infinity_mul (ha : view a = .infinity .positive)
    (hb : view b = .infinity .positive) : view (a * b) = .infinity .positive := by
  show (Float.Model.pack (UnpackedFloat.mul .binary64 (view a) (view b))).unpack = _
  rw [ha, hb]
  rfl

theorem isNaN_of_infinity (ha : view a = .infinity s) : a.isNaN = false := by
  rw [isNaN_eq, ha]
  rfl

/-- Only opposite infinities have no sum. -/
theorem isNaN_add_iff : (a + b).isNaN = true ↔
    a.isNaN = true ∨ b.isNaN = true ∨ ∃ s, view a = .infinity s ∧ view b = .infinity (-s) := by
  constructor
  · intro h
    rcases finite_or a with ha | ⟨s, ha⟩ | ha
    · rcases finite_or b with hb | ⟨s, hb⟩ | hb
      · rw [isNaN_add_of_isFinite ha hb] at h
        cases h
      · rw [add_comm, isNaN_of_infinity (view_add_infinity hb ha)] at h
        cases h
      · exact .inr (.inl (isNaN_iff.mpr hb))
    · rcases finite_or b with hb | ⟨s', hb⟩ | hb
      · rw [isNaN_of_infinity (view_add_infinity ha hb)] at h
        cases h
      · obtain rfl | rfl : s' = s ∨ s' = -s := by
          cases s <;> cases s' <;> first | exact .inl rfl | exact .inr rfl
        · rw [isNaN_of_infinity (view_infinity_add_self ha hb)] at h
          cases h
        · exact .inr (.inr ⟨s, ha, hb⟩)
      · exact .inr (.inl (isNaN_iff.mpr hb))
    · exact .inl (isNaN_iff.mpr ha)
  · rintro (ha | hb | ⟨s, ha, hb⟩)
    · exact isNaN_iff.mpr (view_add_nan (isNaN_iff.mp ha))
    · rw [add_comm]
      exact isNaN_iff.mpr (view_add_nan (isNaN_iff.mp hb))
    · exact isNaN_iff.mpr (view_infinity_add_neg ha hb)

theorem isNaN_sub_iff : (a - b).isNaN = true ↔
    a.isNaN = true ∨ b.isNaN = true ∨ ∃ s, view a = .infinity s ∧ view b = .infinity s := by
  have hneg (s : Sign) : view (-b) = .infinity (-s) ↔ view b = .infinity s := by
    rw [view_neg]
    rcases view b with (_ | _) | _ | _ | _ <;> cases s <;> simp [UnpackedFloat.neg]
  simp only [sub_eq_add_neg, isNaN_add_iff, isNaN_neg, hneg]

/-! ## Order -/

theorem exists_compare_of_number {u v : UnpackedFloat} (hu : u.isNaN = false)
    (hv : v.isNaN = false) : ∃ order, u.compare v = some order := by
  rcases u with (_ | _) | _ | _ | ⟨_ | _, _, _, _⟩ <;>
    rcases v with (_ | _) | _ | _ | ⟨_ | _, _, _, _⟩ <;>
    simp_all [UnpackedFloat.compare, UnpackedFloat.isNaN]

theorem le_of_not_lt (ha : a.isNaN = false) (hb : b.isNaN = false) (h : ¬b < a) : a ≤ b := by
  obtain ⟨order, horder⟩ := exists_compare_of_number (u := view a) (v := view b) ha hb
  rw [lt_iff, compare_swap (view a), horder] at h
  rw [le_iff_lt_or_beq, lt_iff, beq_iff, horder]
  cases order
  · exact .inl rfl
  · exact .inr rfl
  · exact absurd rfl h

theorem compare_nan (u : UnpackedFloat) : UnpackedFloat.compare .notANumber u = none := by
  rcases u with _ | _ | _ | _ <;> rfl

theorem compare_nan_right (u : UnpackedFloat) : u.compare .notANumber = none := by
  rw [compare_swap, compare_nan]
  rfl

theorem not_lt_of_nan (h : a.isNaN = true ∨ b.isNaN = true) : ¬a < b := by
  rw [lt_iff]
  rcases h with ha | hb
  · rw [isNaN_iff.mp ha, compare_nan]
    exact nofun
  · rw [isNaN_iff.mp hb, compare_nan_right]
    exact nofun

theorem not_le_of_nan (h : a.isNaN = true ∨ b.isNaN = true) : ¬a ≤ b := by
  intro hle
  rw [le_iff_lt_or_beq, lt_iff, beq_iff] at hle
  rcases h with ha | hb
  · rw [isNaN_iff.mp ha, compare_nan] at hle
    exact hle.elim nofun nofun
  · rw [isNaN_iff.mp hb, compare_nan_right] at hle
    exact hle.elim nofun nofun

theorem beq_self (ha : a.isNaN = false) : (a == a) = true := by
  rw [isNaN_eq] at ha
  rw [beq_iff]
  revert ha
  rcases view a with (_ | _) | _ | _ | ⟨_ | _, _, _, _⟩ <;>
    simp [UnpackedFloat.compare, UnpackedFloat.isNaN] <;> decide

theorem beq_nan (hb : b.isNaN = true) : (a == b) = false := by
  rw [Bool.eq_false_iff, Ne, beq_iff, isNaN_iff.mp hb, compare_nan_right]
  exact nofun

theorem unpacked_isFinite_of_le {l u h : UnpackedFloat} (hl : l.isFinite = true)
    (hh : h.isFinite = true) (hbelow : l.compare u = some .lt ∨ l.compare u = some .eq)
    (habove : u.compare h = some .lt ∨ u.compare h = some .eq) : u.isFinite = true := by
  rcases u with (_ | _) | _ | _ | _
  · rcases l with _ | _ | _ | ⟨_ | _, _, _, _⟩ <;>
      simp_all [UnpackedFloat.compare, UnpackedFloat.isFinite]
  · rcases h with _ | _ | _ | ⟨_ | _, _, _, _⟩ <;>
      simp_all [UnpackedFloat.compare, UnpackedFloat.isFinite]
  · rcases l with _ | _ | _ | ⟨_ | _, _, _, _⟩ <;> simp_all [UnpackedFloat.compare]
  · rfl
  · rfl

/-- What lies between two finite numbers is finite. -/
theorem isFinite_of_le_of_le {low x high : Float} (hlow : low.isFinite = true)
    (hhigh : high.isFinite = true) (hbelow : low ≤ x) (habove : x ≤ high) :
    x.isFinite = true := by
  rw [le_iff_lt_or_beq, lt_iff, beq_iff] at hbelow habove
  exact unpacked_isFinite_of_le hlow hhigh hbelow habove

theorem beq_infinity_iff {x : Float} : (x == 1.0 / 0.0) = true ↔ view x = .infinity .positive := by
  have hview : view (1.0 / 0.0) = .infinity .positive := rfl
  rw [beq_iff, hview]
  rcases view x with (_ | _) | _ | _ | ⟨_ | _, _, _, _⟩ <;> simp [UnpackedFloat.compare]
  decide

theorem beq_negInfinity_iff {x : Float} :
    (x == -(1.0 / 0.0)) = true ↔ view x = .infinity .negative := by
  have hview : view (-(1.0 / 0.0)) = .infinity .negative := rfl
  rw [beq_iff, hview]
  rcases view x with (_ | _) | _ | _ | ⟨_ | _, _, _, _⟩ <;> simp [UnpackedFloat.compare]
  decide

theorem neg_abs_le_zero (ha : a.isNaN = false) : -a.abs ≤ 0.0 := by
  rw [isNaN_eq] at ha
  rw [le_iff_lt_or_beq, lt_iff, beq_iff, view_zero, view_neg, view_abs]
  revert ha
  rcases view a with (_ | _) | _ | _ | ⟨_ | _, _, _, _⟩
  · exact fun _ => .inl rfl
  · exact fun _ => .inl rfl
  · exact nofun
  · exact fun _ => .inr rfl
  · exact fun _ => .inl rfl
  · exact fun _ => .inl rfl

theorem beq_symm (h : (a == b) = true) : (b == a) = true := by
  rw [beq_iff, compare_swap (view a), beq_iff.mp h]
  rfl

theorem le_of_beq (h : (a == b) = true) : a ≤ b := le_iff_lt_or_beq.mpr (.inr h)

theorem isFinite_of_beq (h : (a == b) = true) (ha : a.isFinite = true) :
    b.isFinite = true :=
  isFinite_of_le_of_le ha ha (le_of_beq h) (le_of_beq (beq_symm h))

theorem isFinite_of_isNaN {x : Float} (h : x.isNaN = true) : x.isFinite = false := by
  rw [isFinite_eq, isNaN_iff.mp h]
  rfl

theorem isNaN_of_le (h : a ≤ b) : a.isNaN = false ∧ b.isNaN = false :=
  ⟨Bool.eq_false_iff.mpr fun ha => not_le_of_nan (.inl ha) h,
    Bool.eq_false_iff.mpr fun hb => not_le_of_nan (.inr hb) h⟩

/-- The place of a double among the real numbers and the two infinities. -/
noncomputable def extended (x : Float) : EReal :=
  match view x with
  | .infinity .positive => ⊤
  | .infinity .negative => ⊥
  | _ => real x

theorem extended_of_isFinite (ha : a.isFinite = true) : extended a = real a := by
  rcases cases_of_isFinite ha with ⟨s, hx⟩ | ⟨s, m, e, hm, hx⟩ <;> rw [extended, hx]

/-- Numbers compare as their places do. -/
theorem le_iff_extended (ha : a.isNaN = false) (hb : b.isNaN = false) :
    a ≤ b ↔ extended a ≤ extended b := by
  have hinfinite {x : Float} (hx : x.isNaN = false) (hfinite : ¬x.isFinite = true) :
      ∃ s, view x = .infinity s :=
    ((finite_or x).resolve_left hfinite).resolve_right (view_ne_of_number hx)
  by_cases hfa : a.isFinite = true
  · by_cases hfb : b.isFinite = true
    · rw [le_iff_real hfa hfb, extended_of_isFinite hfa, extended_of_isFinite hfb,
        EReal.coe_le_coe_iff]
    · obtain ⟨s, hs⟩ := hinfinite hb hfb
      rw [le_iff_lt_or_beq, lt_iff, beq_iff, extended_of_isFinite hfa, extended, hs]
      rcases cases_of_isFinite hfa with ⟨_, hx⟩ | ⟨_ | _, _, _, _, hx⟩ <;> rw [hx] <;>
        cases s <;> simp [UnpackedFloat.compare]
  · obtain ⟨s, hs⟩ := hinfinite ha hfa
    rw [le_iff_lt_or_beq, lt_iff, beq_iff, extended, hs]
    by_cases hfb : b.isFinite = true
    · rw [extended_of_isFinite hfb]
      rcases cases_of_isFinite hfb with ⟨_, hx⟩ | ⟨_ | _, _, _, _, hx⟩ <;> rw [hx] <;>
        cases s <;> simp [UnpackedFloat.compare]
    · obtain ⟨s', hs'⟩ := hinfinite hb hfb
      rw [extended, hs']
      cases s <;> cases s' <;> simp [UnpackedFloat.compare] <;> decide

theorem le_trans {c : Float} (hab : a ≤ b) (hbc : b ≤ c) : a ≤ c := by
  obtain ⟨ha, hb⟩ := isNaN_of_le hab
  obtain ⟨-, hc⟩ := isNaN_of_le hbc
  rw [le_iff_extended ha hb] at hab
  rw [le_iff_extended hb hc] at hbc
  rw [le_iff_extended ha hc]
  exact hab.trans hbc

theorem beq_of_le_of_le (hab : a ≤ b) (hba : b ≤ a) : (a == b) = true := by
  rcases le_iff_lt_or_beq.mp hab with hless | hequal
  · rcases le_iff_lt_or_beq.mp hba with hgreater | hequal
    · rw [lt_iff] at hless hgreater
      rw [compare_swap (view a), hless] at hgreater
      cases hgreater
    · exact beq_symm hequal
  · exact hequal

theorem beq_trans {c : Float} (hab : (a == b) = true) (hbc : (b == c) = true) :
    (a == c) = true :=
  beq_of_le_of_le (le_trans (le_of_beq hab) (le_of_beq hbc))
    (le_trans (le_of_beq (beq_symm hbc)) (le_of_beq (beq_symm hab)))

end

end Double

end Aleatory
