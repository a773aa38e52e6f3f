import Mathlib

/-!
# Comparisons and sums of doubles

What the checks of parameters and the comparison of histograms need to know about doubles: which
comparisons exclude each other, that the order of two summands does not matter, and that sums of
numbers that are not negative are not negative and keep what is not finite. All of it is read off
the unpacked form, so it holds for the special numbers, for rounding and for overflow as well.
-/

namespace Aleatory

namespace Double

open Float.Model Float.Model.UnpackedFloat

/-- Named, as is the next one, so that every definition over the real numbers has the same terms for
its literals `2` and `4`. -/
instance atLeastTwo_two : Nat.AtLeastTwo 2 := inferInstance

instance atLeastTwo_four : Nat.AtLeastTwo 4 := inferInstance

/-- The sign, mantissa and exponent of a double, or the special number that it is. -/
def view (x : Float) : UnpackedFloat := x.toModel.unpack

theorem isFinite_eq (x : Float) : x.isFinite = (view x).isFinite := rfl

theorem view_zero : view 0.0 = .zero .positive := rfl

theorem view_negZero : view (-0.0) = .zero .negative := rfl

section Comparison

variable {a b x : Float}

theorem lt_iff : a < b ↔ (view a).compare (view b) = some .lt := by
  change decide ((view a).lt (view b) = true) = true ↔ _
  rw [decide_eq_true_iff, UnpackedFloat.lt, beq_iff_eq]

theorem beq_iff : (a == b) = true ↔ (view a).compare (view b) = some .eq := by
  change (view a).beq (view b) = true ↔ _
  rw [UnpackedFloat.beq, beq_iff_eq]

theorem le_iff_lt_or_beq : a ≤ b ↔ a < b ∨ (a == b) = true := by
  rw [lt_iff, beq_iff]
  change decide ((view a).le (view b) = true) = true ↔ _
  rw [decide_eq_true_iff, UnpackedFloat.le]
  rcases (view a).compare (view b) with _ | _ | _ | _ <;> simp

theorem compare_swap (u v : UnpackedFloat) : v.compare u = (u.compare v).map Ordering.swap := by
  rcases u with (_ | _) | _ | (_ | _) | ⟨_ | _, m, e, _⟩ <;>
    rcases v with (_ | _) | _ | (_ | _) | ⟨_ | _, m', e', _⟩ <;>
    first
    | rfl
    | simp [UnpackedFloat.compare, Ordering.swap_then, Int.compare_swap, Nat.compare_swap]

theorem exists_compare {u v : UnpackedFloat} (hu : u.isFinite = true) (hv : v.isFinite = true) :
    ∃ order, u.compare v = some order := by
  rcases u with _ | _ | _ | ⟨_ | _, _, _, _⟩ <;> rcases v with _ | _ | _ | ⟨_ | _, _, _, _⟩ <;>
    simp_all [UnpackedFloat.compare, UnpackedFloat.isFinite]

/-- Of two finite numbers, one is below the other exactly if the other is not at or below it. -/
theorem not_le_iff_lt (ha : a.isFinite = true) (hb : b.isFinite = true) : ¬b ≤ a ↔ a < b := by
  obtain ⟨order, horder⟩ := exists_compare (u := view a) (v := view b) ha hb
  rw [le_iff_lt_or_beq, lt_iff, beq_iff, lt_iff, compare_swap (view a), horder]
  cases order <;> decide

theorem not_lt_iff_le (ha : a.isFinite = true) (hb : b.isFinite = true) : ¬b < a ↔ a ≤ b := by
  obtain ⟨order, horder⟩ := exists_compare (u := view a) (v := view b) ha hb
  rw [le_iff_lt_or_beq, lt_iff, beq_iff, lt_iff, compare_swap (view a), horder]
  cases order <;> decide

/-- Zero of either sign, or a number with the positive sign. -/
def IsNonneg : UnpackedFloat → Prop
  | .infinity s | .finite s _ _ _ => s = .positive
  | .zero _ => True
  | .notANumber => False

theorem zero_le_iff : 0.0 ≤ x ↔ IsNonneg (view x) := by
  rw [le_iff_lt_or_beq, lt_iff, beq_iff, view_zero]
  rcases view x with (_ | _) | _ | _ | ⟨_ | _, _, _, _⟩ <;> simp [UnpackedFloat.compare, IsNonneg]

theorem zero_le_zero : (0.0 : Float) ≤ 0.0 := by decide

/-- What equals one is not negative. -/
theorem zero_le_of_beq_one (h : (x == 1.0) = true) : 0.0 ≤ x := by
  have hone : view 1.0 = .finite .positive (2 ^ 52) (-52) (by decide) := rfl
  rw [beq_iff, hone] at h
  rw [zero_le_iff]
  revert h
  rcases view x with (_ | _) | _ | _ | ⟨_ | _, _, _, _⟩ <;>
    first
    | exact fun _ => rfl
    | exact nofun

theorem isFinite_of_beq_zero (h : (x == 0.0) = true) : x.isFinite = true := by
  rw [beq_iff, view_zero] at h
  rw [isFinite_eq]
  revert h
  rcases view x with (_ | _) | _ | _ | ⟨_ | _, _, _, _⟩ <;>
    first
    | exact fun _ => rfl
    | exact nofun

theorem zero_lt_iff_of_zero_le (h : 0.0 ≤ x) : 0.0 < x ↔ (x == 0.0) = false := by
  rw [Bool.eq_false_iff, Ne, beq_iff, lt_iff, compare_swap (view 0.0)]
  rw [le_iff_lt_or_beq, lt_iff, beq_iff] at h
  rcases h with h | h <;> rw [h] <;> decide

end Comparison

section Sum

theorem add_eq (a b : Float) :
    a + b = .ofModel (pack (UnpackedFloat.add .binary64 (view a) (view b))) := rfl

theorem view_add (a b : Float) :
    view (a + b) = (pack (UnpackedFloat.add .binary64 (view a) (view b))).unpack := rfl

theorem unpacked_add_comm (spec : Format) (u v : UnpackedFloat) :
    UnpackedFloat.add spec u v = UnpackedFloat.add spec v u := by
  rcases u with s | _ | s | ⟨s, m, e, _⟩ <;> rcases v with s' | _ | s' | ⟨s', m', e', _⟩ <;>
    first
    | rfl
    | (cases s <;> cases s' <;> rfl)
    | simp only [UnpackedFloat.add, Int.min_comm e e', Int.add_comm]

theorem add_comm (a b : Float) : a + b = b + a := by
  rw [add_eq, add_eq, unpacked_add_comm]

/-- The two zeros differ as summands only where both sums are zero. -/
theorem negZero_add (x : Float) : -0.0 + x = 0.0 + x ∨ (-0.0 + x = -0.0 ∧ 0.0 + x = 0.0) := by
  rw [add_eq, add_eq, view_zero, view_negZero]
  rcases view x with _ | _ | (_ | _) | _
  · exact .inl rfl
  · exact .inl rfl
  · exact .inr ⟨rfl, rfl⟩
  · exact .inl rfl
  · exact .inl rfl

theorem isFinite_of_pack {u : UnpackedFloat} (h : (pack u).unpack.isFinite = true) :
    u.isFinite = true := by
  rcases u with (_ | _) | _ | _ | _
  · exact h
  · exact h
  · exact h
  · rfl
  · rfl

theorem unpacked_isFinite_of_add {spec : Format} {u v : UnpackedFloat}
    (h : (UnpackedFloat.add spec u v).isFinite = true) :
    u.isFinite = true ∧ v.isFinite = true := by
  rcases u with s | _ | _ | _ <;> rcases v with s' | _ | _ | _ <;>
    first
    | exact ⟨rfl, rfl⟩
    | cases h
    | (cases s <;> cases s' <;> cases h)

theorem isFinite_of_add {a b : Float} (h : (a + b).isFinite = true) :
    a.isFinite = true ∧ b.isFinite = true :=
  unpacked_isFinite_of_add (isFinite_of_pack h)

theorem unpackSign_packComponents {spec : Format} (s : Sign) (e : BitVec spec.exponentBits)
    (m : BitVec spec.mantissaBitsWithoutImplicit) :
    unpackSign (packComponents spec s e m) = s.toBitVec := by
  ext i hi
  obtain rfl : i = 0 := by omega
  simp [unpackSign, packComponents, BitVec.getLsbD_append, ← BitVec.getLsbD_eq_getElem]

/-- Without the sign bit and below the exponent of the special numbers, nothing is negative. -/
theorem IsNonneg.of_packComponents {spec : Format} {e : BitVec spec.exponentBits}
    (he : e ≠ -1#_) (m : BitVec spec.mantissaBitsWithoutImplicit) :
    IsNonneg (UnpackedFloat.unpack spec (packComponents spec .positive e m)) := by
  have hsign : Sign.ofBitVec (unpackSign (packComponents spec .positive e m)) = .positive := by
    rw [unpackSign_packComponents]
    rfl
  simp only [UnpackedFloat.unpack, unpackExponent_packComponents, he, hsign, if_false]
  split
  · split
    · trivial
    · rfl
  · rfl

theorem IsNonneg.pack {u : UnpackedFloat} (h : IsNonneg u) : IsNonneg (pack u).unpack := by
  rcases u with s | _ | s | ⟨s, m, e, _⟩
  · obtain rfl : s = .positive := h
    rfl
  · exact h.elim
  · cases s <;> trivial
  · obtain rfl : s = .positive := h
    change IsNonneg (UnpackedFloat.unpack .binary64 (UnpackedFloat.pack .binary64 _))
    simp only [UnpackedFloat.pack]
    split
    · rfl
    · rename_i hfits
      split
      · refine .of_packComponents (fun h => hfits ?_) _
        have := congrArg BitVec.toNat h
        simp only [BitVec.toNat_ofNat] at this
        change _ % 2 ^ 11 = 2047 at this
        omega
      · exact .of_packComponents (by decide) _

theorem IsNonneg.round (spec : Format) (m : Nat) (e : Int) :
    IsNonneg (UnpackedFloat.round spec .positive m e) := by
  simp only [UnpackedFloat.round, roundWithAccuracy]
  split
  · trivial
  · rfl

theorem IsNonneg.normalize (spec : Format) {m : Int} (hm : 0 ≤ m) (e : Int) (s : Sign) :
    IsNonneg (UnpackedFloat.normalize spec m e s) := by
  rw [UnpackedFloat.normalize]
  split
  · rename_i hlt
    exact absurd (Int.compare_eq_lt.mp hlt) (Int.not_lt.mpr hm)
  · trivial
  · exact .round _ _ _

theorem IsNonneg.add {spec : Format} {u v : UnpackedFloat} (hu : IsNonneg u) (hv : IsNonneg v) :
    IsNonneg (UnpackedFloat.add spec u v) := by
  cases u with
  | notANumber => exact hu.elim
  | infinity s =>
      cases v with
      | notANumber => exact hv.elim
      | infinity s' =>
          obtain rfl : s = .positive := hu
          obtain rfl : s' = .positive := hv
          rfl
      | zero _ => exact hu
      | finite _ _ _ _ => exact hu
  | zero s =>
      cases v with
      | notANumber => exact hv.elim
      | infinity _ => exact hv
      | zero s' => cases s <;> cases s' <;> trivial
      | finite _ _ _ _ => exact hv
  | finite s m e _ =>
      cases v with
      | notANumber => exact hv.elim
      | infinity _ => exact hv
      | zero _ => exact hu
      | finite s' m' e' _ =>
          obtain rfl : s = .positive := hu
          obtain rfl : s' = .positive := hv
          exact .normalize _ (Int.add_nonneg (Int.natCast_nonneg _) (Int.natCast_nonneg _)) _ _

theorem zero_le_add {a b : Float} (ha : 0.0 ≤ a) (hb : 0.0 ≤ b) : 0.0 ≤ a + b := by
  rw [zero_le_iff] at ha hb ⊢
  exact (ha.add hb).pack

/-- A sum of a list may be started at either zero; only the sign of a zero can tell. -/
theorem foldl_negZero (xs : List Float) :
    xs.foldl (· + ·) (-0.0) = xs.foldl (· + ·) 0.0 ∨
      (xs.foldl (· + ·) (-0.0) = -0.0 ∧ xs.foldl (· + ·) 0.0 = 0.0) := by
  induction xs with
  | nil => exact .inr ⟨rfl, rfl⟩
  | cons x xs ih =>
      rw [List.foldl_cons, List.foldl_cons]
      rcases negZero_add x with h | ⟨hneg, hzero⟩
      · rw [h]
        exact .inl rfl
      · rw [hneg, hzero]
        exact ih

theorem isFinite_of_foldl {xs : List Float} {start : Float}
    (h : (xs.foldl (· + ·) start).isFinite = true) :
    start.isFinite = true ∧ ∀ x ∈ xs, x.isFinite = true := by
  induction xs generalizing start with
  | nil => exact ⟨h, nofun⟩
  | cons x xs ih =>
      obtain ⟨hsum, hrest⟩ := ih h
      obtain ⟨hstart, hx⟩ := isFinite_of_add hsum
      exact ⟨hstart, List.forall_mem_cons.mpr ⟨hx, hrest⟩⟩

theorem zero_le_foldl {xs : List Float} {start : Float} (hstart : 0.0 ≤ start)
    (h : ∀ x ∈ xs, 0.0 ≤ x) : 0.0 ≤ xs.foldl (· + ·) start := by
  induction xs generalizing start with
  | nil => exact hstart
  | cons x xs ih =>
      obtain ⟨hx, hxs⟩ := List.forall_mem_cons.mp h
      exact ih (zero_le_add hstart hx) hxs

end Sum

end Double

end Aleatory
