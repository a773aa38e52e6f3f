import Aleatory.Proofs.Numeric.Rounding

/-!
# Arithmetic on doubles as rounded arithmetic on real numbers

A finite double `x` stands for the number `real x`. The operations on finite doubles are the
operations on these numbers, rounded: `Rounds y u` says that `u` is the double nearest to `y`, or
the infinity on its side if that double would be too large. Finite doubles also compare as these
numbers do.
-/

namespace Aleatory

namespace Double

open Float.Model Float.Model.UnpackedFloat

/-! ## What doubles stand for -/

/-- The number that a finite double stands for. -/
noncomputable def value : UnpackedFloat → ℝ
  | .finite s m e _ => (s.apply m : ℤ) * 2 ^ e
  | _ => 0

theorem value_zero (s : Sign) : value (.zero s) = 0 := rfl

theorem value_finite (s : Sign) (m : ℕ) (e : ℤ) (hm : 0 < m) :
    value (.finite s m e hm) = (s.apply m : ℤ) * 2 ^ e := rfl

noncomputable def real (x : Float) : ℝ := value (view x)

/-- What a number rounds to: the nearest double, or an infinity if that would be too large. -/
inductive Rounds (x : ℝ) : UnpackedFloat → Prop
  | near {u : UnpackedFloat} (hfinite : u.isFinite = true) (hvalue : value u = nearest x) :
      Rounds x u
  | far {s : Sign} (hfar : 2 ^ 1024 ≤ (s.apply 1 : ℤ) * nearest x) : Rounds x (.infinity s)

theorem apply_eq_mul (s : Sign) (m : ℤ) : s.apply m = s.apply 1 * m := by
  cases s <;> simp [Sign.apply]

theorem nearest_apply_mul (s : Sign) (x : ℝ) :
    nearest ((s.apply 1 : ℤ) * x) = (s.apply 1 : ℤ) * nearest x := by
  cases s <;> simp [Sign.apply, nearest_neg]

theorem apply_mul_apply (s : Sign) (x : ℝ) : (s.apply 1 : ℤ) * ((s.apply 1 : ℤ) * x) = x := by
  cases s <;> simp [Sign.apply]

theorem rounds_roundWithAccuracy (s : Sign) {m : ℕ} {e : ℤ} {accuracy : Accuracy} {y : ℝ}
    (hdigits : 52 ≤ m.log2 ∨ e ≤ -1074)
    (hy : Represents (.ofMantissaAndAccuracy m accuracy) y) (hpos : 0 < y) :
    Rounds ((s.apply 1 : ℤ) * (y * 2 ^ e))
      (Float.Model.pack (roundWithAccuracy .binary64 s m e accuracy)).unpack := by
  obtain ⟨r, t, hshape, hvalue, hround⟩ := roundWithAccuracy_spec s hdigits hy hpos
  rw [hround]
  by_cases hzero : r = 0
  · subst hzero
    rw [dif_pos rfl]
    refine .near (by cases s <;> rfl) ?_
    rw [nearest_apply_mul, ← hvalue]
    cases s <;> simp [value] <;> rfl
  · rw [dif_neg hzero, unpack_pack _ hshape]
    split
    · refine .near rfl ?_
      rw [nearest_apply_mul, ← hvalue, value, apply_eq_mul]
      push_cast
      ring
    · rename_i hover
      have hnormal : 2 ^ 52 ≤ r := hshape.normal.resolve_right (by omega)
      refine .far ?_
      rw [nearest_apply_mul, apply_mul_apply, ← hvalue]
      have hcast : (2 : ℝ) ^ 52 ≤ r := by exact_mod_cast hnormal
      have hscale : (2 : ℝ) ^ (972 : ℤ) ≤ 2 ^ t := zpow_le_zpow_right₀ one_le_two (by omega)
      calc (2 : ℝ) ^ 1024
          = 2 ^ 52 * 2 ^ (972 : ℤ) := by rw [zpow_ofNat, ← pow_add]
        _ ≤ (r : ℝ) * 2 ^ t := mul_le_mul hcast hscale (by positivity) (by positivity)

theorem represents_exact (m : ℕ) : Represents (.ofMantissaAndAccuracy m .exact) m := rfl

theorem log2_shiftLeft {m : ℕ} (hm : 0 < m) (k : ℕ) : (m <<< k).log2 = m.log2 + k := by
  have hlow := Nat.log2_self_le hm.ne'
  have hhigh : m < 2 ^ (m.log2 + 1) := Nat.lt_log2_self
  have hscale : 0 < 2 ^ k := Nat.two_pow_pos k
  rw [Nat.shiftLeft_eq, Nat.log2_eq_iff (by positivity), Nat.add_right_comm, Nat.pow_add 2 _ k,
    Nat.pow_add 2 _ k]
  exact ⟨Nat.mul_le_mul_right _ hlow, Nat.mul_lt_mul_of_pos_right hhigh hscale⟩

theorem rounds_round (s : Sign) {m : ℕ} (hm : 0 < m) (e : ℤ) :
    Rounds ((s.apply 1 : ℤ) * (m * 2 ^ e))
      (Float.Model.pack (UnpackedFloat.round .binary64 s m e)).unpack := by
  obtain ⟨k, hk⟩ : ∃ k : ℕ, (e - Format.binary64.targetExponent (totalExponent m e)).toNat = k :=
    ⟨_, rfl⟩
  have hdigits : 52 ≤ (m <<< k).log2 ∨ e - k ≤ -1074 := by
    rw [targetExponent_eq] at hk
    rw [log2_shiftLeft hm]
    omega
  have hvalue : (m : ℝ) * 2 ^ e = ((m <<< k : ℕ) : ℝ) * 2 ^ (e - k) := by
    rw [Nat.shiftLeft_eq, zpow_sub₀ two_ne_zero, zpow_natCast]
    push_cast
    field_simp
  have hpos : (0 : ℝ) < (m <<< k : ℕ) := by
    rw [Nat.shiftLeft_eq]
    positivity
  rw [hvalue]
  simp only [UnpackedFloat.round, decreaseExponent, hk]
  exact rounds_roundWithAccuracy s hdigits (represents_exact _) hpos

theorem rounds_normalize (m e : ℤ) (s : Sign) :
    Rounds (m * 2 ^ e) (Float.Model.pack (UnpackedFloat.normalize .binary64 m e s)).unpack := by
  rw [UnpackedFloat.normalize]
  split
  · rename_i hcompare
    have hlt : m < 0 := Int.compare_eq_lt.mp hcompare
    have h := rounds_round .negative (m := (-m).toNat) (by omega) e
    have hcast : (((-m).toNat : ℕ) : ℝ) = -m := by
      exact_mod_cast Int.toNat_of_nonneg (show 0 ≤ -m by omega)
    simpa [Sign.apply, hcast] using h
  · rename_i hcompare
    obtain rfl : m = 0 := Int.compare_eq_eq.mp hcompare
    refine .near (by cases s <;> rfl) ?_
    cases s <;> simp [value] <;> rfl
  · rename_i hcompare
    have hlt : 0 < m := Int.compare_eq_gt.mp hcompare
    have h := rounds_round .positive (m := m.toNat) (by omega) e
    have hcast : ((m.toNat : ℕ) : ℝ) = m := by exact_mod_cast Int.toNat_of_nonneg hlt.le
    simpa [Sign.apply, hcast] using h

/-! ## The operations -/

theorem shape_of_view {x : Float} {s : Sign} {m : ℕ} {e : ℤ} {hm : 0 < m}
    (h : view x = .finite s m e hm) : Shape m e ∧ e ≤ 971 := by
  change UnpackedFloat.unpack .binary64 x.toModel.toBits.toBitVec = _ at h
  generalize (x.toModel.toBits.toBitVec : BitVec Format.binary64.numBits) = bits at h
  have hmantissa := (@unpackMantissa .binary64 bits).isLt
  have hexponent := (@unpackExponent .binary64 bits).isLt
  change (@unpackMantissa .binary64 bits).toNat < 2 ^ 52 at hmantissa
  change (@unpackExponent .binary64 bits).toNat < 2 ^ 11 at hexponent
  simp only [UnpackedFloat.unpack] at h
  split at h
  · split at h <;> cases h
  · rename_i hmax
    split at h
    · rename_i hzero
      split at h
      · cases h
      · cases h
        rw [hzero]
        exact ⟨⟨by omega, by decide, .inr (by decide)⟩, by decide⟩
    · rename_i hzero
      cases h
      have hbias : ((Format.binary64.exponentBias : ℕ) : ℤ) +
          (Format.binary64.mantissaBitsWithoutImplicit : ℕ) = 1075 := rfl
      have hlarge : (1#1 ++ @unpackMantissa .binary64 bits).toNat =
          2 ^ 52 + (@unpackMantissa .binary64 bits).toNat := by
        rw [BitVec.toNat_append, ← Nat.shiftLeft_add_eq_or_of_lt (BitVec.isLt _)]
        rfl
      have hzero' : (@unpackExponent .binary64 bits).toNat ≠ 0 :=
        fun h => hzero (BitVec.eq_of_toNat_eq h)
      have hmax' : (@unpackExponent .binary64 bits).toNat ≠ 2047 :=
        fun h => hmax (BitVec.eq_of_toNat_eq h)
      rw [hlarge, hbias]
      exact ⟨⟨by omega, by omega, .inl (by omega)⟩, by omega⟩

theorem unpack_pack_view (x : Float) : (Float.Model.pack (view x)).unpack = view x := by
  rcases hx : view x with (_ | _) | _ | (_ | _) | ⟨s, m, e, hm⟩
  · rfl
  · rfl
  · rfl
  · rfl
  · rfl
  · obtain ⟨hshape, htop⟩ := shape_of_view hx
    rw [unpack_pack hm hshape, if_pos htop]

/-- A double has at most 53 digits, none of them behind the last place. -/
theorem exists_digits (x : Float) :
    ∃ n e : ℤ, |n| < 2 ^ 53 ∧ -1074 ≤ e ∧ real x = n * 2 ^ e := by
  rw [real]
  rcases hx : view x with _ | _ | _ | ⟨s, m, e, hm⟩
  · exact ⟨0, 0, by norm_num, by norm_num, by simp [value]⟩
  · exact ⟨0, 0, by norm_num, by norm_num, by simp [value]⟩
  · exact ⟨0, 0, by norm_num, by norm_num, by simp [value]⟩
  · obtain ⟨hshape, -⟩ := shape_of_view hx
    have hdigits : |s.apply (m : ℤ)| < 2 ^ 53 := by
      have habs : |s.apply (m : ℤ)| = m := by cases s <;> simp [Sign.apply]
      rw [habs]
      exact_mod_cast hshape.digits
    exact ⟨s.apply m, e, hdigits, hshape.bottom, value_finite s m e hm⟩

/-- A finite double is its own nearest double. -/
theorem nearest_real (x : Float) : nearest (real x) = real x := by
  obtain ⟨n, e, hdigits, hbottom, hreal⟩ := exists_digits x
  rw [hreal]
  exact nearest_eq_self hdigits hbottom

theorem view_neg (x : Float) : view (-x) = (view x).neg := by
  show (Float.Model.pack (view x).neg).unpack = _
  rcases hx : view x with (_ | _) | _ | (_ | _) | ⟨s, m, e, hm⟩
  · rfl
  · rfl
  · rfl
  · rfl
  · rfl
  · obtain ⟨hshape, htop⟩ := shape_of_view hx
    rw [UnpackedFloat.neg, unpack_pack hm hshape, if_pos htop]

theorem view_abs (x : Float) : view x.abs = (view x).abs := by
  show (Float.Model.pack (view x).abs).unpack = _
  rcases hx : view x with (_ | _) | _ | (_ | _) | ⟨s, m, e, hm⟩
  · rfl
  · rfl
  · rfl
  · rfl
  · rfl
  · obtain ⟨hshape, htop⟩ := shape_of_view hx
    rw [UnpackedFloat.abs, unpack_pack hm hshape, if_pos htop]

@[simp] theorem real_neg (x : Float) : real (-x) = -real x := by
  rw [real, view_neg, real]
  rcases view x with _ | _ | _ | ⟨s, m, e, hm⟩
  · exact neg_zero.symm
  · exact neg_zero.symm
  · exact neg_zero.symm
  · show (((-s).apply m : ℤ) : ℝ) * 2 ^ e = -((s.apply m : ℤ) * 2 ^ e)
    rw [← neg_mul, ← Int.cast_neg]
    congr 2
    cases s
    · exact (neg_neg _).symm
    · rfl

theorem isFinite_neg (x : Float) : (-x).isFinite = x.isFinite := by
  rw [isFinite_eq, view_neg, isFinite_eq]
  rcases view x with _ | _ | _ | _ <;> rfl

theorem real_abs (x : Float) : real x.abs = |real x| := by
  rw [real, view_abs, real]
  have hscale (e : ℤ) : (0 : ℝ) < 2 ^ e := by positivity
  rcases view x with _ | _ | _ | ⟨_ | _, m, e, hm⟩ <;>
    simp [UnpackedFloat.abs, value, Sign.apply, abs_mul, abs_of_pos (hscale _)]

theorem isFinite_abs (x : Float) : x.abs.isFinite = x.isFinite := by
  rw [isFinite_eq, view_abs, isFinite_eq]
  rcases view x with _ | _ | _ | _ <;> rfl

theorem apply_decreaseExponent (s : Sign) (m : ℕ) {e t : ℤ} (h : t ≤ e) :
    ((s.apply ((decreaseExponent m e t).1 : ℤ) : ℤ) : ℝ) * 2 ^ t =
      (s.apply (m : ℤ) : ℤ) * 2 ^ e := by
  obtain ⟨k, rfl⟩ : ∃ k : ℕ, e = t + k := ⟨(e - t).toNat, by omega⟩
  have hk : (t + k - t).toNat = k := by omega
  rw [decreaseExponent, hk, apply_eq_mul, apply_eq_mul s m, Nat.shiftLeft_eq,
    zpow_add₀ two_ne_zero, zpow_natCast]
  push_cast
  ring

theorem rounds_of_view {x : ℝ} {a : Float} (ha : a.isFinite = true) (h : real a = x) :
    Rounds x (view a) :=
  .near ha (by rw [← h, nearest_real]; rfl)

theorem cases_of_isFinite {x : Float} (h : x.isFinite = true) :
    (∃ s, view x = .zero s) ∨ ∃ s m e hm, view x = .finite s m e hm := by
  rw [isFinite_eq] at h
  rcases hx : view x with _ | _ | s | ⟨s, m, e, hm⟩
  · rw [hx] at h
    cases h
  · rw [hx] at h
    cases h
  · exact .inl ⟨s, rfl⟩
  · exact .inr ⟨s, m, e, hm, rfl⟩

theorem rounds_zero (s : Sign) : Rounds 0 (Float.Model.pack (.zero s)).unpack := by
  refine .near (by cases s <;> rfl) ?_
  rw [nearest_zero]
  cases s <;> rfl

theorem rounds_add {a b : Float} (ha : a.isFinite = true) (hb : b.isFinite = true) :
    Rounds (real a + real b) (view (a + b)) := by
  have hleft := rounds_of_view ha rfl
  have hright := rounds_of_view hb rfl
  rw [← unpack_pack_view a] at hleft
  rw [← unpack_pack_view b] at hright
  rw [view_add]
  rcases cases_of_isFinite ha with ⟨s, hx⟩ | ⟨s, m, e, hm, hx⟩ <;>
    rcases cases_of_isFinite hb with ⟨s', hy⟩ | ⟨s', m', e', hm', hy⟩ <;>
    simp only [real, hx, hy] at hleft hright ⊢
  · have hzero : ∃ s'', UnpackedFloat.add .binary64 (.zero s) (.zero s') = .zero s'' := by
      cases s <;> cases s' <;> exact ⟨_, rfl⟩
    obtain ⟨s'', hsum⟩ := hzero
    rw [hsum, value_zero, value_zero, add_zero]
    exact rounds_zero s''
  · simp only [UnpackedFloat.add]
    rwa [value_zero, zero_add]
  · simp only [UnpackedFloat.add]
    rwa [value_zero, add_zero]
  · have h := rounds_normalize (s.apply ((decreaseExponent m e (min e e')).1) +
      s'.apply ((decreaseExponent m' e' (min e e')).1)) (min e e') .positive
    rw [Int.cast_add, add_mul, apply_decreaseExponent s m (min_le_left e e'),
      apply_decreaseExponent s' m' (min_le_right e e')] at h
    exact h

theorem unpacked_sub_eq (spec : Format) (u v : UnpackedFloat) :
    UnpackedFloat.sub spec u v = UnpackedFloat.add spec u v.neg := by
  have happly (s s' : Sign) (m m' : ℤ) : s.apply m - s'.apply m' = s.apply m + (-s').apply m' := by
    cases s'
    · exact Int.sub_neg _ _
    · exact Int.sub_eq_add_neg
  rcases u with s | _ | s | ⟨s, m, e, _⟩ <;> rcases v with s' | _ | s' | ⟨s', m', e', _⟩ <;>
    first
    | rfl
    | simp only [UnpackedFloat.sub, UnpackedFloat.neg, UnpackedFloat.add, happly]

theorem sub_eq_add_neg (a b : Float) : a - b = a + -b := by
  show Float.ofModel (Float.Model.pack (UnpackedFloat.sub .binary64 (view a) (view b))) = _
  rw [add_eq, view_neg, unpacked_sub_eq]

theorem apply_mul (s s' : Sign) : (s * s').apply 1 = s.apply 1 * s'.apply 1 := by
  cases s <;> cases s' <;> rfl

/-- The product of two doubles has the digits that rounding asks for. -/
theorem digits_mul {m m' : ℕ} {e e' : ℤ} (hm : 0 < m) (hm' : 0 < m') (h : Shape m e)
    (h' : Shape m' e') : 52 ≤ (m * m').log2 ∨ e + e' ≤ -1074 := by
  have hbottom := h.bottom
  have hproduct : m * m' ≠ 0 := by positivity
  rcases h.normal with hnormal | rfl
  · exact .inl ((Nat.le_log2 hproduct).mpr (hnormal.trans (Nat.le_mul_of_pos_right m hm')))
  · rcases h'.normal with hnormal | rfl
    · exact .inl ((Nat.le_log2 hproduct).mpr (hnormal.trans (Nat.le_mul_of_pos_left m' hm)))
    · exact .inr (by decide)

theorem rounds_mul_finite {s s' : Sign} {m m' : ℕ} {e e' : ℤ} (hm : 0 < m) (hm' : 0 < m')
    (hdigits : 52 ≤ (m * m').log2 ∨ e + e' ≤ -1074) :
    Rounds (value (.finite s m e hm) * value (.finite s' m' e' hm')) (Float.Model.pack
      (UnpackedFloat.mul .binary64 (.finite s m e hm) (.finite s' m' e' hm'))).unpack := by
  have h := rounds_roundWithAccuracy (s * s') hdigits (represents_exact (m * m')) (by positivity)
  have hvalue : value (.finite s m e hm) * value (.finite s' m' e' hm') =
      ((s * s').apply 1 : ℤ) * (((m * m' : ℕ) : ℝ) * 2 ^ (e + e')) := by
    rw [value_finite, value_finite, apply_eq_mul, apply_eq_mul s', apply_mul,
      zpow_add₀ two_ne_zero]
    push_cast
    ring
  rw [hvalue]
  exact h

theorem rounds_mul {a b : Float} (ha : a.isFinite = true) (hb : b.isFinite = true) :
    Rounds (real a * real b) (view (a * b)) := by
  show Rounds _ (Float.Model.pack (UnpackedFloat.mul .binary64 (view a) (view b))).unpack
  rcases cases_of_isFinite ha with ⟨s, hx⟩ | ⟨s, m, e, hm, hx⟩ <;>
    rcases cases_of_isFinite hb with ⟨s', hy⟩ | ⟨s', m', e', hm', hy⟩ <;>
    simp only [real, hx, hy]
  · rw [value_zero, zero_mul]
    exact rounds_zero (s * s')
  · rw [value_zero, zero_mul]
    exact rounds_zero (s * s')
  · rw [value_zero, mul_zero]
    exact rounds_zero (s * s')
  · exact rounds_mul_finite hm hm' (digits_mul hm hm' (shape_of_view hx).1 (shape_of_view hy).1)

/-- The accuracy of a quotient tells what the remainder adds to it. -/
theorem represents_div (m : ℕ) {n : ℕ} (hn : 0 < n) :
    Represents (.ofMantissaAndAccuracy (m / n) (accuracyOfFraction (m % n) n)) (m / n) := by
  obtain ⟨r, hr⟩ : ∃ r, m % n = r := ⟨_, rfl⟩
  have hn' : (0 : ℝ) < n := by exact_mod_cast hn
  have hsplit : (m : ℝ) / n = (m / n : ℕ) + (r : ℝ) / n := by
    have hcast : ((m % n : ℕ) : ℝ) + n * ((m / n : ℕ) : ℝ) = m := by
      exact_mod_cast Nat.mod_add_div m n
    rw [← hr]
    field_simp
    linarith
  have hone : (r : ℝ) / n < 1 := by
    rw [div_lt_one hn', ← hr]
    exact_mod_cast Nat.mod_lt m hn
  have hbelow : 2 * r < n → (r : ℝ) / n < 1 / 2 := fun h => by
    rw [div_lt_div_iff₀ hn' two_pos]
    exact_mod_cast (by omega : r * 2 < 1 * n)
  have habove : n < 2 * r → 1 / 2 < (r : ℝ) / n := fun h => by
    rw [div_lt_div_iff₀ two_pos hn']
    exact_mod_cast (by omega : 1 * n < r * 2)
  have hhalf : 2 * r = n → (r : ℝ) / n = 1 / 2 := fun h => by
    rw [div_eq_div_iff hn'.ne' two_ne_zero]
    exact_mod_cast (by omega : r * 2 = 1 * n)
  rw [accuracyOfFraction, hr, hsplit]
  split
  · rename_i hzero
    rw [hzero, Nat.cast_zero, zero_div, add_zero]
    exact represents_exact _
  · rename_i hzero
    have hpos : 0 < (r : ℝ) / n := div_pos (by exact_mod_cast Nat.pos_of_ne_zero hzero) hn'
    rcases hcompare : compare (2 * r) n with _ | _ | _
    · have h := hbelow (Nat.compare_eq_lt.mp hcompare)
      exact ⟨by linarith, by linarith⟩
    · rw [hhalf (Nat.compare_eq_eq.mp hcompare)]
      rfl
    · have h := habove (Nat.compare_eq_gt.mp hcompare)
      exact ⟨by linarith, by linarith⟩

/-- A quotient has the digits that rounding asks for, after the shift of the division. -/
theorem divCore_spec {m m' : ℕ} (e e' : ℤ) (hm : 0 < m) (hm' : 0 < m') :
    ∃ k : ℕ, ∃ t : ℤ, e - e' = t + k ∧ (52 ≤ (m <<< k / m').log2 ∨ t ≤ -1074) ∧
      divCore .binary64 m e m' e' = (m <<< k / m', t, accuracyOfFraction (m <<< k % m') m') := by
  have htarget : Format.binary64.targetExponent (totalExponent m e - totalExponent m' e') =
      max ((m.log2 + e) - (m'.log2 + e') - 53) (-1074) := by
    simp only [Format.targetExponent, totalExponent, Format.mantissaBits, Format.minExponent]
    norm_num
    omega
  obtain ⟨t, ht⟩ : ∃ t, t = min (e - e') (max ((m.log2 + e) - (m'.log2 + e') - 53) (-1074)) :=
    ⟨_, rfl⟩
  obtain ⟨k, hk⟩ : ∃ k : ℕ, e - e' = t + k := ⟨(e - e' - t).toNat, by omega⟩
  refine ⟨k, t, hk, ?_, ?_⟩
  · by_cases hbottom : t ≤ -1074
    · exact .inr hbottom
    · left
      have hshifted : 2 ^ (m.log2 + k) ≤ m <<< k := by
        rw [← log2_shiftLeft hm]
        exact Nat.log2_self_le (by rw [Nat.shiftLeft_eq]; positivity)
      have hdivisor : m' < 2 ^ (m'.log2 + 1) := Nat.lt_log2_self
      have hquotient : 2 ^ 52 ≤ m <<< k / m' := by
        rw [Nat.le_div_iff_mul_le hm']
        calc 2 ^ 52 * m' ≤ 2 ^ 52 * 2 ^ (m'.log2 + 1) := Nat.mul_le_mul_left _ hdivisor.le
          _ = 2 ^ (52 + (m'.log2 + 1)) := (Nat.pow_add 2 _ _).symm
          _ ≤ 2 ^ (m.log2 + k) := Nat.pow_le_pow_right two_pos (by omega)
          _ ≤ m <<< k := hshifted
      exact (Nat.le_log2 (by omega)).mpr hquotient
  · have hshift : (e - e' - t).toNat = k := by omega
    simp only [divCore, htarget, ← ht, hshift]

theorem apply_div (s s' : Sign) :
    (((s / s').apply 1 : ℤ) : ℝ) = (s.apply 1 : ℤ) / (s'.apply 1 : ℤ) := by
  have hmul : (s / s').apply 1 = s.apply 1 * s'.apply 1 := by cases s <;> cases s' <;> rfl
  rw [hmul]
  cases s <;> cases s' <;> simp [Sign.apply]

theorem rounds_div {a b : Float} (ha : a.isFinite = true) (hb : b.isFinite = true)
    (hzero : real b ≠ 0) : Rounds (real a / real b) (view (a / b)) := by
  show Rounds _ (Float.Model.pack (UnpackedFloat.div .binary64 (view a) (view b))).unpack
  rcases cases_of_isFinite hb with ⟨s', hy⟩ | ⟨s', m', e', hm', hy⟩
  · exact absurd (by rw [real, hy, value_zero]) hzero
  rcases cases_of_isFinite ha with ⟨s, hx⟩ | ⟨s, m, e, hm, hx⟩ <;> simp only [real, hx, hy]
  · rw [value_zero, zero_div]
    exact rounds_zero (s / s')
  · obtain ⟨k, t, hk, hdigits, hcore⟩ := divCore_spec e e' hm hm'
    have hpos : (0 : ℝ) < (m <<< k : ℕ) / m' := by
      rw [Nat.shiftLeft_eq]
      positivity
    have h := rounds_roundWithAccuracy (s / s') hdigits (represents_div (m <<< k) hm') hpos
    have hvalue : value (.finite s m e hm) / value (.finite s' m' e' hm') =
        ((s / s').apply 1 : ℤ) * ((m <<< k : ℕ) / m' * 2 ^ t) := by
      have he : e = e' + (t + k) := by omega
      rw [value_finite, value_finite, apply_eq_mul, apply_eq_mul s', apply_div, he,
        zpow_add₀ two_ne_zero, zpow_add₀ two_ne_zero, zpow_natCast, Nat.shiftLeft_eq]
      push_cast
      field_simp
    rw [hvalue]
    simp only [UnpackedFloat.div, hcore]
    exact h

theorem rounds_toFloat (n : UInt64) : Rounds n.toNat (view n.toFloat) := by
  have h : Rounds (((n.toNat : ℤ) : ℝ) * 2 ^ (0 : ℤ)) (view n.toFloat) :=
    rounds_normalize n.toNat 0 .positive
  rwa [zpow_zero, mul_one, Int.cast_natCast] at h

/-! ## Order -/

theorem compare_shape {m m' : ℕ} {e e' : ℤ} (h : Shape m e) (h' : Shape m' e') :
    (compare e e').then (compare m m') = cmp ((m : ℝ) * 2 ^ e) (m' * 2 ^ e') := by
  have hlower {m m' : ℕ} {e e' : ℤ} (h : Shape m e) (h' : Shape m' e') (hlt : e < e') :
      (m : ℝ) * 2 ^ e < m' * 2 ^ e' := by
    have hnormal : 2 ^ 52 ≤ m' := h'.normal.resolve_right (by have := h.bottom; omega)
    have hdigits : (m : ℝ) < 2 ^ 53 := by exact_mod_cast h.digits
    have hdigits' : (2 : ℝ) ^ 52 ≤ m' := by exact_mod_cast hnormal
    have hscale : (2 : ℝ) ^ (e + 1) ≤ 2 ^ e' := zpow_le_zpow_right₀ one_le_two (by omega)
    calc (m : ℝ) * 2 ^ e
        < 2 ^ 53 * 2 ^ e := mul_lt_mul_of_pos_right hdigits (by positivity)
      _ = 2 ^ 52 * 2 ^ (e + 1) := by
          rw [zpow_add_one₀ two_ne_zero]
          ring
      _ ≤ m' * 2 ^ e' := mul_le_mul hdigits' hscale (by positivity) (by positivity)
  rcases lt_trichotomy e e' with hlt | rfl | hgt
  · rw [Int.compare_eq_lt.mpr hlt, (cmp_eq_lt_iff _ _).mpr (hlower h h' hlt)]
    rfl
  · have hscale : (0 : ℝ) < 2 ^ e := by positivity
    rw [Int.compare_eq_eq.mpr rfl, cmp_mul_pos_right hscale, Ordering.eq_then]
    rcases lt_trichotomy m m' with hlt | rfl | hgt
    · rw [Nat.compare_eq_lt.mpr hlt, (cmp_eq_lt_iff _ _).mpr (by exact_mod_cast hlt)]
    · rw [Nat.compare_eq_eq.mpr rfl, cmp_self_eq_eq]
    · rw [Nat.compare_eq_gt.mpr hgt, (cmp_eq_gt_iff _ _).mpr (by exact_mod_cast hgt)]
  · rw [Int.compare_eq_gt.mpr hgt, (cmp_eq_gt_iff _ _).mpr (hlower h' h hgt)]
    rfl

/-- Finite doubles compare as the numbers that they stand for. -/
theorem compare_view {a b : Float} (ha : a.isFinite = true) (hb : b.isFinite = true) :
    (view a).compare (view b) = some (cmp (real a) (real b)) := by
  rcases cases_of_isFinite ha with ⟨s, hx⟩ | ⟨s, m, e, hm, hx⟩ <;>
    rcases cases_of_isFinite hb with ⟨s', hy⟩ | ⟨s', m', e', hm', hy⟩ <;>
    simp only [real, hx, hy, value_zero, value_finite]
  · rw [cmp_self_eq_eq]
    rfl
  · have hpos : (0 : ℝ) < m' * 2 ^ e' := by positivity
    cases s'
    · rw [(cmp_eq_gt_iff _ _).mpr (by simpa [Sign.apply] using hpos)]
      rfl
    · rw [(cmp_eq_lt_iff _ _).mpr (by simpa [Sign.apply] using hpos)]
      rfl
  · have hpos : (0 : ℝ) < m * 2 ^ e := by positivity
    cases s
    · rw [(cmp_eq_lt_iff _ _).mpr (by simpa [Sign.apply] using hpos)]
      rfl
    · rw [(cmp_eq_gt_iff _ _).mpr (by simpa [Sign.apply] using hpos)]
      rfl
  · have hpos : (0 : ℝ) < m * 2 ^ e := by positivity
    have hpos' : (0 : ℝ) < m' * 2 ^ e' := by positivity
    have hshape := compare_shape (shape_of_view hx).1 (shape_of_view hy).1
    have hneg (x y : ℝ) : cmp (-x) (-y) = cmp y x := by simp only [cmp, cmpUsing, neg_lt_neg_iff]
    cases s <;> cases s' <;> simp only [Sign.apply, Int.cast_neg, Int.cast_natCast, neg_mul]
    · rw [hneg, ← cmp_swap, ← hshape]
      rfl
    · rw [(cmp_eq_lt_iff _ _).mpr (by linarith)]
      rfl
    · rw [(cmp_eq_gt_iff _ _).mpr (by linarith)]
      rfl
    · rw [← hshape]
      rfl

theorem lt_iff_real {a b : Float} (ha : a.isFinite = true) (hb : b.isFinite = true) :
    a < b ↔ real a < real b := by
  rw [lt_iff, compare_view ha hb, Option.some_inj, cmp_eq_lt_iff]

theorem beq_iff_real {a b : Float} (ha : a.isFinite = true) (hb : b.isFinite = true) :
    (a == b) = true ↔ real a = real b := by
  rw [beq_iff, compare_view ha hb, Option.some_inj, cmp_eq_eq_iff]

theorem le_iff_real {a b : Float} (ha : a.isFinite = true) (hb : b.isFinite = true) :
    a ≤ b ↔ real a ≤ real b := by
  rw [le_iff_lt_or_beq, lt_iff_real ha hb, beq_iff_real ha hb, le_iff_lt_or_eq]

end Double

end Aleatory
