import Aleatory.Proofs.Numeric.Operations

/-!
# Magnitudes of doubles

`Within k x` says that `x` is finite and at most `2 ^ k` in magnitude. A bound for the operands of
an operation gives one for its result, so a formula that starts from bounded numbers overflows
nowhere, and each of its operations is the one on real numbers, rounded. Sums of lists have a bound
that does not depend on their length: beyond it, a summand is rounded away.
-/

namespace Aleatory

namespace Double

open Float.Model Float.Model.UnpackedFloat

/-- A finite double of a bounded magnitude. -/
structure Within (k : ℕ) (x : Float) : Prop where
  isFinite : x.isFinite = true
  abs_le : |real x| ≤ 2 ^ k

section

variable {j k : ℕ} {a b x : Float} {y : ℝ}

theorem Within.mono (h : Within j x) (hjk : j ≤ k) : Within k x :=
  ⟨h.isFinite, h.abs_le.trans (pow_le_pow_right₀ one_le_two hjk)⟩

theorem abs_nearest_le_two_pow (h : |y| ≤ 2 ^ k) : |nearest y| ≤ 2 ^ k := by
  have hle := abs_nearest_le_two_zpow (k := k) (by omega) (by rwa [zpow_natCast])
  rwa [zpow_natCast] at hle

/-- What rounds to less than `2 ^ 1024` rounds to a double. -/
theorem Rounds.eq_nearest (h : Rounds y (view x)) (hy : |y| ≤ 2 ^ k) (hk : k ≤ 1023) :
    Within k x ∧ real x = nearest y := by
  have hnearest := abs_nearest_le_two_pow hy
  generalize hu : view x = u at h
  cases h with
  | near hfinite hvalue =>
      have hreal : real x = nearest y := by rw [real, hu, hvalue]
      exact ⟨⟨by rw [isFinite_eq, hu, hfinite], hreal ▸ hnearest⟩, hreal⟩
  | @far s hfar =>
      have hbelow : (s.apply 1 : ℤ) * nearest y ≤ 2 ^ k := by
        cases s <;> simp only [Sign.apply] <;> push_cast <;> linarith [abs_le.mp hnearest]
      have hlt : (2 : ℝ) ^ k < 2 ^ 1024 := pow_lt_pow_right₀ one_lt_two (by omega)
      exact absurd (hfar.trans hbelow) hlt.not_ge

theorem Within.neg (h : Within k x) : Within k (-x) :=
  ⟨(isFinite_neg x).trans h.isFinite, by rw [real_neg, abs_neg]; exact h.abs_le⟩

theorem add_eq_nearest (ha : Within k a) (hb : Within k b) (hk : k ≤ 1022) :
    Within (k + 1) (a + b) ∧ real (a + b) = nearest (real a + real b) := by
  refine (rounds_add ha.isFinite hb.isFinite).eq_nearest ?_ (by omega)
  calc |real a + real b|
      ≤ |real a| + |real b| := abs_add_le _ _
    _ ≤ 2 ^ k + 2 ^ k := add_le_add ha.abs_le hb.abs_le
    _ = 2 ^ (k + 1) := by rw [pow_succ, mul_two]

theorem sub_eq_nearest (ha : Within k a) (hb : Within k b) (hk : k ≤ 1022) :
    Within (k + 1) (a - b) ∧ real (a - b) = nearest (real a - real b) := by
  have h := add_eq_nearest ha hb.neg hk
  have hreal : real a + real (-b) = real a - real b := by
    rw [real_neg]
    ring
  rwa [hreal, ← sub_eq_add_neg] at h

theorem mul_eq_nearest (ha : Within j a) (hb : Within k b) (hjk : j + k ≤ 1023) :
    Within (j + k) (a * b) ∧ real (a * b) = nearest (real a * real b) := by
  refine (rounds_mul ha.isFinite hb.isFinite).eq_nearest ?_ hjk
  rw [abs_mul, pow_add]
  exact mul_le_mul ha.abs_le hb.abs_le (abs_nonneg _) (by positivity)

theorem div_eq_nearest (ha : Within k a) (hb : b.isFinite = true) (hhalf : 1 / 2 ≤ real b)
    (hk : k ≤ 1022) : Within (k + 1) (a / b) ∧ real (a / b) = nearest (real a / real b) := by
  have hpos : 0 < real b := by linarith
  refine (rounds_div ha.isFinite hb hpos.ne').eq_nearest ?_ (by omega)
  rw [abs_div, abs_of_pos hpos, div_le_iff₀ hpos, pow_succ]
  calc |real a|
      ≤ 2 ^ k := ha.abs_le
    _ = 2 ^ k * 2 * (1 / 2) := by ring
    _ ≤ 2 ^ k * 2 * real b := by gcongr

theorem Within.add (ha : Within k a) (hb : Within k b) (hk : k ≤ 1022) : Within (k + 1) (a + b) :=
  (add_eq_nearest ha hb hk).1

theorem Within.sub (ha : Within k a) (hb : Within k b) (hk : k ≤ 1022) : Within (k + 1) (a - b) :=
  (sub_eq_nearest ha hb hk).1

theorem Within.mul (ha : Within j a) (hb : Within k b) (hjk : j + k ≤ 1023) :
    Within (j + k) (a * b) :=
  (mul_eq_nearest ha hb hjk).1

theorem toFloat_eq_nearest (n : UInt64) :
    Within 64 n.toFloat ∧ real n.toFloat = nearest n.toNat := by
  have hlt : (n.toNat : ℝ) < 2 ^ 64 := by exact_mod_cast n.toNat_lt
  refine (rounds_toFloat n).eq_nearest ?_ (by norm_num)
  rw [abs_of_nonneg (Nat.cast_nonneg _)]
  exact hlt.le

theorem within_toFloat (n : UInt64) : Within 64 n.toFloat := (toFloat_eq_nearest n).1

theorem zero_le_real_toFloat (n : UInt64) : 0 ≤ real n.toFloat := by
  rw [(toFloat_eq_nearest n).2]
  exact nearest_nonneg (Nat.cast_nonneg _)

/-- The sum of any number of doubles within `k` stays within `k + 54`. -/
theorem within_foldl {xs : List Float} {start : Float} (hk : k ≤ 968)
    (hxs : ∀ x ∈ xs, Within k x) (hstart : Within (k + 54) start) :
    Within (k + 54) (xs.foldl (· + ·) start) := by
  induction xs generalizing start with
  | nil => exact hstart
  | cons x xs ih =>
      obtain ⟨hx, hrest⟩ := List.forall_mem_cons.mp hxs
      obtain ⟨hsum, hreal⟩ := add_eq_nearest hstart (hx.mono (by omega)) (by omega)
      refine ih hrest ⟨hsum.isFinite, ?_⟩
      have hbottom : (-1076 : ℤ) ≤ k := by omega
      have hle := abs_nearest_add_le hbottom (by exact_mod_cast hstart.abs_le)
        (by exact_mod_cast hx.abs_le)
      rw [hreal]
      exact_mod_cast hle

theorem le_real_add (ha : Within k a) (hb : Within k b) (hk : k ≤ 1022) (hzero : 0 ≤ real a) :
    real b ≤ real (a + b) := by
  have h := nearest_mono (show real b ≤ real a + real b by linarith)
  rwa [nearest_real, ← (add_eq_nearest ha hb hk).2] at h

/-- A sum of numbers that are not negative is as large as each of them. -/
theorem le_real_foldl {xs : List Float} {start : Float} (hk : k ≤ 968)
    (hxs : ∀ x ∈ xs, Within k x) (hpos : ∀ x ∈ xs, 0 ≤ real x) (hstart : Within (k + 54) start)
    (hzero : 0 ≤ real start) :
    real start ≤ real (xs.foldl (· + ·) start) ∧
      ∀ x ∈ xs, real x ≤ real (xs.foldl (· + ·) start) := by
  induction xs generalizing start with
  | nil => exact ⟨le_rfl, nofun⟩
  | cons x xs ih =>
      obtain ⟨hx, hrest⟩ := List.forall_mem_cons.mp hxs
      obtain ⟨hx_pos, hrest_pos⟩ := List.forall_mem_cons.mp hpos
      have hx' := hx.mono (show k ≤ k + 54 by omega)
      have hnew := le_real_add hstart hx' (by omega) hzero
      have hold := le_real_add hx' hstart (by omega) hx_pos
      rw [add_comm] at hold
      have hsum : Within (k + 54) ([x].foldl (· + ·) start) :=
        within_foldl hk (by simpa using hx) hstart
      obtain ⟨hle, hall⟩ := ih hrest hrest_pos hsum (hzero.trans hold)
      exact ⟨hold.trans hle, List.forall_mem_cons.mpr ⟨hnew.trans hle, hall⟩⟩

end

/-! ## Literals -/

/-- What a double stands for, read off its bits. -/
theorem real_of_view {x : Float} {s : Sign} {m : ℕ} {e : ℤ} {hm : 0 < m}
    (h : view x = .finite s m e hm) : real x = (s.apply m : ℤ) * 2 ^ e := by
  rw [real, h, value_finite]

theorem real_zero : real 0.0 = 0 := rfl

theorem real_negZero : real (-0.0) = 0 := by rw [real_neg, real_zero, neg_zero]

theorem within_negZero (k : ℕ) : Within k (-0.0) :=
  ⟨rfl, by rw [real_negZero, abs_zero]; positivity⟩

/-- The exponent of a double is no larger than a given one. -/
def exponentAtMost (t : ℤ) : UnpackedFloat → Bool
  | .finite _ _ e _ => e ≤ t
  | _ => true

theorem abs_real_lt_of_exponent {x : Float} {t : ℤ} (h : exponentAtMost t (view x) = true) :
    |real x| < 2 ^ (t + 53) := by
  have hpos : (0 : ℝ) < 2 ^ (t + 53) := by positivity
  rw [real]
  rcases hx : view x with _ | _ | _ | ⟨s, m, e, hm⟩
  · simpa [value] using hpos
  · simpa [value] using hpos
  · simpa [value] using hpos
  · rw [hx] at h
    have hdigits : (m : ℝ) < 2 ^ (53 : ℤ) := by exact_mod_cast (shape_of_view hx).1.digits
    have hscale : (2 : ℝ) ^ e ≤ 2 ^ t := zpow_le_zpow_right₀ one_le_two (of_decide_eq_true h)
    have habs : |((s.apply m : ℤ) : ℝ)| = m := by cases s <;> simp [Sign.apply]
    rw [value_finite, abs_mul, habs, abs_of_pos (by positivity : (0 : ℝ) < 2 ^ e), Int.add_comm,
      zpow_add₀ two_ne_zero]
    calc (m : ℝ) * 2 ^ e
        < 2 ^ (53 : ℤ) * 2 ^ e := mul_lt_mul_of_pos_right hdigits (by positivity)
      _ ≤ 2 ^ (53 : ℤ) * 2 ^ t := mul_le_mul_of_nonneg_left hscale (by positivity)

theorem abs_real_lt (x : Float) : |real x| < 2 ^ 1024 := by
  have htop : exponentAtMost 971 (view x) = true := by
    rcases hx : view x with _ | _ | _ | ⟨s, m, e, hm⟩
    · rfl
    · rfl
    · rfl
    · exact decide_eq_true (shape_of_view hx).2
  have h := abs_real_lt_of_exponent htop
  rwa [show (971 : ℤ) + 53 = (1024 : ℕ) by norm_num, zpow_natCast] at h

/-- A finite result is the nearest double. -/
theorem Rounds.real_eq {x : Float} {y : ℝ} (h : Rounds y (view x)) (hx : x.isFinite = true) :
    real x = nearest y := by
  rw [isFinite_eq] at hx
  rw [real]
  generalize view x = u at h hx
  cases h with
  | near _ hvalue => exact hvalue
  | far _ => cases hx

/-- What is no larger than a double does not round to an infinity. -/
theorem Rounds.isFinite_of_le {x c : Float} {y : ℝ} (h : Rounds y (view x)) (hy : |y| ≤ |real c|) :
    x.isFinite = true := by
  have hnearest : |nearest y| < 2 ^ 1024 := by
    calc |nearest y|
        = nearest |y| := (nearest_abs y).symm
      _ ≤ nearest |real c| := nearest_mono hy
      _ = |real c| := by rw [nearest_abs, nearest_real]
      _ < 2 ^ 1024 := abs_real_lt c
  rw [isFinite_eq]
  generalize view x = u at h
  cases h with
  | near hfinite _ => exact hfinite
  | @far s hfar =>
      have hbelow : (s.apply 1 : ℤ) * nearest y ≤ |nearest y| := by
        cases s <;> simp [Sign.apply, le_abs_self, neg_le_abs]
      exact absurd (hfar.trans hbelow) hnearest.not_ge

theorem within_of_exponent {x : Float} {t : ℤ} {k : ℕ} (hx : x.isFinite = true)
    (h : exponentAtMost t (view x) = true) (hk : t + 53 ≤ k) : Within k x := by
  refine ⟨hx, (abs_real_lt_of_exponent h).le.trans ?_⟩
  rw [← zpow_natCast]
  exact zpow_le_zpow_right₀ one_le_two hk

theorem real_toFloat {n : UInt64} (hn : n.toNat < 2 ^ 53) : real n.toFloat = n.toNat := by
  rw [(toFloat_eq_nearest n).2]
  simpa using nearest_eq_self (n := n.toNat) (e := 0) (by simpa using hn) (by norm_num)

theorem isFinite_toFloat (n : UInt64) : n.toFloat.isFinite = true := (within_toFloat n).isFinite

/-- Two whole numbers that a double lies between. -/
def Between (low high : ℕ) (x : Float) : Prop :=
  low < 2 ^ 53 ∧ high < 2 ^ 53 ∧ x.isFinite = true ∧
    (UInt64.ofNat low).toFloat ≤ x ∧ x ≤ (UInt64.ofNat high).toFloat

instance (low high : ℕ) (x : Float) : Decidable (Between low high x) :=
  inferInstanceAs (Decidable (_ ∧ _))

section

variable {low high k : ℕ} {x : Float} (h : Between low high x)

include h

theorem Between.isFinite : x.isFinite = true := h.2.2.1

theorem Between.bounds : low ≤ real x ∧ real x ≤ high := by
  obtain ⟨hlow, hhigh, hfinite, hbelow, habove⟩ := h
  have hreal {n : ℕ} (hn : n < 2 ^ 53) : real (UInt64.ofNat n).toFloat = n := by
    have htoNat : (UInt64.ofNat n).toNat = n := UInt64.toNat_ofNat_of_lt' (hn.trans (by decide))
    rw [real_toFloat (htoNat.symm ▸ hn), htoNat]
  rw [le_iff_real (isFinite_toFloat _) hfinite, hreal hlow] at hbelow
  rw [le_iff_real hfinite (isFinite_toFloat _), hreal hhigh] at habove
  exact ⟨hbelow, habove⟩

theorem Between.within (hk : high ≤ 2 ^ k) : Within k x := by
  obtain ⟨hbelow, habove⟩ := h.bounds
  refine ⟨h.isFinite, ?_⟩
  rw [abs_of_nonneg ((Nat.cast_nonneg _).trans hbelow)]
  exact habove.trans (by exact_mod_cast hk)

end

theorem Between.real_eq {n : ℕ} {x : Float} (h : Between n n x) : real x = n :=
  le_antisymm h.bounds.2 h.bounds.1

theorem real_one : real 1.0 = 1 := by
  have h : Between 1 1 1.0 := by decide
  simpa using h.real_eq

theorem real_two : real 2.0 = 2 := by
  have h : Between 2 2 2.0 := by decide
  simpa using h.real_eq

theorem real_half : real 0.5 = 1 / 2 := by
  have h : view 0.5 = .finite .positive (2 ^ 52) (-53) (by decide) := rfl
  rw [real_of_view h]
  norm_num [Sign.apply]

theorem within_one : Within 0 1.0 := ⟨rfl, by rw [real_one]; norm_num⟩

theorem within_half : Within 0 0.5 := ⟨rfl, by rw [real_half]; norm_num⟩

theorem nearest_half : nearest (1 / 2) = 1 / 2 := by
  rw [← real_half, nearest_real]

end Double

end Aleatory
