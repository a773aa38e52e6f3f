import Aleatory.Proofs.Numeric.Double

/-!
# The nearest double

The doubles are the numbers `m * 2 ^ e` with `|m| < 2 ^ 53` and `-1074 ≤ e`, as long as they stay
below `2 ^ 1024`. Around a real number they lie `2 ^ place x` apart, and `nearest x` is the one
closest to it, or the one with the even mantissa of two. The bound `2 ^ 1024` is left out here:
whether a result is beyond it is asked after rounding.

Rounding is monotone, keeps what is a double already, and moves a number by half of the distance
between two doubles at most.
-/

namespace Aleatory

namespace Double

/-! ## Powers with whole exponents -/

theorem zpow_eq_pow_div_pow (x : ℝ) (n : ℤ) : x ^ n = x ^ n.toNat / x ^ (-n).toNat := by
  rcases Int.eq_nat_or_neg n with ⟨k, rfl | rfl⟩
  · simp
  · simp [zpow_neg]

/-! ## The nearest whole number -/

/-- The nearest whole number, and the even one of two. -/
noncomputable def roundEven (x : ℝ) : ℤ :=
  if Int.fract x < 1 / 2 then ⌊x⌋
  else if 1 / 2 < Int.fract x then ⌊x⌋ + 1
  else if Even ⌊x⌋ then ⌊x⌋ else ⌊x⌋ + 1

theorem floor_le_roundEven (x : ℝ) : ⌊x⌋ ≤ roundEven x := by
  rw [roundEven]
  split_ifs <;> omega

theorem roundEven_le_floor_add_one (x : ℝ) : roundEven x ≤ ⌊x⌋ + 1 := by
  rw [roundEven]
  split_ifs <;> omega

@[simp] theorem roundEven_intCast (n : ℤ) : roundEven n = n := by
  simp [roundEven]

theorem abs_roundEven_sub_le (x : ℝ) : |roundEven x - x| ≤ 1 / 2 := by
  have hfract : x = ⌊x⌋ + Int.fract x := (Int.floor_add_fract x).symm
  have hlt := Int.fract_lt_one x
  have hnonneg := Int.fract_nonneg x
  rw [roundEven, abs_le]
  split_ifs <;> push_cast <;> constructor <;> linarith

theorem roundEven_mono {x y : ℝ} (h : x ≤ y) : roundEven x ≤ roundEven y := by
  rcases (Int.floor_mono h).lt_or_eq with hlt | heq
  · have := roundEven_le_floor_add_one x
    have := floor_le_roundEven y
    omega
  · have hfract : Int.fract x ≤ Int.fract y := by
      rw [Int.fract, Int.fract, heq]
      linarith
    rw [roundEven, roundEven, ← heq]
    split_ifs <;> first | omega | (exfalso; linarith)

theorem roundEven_neg (x : ℝ) : roundEven (-x) = -roundEven x := by
  by_cases hx : Int.fract x = 0
  · obtain ⟨n, rfl⟩ : ∃ n : ℤ, (n : ℝ) = x := Int.fract_eq_zero_iff.mp hx
    rw [← Int.cast_neg, roundEven_intCast, roundEven_intCast]
  · have hfract : Int.fract (-x) = 1 - Int.fract x := Int.fract_neg hx
    have hfloor : ⌊-x⌋ = -⌊x⌋ - 1 := by
      have hneg := Int.floor_add_fract (-x)
      have hpos := Int.floor_add_fract x
      have hcast : (⌊-x⌋ : ℝ) = ((-⌊x⌋ - 1 : ℤ) : ℝ) := by
        push_cast
        linarith
      exact_mod_cast hcast
    have hparity : Even (-⌊x⌋ - 1) ↔ ¬Even ⌊x⌋ := by
      rw [Int.even_iff, Int.even_iff]
      omega
    simp only [roundEven, hfract, hfloor, hparity]
    split_ifs <;> first | omega | (exfalso; linarith)

/-! ## The doubles near a number -/

/-- The place of the last binary digit of a double near a number. -/
noncomputable def place (x : ℝ) : ℤ := max (Int.log 2 |x| - 52) (-1074)

/-- The double nearest to a number, if there were no largest one. -/
noncomputable def nearest (x : ℝ) : ℝ := roundEven (x / 2 ^ place x) * 2 ^ place x

@[simp] theorem nearest_zero : nearest 0 = 0 := by
  simp [nearest, roundEven]

theorem place_neg (x : ℝ) : place (-x) = place x := by
  rw [place, place, abs_neg]

theorem nearest_neg (x : ℝ) : nearest (-x) = -nearest x := by
  rw [nearest, nearest, place_neg, neg_div, roundEven_neg, Int.cast_neg, neg_mul]

theorem place_mono {x y : ℝ} (hx : 0 < |x|) (h : |x| ≤ |y|) : place x ≤ place y :=
  max_le_max_right _ (sub_le_sub_right (Int.log_mono_right hx h) 52)

theorem lt_two_zpow_place (x : ℝ) : |x| < 2 ^ (place x + 53) := by
  have hlog : |x| < (2 : ℝ) ^ (Int.log 2 |x| + 1) := by
    exact_mod_cast Int.lt_zpow_succ_log_self (b := 2) (by norm_num) |x|
  have hplace : Int.log 2 |x| + 1 ≤ place x + 53 := by
    have := le_max_left (Int.log 2 |x| - 52) (-1074)
    rw [place]
    omega
  exact hlog.trans_le (zpow_le_zpow_right₀ one_le_two hplace)

/-- Above the least place, a number has all the digits of a double. -/
theorem two_zpow_place_le {x : ℝ} (hx : x ≠ 0) (h : -1074 < place x) :
    2 ^ (place x + 52) ≤ |x| := by
  have hlog : (2 : ℝ) ^ Int.log 2 |x| ≤ |x| := by
    exact_mod_cast Int.zpow_log_le_self (b := 2) (by norm_num) (abs_pos.mpr hx)
  have hplace : place x + 52 = Int.log 2 |x| := by
    rw [place] at h ⊢
    omega
  rwa [hplace]

/-- Rounding moves a number by half of the distance between two doubles at most. -/
theorem abs_nearest_sub_le (x : ℝ) : |nearest x - x| ≤ 2 ^ (place x - 1) := by
  have hscale : (0 : ℝ) < 2 ^ place x := by positivity
  have hx : x / 2 ^ place x * 2 ^ place x = x := by field_simp
  have hhalf := mul_le_mul_of_nonneg_right (abs_roundEven_sub_le (x / 2 ^ place x)) hscale.le
  rw [← abs_of_pos hscale, ← abs_mul, sub_mul, abs_of_pos hscale, hx] at hhalf
  calc |nearest x - x|
      ≤ 1 / 2 * 2 ^ place x := hhalf
    _ = 2 ^ (place x - 1) := by
        rw [zpow_sub_one₀ two_ne_zero]
        ring

/-! ## What is a double already -/

theorem nearest_of_place_le {n e : ℤ} (h : place (n * 2 ^ e) ≤ e) :
    nearest (n * 2 ^ e) = n * 2 ^ e := by
  generalize hp : place (n * 2 ^ e) = p at h
  obtain ⟨k, rfl⟩ : ∃ k : ℕ, e = p + k := ⟨(e - p).toNat, by omega⟩
  have hwhole : (n : ℝ) * 2 ^ (p + k) / 2 ^ p = (n * 2 ^ k : ℤ) := by
    rw [zpow_add₀ two_ne_zero, zpow_natCast]
    field_simp
    push_cast
    ring
  rw [nearest, hp, hwhole, roundEven_intCast, ← hwhole]
  field_simp

/-- A whole multiple of a place, with no more digits than a double has. -/
theorem nearest_eq_self {n e : ℤ} (hn : |n| < 2 ^ 53) (he : -1074 ≤ e) :
    nearest (n * 2 ^ e) = n * 2 ^ e := by
  rcases eq_or_ne n 0 with rfl | hzero
  · simp
  · apply nearest_of_place_le
    have habs : |(n : ℝ) * 2 ^ e| < 2 ^ (e + 53) := by
      have hcast : |(n : ℝ)| < 2 ^ (53 : ℤ) := by exact_mod_cast hn
      rw [abs_mul, abs_of_pos (by positivity : (0 : ℝ) < 2 ^ e), Int.add_comm,
        zpow_add₀ two_ne_zero]
      exact mul_lt_mul_of_pos_right hcast (by positivity)
    have hpos : 0 < |(n : ℝ) * 2 ^ e| := by positivity
    have hlog : Int.log 2 |(n : ℝ) * 2 ^ e| < e + 53 := by
      apply (Int.lt_zpow_iff_log_lt (by norm_num) hpos).mp
      exact_mod_cast habs
    rw [place]
    omega

theorem nearest_natCast_mul {n : ℕ} {e : ℤ} (hn : n < 2 ^ 53) (he : -1074 ≤ e) :
    nearest (n * 2 ^ e) = n * 2 ^ e := by
  have hdigits : |(n : ℤ)| < 2 ^ 53 := by
    rw [Nat.abs_cast]
    exact_mod_cast hn
  exact_mod_cast nearest_eq_self hdigits he

theorem nearest_two_zpow {k : ℤ} (hk : -1074 ≤ k) : nearest (2 ^ k) = 2 ^ k := by
  simpa using nearest_eq_self (n := 1) (by norm_num) hk

/-! ## Order -/

theorem nearest_nonneg {x : ℝ} (hx : 0 ≤ x) : 0 ≤ nearest x := by
  have hround : (0 : ℤ) ≤ roundEven (x / 2 ^ place x) := by
    have h := roundEven_mono (show ((0 : ℤ) : ℝ) ≤ x / 2 ^ place x by push_cast; positivity)
    rwa [roundEven_intCast] at h
  have hcast : (0 : ℝ) ≤ roundEven (x / 2 ^ place x) := by exact_mod_cast hround
  exact mul_nonneg hcast (by positivity)

/-- Where the places of two numbers differ, a power of two lies between what they round to. -/
theorem nearest_le_of_place_lt {x y : ℝ} (hx : 0 ≤ x) (hy : 0 < y) (h : place x < place y) :
    nearest x ≤ nearest y := by
  have hbottom : -1074 ≤ place x := le_max_right _ _
  have hbelow : x ≤ 2 ^ (place y + 52) := by
    have hlt := lt_two_zpow_place x
    rw [abs_of_nonneg hx] at hlt
    exact hlt.le.trans (zpow_le_zpow_right₀ one_le_two (by omega))
  have habove : 2 ^ (place y + 52) ≤ y := by
    have hle := two_zpow_place_le hy.ne' (by omega)
    rwa [abs_of_pos hy] at hle
  have hnearest (z : ℝ) (k : ℤ) (hk : place z ≤ k) :
      (z ≤ 2 ^ k → nearest z ≤ 2 ^ k) ∧ (2 ^ k ≤ z → 2 ^ k ≤ nearest z) := by
    obtain ⟨n, rfl⟩ : ∃ n : ℕ, k = place z + n := ⟨(k - place z).toNat, by omega⟩
    have hscale : (0 : ℝ) < 2 ^ place z := by positivity
    have hwhole : (2 : ℝ) ^ (place z + n) = ((2 ^ n : ℤ) : ℝ) * 2 ^ place z := by
      rw [zpow_add₀ two_ne_zero, zpow_natCast]
      push_cast
      ring
    rw [hwhole, nearest]
    refine ⟨fun hz => ?_, fun hz => ?_⟩
    · have h := roundEven_mono ((div_le_iff₀ hscale).mpr hz)
      rw [roundEven_intCast] at h
      exact mul_le_mul_of_nonneg_right (by exact_mod_cast h) hscale.le
    · have h := roundEven_mono ((le_div_iff₀ hscale).mpr hz)
      rw [roundEven_intCast] at h
      exact mul_le_mul_of_nonneg_right (by exact_mod_cast h) hscale.le
  exact ((hnearest x _ (by omega)).1 hbelow).trans ((hnearest y _ (by omega)).2 habove)

theorem nearest_mono_of_nonneg {x y : ℝ} (hx : 0 ≤ x) (h : x ≤ y) : nearest x ≤ nearest y := by
  rcases hx.eq_or_lt with rfl | hpos
  · simpa using nearest_nonneg h
  · have hy := hpos.trans_le h
    have hplace : place x ≤ place y := by
      apply place_mono (abs_pos.mpr hpos.ne')
      rwa [abs_of_pos hpos, abs_of_pos hy]
    rcases hplace.lt_or_eq with hlt | heq
    · exact nearest_le_of_place_lt hx hy hlt
    · have hscale : (0 : ℝ) < 2 ^ place y := by positivity
      have hround := roundEven_mono (div_le_div_of_nonneg_right h hscale.le)
      rw [nearest, nearest, heq]
      exact mul_le_mul_of_nonneg_right (by exact_mod_cast hround) hscale.le

theorem nearest_mono {x y : ℝ} (h : x ≤ y) : nearest x ≤ nearest y := by
  rcases le_total 0 x with hx | hx
  · exact nearest_mono_of_nonneg hx h
  · have hneg : nearest x = -nearest (-x) := by rw [nearest_neg, neg_neg]
    rcases le_total 0 y with hy | hy
    · have hleft := nearest_nonneg (neg_nonneg.mpr hx)
      have hright := nearest_nonneg hy
      linarith
    · have hle := nearest_mono_of_nonneg (neg_nonneg.mpr hy) (neg_le_neg h)
      rw [nearest_neg, nearest_neg] at hle
      linarith

theorem two_zpow_le_nearest {x : ℝ} {k : ℤ} (hk : -1074 ≤ k) (h : 2 ^ k ≤ x) :
    2 ^ k ≤ nearest x := by
  have hmono := nearest_mono h
  rwa [nearest_two_zpow hk] at hmono

theorem one_le_nearest {x : ℝ} (h : 1 ≤ x) : 1 ≤ nearest x := by
  rw [← zpow_zero (2 : ℝ)] at h ⊢
  exact two_zpow_le_nearest (by norm_num) h

theorem abs_nearest_le_two_zpow {x : ℝ} {k : ℤ} (hk : -1074 ≤ k) (h : |x| ≤ 2 ^ k) :
    |nearest x| ≤ 2 ^ k := by
  obtain ⟨hlow, hhigh⟩ := abs_le.mp h
  have habove := nearest_mono hhigh
  have hbelow := nearest_mono hlow
  rw [nearest_neg, nearest_two_zpow hk] at hbelow
  rw [nearest_two_zpow hk] at habove
  exact abs_le.mpr ⟨hbelow, habove⟩

theorem nearest_abs (x : ℝ) : nearest |x| = |nearest x| := by
  rcases le_total 0 x with hx | hx
  · rw [abs_of_nonneg hx, abs_of_nonneg (nearest_nonneg hx)]
  · have hneg := nearest_nonneg (neg_nonneg.mpr hx)
    rw [nearest_neg] at hneg
    rw [abs_of_nonpos hx, nearest_neg, abs_of_nonpos (neg_nonneg.mp hneg)]

/-! ## How far rounding moves a number -/

theorem abs_nearest_sub_le_of_le {x : ℝ} {k : ℤ} (hk : -1021 ≤ k) (h : |x| ≤ 2 ^ k) :
    |nearest x - x| ≤ 2 ^ (k - 54) := by
  rcases eq_or_ne x 0 with rfl | hzero
  · simp
    positivity
  rcases h.lt_or_eq with hlt | heq
  · have hlog : Int.log 2 |x| < k := by
      apply (Int.lt_zpow_iff_log_lt (by norm_num) (abs_pos.mpr hzero)).mp
      exact_mod_cast hlt
    have hplace : place x - 1 ≤ k - 54 := by
      rw [place]
      omega
    exact (abs_nearest_sub_le x).trans (zpow_le_zpow_right₀ one_le_two hplace)
  · have hexact : |nearest x| = |x| := by
      rw [← nearest_abs, heq, nearest_two_zpow (by omega)]
    have hself : nearest x = x := by
      rcases le_total 0 x with hx | hx
      · rwa [abs_of_nonneg hx, abs_of_nonneg (nearest_nonneg hx)] at hexact
      · have hneg := nearest_nonneg (neg_nonneg.mpr hx)
        rw [nearest_neg] at hneg
        rw [abs_of_nonpos hx, abs_of_nonpos (neg_nonneg.mp hneg)] at hexact
        exact neg_inj.mp hexact
    rw [hself, sub_self, abs_zero]
    positivity

/-- Above the least normal double, the error is small in proportion. -/
theorem abs_nearest_sub_le_mul {x : ℝ} (h : 2 ^ (-1022 : ℤ) ≤ |x|) :
    |nearest x - x| ≤ 2 ^ (-53 : ℤ) * |x| := by
  have hpos : 0 < |x| := lt_of_lt_of_le (by positivity) h
  have hbottom : -1022 ≤ Int.log 2 |x| := by
    apply (Int.zpow_le_iff_le_log (by norm_num) hpos).mp
    exact_mod_cast h
  have hplace : place x - 1 = -53 + Int.log 2 |x| := by
    rw [place]
    omega
  have hlog : (2 : ℝ) ^ Int.log 2 |x| ≤ |x| := by
    exact_mod_cast Int.zpow_log_le_self (b := 2) (by norm_num) hpos
  calc |nearest x - x|
      ≤ 2 ^ (place x - 1) := abs_nearest_sub_le x
    _ = 2 ^ (-53 : ℤ) * 2 ^ Int.log 2 |x| := by rw [hplace, zpow_add₀ two_ne_zero]
    _ ≤ 2 ^ (-53 : ℤ) * |x| := mul_le_mul_of_nonneg_left hlog (by positivity)

theorem roundEven_of_fract_lt {x : ℝ} (h : Int.fract x < 1 / 2) : roundEven x = ⌊x⌋ := if_pos h

theorem place_two_zpow_add {k : ℤ} (hk : -1076 ≤ k) :
    place ((2 : ℝ) ^ (k + 54) + 2 ^ k) = k + 2 := by
  have hpos : 0 < (2 : ℝ) ^ (k + 54) + 2 ^ k := by positivity
  have hlow : (2 : ℝ) ^ (k + 54) ≤ 2 ^ (k + 54) + 2 ^ k := le_add_of_nonneg_right (by positivity)
  have hhigh : (2 : ℝ) ^ (k + 54) + 2 ^ k < 2 ^ (k + 54 + 1) := by
    have hlt : (2 : ℝ) ^ k < 2 ^ (k + 54) := zpow_lt_zpow_right₀ one_lt_two (by omega)
    rw [zpow_add_one₀ two_ne_zero]
    linarith
  have hbelow : k + 54 ≤ Int.log 2 ((2 : ℝ) ^ (k + 54) + 2 ^ k) := by
    apply (Int.zpow_le_iff_le_log (by norm_num) hpos).mp
    exact_mod_cast hlow
  have habove : Int.log 2 ((2 : ℝ) ^ (k + 54) + 2 ^ k) < k + 54 + 1 := by
    apply (Int.lt_zpow_iff_log_lt (by norm_num) hpos).mp
    exact_mod_cast hhigh
  rw [place, abs_of_pos hpos]
  omega

/-- A quarter of the distance between two doubles is rounded away. -/
theorem nearest_two_zpow_add {k : ℤ} (hk : -1076 ≤ k) :
    nearest ((2 : ℝ) ^ (k + 54) + 2 ^ k) = 2 ^ (k + 54) := by
  have hwhole : (2 : ℝ) ^ (k + 54) = 2 ^ 52 * 2 ^ (k + 2) := by
    rw [show k + 54 = 52 + (k + 2) by ring, zpow_add₀ two_ne_zero 52]
    norm_num
  have hquarter : (2 : ℝ) ^ k = 1 / 4 * 2 ^ (k + 2) := by
    rw [zpow_add₀ two_ne_zero]
    norm_num
    ring
  have hcast : (2 : ℝ) ^ 52 = ((2 ^ 52 : ℤ) : ℝ) := by norm_cast
  have hfract : Int.fract ((1 : ℝ) / 4) = 1 / 4 := Int.fract_eq_self.mpr (by norm_num)
  have hfloor : ⌊(1 : ℝ) / 4⌋ = 0 := Int.floor_eq_zero_iff.mpr (by norm_num)
  rw [nearest, place_two_zpow_add hk, hwhole, hquarter, ← add_mul,
    mul_div_cancel_right₀ _ (by positivity), hcast,
    roundEven_of_fract_lt (by rw [Int.fract_intCast_add, hfract]; norm_num),
    Int.floor_intCast_add, hfloor, add_zero]

/-- A summand that is too small changes nothing: sums of small numbers stop growing. -/
theorem abs_nearest_add_le {s t : ℝ} {k : ℤ} (hk : -1076 ≤ k) (hs : |s| ≤ 2 ^ (k + 54))
    (ht : |t| ≤ 2 ^ k) : |nearest (s + t)| ≤ 2 ^ (k + 54) := by
  have hsum : |s + t| ≤ 2 ^ (k + 54) + 2 ^ k := (abs_add_le s t).trans (add_le_add hs ht)
  rw [← nearest_abs, ← nearest_two_zpow_add hk]
  exact nearest_mono hsum

end Double

end Aleatory
