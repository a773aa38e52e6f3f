import Aleatory.Proofs.Numeric.Rounding

/-!
# What rounds to a double

The numbers that round to a positive double are those that lie no further from it than half way to
its neighbours; half way itself rounds to it just if its mantissa is even (`nearest_eq_iff`). The
neighbour below a power of two is half as far away as the one above it, unless there are no smaller
places.
-/

namespace Aleatory

namespace Double

/-! ## Whole numbers -/

theorem abs_sub_roundEven (x : ℝ) :
    |x - roundEven x| < 1 / 2 ∨ |x - roundEven x| = 1 / 2 ∧ Even (roundEven x) := by
  have hfract : x - ⌊x⌋ = Int.fract x := rfl
  have hnonneg := Int.fract_nonneg x
  have hlt := Int.fract_lt_one x
  rw [roundEven]
  split_ifs with hless hmore heven
  · left
    rwa [hfract, abs_of_nonneg hnonneg]
  · left
    push_cast
    rw [abs_lt]
    constructor <;> linarith
  · right
    have htie : Int.fract x = 1 / 2 := le_antisymm (not_lt.mp hmore) (not_lt.mp hless)
    exact ⟨by rw [hfract, htie]; norm_num, heven⟩
  · right
    have htie : Int.fract x = 1 / 2 := le_antisymm (not_lt.mp hmore) (not_lt.mp hless)
    have hsub : x - ((⌊x⌋ + 1 : ℤ) : ℝ) = -(1 / 2) := by
      push_cast
      linarith
    exact ⟨by rw [hsub, abs_neg]; norm_num, Int.even_add_one.mpr heven⟩

/-- A number rounds to a whole number just if it is less than a half away from it, or a half if the
whole number is even. -/
theorem roundEven_eq_iff {x : ℝ} {n : ℤ} :
    roundEven x = n ↔ |x - n| < 1 / 2 ∨ |x - n| = 1 / 2 ∧ Even n := by
  refine ⟨fun h => h ▸ abs_sub_roundEven x, fun h => ?_⟩
  have hself := abs_sub_roundEven x
  generalize roundEven x = r at hself
  have htriangle : |((r - n : ℤ) : ℝ)| ≤ |x - r| + |x - n| := by
    push_cast
    rw [abs_sub_comm x r]
    exact abs_sub_le _ _ _
  by_contra hne
  have hone : (1 : ℝ) ≤ |((r - n : ℤ) : ℝ)| := by
    exact_mod_cast Int.one_le_abs (sub_ne_zero.mpr hne)
  -- Both are a half away, so both are even and cannot be as close as that.
  have heven : Even r ∧ Even n := by
    rcases hself with hself | ⟨hself, hr⟩ <;> rcases h with h | ⟨h, hn⟩
    · linarith
    · linarith
    · linarith
    · exact ⟨hr, hn⟩
  have htwo : (2 : ℝ) ≤ |((r - n : ℤ) : ℝ)| := by
    obtain ⟨k, hk⟩ := heven.1.sub heven.2
    have hzero : k ≠ 0 := by omega
    have habs := Int.one_le_abs hzero
    rw [hk, ← two_mul]
    push_cast
    rw [abs_mul, abs_two]
    have hcast : (1 : ℝ) ≤ |(k : ℝ)| := by exact_mod_cast habs
    linarith
  have hself_le : |x - r| ≤ 1 / 2 := hself.elim le_of_lt fun h => h.1.le
  have hother_le : |x - n| ≤ 1 / 2 := h.elim le_of_lt fun h => h.1.le
  linarith

/-! ## Doubles -/

/-- The distance from a double down to half way to its neighbour below, in quarters of its last
place. -/
def quartersBelow (m : ℕ) (e : ℤ) : ℝ := if m = 2 ^ 52 ∧ -1074 < e then 1 else 2

/-- The numbers that lie no further from a double than half way to its neighbours, the ends being
included just if the mantissa is even. -/
def Nearby (m : ℕ) (e : ℤ) (y : ℝ) : Prop :=
  if Even m then (4 * m - quartersBelow m e) * 2 ^ e ≤ 4 * y ∧ 4 * y ≤ (4 * m + 2) * 2 ^ e
  else (4 * m - quartersBelow m e) * 2 ^ e < 4 * y ∧ 4 * y < (4 * m + 2) * 2 ^ e

section

variable {m : ℕ} {e : ℤ} {y : ℝ}

theorem quartersBelow_bounds : 1 ≤ quartersBelow m e ∧ quartersBelow m e ≤ 2 := by
  rw [quartersBelow]
  split_ifs <;> norm_num

theorem Nearby.bounds (h : Nearby m e y) :
    (4 * m - quartersBelow m e) * 2 ^ e ≤ 4 * y ∧ 4 * y ≤ (4 * m + 2) * 2 ^ e := by
  rw [Nearby] at h
  split_ifs at h
  · exact h
  · exact ⟨h.1.le, h.2.le⟩

/-- What lies between numbers near a double is near it. -/
theorem Nearby.of_mem {x z : ℝ} (hx : Nearby m e x) (hz : Nearby m e z) (hxy : x ≤ y)
    (hyz : y ≤ z) : Nearby m e y := by
  rw [Nearby] at hx hz ⊢
  split_ifs at hx hz ⊢
  · exact ⟨hx.1.trans (by linarith), le_trans (by linarith) hz.2⟩
  · exact ⟨hx.1.trans_le (by linarith), lt_of_le_of_lt (by linarith) hz.2⟩

theorem place_of_lt {p : ℤ} (hp : -1074 ≤ p) (hpos : 0 < y) (hy : y < 2 ^ (p + 53)) :
    place y ≤ p := by
  have hlog : Int.log 2 y < p + 53 := by
    apply (Int.lt_zpow_iff_log_lt (by norm_num) hpos).mp
    exact_mod_cast hy
  rw [place, abs_of_pos hpos]
  omega

theorem le_place_of_le {p : ℤ} (hpos : 0 < y) (hy : 2 ^ (p + 52) ≤ y) : p ≤ place y := by
  have hlog : p + 52 ≤ Int.log 2 y := by
    apply (Int.zpow_le_iff_le_log (by norm_num) hpos).mp
    exact_mod_cast hy
  rw [place, abs_of_pos hpos]
  omega

theorem nearby_mul_iff {z : ℝ} : Nearby m e (z * 2 ^ e) ↔
    if Even m then 4 * m - quartersBelow m e ≤ 4 * z ∧ 4 * z ≤ 4 * m + 2
    else 4 * m - quartersBelow m e < 4 * z ∧ 4 * z < 4 * m + 2 := by
  have hscale : (0 : ℝ) < 2 ^ e := by positivity
  simp only [Nearby, ← mul_assoc, mul_le_mul_iff_left₀ hscale, mul_lt_mul_iff_left₀ hscale]

theorem nearest_mul_eq_iff {z : ℝ} {p : ℤ} {n : ℕ} (hplace : place (z * 2 ^ p) = p) :
    nearest (z * 2 ^ p) = n * 2 ^ p ↔ if Even n then |z - n| ≤ 1 / 2 else |z - n| < 1 / 2 := by
  have hscale : (2 : ℝ) ^ p ≠ 0 := by positivity
  have hcast : (n : ℝ) = ((n : ℤ) : ℝ) := rfl
  rw [nearest, hplace, mul_div_cancel_right₀ _ hscale, mul_left_inj' hscale, hcast, Int.cast_inj,
    roundEven_eq_iff, Int.even_coe_nat]
  split_ifs with heven <;> simp [heven, le_iff_lt_or_eq]

theorem nearest_eq_iff_of_place_eq {z : ℝ} (hpos : 0 < z) (hplace : place (z * 2 ^ e) = e) :
    nearest (z * 2 ^ e) = m * 2 ^ e ↔ Nearby m e (z * 2 ^ e) := by
  rw [nearest_mul_eq_iff hplace, nearby_mul_iff, quartersBelow]
  by_cases hnarrow : m = 2 ^ 52 ∧ -1074 < e
  · -- No number below a power of two has the place of the power.
    have hge : (m : ℝ) ≤ z := by
      have hle := two_zpow_place_le (by positivity) (hplace.symm ▸ hnarrow.2)
      rw [hplace, Int.add_comm, zpow_add₀ two_ne_zero, abs_of_pos (by positivity)] at hle
      rw [hnarrow.1]
      exact_mod_cast le_of_mul_le_mul_right hle (by positivity)
    have heven : Even m := hnarrow.1 ▸ (by decide)
    rw [if_pos heven, if_pos heven, if_pos hnarrow, abs_of_nonneg (by linarith)]
    constructor
    · intro hz
      constructor <;> linarith
    · rintro ⟨-, hz⟩
      linarith
  · rw [if_neg hnarrow]
    split_ifs
    · rw [abs_le]
      constructor <;> (rintro ⟨hlow, hhigh⟩; constructor <;> linarith)
    · rw [abs_lt]
      constructor <;> (rintro ⟨hlow, hhigh⟩; constructor <;> linarith)

variable (h : Shape m e) (hm : 0 < m)

include h hm

/-- What is near a double has the place of the double, or the one below it. -/
theorem place_of_nearby (hy : Nearby m e y) :
    0 < y ∧ (place y = e ∨ place y = e - 1 ∧ -1074 < e) := by
  have hscale : (0 : ℝ) < 2 ^ e := by positivity
  have hbottom := h.bottom
  obtain ⟨hlow, hhigh⟩ := hy.bounds
  obtain ⟨-, hquarters⟩ := quartersBelow_bounds (m := m) (e := e)
  have hone : (1 : ℝ) ≤ m := by exact_mod_cast hm
  have hdigits : (m : ℝ) + 1 ≤ 2 ^ 53 := by exact_mod_cast h.digits
  have hfactor (k : ℕ) : (2 : ℝ) ^ (e + k) = 2 ^ k * 2 ^ e := by
    rw [zpow_add₀ two_ne_zero, zpow_natCast, mul_comm]
  have hpos : 0 < y := by nlinarith
  have habove : y < 2 ^ (e + 53) := by
    have := hfactor 53
    push_cast at this
    rw [this]
    nlinarith
  have hplace := place_of_lt hbottom hpos habove
  refine ⟨hpos, ?_⟩
  rcases h.normal with hnormal | rfl
  · have hbelow : 2 ^ (e - 1 + 52) ≤ y := by
      have hcast : (2 : ℝ) ^ 52 ≤ m := by exact_mod_cast hnormal
      have := hfactor 51
      push_cast at this
      rw [show e - 1 + 52 = e + 51 by ring, this]
      nlinarith
    have := le_place_of_le hpos hbelow
    have : -1074 ≤ place y := le_max_right _ _
    omega
  · exact .inl (le_antisymm hplace (le_max_right _ _))

/-- What rounds to a double has the place of the double, or the one below it. -/
theorem place_of_nearest_eq (hy : nearest y = m * 2 ^ e) :
    0 < y ∧ (place y = e ∨ place y = e - 1 ∧ -1074 < e) := by
  have hvalue : (0 : ℝ) < m * 2 ^ e := by positivity
  have hbottom := h.bottom
  have hpos : 0 < y := by
    by_contra hneg
    have hle := nearest_nonneg (neg_nonneg.mpr (not_lt.mp hneg))
    rw [nearest_neg, hy] at hle
    linarith
  have hplace_bottom : -1074 ≤ place y := le_max_right _ _
  have hdigits : (m : ℝ) < 2 ^ (53 : ℤ) := by exact_mod_cast h.digits
  have hbelow : (m : ℝ) * 2 ^ e < 2 ^ (e + 53) := by
    rw [Int.add_comm, zpow_add₀ two_ne_zero]
    exact mul_lt_mul_of_pos_right hdigits (by positivity)
  refine ⟨hpos, ?_⟩
  have hle : place y ≤ e := by
    by_contra hgt
    have hlow := two_zpow_place_le hpos.ne' (by omega)
    rw [abs_of_pos hpos] at hlow
    have hmono := two_zpow_le_nearest (by omega) hlow
    rw [hy] at hmono
    have hscale : (2 : ℝ) ^ (e + 53) ≤ 2 ^ (place y + 52) :=
      zpow_le_zpow_right₀ one_le_two (by omega)
    linarith
  rcases h.normal with hnormal | rfl
  · have hge : e - 1 ≤ place y := by
      have hhigh := (lt_two_zpow_place y).le
      rw [abs_of_pos hpos] at hhigh
      have hmono := nearest_mono hhigh
      rw [nearest_two_zpow (by omega), hy] at hmono
      have hlow : (2 : ℝ) ^ (e + 52) ≤ m * 2 ^ e := by
        have hcast : (2 : ℝ) ^ (52 : ℤ) ≤ m := by exact_mod_cast hnormal
        rw [Int.add_comm, zpow_add₀ two_ne_zero]
        exact mul_le_mul_of_nonneg_right hcast (by positivity)
      have := (zpow_le_zpow_iff_right₀ (one_lt_two (α := ℝ))).mp (hlow.trans hmono)
      omega
    omega
  · exact .inl (le_antisymm hle hplace_bottom)

omit hm in
/-- Below the place of a double, only numbers below a power of two round to it. -/
theorem nearest_eq_iff_of_place_below {z : ℝ} (hpos : 0 < z) (hplace : place (z * 2 ^ e) = e - 1)
    (he : -1074 < e) : nearest (z * 2 ^ e) = m * 2 ^ e ↔ Nearby m e (z * 2 ^ e) := by
  have hnormal : 2 ^ 52 ≤ m := h.normal.resolve_right he.ne'
  have hcast : (2 : ℝ) ^ 52 ≤ m := by exact_mod_cast hnormal
  have hscale : (0 : ℝ) < 2 ^ e := by positivity
  have hhalf (x : ℝ) : x * 2 ^ e = 2 * x * 2 ^ (e - 1) := by
    rw [zpow_sub_one₀ two_ne_zero]
    ring
  have hbelow : z < 2 ^ 52 := by
    have hlt := lt_two_zpow_place (z * 2 ^ e)
    rw [hplace, show e - 1 + 53 = 52 + e by ring, zpow_add₀ two_ne_zero,
      abs_of_pos (by positivity)] at hlt
    exact_mod_cast lt_of_mul_lt_mul_right hlt hscale.le
  have hiff : nearest (z * 2 ^ e) = m * 2 ^ e ↔ |2 * z - 2 * m| ≤ 1 / 2 := by
    have hplace' : place (2 * z * 2 ^ (e - 1)) = e - 1 := by rwa [← hhalf]
    have hdouble := nearest_mul_eq_iff (n := 2 * m) hplace'
    rw [if_pos (even_two_mul m)] at hdouble
    push_cast at hdouble
    rwa [← hhalf, ← hhalf] at hdouble
  rw [hiff, nearby_mul_iff, quartersBelow, abs_le]
  rcases hnormal.eq_or_lt with rfl | hlarge
  · rw [if_pos (by decide), if_pos ⟨rfl, he⟩]
    push_cast
    constructor <;> (rintro ⟨hlow, hhigh⟩; constructor <;> linarith)
  · have hcast' : (2 : ℝ) ^ 52 + 1 ≤ m := by exact_mod_cast hlarge
    have hwide : ¬(m = 2 ^ 52 ∧ -1074 < e) := fun hnarrow => hlarge.ne' hnarrow.1
    rw [if_neg hwide]
    split_ifs <;> constructor <;> (rintro ⟨hlow, hhigh⟩; constructor <;> linarith)

/-- A number rounds to a double just if it is near it. -/
theorem nearest_eq_iff : nearest y = m * 2 ^ e ↔ Nearby m e y := by
  suffices hsame : 0 < y ∧ (place y = e ∨ place y = e - 1 ∧ -1074 < e) →
      (nearest y = m * 2 ^ e ↔ Nearby m e y) from
    ⟨fun hy => (hsame (place_of_nearest_eq h hm hy)).mp hy,
      fun hy => (hsame (place_of_nearby h hm hy)).mpr hy⟩
  rintro ⟨hpos, hplace⟩
  have hscale : (0 : ℝ) < 2 ^ e := by positivity
  obtain ⟨z, rfl⟩ : ∃ z, y = z * 2 ^ e := ⟨y / 2 ^ e, by field_simp⟩
  have hz : 0 < z := pos_of_mul_pos_left hpos hscale.le
  rcases hplace with hplace | ⟨hplace, he⟩
  · exact nearest_eq_iff_of_place_eq hz hplace
  · exact nearest_eq_iff_of_place_below h hz hplace he

end

end Double

end Aleatory
