import Aleatory.Proofs.Numeric.Special
import Aleatory.Proofs.Numeric.UnitInterval
import Aleatory.Proofs.Recipe.Words
import Aleatory.Proofs.Sampler.Construction

/-!
# Inversion of a categorical distribution

The sampler looks for the first running sum of the weights beyond a share of their total. A double
sum never falls when a weight is added and does not move when the weight is zero, so the search may
go by halves, and a sum beyond the share is that of a positive weight. Where rounding lifts the
share up to the total, no sum is beyond it and the last positive weight is taken
(`Inverse.categorical_inverts`).
-/

namespace Aleatory

open Double

/-! ## Search by halves -/

/-- Where a predicate of places ceases to hold, searched by halves: it is asked in the middle, and
the half where it changes is kept. -/
def halve (holds : ℕ → Bool) (base size : ℕ) : ℕ :=
  if 1 < size then
    if holds (base + size / 2) then halve holds (base + size / 2) (size - size / 2)
    else halve holds base (size - size / 2)
  else if holds base then base + 1 else base
termination_by size

/-- The number of leading entries with a property. -/
def partitionPoint {α : Type} (p : α → Bool) (xs : List α) : ℕ :=
  if xs.isEmpty then 0 else halve (fun i => xs[i]?.any p) 0 xs.length

theorem halve_eq {holds : ℕ → Bool} {base size n : ℕ} (hsize : 0 < size) (hbase : base ≤ n)
    (hn : n ≤ base + size) (hbelow : ∀ j < n, base ≤ j → holds j = true)
    (habove : ∀ j, n ≤ j → j < base + size → holds j = false) : halve holds base size = n := by
  fun_induction halve holds base size with
  | case1 base size hlarge hmid ih =>
      have hlt : base + size / 2 < n := by
        by_contra hle
        rw [habove _ (by omega) (by omega)] at hmid
        cases hmid
      exact ih (by omega) (by omega) (by omega) (fun j hj _ => hbelow j hj (by omega))
        fun j hj hjs => habove j hj (by omega)
  | case2 base size hlarge hmid ih =>
      have hle : n ≤ base + size / 2 := by
        by_contra hlt
        exact hmid (hbelow _ (by omega) (by omega))
      exact ih (by omega) hbase (by omega) hbelow fun j hj hjs => habove j hj (by omega)
  | case3 base size hsmall hholds =>
      have hne : n ≠ base := by
        rintro rfl
        rw [habove n (Nat.le_refl n) (by omega)] at hholds
        cases hholds
      omega
  | case4 base size hsmall hholds =>
      by_contra hne
      exact hholds (hbelow base (by omega) (Nat.le_refl base))

theorem partitionPoint_eq {α : Type} {p : α → Bool} {xs : List α} {n : ℕ} (hn : n ≤ xs.length)
    (hbelow : ∀ i < n, ∀ x ∈ xs[i]?, p x = true)
    (habove : ∀ i, n ≤ i → ∀ x ∈ xs[i]?, p x = false) : partitionPoint p xs = n := by
  rw [partitionPoint]
  rcases xs with _ | ⟨x, rest⟩
  · exact (Nat.le_zero.mp hn).symm
  · rw [if_neg (by simp)]
    refine halve_eq (Nat.succ_pos _) (Nat.zero_le n) (by omega) (fun j hj _ => ?_)
      fun j hj hjs => ?_
    · rw [List.getElem?_eq_getElem (by omega), Option.any_some]
      exact hbelow j hj _ (List.getElem?_eq_getElem _)
    · rw [List.getElem?_eq_getElem (by omega), Option.any_some]
      exact habove j hj _ (List.getElem?_eq_getElem _)

namespace Inverse

/-! ## Running sums -/

/-- The sum of the first weights, rounded after every addition. -/
def sumOfFirst (weights : List Float) (k : ℕ) : Float := (weights.take k).foldl (· + ·) 0.0

theorem sumOfFirst_succ {weights : List Float} {k : ℕ} {w : Float} (hw : weights[k]? = some w) :
    sumOfFirst weights (k + 1) = sumOfFirst weights k + w := by
  rw [sumOfFirst, List.take_add_one, hw, Option.toList_some, List.foldl_append]
  rfl

theorem sumOfFirst_succ_of_none {weights : List Float} {k : ℕ} (hw : weights[k]? = none) :
    sumOfFirst weights (k + 1) = sumOfFirst weights k := by
  rw [sumOfFirst, List.take_add_one, hw, Option.toList_none, List.append_nil, sumOfFirst]

theorem getElem?_runningSums (weights : List Float) (k : ℕ) :
    (runningSums weights)[k]? = weights[k]?.map fun _ => sumOfFirst weights (k + 1) := by
  have key (weights : List Float) : ∀ (start : Float) (k : ℕ), (runningSums.go start weights)[k]? =
      weights[k]?.map fun _ => (weights.take (k + 1)).foldl (· + ·) start := by
    induction weights with
    | nil => exact fun _ _ => rfl
    | cons w rest ih =>
        rintro start (_ | k)
        · rfl
        · rw [runningSums.go, List.getElem?_cons_succ, ih, List.getElem?_cons_succ,
            List.take_succ_cons, List.foldl_cons]
  exact key weights 0.0 k

theorem mem_getElem?_runningSums {weights : List Float} {s : Float} {j : ℕ} :
    s ∈ (runningSums weights)[j]? ↔ j < weights.length ∧ s = sumOfFirst weights (j + 1) := by
  rw [getElem?_runningSums, Option.mem_def, Option.map_eq_some_iff]
  constructor
  · rintro ⟨w, hw, rfl⟩
    exact ⟨(List.getElem?_eq_some_iff.mp hw).1, rfl⟩
  · rintro ⟨hj, rfl⟩
    exact ⟨weights[j], List.getElem?_eq_getElem hj, rfl⟩

theorem length_runningSums (weights : List Float) :
    (runningSums weights).length = weights.length := by
  have key (weights : List Float) : ∀ start : Float,
      (runningSums.go start weights).length = weights.length := by
    induction weights with
    | nil => exact fun _ => rfl
    | cons w rest ih => exact fun start => congrArg Nat.succ (ih (start + w))
  exact key weights 0.0

theorem getLastD_runningSums (weights : List Float) :
    (runningSums weights).getLastD 0.0 = sumOfFirst weights weights.length := by
  rw [Direct.runningSums_getLastD, sumOfFirst, List.take_length]

/-- If there is a positive weight, the last one is found. -/
theorem lastPositive_spec {weights : List Float} (h : ∃ w ∈ weights, 0.0 < w) :
    (∃ w ∈ weights[lastPositive weights]?, 0.0 < w) ∧
      ∀ j > lastPositive weights, ∀ w ∈ weights[j]?, ¬0.0 < w := by
  induction weights using List.reverseRecOn with
  | nil =>
      obtain ⟨w, hw, -⟩ := h
      cases hw
  | append_singleton front last ih =>
      have hsplit : lastPositive (front ++ [last]) =
          if 0.0 < last then front.length else lastPositive front := by
        by_cases hlast : 0.0 < last <;>
          simp [lastPositive, List.zipIdx_append, List.filter_append, hlast]
      rw [hsplit]
      by_cases hlast : 0.0 < last
      · rw [if_pos hlast]
        refine ⟨⟨last, by simp, hlast⟩, fun j hj w hw => ?_⟩
        rw [List.getElem?_eq_none (by simpa using hj)] at hw
        cases hw
      · rw [if_neg hlast]
        obtain ⟨w, hw, hpos⟩ := h
        rcases List.mem_append.mp hw with hw | hw
        · obtain ⟨⟨w, hw, hpos⟩, hafter⟩ := ih ⟨w, hw, hpos⟩
          obtain ⟨hlt, -⟩ := List.getElem?_eq_some_iff.mp hw
          refine ⟨⟨w, by rwa [List.getElem?_append_left hlt], hpos⟩, fun j hj w hw => ?_⟩
          rcases Nat.lt_trichotomy j front.length with hlt | rfl | hgt
          · rw [List.getElem?_append_left hlt] at hw
            exact hafter j hj w hw
          · rw [List.getElem?_concat_length] at hw
            exact Option.some.inj hw ▸ hlast
          · rw [List.getElem?_eq_none (by simpa using hgt)] at hw
            cases hw
        · exact absurd (List.mem_singleton.mp hw ▸ hpos) hlast

/-! ## Accepted weights -/

section Accepted

variable {weights : List Float} (h : ValidWeights weights) {k : ℕ} {w : Float}

include h

theorem isFinite_sumOfFirst (k : ℕ) : (sumOfFirst weights k).isFinite = true := by
  have htotal : (weights.foldl (· + ·) 0.0).isFinite = true :=
    (Direct.total_alike weights).1.trans h.2.2.2
  rw [← List.take_append_drop k weights, List.foldl_append] at htotal
  exact (isFinite_of_foldl htotal).1

theorem real_sumOfFirst_succ (hw : weights[k]? = some w) :
    real (sumOfFirst weights (k + 1)) = nearest (real (sumOfFirst weights k) + real w) := by
  have hfinite := isFinite_sumOfFirst h (k + 1)
  rw [sumOfFirst_succ hw] at hfinite ⊢
  obtain ⟨hsum, hweight⟩ := isFinite_of_add hfinite
  exact (rounds_add hsum hweight).real_eq hfinite

/-- A sum does not fall, and it rises only if a positive weight is added. -/
theorem sumOfFirst_le_succ (k : ℕ) :
    real (sumOfFirst weights k) ≤ real (sumOfFirst weights (k + 1)) ∧
      (real (sumOfFirst weights k) < real (sumOfFirst weights (k + 1)) →
        ∃ w ∈ weights[k]?, 0.0 < w) := by
  cases hw : weights[k]? with
  | none =>
      rw [sumOfFirst_succ_of_none hw]
      exact ⟨le_rfl, fun hlt => absurd hlt (lt_irrefl _)⟩
  | some w =>
      obtain ⟨hfinite, hzero⟩ := h.2.1 w (List.mem_of_getElem? hw)
      rw [real_sumOfFirst_succ h hw]
      constructor
      · rw [le_iff_real rfl hfinite, real_zero] at hzero
        calc real (sumOfFirst weights k)
            = nearest (real (sumOfFirst weights k)) := (nearest_real _).symm
          _ ≤ nearest (real (sumOfFirst weights k) + real w) :=
            nearest_mono (le_add_of_nonneg_right hzero)
      · intro hlt
        refine ⟨w, rfl, (lt_iff_real rfl hfinite).mpr ?_⟩
        by_contra hle
        have hround := nearest_mono (add_le_of_nonpos_right (a := real (sumOfFirst weights k))
          (not_lt.mp hle))
        rw [nearest_real] at hround
        exact absurd hlt hround.not_gt

theorem sumOfFirst_mono : Monotone fun k => real (sumOfFirst weights k) :=
  monotone_nat_of_le_succ fun k => (sumOfFirst_le_succ h k).1

theorem total_pos : 0 < real (sumOfFirst weights weights.length) := by
  have hpos : 0.0 < weights.foldl (· + ·) 0.0 := (Direct.total_alike weights).2.mpr h.2.2.1
  have hfinite := isFinite_sumOfFirst h weights.length
  rw [sumOfFirst, List.take_length] at hfinite ⊢
  rwa [lt_iff_real rfl hfinite, real_zero] at hpos

theorem exists_positive : ∃ w ∈ weights, 0.0 < w := by
  by_contra hnone
  have hstill : Antitone fun k => real (sumOfFirst weights k) := by
    refine antitone_nat_of_succ_le fun k => ?_
    by_contra hrise
    obtain ⟨w, hw, hpos⟩ := (sumOfFirst_le_succ h k).2 (not_le.mp hrise)
    exact hnone ⟨w, List.mem_of_getElem? hw, hpos⟩
  have hstart : real (sumOfFirst weights 0) = 0 := real_zero
  have hle := hstill (Nat.zero_le weights.length)
  exact absurd (total_pos h) (hle.trans_eq hstart).not_gt

end Accepted

/-! ## The index of a share -/

/-- The share of the total that is looked for. -/
def target (weights : List Float) (u : Float) : Float := u * (runningSums weights).getLastD 0.0

/-- The index that is drawn for a number of the unit interval. -/
def chosen (weights : List Float) (u : Float) : ℕ :=
  indexAt (runningSums weights) (lastPositive weights) u

/-- An index of a positive weight, and the first one whose running sum is beyond the target, or the
last one of a positive weight if no sum is. -/
structure Selects (weights : List Float) (t : Float) (i : ℕ) : Prop where
  positive : ∃ w ∈ weights[i]?, 0.0 < w
  below : ∀ j < i, ∀ s ∈ (runningSums weights)[j]?, s ≤ t
  beyond : (∃ s ∈ (runningSums weights)[i]?, t < s) ∨
    ((∀ s ∈ runningSums weights, s ≤ t) ∧ ∀ j > i, ∀ w ∈ weights[j]?, ¬0.0 < w)

section Accepted

variable {weights : List Float} (h : ValidWeights weights) {t u : Float}

include h

theorem target_spec (hzero : 0.0 ≤ u) (hone : u ≤ 1.0) :
    (target weights u).isFinite = true ∧
      real (target weights u) = nearest (real u * real (sumOfFirst weights weights.length)) ∧
      0 ≤ real (target weights u) := by
  have hu : u.isFinite = true := isFinite_of_le_of_le rfl rfl hzero hone
  have htotal := isFinite_sumOfFirst h weights.length
  rw [le_iff_real rfl hu, real_zero] at hzero
  rw [le_iff_real hu rfl, real_one] at hone
  have hrounds : Rounds (real u * real (sumOfFirst weights weights.length))
      (view (target weights u)) := by
    rw [target, getLastD_runningSums]
    exact rounds_mul hu htotal
  have hle : |real u * real (sumOfFirst weights weights.length)| ≤
      |real (sumOfFirst weights weights.length)| := by
    rw [abs_mul, abs_of_nonneg hzero]
    exact mul_le_of_le_one_left (abs_nonneg _) hone
  have hfinite := hrounds.isFinite_of_le hle
  refine ⟨hfinite, hrounds.real_eq hfinite, ?_⟩
  rw [hrounds.real_eq hfinite]
  exact nearest_nonneg (mul_nonneg hzero (total_pos h).le)

theorem target_mono {u' : Float} (hzero : 0.0 ≤ u) (hle : u ≤ u') (hone : u' ≤ 1.0) :
    target weights u ≤ target weights u' := by
  obtain ⟨hfinite, hreal, -⟩ := target_spec h hzero (Double.le_trans hle hone)
  obtain ⟨hfinite', hreal', -⟩ := target_spec h (Double.le_trans hzero hle) hone
  have hu : u.isFinite = true := isFinite_of_le_of_le rfl rfl hzero (Double.le_trans hle hone)
  have hu' : u'.isFinite = true := isFinite_of_le_of_le rfl rfl (Double.le_trans hzero hle) hone
  rw [le_iff_real hfinite hfinite', hreal, hreal']
  rw [le_iff_real hu hu'] at hle
  exact nearest_mono (mul_le_mul_of_nonneg_right hle (total_pos h).le)

/-- The running sums up to a target come before those beyond it. -/
theorem exists_partition (ht : t.isFinite = true) (hzero : 0 ≤ real t) :
    ∃ n, ((runningSums weights).takeWhile (· ≤ t)).length = n ∧ n ≤ weights.length ∧
      (∀ k ≤ n, real (sumOfFirst weights k) ≤ real t) ∧
      ∀ k ≤ weights.length, n < k → real t < real (sumOfFirst weights k) := by
  have hlength := length_runningSums weights
  have hsum {k : ℕ} (hk : k < (runningSums weights).length) :
      (runningSums weights)[k] = sumOfFirst weights (k + 1) :=
    (mem_getElem?_runningSums.mp (List.getElem?_eq_getElem hk)).2
  have hle : (runningSums weights).findIdx (fun s => !decide (s ≤ t)) ≤
      (runningSums weights).length := List.findIdx_le_length
  have hcount : ((runningSums weights).takeWhile (· ≤ t)).length =
      (runningSums weights).findIdx fun s => !decide (s ≤ t) := by
    rw [List.takeWhile_eq_take_findIdx_not, List.length_take, Nat.min_eq_left hle]
  refine ⟨_, hcount, hlength ▸ hle, fun k hk => ?_, fun k hk hlt => ?_⟩
  · rcases k with _ | k
    · rwa [sumOfFirst, List.take_zero, List.foldl_nil, real_zero]
    · have hbelow := List.not_of_lt_findIdx hk
      rw [hsum, Bool.not_eq_false', decide_eq_true_iff,
        le_iff_real (isFinite_sumOfFirst h _) ht] at hbelow
      exact hbelow
  · have hroom : (runningSums weights).findIdx (fun s => !decide (s ≤ t)) <
        (runningSums weights).length := by omega
    have hbeyond := List.findIdx_getElem (w := hroom)
    rw [hsum, Bool.not_eq_true', decide_eq_false_iff_not,
      le_iff_real (isFinite_sumOfFirst h _) ht, not_le] at hbeyond
    exact hbeyond.trans_le (sumOfFirst_mono h hlt)

/-- The index that is drawn is found at the target. -/
theorem selects_chosen (hzero : 0.0 ≤ u) (hone : u ≤ 1.0) :
    Selects weights (target weights u) (chosen weights u) := by
  obtain ⟨ht, -, hpos⟩ := target_spec h hzero hone
  obtain ⟨n, hn, hle, hbelow, hbeyond⟩ := exists_partition h ht hpos
  obtain ⟨⟨w, hw, hwpos⟩, hafter⟩ := lastPositive_spec (exists_positive h)
  have hchosen : chosen weights u = min n (lastPositive weights) := by
    rw [← hn]
    rfl
  have hsum {j : ℕ} (hj : j < n) {s : Float} (hs : s ∈ (runningSums weights)[j]?) :
      s ≤ target weights u := by
    rw [(mem_getElem?_runningSums.mp hs).2, le_iff_real (isFinite_sumOfFirst h _) ht]
    exact hbelow (j + 1) hj
  rw [hchosen]
  rcases hle.lt_or_eq with hlt | rfl
  · have hrise := hbeyond (n + 1) hlt (Nat.lt_succ_self n)
    obtain ⟨w, hw, hwpos⟩ := (sumOfFirst_le_succ h n).2 ((hbelow n le_rfl).trans_lt hrise)
    have hlast : n ≤ lastPositive weights := not_lt.mp fun hgt => hafter n hgt w hw hwpos
    rw [Nat.min_eq_left hlast]
    refine ⟨⟨w, hw, hwpos⟩, fun j hj s => hsum hj,
      .inl ⟨_, mem_getElem?_runningSums.mpr ⟨hlt, rfl⟩, ?_⟩⟩
    exact (lt_iff_real ht (isFinite_sumOfFirst h _)).mpr hrise
  -- No sum is beyond the target, since rounding has lifted it up to the total.
  · obtain ⟨hlast, -⟩ := List.getElem?_eq_some_iff.mp hw
    rw [Nat.min_eq_right hlast.le]
    refine ⟨⟨w, hw, hwpos⟩, fun j hj s => hsum (hj.trans hlast), .inr ⟨fun s hs => ?_, hafter⟩⟩
    obtain ⟨j, hj⟩ := List.mem_iff_getElem?.mp hs
    exact hsum (mem_getElem?_runningSums.mp hj).1 hj

/-- The search may go by halves. -/
theorem chosen_eq_partitionPoint (hzero : 0.0 ≤ u) (hone : u ≤ 1.0) :
    chosen weights u =
      min (partitionPoint (· ≤ target weights u) (runningSums weights)) (lastPositive weights) := by
  obtain ⟨ht, -, hpos⟩ := target_spec h hzero hone
  obtain ⟨n, hn, hle, hbelow, hbeyond⟩ := exists_partition h ht hpos
  have hpoint : partitionPoint (· ≤ target weights u) (runningSums weights) = n := by
    refine partitionPoint_eq (length_runningSums weights ▸ hle) (fun j hj s hs => ?_)
      fun j hj s hs => ?_ <;>
      obtain ⟨hlength, rfl⟩ := mem_getElem?_runningSums.mp hs
    · rw [decide_eq_true_iff, le_iff_real (isFinite_sumOfFirst h _) ht]
      exact hbelow (j + 1) hj
    · rw [decide_eq_false_iff_not, le_iff_real (isFinite_sumOfFirst h _) ht, not_le]
      exact hbeyond (j + 1) hlength (Nat.lt_succ_of_le hj)
  rw [hpoint, ← hn]
  rfl

/-- A larger target is not found before a smaller one. -/
theorem Selects.le {t' : Float} {i i' : ℕ} (hs : Selects weights t i) (hs' : Selects weights t' i')
    (ht' : t'.isFinite = true) (hle : t ≤ t') : i ≤ i' := by
  by_contra hlt
  rcases hs'.beyond with ⟨s, hsum, hbeyond⟩ | ⟨-, hafter⟩
  · have hbelow := hs.below i' (not_le.mp hlt) s hsum
    obtain ⟨-, rfl⟩ := mem_getElem?_runningSums.mp hsum
    exact (not_le_iff_lt ht' (isFinite_sumOfFirst h _)).mpr hbeyond (Double.le_trans hbelow hle)
  · obtain ⟨w, hw, hpos⟩ := hs.positive
    exact hafter i (not_le.mp hlt) w hw hpos

theorem chosen_mono {u' : Float} (hzero : 0.0 ≤ u) (hle : u ≤ u') (hone : u' ≤ 1.0) :
    chosen weights u ≤ chosen weights u' := by
  have hzero' := Double.le_trans hzero hle
  have hs := selects_chosen h hzero (Double.le_trans hle hone)
  exact hs.le h (selects_chosen h hzero' hone) (target_spec h hzero' hone).1
    (target_mono h hzero hle hone)

/-- The sum before the chosen index is not beyond the target, and the one with it is, unless the
target is the whole total. -/
theorem chosen_bounds (hzero : 0.0 ≤ u) (hone : u ≤ 1.0) :
    real (sumOfFirst weights (chosen weights u)) ≤ real (target weights u) ∧
      (real (target weights u) < real (sumOfFirst weights weights.length) →
        real (target weights u) < real (sumOfFirst weights (chosen weights u + 1))) := by
  obtain ⟨ht, -, hpos⟩ := target_spec h hzero hone
  have hs := selects_chosen h hzero hone
  obtain ⟨w, hw, -⟩ := hs.positive
  obtain ⟨hlt, -⟩ := List.getElem?_eq_some_iff.mp hw
  constructor
  · rcases hi : chosen weights u with _ | j
    · exact real_zero.trans_le hpos
    · have hj := hs.below j (by omega) _ (mem_getElem?_runningSums.mpr ⟨by omega, rfl⟩)
      exact (le_iff_real (isFinite_sumOfFirst h _) ht).mp hj
  · intro hless
    rcases hs.beyond with ⟨s, hsum, hbeyond⟩ | ⟨hall, -⟩
    · obtain ⟨-, rfl⟩ := mem_getElem?_runningSums.mp hsum
      exact (lt_iff_real ht (isFinite_sumOfFirst h _)).mp hbeyond
    · obtain ⟨n, hn⟩ := Nat.exists_eq_add_one.mpr (Nat.zero_lt_of_lt hlt)
      have hlast : sumOfFirst weights weights.length ∈ (runningSums weights)[n]? :=
        mem_getElem?_runningSums.mpr ⟨by omega, by rw [hn]⟩
      have htotal := hall _ (List.mem_of_getElem? hlast)
      exact absurd ((le_iff_real (isFinite_sumOfFirst h _) ht).mp htotal) hless.not_ge

theorem le_of_sumOfFirst_lt {x : ℝ} {i i' : ℕ} (hle : real (sumOfFirst weights i) ≤ x)
    (hlt : x < real (sumOfFirst weights (i' + 1))) : i ≤ i' := by
  by_contra hgt
  have hmono := sumOfFirst_mono h (Nat.succ_le_of_lt (not_le.mp hgt))
  exact absurd (hlt.trans_le hmono) hle.not_gt

end Accepted

/-! ## Without rounding -/

/-- No addition to a running sum is rounded, nor the product that makes the target. -/
structure Unrounded (weights : List Float) (u : Float) : Prop where
  sums : ∀ k, ∀ w ∈ weights[k]?,
    real (sumOfFirst weights k + w) = real (sumOfFirst weights k) + real w
  target : real (target weights u) = real u * real ((runningSums weights).getLastD 0.0)

theorem Unrounded.real_sumOfFirst {weights : List Float} {u : Float} (he : Unrounded weights u)
    (k : ℕ) : real (sumOfFirst weights k) = ((weights.take k).map real).sum := by
  induction k with
  | zero => exact real_zero
  | succ k ih =>
      rw [List.take_add_one, List.map_append, List.sum_append, ← ih]
      cases hw : weights[k]? with
      | none =>
          rw [sumOfFirst_succ_of_none hw]
          simp
      | some w =>
          rw [sumOfFirst_succ hw, he.sums k w hw]
          simp

/-- Without rounding, the unit interval is cut in proportion to the weights. -/
theorem eq_chosen_iff {weights : List Float} (h : ValidWeights weights) {u : Float}
    (hzero : 0.0 ≤ u) (hone : u < 1.0) (he : Unrounded weights u) (i : ℕ) :
    i = chosen weights u ↔
      ((weights.take i).map real).sum ≤ real u * (weights.map real).sum ∧
        real u * (weights.map real).sum < ((weights.take (i + 1)).map real).sum := by
  have hle : u ≤ 1.0 := le_iff_lt_or_beq.mpr (.inl hone)
  have hu : u.isFinite = true := isFinite_of_le_of_le rfl rfl hzero hle
  have htotal : (weights.map real).sum = real (sumOfFirst weights weights.length) := by
    rw [he.real_sumOfFirst, List.take_length]
  have htarget : real u * (weights.map real).sum = real (target weights u) := by
    rw [he.target, getLastD_runningSums, htotal]
  have hless : real (target weights u) < real (sumOfFirst weights weights.length) := by
    rw [← htarget, htotal]
    rw [lt_iff_real hu rfl, real_one] at hone
    exact mul_lt_of_lt_one_left (total_pos h) hone
  obtain ⟨hbelow, hbeyond⟩ := chosen_bounds h hzero hle
  rw [htarget, ← he.real_sumOfFirst, ← he.real_sumOfFirst]
  constructor
  · rintro rfl
    exact ⟨hbelow, hbeyond hless⟩
  · rintro ⟨hi, hi'⟩
    exact Nat.le_antisymm (le_of_sumOfFirst_lt h hi (hbeyond hless))
      (le_of_sumOfFirst_lt h hbelow hi')

/-- Sampling by inversion from accepted weights. The value is the index that is chosen for the
fraction of the first word. Whatever is rounded, that index is of a positive weight, and it is the
first one whose running sum is beyond the target, as a search by halves finds it, or the last one
of a positive weight if there is no such sum. It does not decrease with the fraction, nor so with
the word. Without rounding, it is the one index whose share holds the fraction. -/
theorem categorical_inverts {weights : List Float} (hvalid : checkWeights weights = .ok ()) :
    (∀ (F : Mode) (σ χ : Type) [Generator σ], ∃ e : Experiment F σ χ ℕ,
      categorical weights = .ok e ∧ ∀ state extras, (e.run state extras).result =
        .ok (F.conclude (.ok ⟨⟨Generator.advance 1 state, extras,
          chosen weights (unitOfWord (Generator.word state).1)⟩, 0⟩))) ∧
    (∀ bits bits' : UInt64, bits ≤ bits' → 0.0 ≤ unitOfWord bits ∧
      unitOfWord bits ≤ unitOfWord bits' ∧ unitOfWord bits' < 1.0) ∧
    (∀ u, 0.0 ≤ u → u ≤ 1.0 → Selects weights (target weights u) (chosen weights u) ∧
      chosen weights u = min (partitionPoint (· ≤ target weights u) (runningSums weights))
        (lastPositive weights)) ∧
    (∀ u u', 0.0 ≤ u → u ≤ u' → u' ≤ 1.0 → chosen weights u ≤ chosen weights u') ∧
    ∀ u, 0.0 ≤ u → u < 1.0 → Unrounded weights u → ∀ i, i = chosen weights u ↔
      ((weights.take i).map real).sum ≤ real u * (weights.map real).sum ∧
        real u * (weights.map real).sum < ((weights.take (i + 1)).map real).sum := by
  have h : ValidWeights weights := by
    have hsettles := checkWeights_settles weights
    rwa [hvalid] at hsettles
  refine ⟨fun F σ χ _ => ?_, fun bits bits' hle => ?_, fun u hzero hone => ?_,
    fun u u' => chosen_mono h, fun u => eq_chosen_iff h⟩
  · have hbuild : (categorical weights : Except ParameterError (Experiment F σ χ ℕ)) =
        .ok (.map .unit (chosen weights)) := by
      rw [categorical, hvalid]
      rfl
    refine ⟨_, hbuild, fun state extras => ?_⟩
    have htells := (Inversion.categorical weights).course_tells hbuild state extras
    exact ((Experiment.run_of_tells htells).2.1 (show 0 < UInt64.size by decide)).2
  · exact ⟨(unitOfWord_mem bits).1, unitOfWord_mono hle, (unitOfWord_mem bits').2⟩
  · exact ⟨selects_chosen h hzero hone, chosen_eq_partitionPoint h hzero hone⟩

section Witness

/-- Weights with zeros between them. -/
def gapped : List Float := [0.0, 3.0, -0.0, 1.0]

theorem unrounded_gapped : Unrounded gapped 0.5 := by
  have hthree : real 3.0 = 3 := Between.real_eq (n := 3) (by decide)
  have hfour : real 4.0 = 4 := Between.real_eq (n := 4) (by decide)
  refine ⟨?_, ?_⟩
  · rintro (_ | _ | _ | _ | k) w hw
    · obtain rfl := Option.some.inj hw
      change real 0.0 = real 0.0 + real 0.0
      rw [real_zero, add_zero]
    · obtain rfl := Option.some.inj hw
      change real 3.0 = real 0.0 + real 3.0
      rw [real_zero, zero_add]
    · obtain rfl := Option.some.inj hw
      change real 3.0 = real 3.0 + real (-0.0)
      rw [real_negZero, add_zero]
    · obtain rfl := Option.some.inj hw
      change real 4.0 = real 3.0 + real 1.0
      rw [hthree, hfour, real_one]
      norm_num
    · cases hw
  · change real 2.0 = real 0.5 * real 4.0
    rw [real_two, real_half, hfour]
    norm_num

/-- The least positive weight, between two zeros. -/
def least : List Float := [-0.0, Float.ofBits 1, 0.0]

/-- Half of the gapped weights falls to the second one. For the least weight the share of the last
word is rounded up to the total, and the only positive weight is taken. -/
theorem categorical_inverts_gapped :
    (checkWeights gapped = .ok () ∧ Unrounded gapped 0.5 ∧ 1 = chosen gapped 0.5) ∧
    checkWeights least = .ok () ∧
      target least (unitOfWord 18446744073709551615) = Float.ofBits 1 ∧
      Selects least (Float.ofBits 1) 1 := by
  have hgapped : checkWeights gapped = .ok () := by rfl
  have hleast : checkWeights least = .ok () := by rfl
  have htarget : target least (unitOfWord 18446744073709551615) = Float.ofBits 1 := by rfl
  have hchosen : chosen least (unitOfWord 18446744073709551615) = 1 := by decide +kernel
  obtain ⟨-, -, -, -, hshare⟩ := categorical_inverts hgapped
  obtain ⟨-, -, hselects, -⟩ := categorical_inverts hleast
  refine ⟨⟨hgapped, unrounded_gapped, ?_⟩, hleast, htarget, ?_⟩
  · refine (hshare 0.5 (by decide) (by decide) unrounded_gapped 1).mpr ?_
    have hthree : real 3.0 = 3 := Between.real_eq (n := 3) (by decide)
    simp only [gapped, List.take_succ_cons, List.take_zero, List.map_cons, List.map_nil,
      List.sum_cons, List.sum_nil, real_zero, real_negZero, real_half, real_one, hthree]
    norm_num
  · have h := hselects (unitOfWord 18446744073709551615) (by decide) (by decide)
    rw [htarget, hchosen] at h
    exact h.1

end Witness

end Inverse

end Aleatory
