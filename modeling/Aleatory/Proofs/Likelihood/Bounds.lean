import Aleatory.Proofs.Likelihood.Exchange
import Aleatory.Proofs.Likelihood.Posterior
import Aleatory.Proofs.Numeric.LogGamma

/-!
# How large likelihoods are

With a prior of moderate entries, no step of the likelihoods overflows, whatever the counts are and
however many outcomes there are. A prior that sums up to infinity makes them NaN.
-/

namespace Aleatory

namespace Likelihood

theorem countTotal_double (functions : Transcendental Float) {counts : List UInt64} {n : UInt64}
    (hn : sumCounts counts = .ok n) :
    @countTotal Float (.double functions) counts = .ok n.toFloat := by
  unfold countTotal
  rw [hn]
  rfl

end Likelihood

theorem forall_mem_zipWith {α β γ : Type} {f : α → β → γ} {P : γ → Prop} (xs : List α)
    {ys : List β} (h : ∀ x, ∀ y ∈ ys, P (f x y)) : ∀ z ∈ List.zipWith f xs ys, P z := by
  intro z hz
  obtain ⟨i, hi, rfl⟩ := List.mem_iff_getElem.mp hz
  rw [List.getElem_zipWith]
  exact h _ _ (List.getElem_mem _)

namespace Double

/-- A prior whose entries are positive and not extremely large. -/
structure Moderate (alpha : List Float) : Prop where
  within : ∀ a ∈ alpha, Within 931 a
  pos : ∀ a ∈ alpha, 0 < real a
  nonempty : alpha ≠ []

section

variable {functions : Transcendental Float} (hf : functions.Sound) {alpha : List Float}

theorem within_sum (functions : Transcendental Float) {xs : List Float} {k : ℕ} (hk : k ≤ 968)
    (hxs : ∀ x ∈ xs, Within k x) :
    Within (k + 54) (@Elementary.sum Float (.double functions) xs) :=
  within_foldl hk hxs (within_negZero _)

theorem Moderate.sum_pos (functions : Transcendental Float) (halpha : Moderate alpha) :
    0 < real (@Elementary.sum Float (.double functions) alpha) := by
  obtain ⟨a, ha⟩ := List.exists_mem_of_ne_nil alpha halpha.nonempty
  refine (halpha.pos a ha).trans_le ?_
  exact (le_real_foldl (by norm_num) halpha.within (fun a ha => (halpha.pos a ha).le)
    (within_negZero _) real_negZero.ge).2 a ha

theorem within_add_one (n : UInt64) : Within 65 (n.toFloat + 1.0) ∧ 0 < real (n.toFloat + 1.0) := by
  have hone := within_one.mono (Nat.zero_le 64)
  refine ⟨(within_toFloat n).add hone (by norm_num), ?_⟩
  have h := le_real_add (within_toFloat n) hone (by norm_num) (zero_le_real_toFloat n)
  rw [real_one] at h
  linarith

include hf

theorem logGamma_add_one (n : UInt64) :
    Within 81 (@Elementary.logGamma Float (.double functions) (n.toFloat + 1.0)) :=
  logGamma_within hf (within_add_one n).1 (by norm_num) (by norm_num) (within_add_one n).2

/-- The gamma function at a number that is not negative added to one that is positive. -/
theorem logGamma_add {k : ℕ} {a b : Float} (ha : Within k a) (hb : Within k b) (hk : 3 ≤ k)
    (hk' : k ≤ 985) (hzero : 0 ≤ real a) (hpos : 0 < real b) :
    Within (k + 17) (@Elementary.logGamma Float (.double functions) (a + b)) :=
  logGamma_within hf (ha.add hb (by omega)) (by omega) (by omega)
    (hpos.trans_le (le_real_add ha hb (by omega) hzero))

theorem singleTerm_within (count : UInt64) {a : Float} (ha : Within 931 a) (hpos : 0 < real a) :
    Within 950 (@Likelihood.singleTerm Float (.double functions) count a) := by
  have hcount := (within_toFloat count).mono (show 64 ≤ 931 by norm_num)
  have hsum := logGamma_add hf hcount ha (by norm_num) (by norm_num) (zero_le_real_toFloat _) hpos
  have hentry := logGamma_within hf ha (by norm_num) (by norm_num) hpos
  have hdiff := hsum.sub (hentry.mono (by norm_num)) (by norm_num)
  exact hdiff.sub ((logGamma_add_one hf count).mono (by norm_num)) (by norm_num)

theorem jointTerm_within (first second : UInt64) {a : Float} (ha : Within 931 a)
    (hpos : 0 < real a) :
    Within 950 (@Likelihood.jointTerm Float (.double functions) first second a) := by
  have hcounts := (within_toFloat first).add (within_toFloat second) (by norm_num)
  have hzero := (zero_le_real_toFloat second).trans
    (le_real_add (within_toFloat first) (within_toFloat second) (by norm_num)
      (zero_le_real_toFloat first))
  have hsum := logGamma_add hf (hcounts.mono (show 65 ≤ 931 by norm_num)) ha (by norm_num)
    (by norm_num) hzero hpos
  have hentry := logGamma_within hf ha (by norm_num) (by norm_num) hpos
  have hones := (logGamma_add_one hf first).add (logGamma_add_one hf second) (by norm_num)
  have hdiff := hsum.sub (hentry.mono (by norm_num)) (by norm_num)
  exact hdiff.sub (hones.mono (by norm_num)) (by norm_num)

theorem single_within (halpha : Moderate alpha) {counts : List UInt64} {n : UInt64}
    (hlength : counts.length = alpha.length) (hn : sumCounts counts = .ok n) :
    ∃ likelihood, @Likelihood.single Float (.double functions) counts alpha = .ok likelihood ∧
      Within 1005 likelihood := by
  have hsum := within_sum functions (by norm_num) halpha.within
  have hpos := halpha.sum_pos functions
  have hterms := within_sum functions (k := 950) (by norm_num)
    (forall_mem_zipWith counts fun count a ha =>
      singleTerm_within hf count (halpha.within a ha) (halpha.pos a ha))
  have htotal := logGamma_add hf ((within_toFloat n).mono (show 64 ≤ 985 by norm_num)) hsum
    (by norm_num) (by norm_num) (zero_le_real_toFloat n) hpos
  have halphas := logGamma_within hf hsum (by norm_num) (by norm_num) hpos
  have hone := logGamma_add_one hf n
  refine ⟨_, @Likelihood.single_of_total Float (.double functions) _ _ hlength _
    (Likelihood.countTotal_double functions hn), ?_⟩
  have hfirst := halphas.add (hone.mono (by norm_num)) (by norm_num)
  have hrest := hfirst.sub (htotal.mono (by norm_num)) (by norm_num)
  exact (hrest.mono (by norm_num)).add (hterms.mono (by norm_num)) (by norm_num)

theorem joint_within (halpha : Moderate alpha) {first second : List UInt64} {n m : UInt64}
    (hfirst : first.length = alpha.length) (hsecond : second.length = alpha.length)
    (hn : sumCounts first = .ok n) (hm : sumCounts second = .ok m) :
    ∃ likelihood, @Likelihood.joint Float (.double functions) first second alpha = .ok likelihood ∧
      Within 1005 likelihood := by
  have hsum := within_sum functions (by norm_num) halpha.within
  have hpos := halpha.sum_pos functions
  have hterms := within_sum functions (k := 950) (by norm_num)
    (forall_mem_zipWith (first.zip second) fun counts a ha =>
      jointTerm_within hf counts.1 counts.2 (halpha.within a ha) (halpha.pos a ha))
  have hcounts := (within_toFloat n).add (within_toFloat m) (by norm_num)
  have hzero := (zero_le_real_toFloat m).trans
    (le_real_add (within_toFloat n) (within_toFloat m) (by norm_num) (zero_le_real_toFloat n))
  have htotal := logGamma_add hf (hcounts.mono (show 65 ≤ 985 by norm_num)) hsum (by norm_num)
    (by norm_num) hzero hpos
  have halphas := logGamma_within hf hsum (by norm_num) (by norm_num) hpos
  have hones := (logGamma_add_one hf n).add (logGamma_add_one hf m) (by norm_num)
  refine ⟨_, @Likelihood.joint_of_totals Float (.double functions) _ _ _ hfirst hsecond _ _
    (Likelihood.countTotal_double functions hn) (Likelihood.countTotal_double functions hm), ?_⟩
  have hfirst := halphas.add (hones.mono (by norm_num)) (by norm_num)
  have hrest := hfirst.sub (htotal.mono (by norm_num)) (by norm_num)
  exact (hrest.mono (by norm_num)).add (hterms.mono (by norm_num)) (by norm_num)

/-! ## Infinite priors -/

/-- At infinity, the formula takes one infinity from another. -/
theorem logGamma_infinity {x : Float} (hx : view x = .infinity .positive) :
    (@Elementary.logGamma Float (.double functions) x).isNaN = true := by
  have hnot : ¬decide (x < 0.5) = true := by
    rw [decide_eq_true_eq, lt_iff, hx]
    exact nofun
  have hshift : view (x - 1.0) = .infinity .positive := by
    rw [sub_eq_add_neg]
    exact view_add_infinity hx rfl
  have hargument : view (x - 1.0 + 7.5) = .infinity .positive := view_add_infinity hshift rfl
  have hln : view (functions.ln (x - 1.0 + 7.5)) = .infinity .positive :=
    beq_infinity_iff.mp (hf.ln_infinity (beq_infinity_iff.mpr hargument))
  have hfactor : view (x - 1.0 + 0.5) = .infinity .positive := view_add_infinity hshift rfl
  have hproduct := view_infinity_mul hfactor hln
  have hsum := view_add_infinity hproduct (within_half_ln hf).isFinite
  rw [add_comm] at hsum
  rw [logGamma_double, if_neg hnot, logGammaUpper_double, isNaN_add_iff, isNaN_sub_iff]
  exact .inl (.inr (.inr ⟨.positive, hsum, hargument⟩))

/-- With a prior that sums up to infinity, the likelihood of one distribution is NaN. -/
theorem joint_isNaN {first second : List UInt64} {n m : UInt64} {likelihood : Float}
    (hfirst : first.length = alpha.length) (hsecond : second.length = alpha.length)
    (hn : sumCounts first = .ok n) (hm : sumCounts second = .ok m)
    (hsum : view (@Elementary.sum Float (.double functions) alpha) = .infinity .positive)
    (h : @Likelihood.joint Float (.double functions) first second alpha = .ok likelihood) :
    likelihood.isNaN = true := by
  rw [@Likelihood.joint_of_totals Float (.double functions) _ _ _ hfirst hsecond _ _
    (Likelihood.countTotal_double functions hn) (Likelihood.countTotal_double functions hm)] at h
  cases h
  exact isNaN_add_iff.mpr (.inl (isNaN_sub_iff.mpr (.inl (isNaN_add_iff.mpr (.inl
    (logGamma_infinity hf hsum))))))

end

/-- The prior of a sample space is moderate unless one of its entries exceeds `1e280`. -/
theorem moderate_prior {α : Type} [BEq α] (space : SampleSpace α Float)
    (h : ∀ entry ∈ space.prior, entry ≤ 1e280) : Moderate space.prior := by
  have hentry (a : Float) (ha : a ∈ space.prior) : a.isFinite = true ∧ 0 < real a := by
    have hvalid := Bool.and_eq_true_iff.mp (space.positive a ha)
    exact ⟨hvalid.1, (lt_iff_real rfl hvalid.1).mp (of_decide_eq_true hvalid.2)⟩
  have hbound : Within 931 1e280 :=
    within_of_exponent (t := 878) (by decide +kernel) (by decide +kernel) (by norm_num)
  refine ⟨fun a ha => ⟨(hentry a ha).1, ?_⟩, fun a ha => (hentry a ha).2, ?_⟩
  · rw [abs_of_pos (hentry a ha).2]
    exact ((le_iff_real (hentry a ha).1 hbound.isFinite).mp (h a ha)).trans
      ((le_abs_self _).trans hbound.abs_le)
  · intro hnil
    have hlength := space.aligned
    rw [hnil] at hlength
    exact space.nonempty (List.length_eq_zero_iff.mp hlength.symm)

end Double

end Aleatory
