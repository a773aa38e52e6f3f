import Mathlib
import Aleatory.Proofs.Equivalence.Decision
import Aleatory.Proofs.Likelihood.Evidence
import Aleatory.Proofs.Likelihood.Repetition

/-!
# Reflexivity of the oracle

In exact arithmetic the posterior probability of a difference is the share of the likelihood of
two distributions in the sum of both likelihoods (`Likelihood.posterior_exact`). Equal histograms
are at least as likely from one distribution as from two, so with a threshold of one half or more
they are judged to be equal, and an experiment is never told from itself.
-/

namespace Aleatory

open Exact

namespace Likelihood

/-- Equal counts are at least as likely from one distribution as from two. -/
theorem exists_joint_self {counts : List UInt64} {alpha : List ℝ}
    (hlength : counts.length = alpha.length) (hfit : (counts.map UInt64.toNat).sum < UInt64.size)
    (halpha : ∀ a ∈ alpha, 0 < a) :
    ∃ same one, joint counts counts alpha = .ok same ∧ single counts alpha = .ok one ∧
      one + one ≤ same := by
  obtain ⟨x, rfl⟩ : ∃ x : Fin alpha.length → UInt64, counts = List.ofFn x := by
    rw [← hlength]
    exact ⟨counts.get, (List.ofFn_get counts).symm⟩
  have htotal : ∑ k, (x k).toNat < UInt64.size := by
    rw [List.map_ofFn, List.sum_ofFn] at hfit
    exact hfit
  have hα : ∀ k, 0 < alpha.get k := fun k => halpha _ (List.get_mem alpha k)
  have hsingle := single_ofFn x alpha.get htotal
  have hjoint := joint_ofFn x x alpha.get htotal htotal
  rw [List.ofFn_get] at hsingle hjoint
  exact ⟨_, _, hjoint, hsingle, add_self_logSingle_le hα _⟩

/-- The posterior probability that equal counts differ is at most one half. -/
theorem exists_probabilityOfDifference_self {counts : List UInt64} {alpha : List ℝ}
    (hlength : counts.length = alpha.length) (hfit : (counts.map UInt64.toNat).sum < UInt64.size)
    (halpha : ∀ a ∈ alpha, 0 < a) :
    ∃ p, probabilityOfDifference counts counts alpha = .ok p ∧ p ≤ 1 / 2 := by
  obtain ⟨same, one, hsame, hone, hle⟩ := exists_joint_self hlength hfit halpha
  exact ⟨_, probabilityOfDifference_eq hsame hone hone, posterior_le_half hle⟩

end Likelihood

theorem BayesTest.verdict_of_le {t : BayesTest ℝ} {first second : Histogram} {p : ℝ}
    (hp : Likelihood.probabilityOfDifference first.counts.toList second.counts.toList t.prior =
      .ok p) (hle : p ≤ t.threshold) :
    t.verdict first second = .ok ⟨p, true⟩ := by
  rw [verdict, hp]
  simp only [Elementary.le_exact_iff.mpr hle]

namespace Oracle

variable {σ χ α : Type} [Generator σ] [EmptyCollection χ] [BEq α] {o : Oracle α ℝ}

theorem prior_pos (o : Oracle α ℝ) : ∀ a ∈ o.test.prior, 0 < a := by
  intro a ha
  have hentry := o.space.positive a ha
  rw [isPriorEntry, Bool.and_eq_true, Elementary.lt_exact_iff] at hentry
  exact (by norm_num : (0 : ℝ) ≤ 0.0).trans_lt hentry.2

theorem judges_self {x : Experiment .identity σ χ α} {state : σ} {h : Histogram}
    (hthreshold : 1 / 2 ≤ o.criterion.threshold) (hresult : (o.histogram x state).result = .ok h) :
    (∃ p, o.test.verdict h h = .ok ⟨p, true⟩) ∧ o.Judges x x state true := by
  obtain ⟨values, hlength, table⟩ := exists_isTableOf Mode.identity_ne_symbolic hresult
  have hsum := table.sum_add_dropped
  have halign : h.counts.toList.length = o.test.prior.length := by
    rw [Array.length_toList, table.size_eq]
    exact o.space.aligned.symm
  obtain ⟨p, hp, hhalf⟩ :=
    Likelihood.exists_probabilityOfDifference_self halign (by omega) o.prior_pos
  have hverdict := BayesTest.verdict_of_le hp (hhalf.trans hthreshold)
  exact ⟨⟨p, hverdict⟩, h, h, _, hresult, hresult, hverdict, rfl⟩

/-- No state tells an experiment from itself: both histograms from it are the same. -/
theorem Judges.eq_true {x : Experiment .identity σ χ α} {state : σ} {equal : Bool}
    (hthreshold : 1 / 2 ≤ o.criterion.threshold) (h : o.Judges x x state equal) :
    equal = true := by
  obtain ⟨first, second, v, hfirst, hsecond, hv, rfl⟩ := h
  obtain rfl : first = second := Except.ok.inj (hfirst.symm.trans hsecond)
  obtain ⟨⟨p, hp⟩, -⟩ := judges_self hthreshold hfirst
  obtain rfl := Except.ok.inj (hp.symm.trans hv)
  rfl

/-- Whatever is compared with itself is found to be equivalent, unless a histogram of it faults. -/
theorem equivalent_self_iff {x : Experiment .identity σ χ α} {states : List σ}
    (hthreshold : 1 / 2 ≤ o.criterion.threshold) :
    (o.equivalent states x x).result = .ok true ↔
      ∀ s ∈ states, ∃ h, (o.histogram x s).result = .ok h := by
  rw [equivalent_identity_eq_true]
  constructor
  · intro hall s hs
    obtain ⟨first, -, -, hfirst, -⟩ := hall s hs
    exact ⟨first, hfirst⟩
  · intro hall s hs
    obtain ⟨h, hresult⟩ := hall s hs
    exact (judges_self hthreshold hresult).2

theorem exists_histogram_of_returns {x : Experiment .identity σ χ α} (hx : x.Returns)
    (o : Oracle α ℝ) (s : σ) : ∃ h, (o.histogram x s).result = .ok h :=
  Experiment.exists_histogram_sample Mode.identity_ne_symbolic o.space o.criterion.replicates s
    fun i _ => hx (Generator.branch i s)

end Oracle

/-- Identical histograms are no evidence of a difference, for any prior and any counts: one
distribution is at least as likely as two, so the posterior probability of a difference is at most
one half, and every threshold from there on judges them to be equal. So with such a threshold an
experiment is equivalent to itself from any states, as long as its runs do not fault, and it is
never found to differ from itself. -/
theorem identical_never_differ :
    (∀ {K : ℕ} {α : Fin K → ℝ}, (∀ k, 0 < α k) → ∀ c : Fin K → ℕ,
      Likelihood.logSingle c α + Likelihood.logSingle c α ≤ Likelihood.logJoint c c α) ∧
    (∀ {counts : List UInt64} {alpha : List ℝ}, counts.length = alpha.length →
      (counts.map UInt64.toNat).sum < UInt64.size → (∀ a ∈ alpha, 0 < a) →
      (∃ same one, Likelihood.joint counts counts alpha = .ok same ∧
        Likelihood.single counts alpha = .ok one ∧ one + one ≤ same) ∧
      ∃ p, Likelihood.probabilityOfDifference counts counts alpha = .ok p ∧ p ≤ 1 / 2 ∧
        ∀ threshold : ℝ, 1 / 2 ≤ threshold → ∀ dropped,
          (BayesTest.mk alpha threshold).verdict ⟨counts.toArray, dropped⟩
            ⟨counts.toArray, dropped⟩ = .ok ⟨p, true⟩) ∧
    ∀ {σ χ α : Type} [Generator σ] [EmptyCollection χ] [BEq α] (o : Oracle α ℝ),
      1 / 2 ≤ o.criterion.threshold → ∀ (x : Experiment .identity σ χ α) (states : List σ),
        (x.Returns → (o.equivalent states x x).result = .ok true) ∧
        ((o.equivalent states x x).result = .ok true ↔
          ∀ s ∈ states, ∃ h, (o.histogram x s).result = .ok h) ∧
        (o.equivalent states x x).result ≠ .ok false := by
  refine ⟨Likelihood.add_self_logSingle_le, ?_, ?_⟩
  · intro counts alpha hlength hfit halpha
    obtain ⟨p, hp, hhalf⟩ :=
      Likelihood.exists_probabilityOfDifference_self hlength hfit halpha
    refine ⟨Likelihood.exists_joint_self hlength hfit halpha, p, hp, hhalf, ?_⟩
    exact fun threshold hthreshold dropped =>
      BayesTest.verdict_of_le (by simpa using hp) (hhalf.trans hthreshold)
  · intro σ χ α _ _ _ o hthreshold x states
    refine ⟨fun hx => ?_, Oracle.equivalent_self_iff hthreshold, fun hfalse => ?_⟩
    · exact (Oracle.equivalent_self_iff hthreshold).mpr fun s _ =>
        Oracle.exists_histogram_of_returns hx o s
    · obtain ⟨before, s, after, -, -, hs⟩ := Oracle.equivalent_identity_eq_false.mp hfalse
      cases hs.eq_true hthreshold

/-- Two trials from every state, in exact arithmetic and with the smallest threshold at which
equal histograms are sure to be judged equal. -/
noncomputable def evenOdds : Oracle Bool ℝ where
  space := {
    outcomes := [true, false]
    prior := [1, 1]
    nonempty := by simp
    distinct := by simp [Distinct]
    aligned := rfl
    positive := by
      have hone : Elementary.lt (0.0 : ℝ) 1 = true := Elementary.lt_exact_iff.mpr (by norm_num)
      simp only [List.mem_cons, List.not_mem_nil, or_false, or_self, forall_eq, isPriorEntry, hone,
        Bool.and_true]
      rfl }
  criterion := {
    replicates := 2
    threshold := 1 / 2
    replicates_pos := Oracle.twoTrials.criterion.replicates_pos
    threshold_inside := by
      rw [Elementary.lt_exact_iff.mpr (by norm_num), Elementary.lt_exact_iff.mpr (by norm_num)]
      rfl }

/-- Whether a word is even. -/
def parity {σ : Type} [Generator σ] : Experiment .identity σ (List Nat) Bool :=
  .map .word (· % 2 == 0)

theorem parity_returns {σ : Type} [Generator σ] :
    (parity : Experiment .identity σ (List Nat) Bool).Returns := by
  intro s
  refine ⟨(Generator.word s).1 % 2 == 0, ?_⟩
  rw [Experiment.sample, Experiment.run_eq_course]
  simp [parity, Experiment.word, Experiment.ofDraws, Draws.word, Experiment.course, Course.after,
    Course.finish, Course.lift, Course.into, Course.andThen, Course.ret, Traced.andThen,
    Traced.ret, Traced.after, Mode.conclude, Mode.map, Run.map]

theorem identical_never_differ_parity :
    (∀ a ∈ [1, (1 : ℝ)], 0 < a) ∧
      (∃ p, Likelihood.probabilityOfDifference [3, 0] [3, 0] [1, (1 : ℝ)] = .ok p ∧ p ≤ 1 / 2) ∧
      (1 / 2 : ℝ) ≤ evenOdds.criterion.threshold ∧
      (parity : Experiment .identity SplitMix (List Nat) Bool).Returns ∧
      (evenOdds.equivalent [SplitMix.ofSeed 6] parity parity).result = .ok true := by
  have halpha : ∀ a ∈ [1, (1 : ℝ)], 0 < a := by simp
  have hlength : ([3, 0] : List UInt64).length = [1, (1 : ℝ)].length := rfl
  have hfit : (([3, 0] : List UInt64).map UInt64.toNat).sum < UInt64.size := by decide
  obtain ⟨-, p, hp, hhalf, -⟩ := identical_never_differ.2.1 hlength hfit halpha
  exact ⟨halpha, ⟨p, hp, hhalf⟩, le_rfl, parity_returns,
    (identical_never_differ.2.2 evenOdds le_rfl parity [SplitMix.ofSeed 6]).1 parity_returns⟩

end Aleatory
