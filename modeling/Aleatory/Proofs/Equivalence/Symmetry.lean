import Aleatory.Proofs.Equivalence.Decision
import Aleatory.Proofs.Likelihood.Exchange

/-!
# Symmetry of the oracle

The two experiments are not treated alike: the second one is sampled only if the first succeeds,
so the failure of the first hides that of the second. Which of them fails is forgotten, though,
when the question goes to the exact tier, and so the answer does not depend on their order
(`Oracle.equivalent_symm`). A fault is another matter: it ends everything where it occurs, and an
experiment that faults may or may not be sampled. The answers that do come out agree even then.
-/

namespace Aleatory

theorem Mode.agree_comm {α : Type} (F : Mode) {sameFailure : F.Failure → F.Failure → Bool}
    {same : α → α → Bool} (hfailure : ∀ e f, sameFailure e f = sameFailure f e)
    (hvalue : ∀ a b, same a b = same b a) (a b : F.Result α) :
    F.agree sameFailure same a b = F.agree sameFailure same b a := by
  cases F with
  | identity => exact hvalue a b
  | fallible ε =>
      rcases a with e | a <;> rcases b with f | b
      · exact hfailure e f
      · rfl
      · rfl
      · exact hvalue a b
  | symbolic =>
      rw [agree, agree, hvalue, BEq.comm]

/-- What a test answers does not depend on the order of the histograms. -/
def BayesTest.Symmetric {ρ : Type} [GammaArithmetic ρ] (t : BayesTest ρ) : Prop :=
  ∀ first second,
    (t.verdict first second).map Verdict.equal = (t.verdict second first).map Verdict.equal

theorem BayesTest.symmetric_of_add_comm {ρ : Type} [GammaArithmetic ρ]
    (hadd : ∀ a b : ρ, a + b = b + a) (t : BayesTest ρ) : t.Symmetric := by
  intro first second
  rw [verdict, verdict, Likelihood.probabilityOfDifference_comm hadd]

/-- Rounding does not spoil the symmetry of a test over the doubles. -/
theorem BayesTest.symmetric_double (t : BayesTest Float) : t.Symmetric :=
  t.symmetric_of_add_comm Double.add_comm

namespace Oracle

section Exact

variable {F : Mode} {σ χ α ρ : Type} [EmptyCollection χ] [BEq α] [BEq F.Failure]
  {x y : Experiment F σ χ α} {states : List σ} (hvalue : ∀ a b : α, (a == b) = (b == a))
  (hfailure : ∀ e f : F.Failure, (e == f) = (f == e))

include hvalue hfailure

theorem Compares.symm {state : σ} {agree : Bool} (h : Compares x y state agree) :
    Compares y x state agree := by
  obtain ⟨a, b, ha, hb, rfl⟩ := h
  exact ⟨b, a, hb, ha, F.agree_comm hfailure hvalue b a⟩

/-- An answer of the exact tier is its answer in the other order. -/
theorem exactly_symm {answer : Bool}
    (h : (exactly states x y : Traced (Notice ρ) Bool).result = .ok answer) :
    (exactly states y x : Traced (Notice ρ) Bool).result = .ok answer := by
  cases answer with
  | true =>
      exact exactly_result_eq_true.mpr fun s hs =>
        (exactly_result_eq_true.mp h s hs).symm hvalue hfailure
  | false =>
      obtain ⟨before, s, after, hstates, hbefore, hs⟩ := exactly_result_eq_false.mp h
      exact exactly_result_eq_false.mpr ⟨before, s, after, hstates,
        fun b hb => (hbefore b hb).symm hvalue hfailure, hs.symm hvalue hfailure⟩

end Exact

variable {F : Mode} {σ χ α ρ : Type} [Generator σ] [EmptyCollection χ] [BEq α] [GammaArithmetic ρ]
  {o : Oracle α ρ} {x y : Experiment F σ χ α} {state : σ} {states : List σ}

theorem Judges.symm (htest : o.test.Symmetric) {equal : Bool} (h : o.Judges x y state equal) :
    o.Judges y x state equal := by
  obtain ⟨first, second, v, hx, hy, hv, rfl⟩ := h
  have hswap := htest first second
  rw [hv] at hswap
  cases hv' : o.test.verdict second first with
  | ok v' =>
      rw [hv'] at hswap
      exact ⟨second, first, v', hy, hx, hv', (Except.ok.inj hswap).symm⟩
  | error fault =>
      rw [hv'] at hswap
      cases hswap

/-- If one of the histograms from a state fails, there is no verdict in either order. -/
theorem Fails.not_judges (h : o.Fails x y state) (equal : Bool) :
    ¬o.Judges y x state equal := by
  rintro ⟨second, first, -, hy, hx, -⟩
  rcases h with ⟨err, herr⟩ | ⟨-, err, -, herr⟩
  · exact Mode.ret_ne_conclude_error _ _ (Except.ok.inj (hx.symm.trans herr))
  · exact Mode.ret_ne_conclude_error _ _ (Except.ok.inj (hy.symm.trans herr))

variable [BEq F.Failure]

/-- If every sample is returned, so is an answer, in every mode. -/
theorem exists_equivalent_of_returns (o : Oracle α ρ) (hx : x.Returns) (hy : y.Returns)
    (states : List σ) : ∃ answer, (o.equivalent states x y).result = .ok answer := by
  cases F with
  | identity => exact exists_equivalent Mode.identity_ne_symbolic o hx hy states
  | fallible ε => exact exists_equivalent (Mode.fallible_ne_symbolic ε) o hx hy states
  | symbolic => exact exists_exactly hx hy states

/-- An answer of the statistical tier is the answer in the other order, unless a failure met in
the one order leaves room for a fault in the other. -/
theorem equivalent_symm_or_fault (hF : F ≠ .symbolic) (hvalue : ∀ a b : α, (a == b) = (b == a))
    (hfailure : ∀ e f : F.Failure, (e == f) = (f == e)) (htest : o.test.Symmetric) {answer : Bool}
    (h : (o.equivalent states x y).result = .ok answer) :
    (o.equivalent states y x).result = .ok answer ∨
      (∃ s ∈ states, o.Fails x y s) ∧ ∃ fault, (o.equivalent states y x).result = .error fault := by
  rcases equivalent_cases hF o x y states with
    ⟨hall, hresult⟩ |
      ⟨before, s, after, rfl, hbefore, ⟨hs, hresult⟩ | ⟨hs, hresult⟩ | ⟨fault, -, hresult⟩⟩ <;>
    rw [h] at hresult
  · cases hresult
    exact .inl (congrArg Traced.result
      (equivalent_of_forall hF fun s hs => (hall s hs).symm htest))
  · cases hresult
    exact .inl (congrArg Traced.result
      (equivalent_of_unequal hF (fun b hb => (hbefore b hb).symm htest) (hs.symm htest) after))
  · have hbefore' : ∀ b ∈ before, o.Judges y x b true := fun b hb => (hbefore b hb).symm htest
    -- The failure that is met first may be another one, but it is met at the same state.
    rcases inspect_cases hF o y x s with ⟨equal, hjudges⟩ | hfails | ⟨fault, hfault⟩
    · exact absurd hjudges (hs.not_judges equal)
    · rw [equivalent_of_fails hF hbefore' hfails after, Traced.result_after]
      exact .inl (exactly_symm hvalue hfailure hresult.symm)
    · exact .inr ⟨⟨s, List.mem_append_right _ (List.mem_cons_self ..), hs⟩, fault,
        congrArg Traced.result (equivalent_of_fault hF hbefore' (hfault 0) after)⟩
  · cases hresult

/-- The order of the two experiments does not matter. Two answers in the two orders are the same
answer; both orders answer if every sample is returned; and in a mode without failures an answer in
one order is always an answer in the other. -/
theorem equivalent_symm (hvalue : ∀ a b : α, (a == b) = (b == a))
    (hfailure : ∀ e f : F.Failure, (e == f) = (f == e)) (o : Oracle α ρ)
    (htest : o.test.Symmetric) (states : List σ) (x y : Experiment F σ χ α) :
    (∀ answer answer', (o.equivalent states x y).result = .ok answer →
      (o.equivalent states y x).result = .ok answer' → answer = answer') ∧
    (x.Returns → y.Returns → ∃ answer,
      (o.equivalent states x y).result = .ok answer ∧
        (o.equivalent states y x).result = .ok answer) ∧
    (IsEmpty F.Failure → ∀ answer,
      (o.equivalent states x y).result = .ok answer ↔
        (o.equivalent states y x).result = .ok answer) := by
  have hswap (x y : Experiment F σ χ α) {answer : Bool}
      (h : (o.equivalent states x y).result = .ok answer) :
      (o.equivalent states y x).result = .ok answer ∨
        (∃ s ∈ states, o.Fails x y s) ∧
          ∃ fault, (o.equivalent states y x).result = .error fault := by
    cases F with
    | identity => exact equivalent_symm_or_fault Mode.identity_ne_symbolic hvalue hfailure htest h
    | fallible ε =>
        exact equivalent_symm_or_fault (Mode.fallible_ne_symbolic ε) hvalue hfailure htest h
    | symbolic => exact .inl (exactly_symm hvalue hfailure h)
  have hagree (answer answer' : Bool) (h : (o.equivalent states x y).result = .ok answer)
      (h' : (o.equivalent states y x).result = .ok answer') : answer = answer' := by
    rcases hswap x y h with hsame | ⟨-, fault, hfault⟩
    · exact Except.ok.inj (hsame.symm.trans h')
    · cases hfault.symm.trans h'
  refine ⟨hagree, fun hx hy => ?_, fun hempty answer => ?_⟩
  · obtain ⟨answer, h⟩ := exists_equivalent_of_returns o hx hy states
    obtain ⟨answer', h'⟩ := exists_equivalent_of_returns o hy hx states
    obtain rfl := hagree answer answer' h h'
    exact ⟨answer, h, h'⟩
  · constructor
    · exact fun h => (hswap x y h).resolve_right fun hfault => not_fails hfault.1.choose_spec.2
    · exact fun h => (hswap y x h).resolve_right fun hfault => not_fails hfault.1.choose_spec.2

end Oracle

/-- Always fails. -/
def Experiment.refusal {σ : Type} : Experiment (.fallible String) σ (List Nat) Bool :=
  .lift (.error "refused")

theorem Experiment.refusal_sample {σ : Type} (state : σ) :
    (refusal.sample state).result = .ok (.error "refused") := by
  rw [Experiment.sample, run_eq_course]
  simp [refusal, lift, course, Course.perform, Course.into, Course.after, Course.finish,
    Mode.map, Mode.charge, Mode.conclude, Traced.andThen, Traced.ofExcept, Traced.ret,
    Traced.after]

namespace Oracle

open Experiment in
/-- Two experiments that fail differently are told apart in either order. -/
theorem equivalent_symm_evenWord :
    (twoTrials.equivalent [SplitMix.ofSeed 6] evenWord refusal).result = .ok false ∧
      (twoTrials.equivalent [SplitMix.ofSeed 6] refusal evenWord).result = .ok false := by
  have hfails : twoTrials.Fails evenWord refusal (SplitMix.ofSeed 6) :=
    .inl ⟨"odd", twoTrials_histogram_evenWord⟩
  have hcompares : Compares evenWord refusal (SplitMix.ofSeed 6) false := by
    refine ⟨_, _, evenWord_sample _, refusal_sample _, ?_⟩
    by_cases heven : (Generator.word (SplitMix.ofSeed 6)).1 % 2 = 0
    · rw [if_pos heven]
      rfl
    · rw [if_neg heven]
      decide
  have hfalse : (twoTrials.equivalent [SplitMix.ofSeed 6] evenWord refusal).result =
      .ok false := by
    have hstop :=
      equivalent_of_fails (Mode.fallible_ne_symbolic _) (List.forall_mem_nil _) hfails []
    rw [List.nil_append] at hstop
    rw [hstop, Traced.result_after]
    exact exactly_result_eq_false.mpr ⟨[], _, [], rfl, List.forall_mem_nil _, hcompares⟩
  obtain ⟨-, hreturns, -⟩ := equivalent_symm (fun _ _ => BEq.comm) (fun _ _ => BEq.comm) twoTrials
    twoTrials.test.symmetric_double [SplitMix.ofSeed 6] evenWord refusal
  obtain ⟨answer, h, h'⟩ :=
    hreturns (fun s => ⟨_, evenWord_sample s⟩) (fun s => ⟨_, refusal_sample s⟩)
  cases h.symm.trans hfalse
  exact ⟨h, h'⟩

end Oracle

end Aleatory
