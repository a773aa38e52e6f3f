import Aleatory.Proofs.Equivalence.Survey
import Aleatory.Proofs.Likelihood.Exchange

/-!
# The decision of the oracle

What the oracle answers is determined by the first state that is not judged to be equal: a verdict
there is the answer, and a failure there hands the question to the exact tier, for all the states
again. A mode that has no verdict to give goes to the exact tier at once.
-/

namespace Aleatory

/-- A sample is returned from every state. -/
def Experiment.Returns {F : Mode} {σ χ α : Type} [EmptyCollection χ] (e : Experiment F σ χ α) :
    Prop :=
  ∀ s, ∃ wrapped, (e.sample s).result = .ok wrapped

namespace Oracle

section Exact

variable {F : Mode} {σ χ α ρ : Type} [EmptyCollection χ] [BEq α] [BEq F.Failure]

/-- The samples from a state agree as wrapped values, or they do not. -/
def Compares (x y : Experiment F σ χ α) (state : σ) (agree : Bool) : Prop :=
  ∃ a b, (x.sample state).result = .ok a ∧ (y.sample state).result = .ok b ∧
    F.agree (· == ·) (· == ·) a b = agree

variable {x y : Experiment F σ χ α} {states : List σ}

theorem compare_result_eq {state : σ} {agree : Bool} :
    (compare x y state : Traced (Notice ρ) Bool).result = .ok agree ↔
      Compares x y state agree := by
  rcases hx : x.sample state with ⟨xlog, fault | a⟩
  · simp [compare, Compares, sample, Traced.mapLog, hx]
  · rcases hy : y.sample state with ⟨ylog, fault | b⟩
    · simp [compare, Compares, sample, Traced.mapLog, hx, hy]
    · simp [compare, Compares, sample, Traced.mapLog, hx, hy, Traced.ret]

theorem compare_result (x y : Experiment F σ χ α) (index : Nat) (state : σ) :
    ((fun _ => compare x y : Nat → σ → Traced (Notice ρ) Bool) index state).result =
      (compare x y state : Traced (Notice ρ) Bool).result := rfl

theorem exactly_result_eq_true :
    (exactly states x y : Traced (Notice ρ) Bool).result = .ok true ↔
      ∀ s ∈ states, Compares x y s true := by
  rw [exactly_eq_scan, Traced.result_after, scan_result_eq_yes (compare_result x y)]
  simp only [compare_result_eq]

theorem exactly_result_eq_false :
    (exactly states x y : Traced (Notice ρ) Bool).result = .ok false ↔
      ∃ before s after, states = before ++ s :: after ∧ (∀ b ∈ before, Compares x y b true) ∧
        Compares x y s false := by
  have hne : (.ok false : Except Fault Bool) ≠ .ok true := by decide
  rw [exactly_eq_scan, Traced.result_after, scan_result_eq (compare_result x y) hne]
  simp only [compare_result_eq]

theorem exists_compares (hx : x.Returns) (hy : y.Returns) (state : σ) :
    ∃ agree, Compares x y state agree := by
  obtain ⟨a, ha⟩ := hx state
  obtain ⟨b, hb⟩ := hy state
  exact ⟨_, a, b, ha, hb, rfl⟩

theorem exists_exactly (hx : x.Returns) (hy : y.Returns) (states : List σ) :
    ∃ answer, (exactly states x y : Traced (Notice ρ) Bool).result = .ok answer := by
  rcases forall_or_exists_first (fun s => Compares x y s true) states with
    hall | ⟨before, s, after, rfl, hbefore, hs⟩
  · exact ⟨true, exactly_result_eq_true.mpr hall⟩
  · obtain ⟨agree, h⟩ := exists_compares hx hy s
    cases agree with
    | true => exact absurd h hs
    | false => exact ⟨false, exactly_result_eq_false.mpr ⟨before, s, after, rfl, hbefore, h⟩⟩

end Exact

variable {F : Mode} {σ χ α ρ : Type} [Generator σ] [EmptyCollection χ] [BEq α] [GammaArithmetic ρ]

theorem exists_verdict (o : Oracle α ρ) {first second : Histogram} {values values' : List α}
    (hfirst : first.IsTableOf o.space values) (hlength : values.length < UInt64.size)
    (hsecond : second.IsTableOf o.space values') (hlength' : values'.length < UInt64.size) :
    ∃ v, o.test.verdict first second = .ok v := by
  obtain ⟨n, hn, -⟩ := hfirst.exists_total hlength
  obtain ⟨m, hm, -⟩ := hsecond.exists_total hlength'
  have hlengths {h : Histogram} (hsize : h.counts.size = o.space.size) :
      h.counts.toList.length = o.test.prior.length :=
    Array.length_toList.trans (hsize.trans o.space.aligned.symm)
  have h : Likelihood.Comparable first.counts.toList second.counts.toList o.test.prior :=
    .of_sums (hlengths hfirst.size_eq) (hlengths hsecond.size_eq) hn hm
  obtain ⟨same, one, other, hsame, hone, hother⟩ := h.exists_likelihoods
  have hp := Likelihood.probabilityOfDifference_eq hsame hone hother
  exact ⟨_, by rw [BayesTest.verdict, hp]⟩

variable {o : Oracle α ρ} {x y : Experiment F σ χ α} (hF : F ≠ .symbolic)

include hF

theorem exists_isTableOf {h : Histogram} {e : Experiment F σ χ α} {state : σ}
    (hresult : (o.histogram e state).result = .ok (F.ret h)) :
    ∃ values, values.length < UInt64.size ∧ h.IsTableOf o.space values := by
  obtain ⟨⟨values, hlength, table⟩, -⟩ :=
    Experiment.histogram_sample_eq_ok hF o.space hresult
  exact ⟨values, hlength ▸ o.criterion.replicates.toNat_lt_size, table⟩

theorem exists_judges_or_fails (hx : x.Returns) (hy : y.Returns) (state : σ) :
    (∃ equal, o.Judges x y state equal) ∨ o.Fails x y state := by
  have hreturns {e : Experiment F σ χ α} (he : e.Returns) (fault : Fault) :
      (o.histogram e state).result ≠ .error fault := by
    obtain ⟨wrapped, hok⟩ := Experiment.exists_histogram_sample hF o.space
      o.criterion.replicates state fun i _ => he (Generator.branch i state)
    intro herror
    cases herror.symm.trans hok
  rcases histogram_cases hF o x state with ⟨first, hfirst⟩ | ⟨err, hfirst⟩ | ⟨fault, hfirst⟩
  · rcases histogram_cases hF o y state with ⟨second, hsecond⟩ | ⟨err, hsecond⟩ | ⟨fault, hsecond⟩
    · obtain ⟨values, hlength, table⟩ := exists_isTableOf hF hfirst
      obtain ⟨values', hlength', table'⟩ := exists_isTableOf hF hsecond
      obtain ⟨v, hv⟩ := o.exists_verdict table hlength table' hlength'
      exact .inl ⟨v.equal, first, second, v, hfirst, hsecond, hv, rfl⟩
    · exact .inr (.inr ⟨first, err, hfirst, hsecond⟩)
    · exact absurd hsecond (hreturns hy fault)
  · exact .inr (.inl ⟨err, hfirst⟩)
  · exact absurd hfirst (hreturns hx fault)

omit hF in
theorem not_fails [IsEmpty F.Failure] {state : σ} : ¬o.Fails x y state := by
  rintro (⟨err, -⟩ | ⟨-, err, -⟩)
  · exact isEmptyElim err
  · exact isEmptyElim err

variable [BEq F.Failure]

/-- If every sample is returned, so is an answer. -/
theorem exists_equivalent (o : Oracle α ρ) (hx : x.Returns) (hy : y.Returns) (states : List σ) :
    ∃ answer, (o.equivalent states x y).result = .ok answer := by
  rcases equivalent_cases hF o x y states with
    ⟨-, hresult⟩ | ⟨before, s, after, -, -, ⟨-, hresult⟩ | ⟨-, hresult⟩ | ⟨fault, hfault, -⟩⟩
  · exact ⟨true, hresult⟩
  · exact ⟨false, hresult⟩
  · obtain ⟨answer, hexact⟩ := exists_exactly (ρ := ρ) hx hy states
    exact ⟨answer, hresult.trans hexact⟩
  · rcases exists_judges_or_fails (o := o) hF hx hy s with ⟨equal, h⟩ | h
    · rw [h.inspect_result hF] at hfault
      cases hfault
    · rw [h.inspect_result hF] at hfault
      cases hfault

omit hF

theorem equivalent_identity_eq_true {x y : Experiment .identity σ χ α} {states : List σ} :
    (o.equivalent states x y).result = .ok true ↔ ∀ s ∈ states, o.Judges x y s true := by
  constructor
  · intro h
    rcases equivalent_cases Mode.identity_ne_symbolic o x y states with
      ⟨hall, -⟩ | ⟨before, s, after, -, -, ⟨-, hresult⟩ | ⟨hfails, -⟩ | ⟨fault, -, hresult⟩⟩
    · exact hall
    · rw [h] at hresult
      cases hresult
    · exact absurd hfails not_fails
    · rw [h] at hresult
      cases hresult
  · exact fun hall => congrArg Traced.result (equivalent_of_forall Mode.identity_ne_symbolic hall)

theorem equivalent_identity_eq_false {x y : Experiment .identity σ χ α} {states : List σ} :
    (o.equivalent states x y).result = .ok false ↔
      ∃ before s after, states = before ++ s :: after ∧
        (∀ b ∈ before, o.Judges x y b true) ∧ o.Judges x y s false := by
  constructor
  · intro h
    rcases equivalent_cases Mode.identity_ne_symbolic o x y states with
      ⟨-, hresult⟩ |
        ⟨before, s, after, hstates, hbefore, ⟨hs, -⟩ | ⟨hfails, -⟩ | ⟨fault, -, hresult⟩⟩
    · rw [h] at hresult
      cases hresult
    · exact ⟨before, s, after, hstates, hbefore, hs⟩
    · exact absurd hfails not_fails
    · rw [h] at hresult
      cases hresult
  · rintro ⟨before, s, after, rfl, hbefore, hs⟩
    exact congrArg Traced.result (equivalent_of_unequal Mode.identity_ne_symbolic hbefore hs after)

/-- What the oracle decides. Without failures the first verdict other than equality settles the
question. With failures, the first state that is judged unequal or fails settles it: a failure by
the exact tier, for all the states. A mode that counts steps leaves everything to the exact tier. -/
theorem equivalent_decides (o : Oracle α ρ) (states : List σ) :
    (∀ x y : Experiment .identity σ χ α,
      ((o.equivalent states x y).result = .ok true ↔ ∀ s ∈ states, o.Judges x y s true) ∧
      ((o.equivalent states x y).result = .ok false ↔
        ∃ before s after, states = before ++ s :: after ∧
          (∀ b ∈ before, o.Judges x y b true) ∧ o.Judges x y s false) ∧
      (x.Returns → y.Returns → ∃ answer, (o.equivalent states x y).result = .ok answer)) ∧
    (∀ {ε : Type} [BEq ε] (x y : Experiment (.fallible ε) σ χ α),
      ((∀ s ∈ states, o.Judges x y s true) → (o.equivalent states x y).result = .ok true) ∧
      (∀ before s after, states = before ++ s :: after → (∀ b ∈ before, o.Judges x y b true) →
        (o.Judges x y s false → (o.equivalent states x y).result = .ok false) ∧
        (o.Fails x y s →
          ((o.equivalent states x y).result = .ok true ↔ ∀ t ∈ states, Compares x y t true) ∧
          ((o.equivalent states x y).result = .ok false ↔
            ∃ before t after, states = before ++ t :: after ∧
              (∀ b ∈ before, Compares x y b true) ∧ Compares x y t false))) ∧
      (x.Returns → y.Returns →
        (∃ answer, (o.equivalent states x y).result = .ok answer) ∧
        ((∀ s ∈ states, o.Judges x y s true) ∨
          ∃ before s after, states = before ++ s :: after ∧
            (∀ b ∈ before, o.Judges x y b true) ∧
            (o.Judges x y s false ∨ o.Fails x y s)))) ∧
    ∀ x y : Experiment .symbolic σ χ α,
      ((o.equivalent states x y).result = .ok true ↔ ∀ s ∈ states, Compares x y s true) ∧
      ((o.equivalent states x y).result = .ok false ↔
        ∃ before s after, states = before ++ s :: after ∧
          (∀ b ∈ before, Compares x y b true) ∧ Compares x y s false) ∧
      (x.Returns → y.Returns → ∃ answer, (o.equivalent states x y).result = .ok answer) ∧
      ∀ o' : Oracle α ρ, o'.equivalent states x y = o.equivalent states x y := by
  refine ⟨fun x y => ?_, fun x y => ⟨?_, ?_, ?_⟩, fun x y => ?_⟩
  · exact ⟨equivalent_identity_eq_true, equivalent_identity_eq_false,
      fun hx hy => exists_equivalent Mode.identity_ne_symbolic o hx hy states⟩
  · exact fun hall =>
      congrArg Traced.result (equivalent_of_forall (Mode.fallible_ne_symbolic _) hall)
  · rintro before s after rfl hbefore
    constructor
    · exact fun hs => congrArg Traced.result
        (equivalent_of_unequal (Mode.fallible_ne_symbolic _) hbefore hs after)
    · intro hs
      rw [equivalent_of_fails (Mode.fallible_ne_symbolic _) hbefore hs after, Traced.result_after]
      exact ⟨exactly_result_eq_true, exactly_result_eq_false⟩
  · intro hx hy
    refine ⟨exists_equivalent (Mode.fallible_ne_symbolic _) o hx hy states, ?_⟩
    rcases forall_or_exists_first (fun s => o.Judges x y s true) states with
      hall | ⟨before, s, after, hstates, hbefore, hs⟩
    · exact .inl hall
    · refine .inr ⟨before, s, after, hstates, hbefore, ?_⟩
      rcases exists_judges_or_fails (o := o) (Mode.fallible_ne_symbolic _) hx hy s with
        ⟨_ | _, h⟩ | h
      · exact .inl h
      · exact absurd h hs
      · exact .inr h
  · exact ⟨exactly_result_eq_true, exactly_result_eq_false,
      fun hx hy => exists_exactly hx hy states, fun o' => rfl⟩

/-- Two trials from every state, and even odds as the threshold. -/
def twoTrials : Oracle Bool Float := ⟨.boolean, ⟨2, 0.5, by decide, by decide +kernel⟩⟩

open Experiment in
theorem twoTrials_histogram_evenWord :
    (twoTrials.histogram evenWord (SplitMix.ofSeed 6)).result = .ok (.error "odd") := by
  have hlength : ([⟨true, 0⟩] : List (Counted Bool)).length < (2 : UInt64).toNat := by decide
  have hsample := histogram_sample_of_error (twoTrials.space) evenWord_yields hlength
    evenWord_fails
  exact congrArg Traced.result hsample

open Experiment in
theorem equivalent_decides_evenWord :
    (twoTrials.equivalent [SplitMix.ofSeed 6] evenWord evenWord).result = .ok true := by
  have hfails : twoTrials.Fails evenWord evenWord (SplitMix.ofSeed 6) :=
    .inl ⟨"odd", twoTrials_histogram_evenWord⟩
  obtain ⟨-, hstop, -⟩ := (twoTrials.equivalent_decides [SplitMix.ofSeed 6]).2.1 evenWord evenWord
  have hexact := ((hstop [] (SplitMix.ofSeed 6) [] rfl nofun).2 hfails).1
  refine hexact.mpr fun t _ => ⟨_, _, evenWord_sample t, evenWord_sample t, ?_⟩
  by_cases heven : (Generator.word t).1 % 2 = 0
  · rw [if_pos heven]
    rfl
  · rw [if_neg heven]
    rfl

end Oracle

end Aleatory
