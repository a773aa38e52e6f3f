import Aleatory.Proofs.Equivalence.Decision

/-!
# The journal of the oracle

The journal shows what was run, in order: from every state up to the first one that is not judged
to be equal, the histogram of the first experiment, then that of the second unless the first one
failed, then the comparison of the two unless the second one failed. Nothing follows, unless a
histogram failed: then the exact tier says so and samples both experiments once from every state,
up to the first disagreement.
-/

namespace Aleatory

namespace Oracle

open Generator

section Exact

variable {F : Mode} {σ χ α ρ : Type} [EmptyCollection χ]

/-- What the samples of two experiments leave in the journal. -/
def sampleEntries (x y : Experiment F σ χ α) (state : σ) : Array (Notice ρ) :=
  ((x.sample state).log ++ (y.sample state).log).map .ran

variable [BEq α] [BEq F.Failure] {x y : Experiment F σ χ α} {state : σ}

theorem compare_log {agree : Bool} (h : Compares x y state agree) :
    (compare x y state : Traced (Notice ρ) Bool).log = sampleEntries x y state := by
  obtain ⟨a, b, hx, hy, -⟩ := h
  simp [compare, sampleEntries, sample, Traced.mapLog, Traced.andThen, hx, hy, Traced.ret]

theorem scanLog_compare {states : List σ} (h : ∀ t ∈ states, ∃ agree, Compares x y t agree)
    (index : Nat) :
    scanLog (fun _ => compare x y) index states =
      (states.toArray.flatMap (sampleEntries x y) : Array (Notice ρ)) := by
  induction states generalizing index with
  | nil => rfl
  | cons t rest ih =>
      obtain ⟨⟨agree, ht⟩, hrest⟩ := List.forall_mem_cons.mp h
      rw [scanLog, compare_log ht, ih hrest]
      simp

theorem exactly_log_of_forall {states : List σ} (h : ∀ t ∈ states, Compares x y t true) :
    (exactly states x y : Traced (Notice ρ) Bool).log =
      #[.exact states.length] ++ states.toArray.flatMap (sampleEntries x y) := by
  rw [exactly_eq_scan, scan_of_forall (compare_result x y)
      fun t ht => compare_result_eq.mpr (h t ht),
    Traced.log_after, scanLog_compare fun t ht => ⟨true, h t ht⟩]

/-- Nothing is sampled after the first disagreement. -/
theorem exactly_log_of_disagreement {before : List σ} (h : ∀ t ∈ before, Compares x y t true)
    (hstate : Compares x y state false) (after : List σ) :
    (exactly (before ++ state :: after) x y : Traced (Notice ρ) Bool).log =
      #[.exact (before ++ state :: after).length] ++
        (before ++ [state]).toArray.flatMap (sampleEntries x y) := by
  have hfound := compare_result_eq (ρ := ρ).mpr hstate
  have hstop : (compare x y state : Traced (Notice ρ) Bool).result ≠ .ok true := by
    rw [hfound]
    nofun
  rw [exactly_eq_scan, scan_of_stop (compare_result x y)
      (fun t ht => compare_result_eq.mpr (h t ht)) hstop,
    Traced.log_after, scanLog_compare fun t ht => ⟨true, h t ht⟩, compare_log hstate]
  simp

end Exact

section Statistical

variable {F : Mode} {σ χ α ρ : Type} [Generator σ] [EmptyCollection χ] [BEq α] [GammaArithmetic ρ]

/-- What a histogram that is returned leaves in the journal. -/
def tableEntries (o : Oracle α ρ) (e : Experiment F σ χ α) (h : Histogram) (state : σ) :
    Array (Notice ρ) :=
  (#[Mark.visit .act] ++
    e.trialMarks o.criterion.replicates.toNat o.criterion.replicates.toNat state ++
    h.warning o.criterion.replicates).map .ran

/-- What a histogram leaves in the journal if trial `i` fails. -/
def failureEntries (o : Oracle α ρ) (e : Experiment F σ χ α) (i : Nat) (state : σ) :
    Array (Notice ρ) :=
  (#[Mark.visit .act] ++ e.trialMarks (i + 1) o.criterion.replicates.toNat state).map .ran

variable {o : Oracle α ρ} {x y e : Experiment F σ χ α} {state : σ}

theorem histogram_log_of_table (hF : F ≠ .symbolic) {h : Histogram}
    (hresult : (o.histogram e state).result = .ok (F.ret h)) :
    (o.histogram e state).log = o.tableEntries e h state := by
  obtain ⟨-, hlog⟩ := Experiment.histogram_sample_eq_ok hF o.space hresult
  exact congrArg (Array.map Notice.ran) hlog

theorem exists_histogram_log_of_error (hF : F ≠ .symbolic) {err : F.Failure}
    (hresult : (o.histogram e state).result = .ok (F.conclude (.error err))) :
    ∃ i < o.criterion.replicates.toNat,
      (e.sample (branch i state)).result = .ok (F.conclude (.error err)) ∧
      (o.histogram e state).log = o.failureEntries e i state := by
  obtain ⟨i, hi, hfails, hlog⟩ := Experiment.histogram_sample_eq_error hF o.space hresult
  exact ⟨i, hi, hfails, congrArg (Array.map Notice.ran) hlog⟩

variable [BEq F.Failure] (hF : F ≠ .symbolic)

include hF

/-- Unless a histogram fails, nothing is run after the first state that is not judged to be
equal. -/
theorem equivalent_of_not_fails {before : List σ} (h : ∀ b ∈ before, o.Judges x y b true)
    (hequal : ¬o.Judges x y state true) (hfails : ¬o.Fails x y state) (after : List σ) :
    o.equivalent (before ++ state :: after) x y = o.equivalent (before ++ [state]) x y ∧
      (o.equivalent (before ++ state :: after) x y).log =
        scanLog (o.inspect x y) 0 before ++ (o.inspect x y before.length state).log := by
  rcases inspect_cases hF o x y state with ⟨_ | _, hstate⟩ | hstate | ⟨fault, hstate⟩
  · rw [equivalent_of_unequal hF h hstate, equivalent_of_unequal hF h hstate]
    exact ⟨rfl, rfl⟩
  · exact absurd hstate hequal
  · exact absurd hstate hfails
  · rw [equivalent_of_fault hF h (hstate 0), equivalent_of_fault hF h (hstate 0)]
    exact ⟨rfl, rfl⟩

/-- What the oracle leaves in its journal. The statistical tier inspects the states in order, up
to the first one that is not judged to be equal. An inspection leaves what the histograms leave,
the second one only if the first is returned, and one more entry if both are. The exact tier
follows just if a histogram failed, and its first entry says how many states it is for. -/
theorem equivalent_journal (o : Oracle α ρ) (states : List σ) (x y : Experiment F σ χ α) :
    ((∀ s ∈ states, o.Judges x y s true) →
      (o.equivalent states x y).log = scanLog (o.inspect x y) 0 states) ∧
    (∀ before s after, states = before ++ s :: after → (∀ b ∈ before, o.Judges x y b true) →
      ¬o.Judges x y s true →
      (¬o.Fails x y s →
        o.equivalent states x y = o.equivalent (before ++ [s]) x y ∧
        (o.equivalent states x y).log =
          scanLog (o.inspect x y) 0 before ++ (o.inspect x y before.length s).log) ∧
      (o.Fails x y s →
        (o.equivalent states x y).log =
          scanLog (o.inspect x y) 0 before ++ (o.inspect x y before.length s).log ++
            (exactly states x y).log)) ∧
    (∀ index s,
      (∀ first second v,
        (o.histogram x s).result = .ok (F.ret first) →
        (o.histogram y s).result = .ok (F.ret second) → o.test.verdict first second = .ok v →
        (o.inspect x y index s).log =
          o.tableEntries x first s ++ o.tableEntries y second s ++
            #[.compared index v.probability o.criterion.threshold v.equal]) ∧
      (∀ first err,
        (o.histogram x s).result = .ok (F.ret first) →
        (o.histogram y s).result = .ok (F.conclude (.error err)) →
        ∃ i < o.criterion.replicates.toNat,
          (y.sample (branch i s)).result = .ok (F.conclude (.error err)) ∧
          (o.inspect x y index s).log = o.tableEntries x first s ++ o.failureEntries y i s) ∧
      (∀ err,
        (o.histogram x s).result = .ok (F.conclude (.error err)) →
        ∃ i < o.criterion.replicates.toNat,
          (x.sample (branch i s)).result = .ok (F.conclude (.error err)) ∧
          (o.inspect x y index s).log = o.failureEntries x i s)) ∧
    (∀ (e : Experiment F σ χ α) s, ∀ sampled ≤ o.criterion.replicates.toNat,
      (e.trialMarks sampled o.criterion.replicates.toNat s).count .split =
        o.criterion.replicates.toNat + ((List.range sampled).map fun i =>
          (e.sample (branch i s)).log.count .split).sum) ∧
    ((∀ t ∈ states, Compares x y t true) →
      (exactly states x y : Traced (Notice ρ) Bool).log =
        #[.exact states.length] ++ states.toArray.flatMap (sampleEntries x y)) ∧
    ∀ before t after, states = before ++ t :: after → (∀ b ∈ before, Compares x y b true) →
      Compares x y t false →
      (exactly states x y : Traced (Notice ρ) Bool).log =
        #[.exact states.length] ++ (before ++ [t]).toArray.flatMap (sampleEntries x y) := by
  refine ⟨?_, ?_, fun index s => ⟨?_, ?_, ?_⟩, ?_, exactly_log_of_forall, ?_⟩
  · intro hall
    rw [equivalent_of_forall hF hall]
  · rintro before s after rfl hbefore hequal
    constructor
    · exact fun hfails => equivalent_of_not_fails hF hbefore hequal hfails after
    · intro hfails
      rw [equivalent_of_fails hF hbefore hfails after, Traced.log_after]
  · intro first second v hx hy hv
    rw [inspect_of_tables hF hx hy hv, histogram_log_of_table hF hx,
      histogram_log_of_table hF hy]
    rfl
  · intro first err hx hy
    obtain ⟨i, hi, hfails, hlog⟩ := exists_histogram_log_of_error hF hy
    refine ⟨i, hi, hfails, ?_⟩
    rw [inspect_of_right_error hF hx hy, histogram_log_of_table hF hx, hlog]
  · intro err hx
    obtain ⟨i, hi, hfails, hlog⟩ := exists_histogram_log_of_error hF hx
    refine ⟨i, hi, hfails, ?_⟩
    rw [inspect_of_left_error hx, hlog]
  · exact fun e s sampled hsampled => e.count_split_trialMarks hsampled s
  · rintro before t after rfl hbefore ht
    exact exactly_log_of_disagreement hbefore ht after

end Statistical

open Experiment in
theorem equivalent_journal_evenWord :
    ∃ i < 2, (evenWord.sample (branch i (SplitMix.ofSeed 6))).result = .ok (.error "odd") ∧
      (twoTrials.equivalent [SplitMix.ofSeed 6] evenWord evenWord).log =
        twoTrials.failureEntries evenWord i (SplitMix.ofSeed 6) ++
          (exactly [SplitMix.ofSeed 6] evenWord evenWord).log := by
  have hhistogram := twoTrials_histogram_evenWord
  have hfails : twoTrials.Fails evenWord evenWord (SplitMix.ofSeed 6) := .inl ⟨"odd", hhistogram⟩
  have hequal : ¬twoTrials.Judges evenWord evenWord (SplitMix.ofSeed 6) true := by
    rintro ⟨first, _, _, hfirst, _⟩
    cases hhistogram.symm.trans hfirst
  obtain ⟨-, hstop, hinspect, -⟩ := equivalent_journal (Mode.fallible_ne_symbolic String) twoTrials
    [SplitMix.ofSeed 6] evenWord evenWord
  obtain ⟨i, hi, hsample, hlog⟩ := (hinspect 0 (SplitMix.ofSeed 6)).2.2 "odd" hhistogram
  refine ⟨i, hi, hsample, ?_⟩
  have hentries := (hstop [] (SplitMix.ofSeed 6) [] rfl nofun hequal).2 hfails
  rw [← hlog]
  simpa [scanLog] using hentries

end Oracle

end Aleatory
