import Aleatory.Proofs.Equivalence.Decision

/-!
# The books of the oracle

A histogram that an oracle makes accounts for every trial: after each of them the counts, with the
samples outside of the sample space, add up to the number of trials so far. That number fits in 64
bits, so no count and no sum of counts ever overflows, and the counts stay as many as the entries
of the prior. So nothing in the oracle faults: if it faults at all, the fault is that of a sample
(`Oracle.equivalent_keeps_books`).
-/

namespace Aleatory

/-- A fault comes from the computation itself or from what goes on from its value. -/
theorem Traced.of_andThen_fault {ω α β : Type} {t : Traced ω α} {k : α → Traced ω β} {fault : Fault}
    (h : (t.andThen k).result = .error fault) :
    t.result = .error fault ∨ ∃ a, t.result = .ok a ∧ (k a).result = .error fault := by
  rcases t with ⟨log, fault' | a⟩
  · cases h
    exact .inl rfl
  · exact .inr ⟨a, rfl, h⟩

variable {F : Mode} {σ χ α ρ : Type} [Generator σ] [EmptyCollection χ] [BEq α]

/-- The counts are aligned with the sample space and its prior, and account for a number of
trials. -/
structure Histogram.Balances [Elementary ρ] (h : Histogram) (space : SampleSpace α ρ)
    (trials : Nat) : Prop where
  size_eq : h.counts.size = space.size
  size_eq_prior : h.counts.size = space.prior.length
  total_add_dropped : ∃ total, h.total = .ok total ∧ total.toNat + h.dropped.toNat = trials
  /-- One more value can be counted, unless the number of trials is the largest one. -/
  countable : trials + 1 < UInt64.size →
    ∀ value, ∃ h', h.count (space.indexOf? value) = .ok h'

theorem Histogram.IsTableOf.balances [Elementary ρ] {h : Histogram} {space : SampleSpace α ρ}
    {values : List α} (table : h.IsTableOf space values) (hfit : values.length < UInt64.size) :
    h.Balances space values.length where
  size_eq := table.size_eq
  size_eq_prior := table.size_eq.trans space.aligned.symm
  total_add_dropped := table.exists_total hfit
  countable hnext value :=
    let ⟨h', hcount, _⟩ := table.count_value hnext value
    ⟨h', hcount⟩

namespace Experiment

open Generator

section Trials

variable [Elementary ρ] (e : Experiment F σ χ α) (space : SampleSpace α ρ)

/-- Trials pass through the state and the histogram that the first of them lead to. -/
theorem trials_add (i n : Nat) (state : σ) (counted : F.Result Histogram) :
    e.trials space (i + n) #[] state counted =
      (e.trials space i #[] state counted).andThen fun reached =>
        e.trials space n #[] reached.1 reached.2 := by
  induction i generalizing state counted with
  | zero =>
      rw [Nat.zero_add]
      change _ = (Traced.ret (state, counted)).andThen _
      rw [Traced.ret_andThen]
  | succ i ih =>
      rw [Nat.add_right_comm]
      simp only [trials]
      rcases F.andThen counted (e.countTrial space (split state).2) with ⟨entries, fault | next⟩
      · rfl
      · have hlog (n : Nat) := e.trials_eq_after space n (#[].push Mark.split ++ entries)
          (split state).1 next
        simp only [hlog, ih, Traced.after_andThen]

/-- Where the first trials from a state stand: their books are balanced, or one of them ended the
sampling. -/
inductive Stands (n : Nat) (state : σ) : Prop where
  | balanced {h : Histogram} (hbalances : h.Balances space n)
      (hresult : (e.trials space n #[] state (F.ret (.empty space.size))).result =
        .ok (spine n state, F.ret h))
  | failed {err : F.Failure} {i : Nat} (hi : i < n)
      (hsample : (e.sample (branch i state)).result = .ok (F.conclude (.error err)))
      (hresult : (e.trials space n #[] state (F.ret (.empty space.size))).result =
        .ok (spine n state, F.conclude (.error err)))
  | faulted {fault : Fault} {i : Nat} (hi : i < n)
      (hsample : (e.sample (branch i state)).result = .error fault)
      (hresult : (e.trials space n #[] state (F.ret (.empty space.size))).result = .error fault)

theorem trials_stand (hF : F ≠ .symbolic) {n : Nat} (hn : n < UInt64.size) (state : σ) :
    e.Stands space n state := by
  obtain ⟨samples, hs, hstop⟩ := e.exists_yields n state
  rcases hstop with rfl | ⟨hlength, ⟨err, hstop⟩ | ⟨fault, hstop⟩⟩
  · obtain ⟨h, steps, table, -, htrials⟩ :=
      exists_trials_eq_table space hs hn fun h => absurd h hF
    have hlength : (samples.map Counted.value).length = samples.length := List.length_map ..
    refine .balanced (hlength ▸ table.balances (hlength ▸ hn)) ?_
    rw [htrials, Mode.conclude_ok_eq_ret hF]
  · exact .failed hlength hstop
      (congrArg Traced.result (trials_of_error space hs hlength hn hstop))
  · exact .faulted hlength hstop
      (congrArg Traced.result (trials_of_fault space hs hlength hn hstop fun h => absurd h hF))

end Trials

/-- A histogram faults only where one of its trials does. -/
theorem exists_of_histogram_fault [Elementary ρ] (hF : F ≠ .symbolic) {e : Experiment F σ χ α}
    {space : SampleSpace α ρ} {replicates : UInt64} {state : σ} {fault : Fault}
    (hresult : ((e.histogram space replicates).sample state).result = .error fault) :
    ∃ i < replicates.toNat, (e.sample (branch i state)).result = .error fault := by
  obtain ⟨samples, hs, hstop⟩ := e.exists_yields replicates.toNat state
  rcases hstop with hlength | ⟨hlength, ⟨err, hstop⟩ | ⟨fault', hstop⟩⟩
  · obtain ⟨h, -, hsample⟩ := histogram_sample_of_ok hF space hs hlength
    cases hresult.symm.trans (congrArg Traced.result hsample)
  · have hsample := histogram_sample_of_error space hs hlength hstop
    cases hresult.symm.trans (congrArg Traced.result hsample)
  · cases hresult.symm.trans (histogram_sample_of_fault hF space hs hlength hstop)
    exact ⟨_, hlength, hstop⟩

end Experiment

namespace Likelihood

variable [GammaArithmetic ρ] {space : SampleSpace α ρ} {first second : Histogram} {n m : Nat}

/-- Balanced histograms have likelihoods. -/
theorem exists_of_balances (hfirst : first.Balances space n) (hsecond : second.Balances space m) :
    ∃ same one other p : ρ,
      joint first.counts.toList second.counts.toList space.prior = .ok same ∧
      single first.counts.toList space.prior = .ok one ∧
      single second.counts.toList space.prior = .ok other ∧
      probabilityOfDifference first.counts.toList second.counts.toList space.prior = .ok p := by
  obtain ⟨N, hN, -⟩ := hfirst.total_add_dropped
  obtain ⟨M, hM, -⟩ := hsecond.total_add_dropped
  have h : Comparable first.counts.toList second.counts.toList space.prior :=
    .of_sums (Array.length_toList.trans hfirst.size_eq_prior)
      (Array.length_toList.trans hsecond.size_eq_prior) hN hM
  obtain ⟨same, one, other, hsame, hone, hother⟩ := h.exists_likelihoods
  exact ⟨same, one, other, _, hsame, hone, hother, probabilityOfDifference_eq hsame hone hother⟩

end Likelihood

namespace Oracle

section Exact

variable {F : Mode} {σ χ α ρ : Type} [EmptyCollection χ] [BEq α] [BEq F.Failure]
  {x y : Experiment F σ χ α}

/-- The exact tier faults only where a sample does. -/
theorem sample_of_exactly_fault {states : List σ} {fault : Fault}
    (hresult : (exactly states x y : Traced (Notice ρ) Bool).result = .error fault) :
    ∃ s ∈ states, (x.sample s).result = .error fault ∨ (y.sample s).result = .error fault := by
  have hne : (.error fault : Except Fault Bool) ≠ .ok true := nofun
  rw [exactly_eq_scan, Traced.result_after, scan_result_eq (compare_result x y) hne] at hresult
  obtain ⟨before, s, after, rfl, -, hs⟩ := hresult
  refine ⟨s, List.mem_append_right _ (List.mem_cons_self ..), ?_⟩
  rcases Traced.of_andThen_fault hs with hx | ⟨a, -, hs⟩
  · exact .inl hx
  · rcases Traced.of_andThen_fault hs with hy | ⟨b, -, hs⟩
    · exact .inr hy
    · cases hs

end Exact

variable [GammaArithmetic ρ] (o : Oracle α ρ) (x y : Experiment F σ χ α)

/-- The states from which an oracle may sample: the given ones, and those that the histograms from
them hand out to their trials. -/
def Starts (states : List σ) (s : σ) : Prop :=
  s ∈ states ∨ ∃ t ∈ states, ∃ i < o.criterion.replicates.toNat, s = Generator.branch i t

variable {o x y}

/-- An inspection faults only where one of the histograms does. -/
theorem histogram_of_inspect_fault (hF : F ≠ .symbolic) {index : Nat} {state : σ} {fault : Fault}
    (hresult : (o.inspect x y index state).result = .error fault) :
    (o.histogram x state).result = .error fault ∨ (o.histogram y state).result = .error fault := by
  rcases histogram_cases hF o x state with ⟨first, hx⟩ | ⟨err, hx⟩ | ⟨fault', hx⟩
  · rcases histogram_cases hF o y state with ⟨second, hy⟩ | ⟨err, hy⟩ | ⟨fault', hy⟩
    · obtain ⟨values, hlength, table⟩ := exists_isTableOf hF hx
      obtain ⟨values', hlength', table'⟩ := exists_isTableOf hF hy
      obtain ⟨v, hv⟩ := o.exists_verdict table hlength table' hlength'
      cases hresult.symm.trans (congrArg Traced.result (inspect_of_tables hF hx hy hv index))
    · cases hresult.symm.trans (congrArg Traced.result (inspect_of_right_error hF hx hy index))
    · simp only [inspect, verdictFrom, Traced.andThen, hx, hy, Mode.ret_andThen hF, Traced.after,
        Except.error.injEq] at hresult
      exact .inr (hresult ▸ hy)
  · cases hresult.symm.trans (congrArg Traced.result (inspect_of_left_error hx index))
  · simp only [inspect, verdictFrom, Traced.andThen, hx, Except.error.injEq] at hresult
    exact .inl (hresult ▸ hx)

section Faults

variable [BEq F.Failure] (hF : F ≠ .symbolic)

include hF

/-- An oracle faults only where it takes a sample that does. -/
theorem exists_of_equivalent_fault (o : Oracle α ρ) {states : List σ} {fault : Fault}
    (hresult : (o.equivalent states x y).result = .error fault) :
    ∃ s, o.Starts states s ∧
      ((x.sample s).result = .error fault ∨ (y.sample s).result = .error fault) := by
  rcases equivalent_cases hF o x y states with
    ⟨-, hok⟩ | ⟨before, s, after, hstates, -, ⟨-, hok⟩ | ⟨-, hexact⟩ | ⟨fault', hfault, herror⟩⟩
  · cases hresult.symm.trans hok
  · cases hresult.symm.trans hok
  · obtain ⟨s, hs, hsample⟩ := sample_of_exactly_fault (hexact.symm.trans hresult)
    exact ⟨s, .inl hs, hsample⟩
  · cases hresult.symm.trans herror
    have hmem : s ∈ states := hstates ▸ List.mem_append_right _ (List.mem_cons_self ..)
    have hstart {e : Experiment F σ χ α} (h : (o.histogram e s).result = .error fault) :
        ∃ t, o.Starts states t ∧ (e.sample t).result = .error fault := by
      obtain ⟨i, hi, hsample⟩ := Experiment.exists_of_histogram_fault hF h
      exact ⟨_, .inr ⟨s, hmem, i, hi, rfl⟩, hsample⟩
    rcases histogram_of_inspect_fault hF hfault with hx | hy
    · obtain ⟨t, ht, hsample⟩ := hstart hx
      exact ⟨t, ht, .inl hsample⟩
    · obtain ⟨t, ht, hsample⟩ := hstart hy
      exact ⟨t, ht, .inr hsample⟩

/-- The oracle keeps its books. It answers if the samples that it takes are returned, and its
faults are theirs. The trials of a histogram pass through every number of them, and there the
counts are balanced, unless one of the trials ended them. Two histograms that are returned are
balanced, and have likelihoods. -/
theorem equivalent_keeps_books (o : Oracle α ρ) (states : List σ) (x y : Experiment F σ χ α) :
    (∀ fault, (o.equivalent states x y).result = .error fault →
      ∃ s, o.Starts states s ∧
        ((x.sample s).result = .error fault ∨ (y.sample s).result = .error fault)) ∧
    ((∀ s, o.Starts states s →
        (∃ a, (x.sample s).result = .ok a) ∧ ∃ b, (y.sample s).result = .ok b) →
      ∃ answer, (o.equivalent states x y).result = .ok answer) ∧
    (∀ (e : Experiment F σ χ α) (s : σ) (i n : Nat), i + n = o.criterion.replicates.toNat →
      e.trials o.space (i + n) #[] s (F.ret (.empty o.space.size)) =
        (e.trials o.space i #[] s (F.ret (.empty o.space.size))).andThen (fun reached =>
          e.trials o.space n #[] reached.1 reached.2) ∧
      e.Stands o.space i s) ∧
    ∀ s first second, (o.histogram x s).result = .ok (F.ret first) →
      (o.histogram y s).result = .ok (F.ret second) →
      first.Balances o.space o.criterion.replicates.toNat ∧
      second.Balances o.space o.criterion.replicates.toNat ∧
      ∃ same one other p : ρ,
        Likelihood.joint first.counts.toList second.counts.toList o.test.prior = .ok same ∧
        Likelihood.single first.counts.toList o.test.prior = .ok one ∧
        Likelihood.single second.counts.toList o.test.prior = .ok other ∧
        Likelihood.probabilityOfDifference first.counts.toList second.counts.toList
          o.test.prior = .ok p := by
  have hfault {fault : Fault} (hresult : (o.equivalent states x y).result = .error fault) :=
    exists_of_equivalent_fault hF o hresult
  refine ⟨fun fault => hfault, fun hreturns => ?_, fun e s i n hin => ⟨?_, ?_⟩, ?_⟩
  · cases hresult : (o.equivalent states x y).result with
    | ok answer => exact ⟨answer, rfl⟩
    | error fault =>
        obtain ⟨s, hs, hx | hy⟩ := hfault hresult
        · obtain ⟨⟨a, ha⟩, -⟩ := hreturns s hs
          cases hx.symm.trans ha
        · obtain ⟨-, b, hb⟩ := hreturns s hs
          cases hy.symm.trans hb
  · exact e.trials_add o.space i n s _
  · have hfit := o.criterion.replicates.toNat_lt_size
    exact e.trials_stand o.space hF (by omega) s
  · intro s first second hx hy
    have hbalances {e : Experiment F σ χ α} {h : Histogram}
        (hresult : (o.histogram e s).result = .ok (F.ret h)) :
        h.Balances o.space o.criterion.replicates.toNat := by
      obtain ⟨⟨values, hlength, table⟩, -⟩ :=
        Experiment.histogram_sample_eq_ok hF o.space hresult
      rw [← hlength]
      exact table.balances (hlength ▸ o.criterion.replicates.toNat_lt_size)
    exact ⟨hbalances hx, hbalances hy,
      Likelihood.exists_of_balances (hbalances hx) (hbalances hy)⟩

end Faults

/-- As many trials from every state as fit in 64 bits. -/
def mostTrials : Oracle Bool Float :=
  ⟨.boolean, ⟨18446744073709551615, 0.25, by decide, by decide +kernel⟩⟩

/-- The oracle answers, and all its trials but one are accounted for or cut short by a failure. -/
theorem equivalent_keeps_books_evenWord :
    (∃ answer, (mostTrials.equivalent [SplitMix.ofSeed 6] Experiment.evenWord
      Experiment.evenWord).result = .ok answer) ∧
    Experiment.evenWord.Stands mostTrials.space (2 ^ 64 - 2) (SplitMix.ofSeed 6) := by
  obtain ⟨-, hanswers, htrials, -⟩ := equivalent_keeps_books (Mode.fallible_ne_symbolic String)
    mostTrials [SplitMix.ofSeed 6] Experiment.evenWord Experiment.evenWord
  refine ⟨hanswers fun s _ => ?_, (htrials Experiment.evenWord _ (2 ^ 64 - 2) 1 rfl).2⟩
  exact ⟨⟨_, Experiment.evenWord_sample s⟩, ⟨_, Experiment.evenWord_sample s⟩⟩

end Oracle

end Aleatory
