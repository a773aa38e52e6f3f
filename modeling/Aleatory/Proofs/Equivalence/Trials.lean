import Aleatory.Proofs.Equivalence.Frequency
import Aleatory.Proofs.Experiment.Interpretation
import Aleatory.Proofs.Mode.Wrapping

/-!
# Independent trials

The trials of a histogram start from the states that repeated splitting hands out: `spine n s` is
the state after `n` splits that each go on with the first half, and `branch n s` is the half
handed out by the next one.
-/

namespace Aleatory

namespace Generator

variable {σ : Type} [Generator σ]

/-- The state after `n` splits, each time going on with the first half. -/
def spine : Nat → σ → σ
  | 0, state => state
  | n + 1, state => spine n (split state).1

/-- The half handed out by a split, after `n` splits before it. -/
def branch (n : Nat) (state : σ) : σ := (split (spine n state)).2

theorem spine_add (i n : Nat) (state : σ) : spine (i + n) state = spine n (spine i state) := by
  induction i generalizing state with
  | zero => rw [Nat.zero_add, spine]
  | succ i ih =>
      rw [Nat.add_right_comm]
      exact ih (split state).1

end Generator

namespace Experiment

open Generator

/-- The steps that a symbolic sequence of trials makes: those of its samples, and one more for
each. -/
def sequencedSteps {α : Type} (samples : List (Counted α)) : Nat :=
  (samples.map fun t => t.steps.toNat + 1).sum

@[simp] theorem sequencedSteps_nil {α : Type} : sequencedSteps ([] : List (Counted α)) = 0 := rfl

@[simp] theorem sequencedSteps_cons {α : Type} (t : Counted α) (samples : List (Counted α)) :
    sequencedSteps (t :: samples) = t.steps.toNat + 1 + sequencedSteps samples := rfl

variable {F : Mode} {σ χ α ρ : Type} [EmptyCollection χ]

section Marks

variable [Generator σ]

/-- What the trials leave in the log: one split each, and what the trial itself leaves for the
first `sampled` of them. -/
def trialMarks (e : Experiment F σ χ α) (sampled n : Nat) (state : σ) : Array Mark :=
  (Array.range n).flatMap fun i =>
    #[.split] ++ if i < sampled then (e.sample (branch i state)).log else #[]

@[simp] theorem trialMarks_zero (e : Experiment F σ χ α) (sampled : Nat) (state : σ) :
    e.trialMarks sampled 0 state = #[] := rfl

theorem trialMarks_succ_zero (e : Experiment F σ χ α) (n : Nat) (state : σ) :
    e.trialMarks 0 (n + 1) state = #[.split] ++ e.trialMarks 0 n (split state).1 := by
  simp only [trialMarks, Array.range_succ_eq_map, Array.flatMap_append, Array.flatMap_map,
    Array.flatMap_singleton, Nat.not_lt_zero, if_false, Array.append_empty]

theorem trialMarks_succ_succ (e : Experiment F σ χ α) (sampled n : Nat) (state : σ) :
    e.trialMarks (sampled + 1) (n + 1) state =
      #[.split] ++ (e.sample (split state).2).log ++
        e.trialMarks sampled n (split state).1 := by
  simp only [trialMarks, Array.range_succ_eq_map, Array.flatMap_append, Array.flatMap_map,
    Array.flatMap_singleton, Nat.succ_lt_succ_iff, Nat.zero_lt_succ, if_true]
  rfl

theorem trialMarks_add (e : Experiment F σ χ α) (i sampled n : Nat) (state : σ) :
    e.trialMarks (i + sampled) (i + n) state =
      e.trialMarks i i state ++ e.trialMarks sampled n (spine i state) := by
  induction i generalizing state with
  | zero => simp [spine]
  | succ i ih =>
      rw [Nat.add_right_comm i 1 sampled, Nat.add_right_comm i 1 n, trialMarks_succ_succ, ih,
        trialMarks_succ_succ]
      simp only [Array.append_assoc]
      rfl

/-- Of the splits in the log, one for every trial is made by the trials themselves. -/
theorem count_split_trialMarks (e : Experiment F σ χ α) {sampled n : Nat} (h : sampled ≤ n)
    (state : σ) :
    (e.trialMarks sampled n state).count .split =
      n + ((List.range sampled).map fun i =>
        (e.sample (branch i state)).log.count .split).sum := by
  induction n generalizing sampled state with
  | zero =>
      obtain rfl : sampled = 0 := by omega
      simp
  | succ n ih =>
      cases sampled with
      | zero =>
          rw [trialMarks_succ_zero, Array.count_append, ih (Nat.zero_le n)]
          simp
          omega
      | succ sampled =>
          rw [trialMarks_succ_succ, Array.count_append, Array.count_append,
            ih (Nat.le_of_succ_le_succ h), List.range_succ_eq_map]
          simp [branch, spine, Function.comp_def]
          omega

/-- The first trials from a state succeed, with these samples in order. -/
def Yields (e : Experiment F σ χ α) (state : σ) (samples : List (Counted α)) : Prop :=
  ∀ i (hi : i < samples.length),
    (e.sample (branch i state)).result = .ok (F.conclude (.ok samples[i]))

theorem yields_nil (e : Experiment F σ χ α) (state : σ) : e.Yields state [] := nofun

theorem yields_cons {e : Experiment F σ χ α} {state : σ} {t : Counted α}
    {samples : List (Counted α)} :
    e.Yields state (t :: samples) ↔
      (e.sample (split state).2).result = .ok (F.conclude (.ok t)) ∧
        e.Yields (split state).1 samples := by
  constructor
  · intro h
    exact ⟨h 0 (Nat.zero_lt_succ _), fun i hi => h (i + 1) (Nat.succ_lt_succ hi)⟩
  · rintro ⟨hfirst, hrest⟩ i hi
    cases i with
    | zero => exact hfirst
    | succ i => exact hrest i (Nat.lt_of_succ_lt_succ hi)

/-- Either `n` trials succeed, or one of them is the first that does not. -/
theorem exists_yields (e : Experiment F σ χ α) (n : Nat) (state : σ) :
    ∃ samples, e.Yields state samples ∧
      (samples.length = n ∨ samples.length < n ∧
        ((∃ err, (e.sample (branch samples.length state)).result =
          .ok (F.conclude (.error err))) ∨
          ∃ fault, (e.sample (branch samples.length state)).result = .error fault)) := by
  induction n generalizing state with
  | zero => exact ⟨[], e.yields_nil state, .inl rfl⟩
  | succ n ih =>
      cases hs : (e.sample (split state).2).result with
      | error fault =>
          exact ⟨[], e.yields_nil state, .inr ⟨Nat.zero_lt_succ n, .inr ⟨fault, hs⟩⟩⟩
      | ok wrapped =>
          obtain ⟨r, rfl⟩ := Mode.exists_conclude wrapped
          rcases r with err | t
          · exact ⟨[], e.yields_nil state, .inr ⟨Nat.zero_lt_succ n, .inl ⟨err, hs⟩⟩⟩
          · obtain ⟨samples, hyields, hrest⟩ := ih (split state).1
            refine ⟨t :: samples, yields_cons.mpr ⟨hs, hyields⟩, ?_⟩
            rcases hrest with hlength | ⟨hlt, hstop⟩
            · exact .inl (congrArg Nat.succ hlength)
            · exact .inr ⟨Nat.succ_lt_succ hlt, hstop⟩

end Marks

variable [BEq α] [Elementary ρ]

theorem countTrial_of_ok {e : Experiment F σ χ α} {space : SampleSpace α ρ} {trial : σ}
    {t : Counted α} {h h' : Histogram} (hs : (e.sample trial).result = .ok (F.conclude (.ok t)))
    (hc : h.count (space.indexOf? t.value) = .ok h') :
    e.countTrial space trial h =
      ⟨(e.sample trial).log, .ok (F.conclude (.ok ⟨h', t.steps⟩))⟩ := by
  rw [countTrial, Traced.andThen, hs]
  simp only [Mode.traverse_conclude_ok, hc]
  simp [Traced.ofExcept, Traced.after, Traced.ret]

theorem countTrial_of_error {e : Experiment F σ χ α} {trial : σ} {err : F.Failure}
    (hs : (e.sample trial).result = .ok (F.conclude (.error err))) (space : SampleSpace α ρ)
    (h : Histogram) :
    e.countTrial space trial h = ⟨(e.sample trial).log, .ok (F.conclude (.error err))⟩ := by
  rw [countTrial, Traced.andThen, hs]
  simp only [Mode.traverse_conclude_error]
  simp [Traced.after, Traced.ret]

theorem countTrial_of_fault {e : Experiment F σ χ α} {trial : σ} {fault : Fault}
    (hs : (e.sample trial).result = .error fault) (space : SampleSpace α ρ) (h : Histogram) :
    e.countTrial space trial h = ⟨(e.sample trial).log, .error fault⟩ := by
  rw [countTrial, Traced.andThen, hs]

variable [Generator σ]

theorem trials_eq_after (e : Experiment F σ χ α) (space : SampleSpace α ρ) (n : Nat)
    (log : Array Mark) (state : σ) (counted : F.Result Histogram) :
    e.trials space n log state counted = (e.trials space n #[] state counted).after log := by
  induction n generalizing log state counted with
  | zero => simp [trials, Traced.after]
  | succ n ih =>
      simp only [trials]
      rcases F.andThen counted (e.countTrial space (split state).2) with ⟨entries, fault | next⟩
      · simp [Traced.after]
      · simp only
        rw [ih (log.push .split ++ entries), ih ((#[] : Array Mark).push .split ++ entries)]
        simp

theorem trials_succ {e : Experiment F σ χ α} {space : SampleSpace α ρ} {state : σ}
    {counted next : F.Result Histogram} {entries : Array Mark}
    (h : F.andThen counted (e.countTrial space (split state).2) = ⟨entries, .ok next⟩) (n : Nat) :
    e.trials space (n + 1) #[] state counted =
      (e.trials space n #[] (split state).1 next).after (#[.split] ++ entries) := by
  simp only [trials]
  rw [h]
  exact trials_eq_after e space n _ _ next

theorem trials_succ_of_fault {e : Experiment F σ χ α} {space : SampleSpace α ρ} {state : σ}
    {counted : F.Result Histogram} {entries : Array Mark} {fault : Fault}
    (h : F.andThen counted (e.countTrial space (split state).2) = ⟨entries, .error fault⟩)
    (n : Nat) :
    e.trials space (n + 1) #[] state counted = ⟨#[.split] ++ entries, .error fault⟩ := by
  simp only [trials]
  rw [h]
  rfl

/-- After a failure the trials only split. -/
theorem trials_failed (e : Experiment F σ χ α) (space : SampleSpace α ρ) (n : Nat) (state : σ)
    (err : F.Failure) :
    e.trials space n #[] state (F.conclude (.error err)) =
      ⟨e.trialMarks 0 n state, .ok (spine n state, F.conclude (.error err))⟩ := by
  induction n generalizing state with
  | zero => rfl
  | succ n ih =>
      have h : F.andThen (F.conclude (.error err)) (e.countTrial space (split state).2) =
          ⟨#[], .ok (F.conclude (.error err))⟩ := Mode.andThen_conclude_error err _
      rw [trials_succ h, ih, trialMarks_succ_zero]
      simp [Traced.after, spine]

/-- A trial that succeeds extends the table by its value, and the trials after it go on from
there. -/
theorem exists_trials_succ_eq {e : Experiment F σ χ α} {space : SampleSpace α ρ} {state : σ}
    {t : Counted α} {h : Histogram} {values : List α} {steps : UInt64}
    (hs : (e.sample (split state).2).result = .ok (F.conclude (.ok t)))
    (table : h.IsTableOf space values) (hlength : values.length + 1 < UInt64.size)
    (hsteps : F = .symbolic → steps.toNat + t.steps.toNat + 1 < UInt64.size) :
    ∃ h', h'.IsTableOf space (values ++ [t.value]) ∧
      ∀ n, e.trials space (n + 1) #[] state (F.conclude (.ok ⟨h, steps⟩)) =
        (e.trials space n #[] (split state).1
          (F.conclude (.ok ⟨h', steps + t.steps + 1⟩))).after
            (#[.split] ++ (e.sample (split state).2).log) := by
  obtain ⟨h', hcount, table'⟩ := table.count_value hlength t.value
  refine ⟨h', table', fun n => ?_⟩
  have hand := Mode.andThen_of_ok (t := ⟨h, steps⟩) (countTrial_of_ok hs hcount) hsteps
  exact trials_succ hand n

/-- The first trials, if they succeed, build the table of their values; the others go on from
there. -/
theorem exists_trials_add_eq {e : Experiment F σ χ α} {space : SampleSpace α ρ} {state : σ}
    {samples : List (Counted α)} {h : Histogram} {values : List α} (hs : e.Yields state samples)
    (table : h.IsTableOf space values) (hlength : values.length + samples.length < UInt64.size)
    (steps : UInt64)
    (hsteps : F = .symbolic → steps.toNat + sequencedSteps samples < UInt64.size) :
    ∃ h' steps', h'.IsTableOf space (values ++ samples.map Counted.value) ∧
      (F = .symbolic → steps'.toNat = steps.toNat + sequencedSteps samples) ∧
      ∀ n, e.trials space (samples.length + n) #[] state (F.conclude (.ok ⟨h, steps⟩)) =
        (e.trials space n #[] (spine samples.length state)
          (F.conclude (.ok ⟨h', steps'⟩))).after
            (e.trialMarks samples.length samples.length state) := by
  -- The table and the steps so far vary: each trial adds to both before the others go on.
  induction samples generalizing state h values steps with
  | nil =>
      refine ⟨h, steps, by simpa using table, fun _ => rfl, fun n => ?_⟩
      rw [List.length_nil, Nat.zero_add, trialMarks_zero, Traced.after_empty]
      rfl
  | cons t samples ih =>
      obtain ⟨hfirst, hrest⟩ := yields_cons.mp hs
      rw [List.length_cons] at hlength
      simp only [sequencedSteps_cons] at hsteps ⊢
      have hfit : F = .symbolic → steps.toNat + t.steps.toNat + 1 < UInt64.size := by
        intro hF
        have hlt := hsteps hF
        omega
      have hadd : F = .symbolic →
          (steps + t.steps + 1).toNat = steps.toNat + t.steps.toNat + 1 :=
        fun hF => toNat_sequenceSteps (hfit hF)
      obtain ⟨h₁, table₁, hpeel⟩ := exists_trials_succ_eq hfirst table (by omega) hfit
      have hlength₁ : (values ++ [t.value]).length + samples.length < UInt64.size := by
        simp only [List.length_append, List.length_singleton]
        omega
      have hsteps₁ : F = .symbolic →
          (steps + t.steps + 1).toNat + sequencedSteps samples < UInt64.size := by
        intro hF
        have hlt := hsteps hF
        rw [hadd hF]
        omega
      obtain ⟨h', steps', table', hsteps', hothers⟩ := ih hrest table₁ hlength₁ _ hsteps₁
      refine ⟨h', steps', by simpa using table', ?_, ?_⟩
      · intro hF
        rw [hsteps' hF, hadd hF]
        omega
      · intro n
        rw [List.length_cons, Nat.add_right_comm, hpeel, hothers, trialMarks_succ_succ,
          Traced.after_after]
        rfl

theorem exists_trials_eq_table {e : Experiment F σ χ α} (space : SampleSpace α ρ) {state : σ}
    {samples : List (Counted α)} (hs : e.Yields state samples)
    (hlength : samples.length < UInt64.size)
    (hsteps : F = .symbolic → sequencedSteps samples < UInt64.size) :
    ∃ h steps, h.IsTableOf space (samples.map Counted.value) ∧
      (F = .symbolic → steps.toNat = sequencedSteps samples) ∧
      e.trials space samples.length #[] state (F.ret (.empty space.size)) =
        ⟨e.trialMarks samples.length samples.length state,
          .ok (spine samples.length state, F.conclude (.ok ⟨h, steps⟩))⟩ := by
  obtain ⟨h, steps, table, hcount, hall⟩ := exists_trials_add_eq hs
    (Histogram.isTableOf_empty space) (by simpa using hlength) 0 (by simpa using hsteps)
  refine ⟨h, steps, table, by simpa using hcount, ?_⟩
  rw [Mode.ret_eq_conclude]
  exact (hall 0).trans (by simp [trials, Traced.after])

theorem trials_of_overflow {e : Experiment .symbolic σ χ α} {space : SampleSpace α ρ} {state : σ}
    {samples : List (Counted α)} {h : Histogram} {values : List α} (steps : UInt64)
    (hs : e.Yields state samples) (table : h.IsTableOf space values)
    (hlength : values.length + samples.length < UInt64.size)
    (hover : UInt64.size ≤ steps.toNat + sequencedSteps samples) :
    (e.trials space samples.length #[] state ⟨h, steps⟩).result = .error .stepOverflow := by
  induction samples generalizing state h values steps with
  | nil => exact absurd steps.toNat_lt_size (Nat.not_lt.mpr hover)
  | cons t samples ih =>
      obtain ⟨hfirst, hrest⟩ := yields_cons.mp hs
      rw [List.length_cons] at hlength
      rw [sequencedSteps_cons] at hover
      by_cases hfit : steps.toNat + t.steps.toNat + 1 < UInt64.size
      · obtain ⟨h₁, table₁, hpeel⟩ :=
          exists_trials_succ_eq hfirst table (by omega) fun _ => hfit
        have hlength₁ : (values ++ [t.value]).length + samples.length < UInt64.size := by
          simp only [List.length_append, List.length_singleton]
          omega
        have hover₁ : UInt64.size ≤
            (steps + t.steps + 1).toNat + sequencedSteps samples := by
          rw [toNat_sequenceSteps hfit]
          omega
        exact (congrArg Traced.result (hpeel samples.length)).trans
          (ih _ hrest table₁ hlength₁ hover₁)
      · obtain ⟨h₁, hcount, -⟩ := table.count_value (by omega) t.value
        have hand := Mode.andThen_of_overflow (t := ⟨h, steps⟩)
          (countTrial_of_ok (F := .symbolic) hfirst hcount) (Nat.le_of_not_lt hfit)
        rw [List.length_cons, trials_succ_of_fault hand]

/-- If the trial after the samples fails, no later one is sampled, and its failure is what the
trials end with. -/
theorem trials_of_error {e : Experiment F σ χ α} (space : SampleSpace α ρ) {n : Nat} {state : σ}
    {samples : List (Counted α)} {err : F.Failure} (hs : e.Yields state samples)
    (hlength : samples.length < n) (hn : n < UInt64.size)
    (hstop : (e.sample (branch samples.length state)).result = .ok (F.conclude (.error err))) :
    e.trials space n #[] state (F.ret (.empty space.size)) =
      ⟨e.trialMarks (samples.length + 1) n state,
        .ok (spine n state, F.conclude (.error err))⟩ := by
  have hF : F ≠ .symbolic := by
    rintro rfl
    exact err.elim
  obtain ⟨rest, rfl⟩ : ∃ rest, n = samples.length + (rest + 1) :=
    ⟨n - samples.length - 1, by omega⟩
  obtain ⟨h, steps, -, -, hall⟩ := exists_trials_add_eq hs (Histogram.isTableOf_empty space)
    (by simp; omega) 0 (fun h => absurd h hF)
  have hand := Mode.andThen_of_error (t := ⟨h, steps⟩) (countTrial_of_error hstop space h)
  rw [Mode.ret_eq_conclude, hall, trials_succ hand, trials_failed, trialMarks_add,
    trialMarks_succ_succ, spine_add]
  simp [Traced.after, branch, spine]

theorem trials_of_fault {e : Experiment F σ χ α} (space : SampleSpace α ρ) {n : Nat} {state : σ}
    {samples : List (Counted α)} {fault : Fault} (hs : e.Yields state samples)
    (hlength : samples.length < n) (hn : n < UInt64.size)
    (hstop : (e.sample (branch samples.length state)).result = .error fault)
    (hsteps : F = .symbolic → sequencedSteps samples < UInt64.size) :
    e.trials space n #[] state (F.ret (.empty space.size)) =
      ⟨e.trialMarks (samples.length + 1) (samples.length + 1) state, .error fault⟩ := by
  obtain ⟨rest, rfl⟩ : ∃ rest, n = samples.length + (rest + 1) :=
    ⟨n - samples.length - 1, by omega⟩
  obtain ⟨h, steps, -, -, hall⟩ := exists_trials_add_eq hs (Histogram.isTableOf_empty space)
    (by simp; omega) 0 (by simpa using hsteps)
  have hand := Mode.andThen_of_fault (t := ⟨h, steps⟩) (countTrial_of_fault hstop space h)
  rw [Mode.ret_eq_conclude, hall, trials_succ_of_fault hand, trialMarks_add,
    trialMarks_succ_succ]
  simp [Traced.after, branch]

end Experiment

end Aleatory
