import Aleatory.Generator.SplitMix
import Aleatory.Proofs.Equivalence.Trials

/-!
# What a run of a histogram returns

A run of a histogram splits its state once for every trial and counts the values of the trials.
It returns the table of all of them (`histogram_run_of_ok`), unless a trial fails: then it returns
the failure of the first one that does, and samples none after it (`histogram_run_of_error`).
-/

namespace Aleatory

namespace Course

variable {F : Mode} {α : Type}

theorem perform_finish_of_ok (log : Array Mark) {t : Counted α}
    (hfit : F = .symbolic → t.steps.toNat + 1 < UInt64.size) :
    (perform ⟨log, .ok (F.conclude (.ok t))⟩ : Course F α).finish 0 =
      ⟨log, .ok (F.conclude (.ok ⟨t.value, t.steps + 1⟩))⟩ := by
  cases F with
  | identity => simp [perform, finish, into, Mode.charge, Traced.ofExcept, Traced.after,
      Traced.ret, Mode.conclude]
  | fallible ε => simp [perform, finish, into, Mode.charge, Traced.ofExcept, Traced.after,
      Traced.ret, Mode.conclude]
  | symbolic =>
      have hsteps : sequenceSteps 0 t.steps = .ok (0 + t.steps + 1) :=
        sequenceSteps_of_lt (by simpa using hfit rfl)
      simp [perform, finish, into, Mode.charge, Traced.ofExcept, Traced.after, Traced.ret,
        Mode.conclude, hsteps]

theorem perform_finish_of_error (log : Array Mark) (e : F.Failure) (steps : UInt64) :
    (perform ⟨log, .ok (F.conclude (.error e))⟩ : Course F α).finish steps =
      ⟨log, .ok (F.conclude (.error e))⟩ := by
  simp [perform, finish, into, Mode.charge_conclude_error, Traced.ofExcept, Traced.after,
    Traced.ret]

theorem perform_finish_of_fault {t : Traced Mark (F.Result α)} {fault : Fault}
    (h : t.result = .error fault) (steps : UInt64) :
    (perform t).finish steps = ⟨t.log, .error fault⟩ := by
  simp [perform, finish, into, Traced.andThen, h]

theorem perform_finish_of_overflow (log : Array Mark) {t : Counted α}
    (hover : UInt64.size ≤ t.steps.toNat + 1) :
    (perform ⟨log, .ok t⟩ : Course .symbolic α).finish 0 = ⟨log, .error .stepOverflow⟩ := by
  have hsteps : sequenceSteps 0 t.steps = .error .stepOverflow :=
    sequenceSteps_of_le (by simpa using hover)
  simp [perform, finish, into, Mode.charge, Traced.ofExcept, Traced.after, hsteps]

end Course

/-- The warning that a finished histogram of a number of trials gives rise to. -/
def Histogram.warning (replicates : UInt64) (h : Histogram) : Array Mark :=
  if 0 < h.dropped then #[.outside h.dropped replicates] else #[]

theorem Experiment.warnOutside_eq (replicates : UInt64) (h : Histogram) :
    warnOutside replicates h = ⟨h.warning replicates, .ok h⟩ := by
  rw [warnOutside, Histogram.warning]
  by_cases hdropped : 0 < h.dropped
  · rw [if_pos hdropped, if_pos hdropped]
  · rw [if_neg hdropped, if_neg hdropped, Traced.ret]

namespace Experiment

open Generator

variable {F : Mode} {σ χ α ρ : Type}

theorem run_act (perform : σ → χ → Traced Mark (F.Result (Run σ χ α))) (state : σ) (extras : χ) :
    (act perform).run state extras =
      ((Course.perform (perform state extras)).finish 0).after #[.visit .act] := by
  rw [run_eq_course, course]
  exact Course.after_into _ _ _ 0

variable [EmptyCollection χ] [Generator σ] [BEq α] [Elementary ρ] {e : Experiment F σ χ α}
  {state : σ} {samples : List (Counted α)} {replicates : UInt64}

theorem histogram_run_of_ok (space : SampleSpace α ρ) (hs : e.Yields state samples)
    (hlength : samples.length = replicates.toNat)
    (hsteps : F = .symbolic → sequencedSteps samples + 1 < UInt64.size) (extras : χ) :
    ∃ h steps, h.IsTableOf space (samples.map Counted.value) ∧
      (F = .symbolic → steps.toNat = sequencedSteps samples + 1) ∧
      (e.histogram space replicates).run state extras =
        ⟨#[.visit .act] ++ e.trialMarks replicates.toNat replicates.toNat state ++
            h.warning replicates,
          .ok (F.conclude (.ok ⟨⟨spine replicates.toNat state, extras, h⟩, steps⟩))⟩ := by
  have hfits : samples.length < UInt64.size := by
    rw [hlength]
    exact replicates.toNat_lt_size
  obtain ⟨h, steps, table, hcount, htrials⟩ := exists_trials_eq_table space hs hfits
    fun hF => Nat.lt_of_succ_lt (hsteps hF)
  rw [hlength] at htrials
  refine ⟨h, steps + 1, table, ?_, ?_⟩
  · intro hF
    have hlt := hsteps hF
    rw [← hcount hF] at hlt ⊢
    rw [UInt64.toNat_add, UInt64.toNat_one]
    exact Nat.mod_eq_of_lt hlt
  · have hfit : F = .symbolic → steps.toNat + 1 < UInt64.size := by
      intro hF
      rw [hcount hF]
      exact hsteps hF
    let last : Run σ χ Histogram := ⟨spine replicates.toNat state, extras, h⟩
    have hfinish := Course.perform_finish_of_ok
      (e.trialMarks replicates.toNat replicates.toNat state ++ h.warning replicates)
      (t := ⟨last, steps⟩) hfit
    rw [histogram, run_act, htrials]
    simp only [Traced.mk_ok_andThen, Mode.traverse_conclude_ok, warnOutside_eq, Traced.after,
      Traced.ret, Array.append_empty, Array.append_assoc]
    rw [hfinish]

theorem histogram_run_of_overflow {e : Experiment .symbolic σ χ α} (space : SampleSpace α ρ)
    (hs : e.Yields state samples) (hlength : samples.length = replicates.toNat)
    (hover : UInt64.size ≤ sequencedSteps samples + 1) (extras : χ) :
    ((e.histogram space replicates).run state extras).result = .error .stepOverflow := by
  have hfits : samples.length < UInt64.size := by
    rw [hlength]
    exact replicates.toNat_lt_size
  rw [histogram, run_act, Traced.result_after]
  by_cases hsum : sequencedSteps samples < UInt64.size
  · obtain ⟨h, steps, -, hcount, htrials⟩ :=
      exists_trials_eq_table space hs hfits fun _ => hsum
    have hlast : UInt64.size ≤ steps.toNat + 1 := by
      rw [hcount rfl]
      exact hover
    let last : Run σ χ Histogram := ⟨spine samples.length state, extras, h⟩
    have hfinish := Course.perform_finish_of_overflow
      (e.trialMarks samples.length samples.length state ++ h.warning replicates)
      (t := ⟨last, steps⟩) hlast
    rw [← hlength, htrials]
    simp only [Traced.mk_ok_andThen, warnOutside_eq, Traced.after, Traced.ret,
      Array.append_empty]
    exact congrArg Traced.result hfinish
  · have htrials := trials_of_overflow 0 hs (Histogram.isTableOf_empty space)
      (by simpa using hfits) (by simpa using hsum)
    have hfault : (e.trials space replicates.toNat #[] state
        (Mode.symbolic.ret (.empty space.size))).result = .error .stepOverflow := hlength ▸ htrials
    rw [Course.perform_finish_of_fault]
    simp only [Traced.andThen, hfault]

theorem histogram_run_of_error (space : SampleSpace α ρ) {err : F.Failure}
    (hs : e.Yields state samples) (hlength : samples.length < replicates.toNat)
    (hstop : (e.sample (branch samples.length state)).result = .ok (F.conclude (.error err)))
    (extras : χ) :
    (e.histogram space replicates).run state extras =
      ⟨#[.visit .act] ++ e.trialMarks (samples.length + 1) replicates.toNat state,
        .ok (F.conclude (.error err))⟩ := by
  have htrials := trials_of_error space hs hlength replicates.toNat_lt_size hstop
  rw [histogram, run_act, htrials]
  simp only [Traced.mk_ok_andThen, Mode.traverse_conclude_error, Traced.ret, Traced.after,
    Array.append_empty, Course.perform_finish_of_error]

theorem histogram_run_of_fault (space : SampleSpace α ρ) {fault : Fault}
    (hs : e.Yields state samples) (hlength : samples.length < replicates.toNat)
    (hstop : (e.sample (branch samples.length state)).result = .error fault)
    (hsteps : F = .symbolic → sequencedSteps samples < UInt64.size) (extras : χ) :
    (e.histogram space replicates).run state extras =
      ⟨#[.visit .act] ++ e.trialMarks (samples.length + 1) (samples.length + 1) state,
        .error fault⟩ := by
  have htrials := trials_of_fault space hs hlength replicates.toNat_lt_size hstop hsteps
  rw [histogram, run_act, htrials]
  rfl

section Sample

variable (hF : F ≠ .symbolic)

include hF

theorem histogram_sample_of_ok (space : SampleSpace α ρ) (hs : e.Yields state samples)
    (hlength : samples.length = replicates.toNat) :
    ∃ h, h.IsTableOf space (samples.map Counted.value) ∧
      (e.histogram space replicates).sample state =
        ⟨#[.visit .act] ++ e.trialMarks replicates.toNat replicates.toNat state ++
            h.warning replicates,
          .ok (F.ret h)⟩ := by
  obtain ⟨h, steps, table, -, hrun⟩ :=
    histogram_run_of_ok space hs hlength (fun h => absurd h hF) ∅
  refine ⟨h, table, ?_⟩
  rw [sample, hrun, Traced.mk_ok_andThen, Mode.map_conclude_ok, Mode.conclude_ok_eq_ret hF,
    Traced.ret, Traced.after, Array.append_empty]

omit hF in
theorem histogram_sample_of_error (space : SampleSpace α ρ) {err : F.Failure}
    (hs : e.Yields state samples) (hlength : samples.length < replicates.toNat)
    (hstop : (e.sample (branch samples.length state)).result = .ok (F.conclude (.error err))) :
    (e.histogram space replicates).sample state =
      ⟨#[.visit .act] ++ e.trialMarks (samples.length + 1) replicates.toNat state,
        .ok (F.conclude (.error err))⟩ := by
  rw [sample, histogram_run_of_error space hs hlength hstop, Traced.mk_ok_andThen,
    Mode.map_conclude_error, Traced.ret, Traced.after, Array.append_empty]

theorem histogram_sample_of_fault (space : SampleSpace α ρ) {fault : Fault}
    (hs : e.Yields state samples) (hlength : samples.length < replicates.toNat)
    (hstop : (e.sample (branch samples.length state)).result = .error fault) :
    ((e.histogram space replicates).sample state).result = .error fault := by
  rw [sample, histogram_run_of_fault space hs hlength hstop (fun h => absurd h hF),
    Traced.mk_error_andThen]

/-- A histogram that is returned is the table of all the trials. -/
theorem histogram_sample_eq_ok (space : SampleSpace α ρ) {h : Histogram}
    (hresult : ((e.histogram space replicates).sample state).result = .ok (F.ret h)) :
    (∃ values, values.length = replicates.toNat ∧ h.IsTableOf space values) ∧
      ((e.histogram space replicates).sample state).log =
        #[.visit .act] ++ e.trialMarks replicates.toNat replicates.toNat state ++
          h.warning replicates := by
  obtain ⟨samples, hs, hstop⟩ := e.exists_yields replicates.toNat state
  rcases hstop with hlength | ⟨hlength, ⟨err, hstop⟩ | ⟨fault, hstop⟩⟩
  · obtain ⟨h', table, hsample⟩ := histogram_sample_of_ok hF space hs hlength
    rw [hsample] at hresult ⊢
    obtain rfl := Mode.ret_inj.mp (Except.ok.inj hresult)
    refine ⟨⟨samples.map Counted.value, ?_, table⟩, rfl⟩
    rw [List.length_map, hlength]
  · rw [histogram_sample_of_error space hs hlength hstop] at hresult
    exact absurd (Except.ok.inj hresult).symm (Mode.ret_ne_conclude_error h err)
  · rw [histogram_sample_of_fault hF space hs hlength hstop] at hresult
    cases hresult

/-- If a failure is returned, nothing was sampled after the trial that failed. -/
theorem histogram_sample_eq_error (space : SampleSpace α ρ) {err : F.Failure}
    (hresult : ((e.histogram space replicates).sample state).result =
      .ok (F.conclude (.error err))) :
    ∃ i < replicates.toNat,
      (e.sample (branch i state)).result = .ok (F.conclude (.error err)) ∧
      ((e.histogram space replicates).sample state).log =
        #[.visit .act] ++ e.trialMarks (i + 1) replicates.toNat state := by
  obtain ⟨samples, hs, hstop⟩ := e.exists_yields replicates.toNat state
  rcases hstop with hlength | ⟨hlength, ⟨err', hstop⟩ | ⟨fault, hstop⟩⟩
  · obtain ⟨h', table, hsample⟩ := histogram_sample_of_ok hF space hs hlength
    rw [hsample] at hresult
    exact absurd (Except.ok.inj hresult) (Mode.ret_ne_conclude_error h' err)
  · have hsample := histogram_sample_of_error space hs hlength hstop
    rw [hsample] at hresult ⊢
    obtain rfl := Mode.conclude_error_inj.mp (Except.ok.inj hresult)
    exact ⟨samples.length, hlength, hstop, rfl⟩
  · rw [histogram_sample_of_fault hF space hs hlength hstop] at hresult
    cases hresult

theorem exists_histogram_sample (space : SampleSpace α ρ) (replicates : UInt64) (state : σ)
    (hreturns : ∀ i < replicates.toNat,
      ∃ wrapped, (e.sample (branch i state)).result = .ok wrapped) :
    ∃ wrapped, ((e.histogram space replicates).sample state).result = .ok wrapped := by
  obtain ⟨samples, hs, hstop⟩ := e.exists_yields replicates.toNat state
  rcases hstop with hlength | ⟨hlength, ⟨err, hstop⟩ | ⟨fault, hstop⟩⟩
  · obtain ⟨h, -, hsample⟩ := histogram_sample_of_ok hF space hs hlength
    exact ⟨F.ret h, congrArg Traced.result hsample⟩
  · have hsample := histogram_sample_of_error space hs hlength hstop
    exact ⟨F.conclude (.error err), congrArg Traced.result hsample⟩
  · obtain ⟨wrapped, hwrapped⟩ := hreturns samples.length hlength
    rw [hstop] at hwrapped
    cases hwrapped

end Sample

theorem histogram_run_eq_error (e : Experiment F σ χ α) (space : SampleSpace α ρ)
    (replicates : UInt64) (state : σ) (extras : χ) (err : F.Failure) :
    ((e.histogram space replicates).run state extras).result = .ok (F.conclude (.error err)) ↔
      ∃ samples, e.Yields state samples ∧ samples.length < replicates.toNat ∧
        (e.sample (branch samples.length state)).result = .ok (F.conclude (.error err)) := by
  have hF : F ≠ .symbolic := by
    rintro rfl
    exact err.elim
  constructor
  · intro hrun
    obtain ⟨samples, hs, hstop⟩ := e.exists_yields replicates.toNat state
    rcases hstop with hlength | ⟨hlength, ⟨first, hstop⟩ | ⟨fault, hstop⟩⟩
    · obtain ⟨h, steps, -, -, hok⟩ :=
        histogram_run_of_ok space hs hlength (fun h => absurd h hF) extras
      rw [hok] at hrun
      exact absurd (Except.ok.inj hrun) (Mode.conclude_ok_ne_error _ err)
    · rw [histogram_run_of_error space hs hlength hstop extras] at hrun
      obtain rfl := Mode.conclude_error_inj.mp (Except.ok.inj hrun)
      exact ⟨samples, hs, hlength, hstop⟩
    · rw [histogram_run_of_fault space hs hlength hstop (fun h => absurd h hF) extras] at hrun
      cases hrun
  · rintro ⟨samples, hs, hlength, hstop⟩
    rw [histogram_run_of_error space hs hlength hstop extras]

/-- A run of a histogram returns the exact table of independent trials. The trials start from the
states split off one after the other; the state goes on with what is left after all the splits,
and the extras stay as they are. The first trial that fails ends the sampling, but not the
splitting, and its failure is returned. -/
theorem histogram_run_tabulates (e : Experiment F σ χ α) (space : SampleSpace α ρ)
    (replicates : UInt64) (state : σ) (extras : χ) :
    (∀ samples, e.Yields state samples → samples.length = replicates.toNat →
      (F = .symbolic → sequencedSteps samples + 1 < UInt64.size) →
      ∃ h total steps,
        (e.histogram space replicates).run state extras =
          ⟨#[.visit .act] ++ e.trialMarks replicates.toNat replicates.toNat state ++
              h.warning replicates,
            .ok (F.conclude (.ok ⟨⟨spine replicates.toNat state, extras, h⟩, steps⟩))⟩ ∧
        h.IsTableOf space (samples.map Counted.value) ∧
        h.total = .ok total ∧ total.toNat + h.dropped.toNat = replicates.toNat ∧
        (F = .symbolic → steps.toNat = sequencedSteps samples + 1)) ∧
    (∀ samples, e.Yields state samples → samples.length = replicates.toNat →
      F = .symbolic → UInt64.size ≤ sequencedSteps samples + 1 →
      ((e.histogram space replicates).run state extras).result = .error .stepOverflow) ∧
    (∀ err, ((e.histogram space replicates).run state extras).result =
        .ok (F.conclude (.error err)) ↔
      ∃ samples, e.Yields state samples ∧ samples.length < replicates.toNat ∧
        (e.sample (branch samples.length state)).result = .ok (F.conclude (.error err))) ∧
    (∀ samples err, e.Yields state samples → samples.length < replicates.toNat →
      (e.sample (branch samples.length state)).result = .ok (F.conclude (.error err)) →
      (e.histogram space replicates).run state extras =
        ⟨#[.visit .act] ++ e.trialMarks (samples.length + 1) replicates.toNat state,
          .ok (F.conclude (.error err))⟩) ∧
    ∀ sampled ≤ replicates.toNat,
      (e.trialMarks sampled replicates.toNat state).count .split =
        replicates.toNat + ((List.range sampled).map fun i =>
          (e.sample (branch i state)).log.count .split).sum := by
  refine ⟨?_, ?_, e.histogram_run_eq_error space replicates state extras, ?_, ?_⟩
  · intro samples hs hlength hsteps
    obtain ⟨h, steps, table, hcount, hrun⟩ :=
      histogram_run_of_ok space hs hlength hsteps extras
    have hvalues : (samples.map Counted.value).length = replicates.toNat := by
      rw [List.length_map, hlength]
    obtain ⟨total, htotal, hsum⟩ :=
      table.exists_total (by rw [hvalues]; exact replicates.toNat_lt_size)
    exact ⟨h, total, steps, hrun, table, htotal, hsum.trans hvalues, hcount⟩
  · rintro samples hs hlength rfl hover
    exact histogram_run_of_overflow space hs hlength hover extras
  · intro samples err hs hlength hstop
    exact histogram_run_of_error space hs hlength hstop extras
  · intro sampled hsampled
    exact e.count_split_trialMarks hsampled state

/-- Takes one word, and fails if it is odd. -/
def evenWord {σ : Type} [Generator σ] : Experiment (.fallible String) σ (List Nat) Bool :=
  .bind .word fun bits => if bits % 2 = 0 then .certain true else .lift (.error "odd")

theorem evenWord_sample {σ : Type} [Generator σ] (state : σ) :
    (evenWord.sample state).result =
      .ok (if (Generator.word state).1 % 2 = 0 then .ok true else .error "odd") := by
  rw [sample, run_eq_course]
  by_cases heven : (Generator.word state).1 % 2 = 0
  · simp [evenWord, word, ofDraws, Draws.word, heven, course, Course.after, Course.finish,
      Course.lift, Course.into, Course.andThen, Course.ret, Traced.andThen, Traced.ret,
      Traced.after, Mode.conclude, Mode.map]
  · simp [evenWord, word, ofDraws, Draws.word, heven, course, Course.after, Course.finish,
      Course.lift, Course.into, Course.andThen, Traced.andThen, Traced.ret, Traced.after,
      Mode.conclude, Mode.map, lift, Course.perform, Mode.charge, Traced.ofExcept]

theorem evenWord_yields : evenWord.Yields (SplitMix.ofSeed 6) [⟨true, 0⟩] := by
  refine yields_cons.mpr ⟨?_, yields_nil _ _⟩
  rw [evenWord_sample]
  decide +kernel

theorem evenWord_fails :
    (evenWord.sample (branch 1 (SplitMix.ofSeed 6))).result = .ok (.error "odd") := by
  rw [evenWord_sample]
  decide +kernel

theorem histogram_run_tabulates_evenWord :
    (∃ h : Histogram,
      (evenWord.histogram .boolean 1).run (SplitMix.ofSeed 6) [] =
        ⟨#[.visit .act] ++ evenWord.trialMarks 1 1 (SplitMix.ofSeed 6) ++ h.warning 1,
          .ok (.ok ⟨spine 1 (SplitMix.ofSeed 6), [], h⟩)⟩ ∧
      h.IsTableOf .boolean [true]) ∧
    (evenWord.histogram .boolean 2).run (SplitMix.ofSeed 6) [] =
      ⟨#[.visit .act] ++ evenWord.trialMarks 2 2 (SplitMix.ofSeed 6), .ok (.error "odd")⟩ := by
  obtain ⟨h, _, _, hrun, table, _⟩ :=
    (evenWord.histogram_run_tabulates .boolean 1 (SplitMix.ofSeed 6) []).1 _ evenWord_yields rfl
      nofun
  have hfails :=
    (evenWord.histogram_run_tabulates .boolean 2 (SplitMix.ofSeed 6) []).2.2.2.1
      [⟨true, 0⟩] "odd" evenWord_yields (by decide) evenWord_fails
  exact ⟨⟨h, hrun, table⟩, hfails⟩

end Experiment

end Aleatory
