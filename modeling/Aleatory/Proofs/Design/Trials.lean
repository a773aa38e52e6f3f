import Aleatory.Proofs.Design.Rendering

/-!
# Trials under a regime

The trials of a histogram go on from one wrapped table to the next. That is a course in which each
trial is an effect step and a failure leaves only splits behind it (`trials_eq_trialsCourse`). The
chronicle of trials lists values instead. If every sample reports what the chronicle of its trial
says, then the course of the trials renders their chronicle, and the tables that it goes through
are those of the values listed (`trialsCourse_renders`). The histogram as an effect step of its own
follows from that (`histogram_renders`).
-/

namespace Aleatory

open Generator

namespace Chronicle

variable {ε σ α β : Type}

theorem within_collapse_map (n : Nat) (g : α → β) (t : Chronicle ε α) :
    (t.map g).collapse.within n = (t.within n).collapse.map g := by
  rcases t with ⟨log, fault | x⟩ <;> rfl

theorem map_trials_zero [Generator σ] (trial : σ → Chronicle ε α) (f : List α → β) (state : σ) :
    (trials trial 0 state).map f = ret (f []) := rfl

theorem map_trials_succ [Generator σ] (trial : σ → Chronicle ε α) (f : List α → β) (n : Nat)
    (state : σ) :
    (trials trial (n + 1) state).map f =
      (bind ((trial (split state).2).within n).collapse fun value =>
        (trials trial n (split state).1).map fun rest => f (value :: rest)).after
          #[.mark .split] := by
  have hafter (t : Chronicle ε (List α)) :
      map f (t.after #[.mark .split]) = (map f t).after #[.mark .split] := rfl
  rw [trials, hafter, map_bind]
  simp only [map_map]

end Chronicle

namespace Experiment

open Regime

variable {ε σ χ ρ α : Type} {r : Regime} [Generator σ] [EmptyCollection χ] [BEq α] [Elementary ρ]

omit [BEq α] in
theorem trialMarks_zero_eq_replicate {F : Mode} (e : Experiment F σ χ α) (n : Nat) (state : σ) :
    e.trialMarks 0 n state = Array.replicate n .split := by
  induction n generalizing state with
  | zero => rfl
  | succ n ih => rw [trialMarks_succ_zero, ih, Array.replicate_succ']

omit [Generator σ] in
theorem countTrial_eq_map {F : Mode} (e : Experiment F σ χ α) {space : SampleSpace α ρ}
    {h : Histogram} {values : List α} (table : h.IsTableOf space values)
    (hlength : values.length + 1 < UInt64.size) (trial : σ) :
    e.countTrial space trial h = (e.sample trial).andThen fun wrapped =>
      .ret (F.map (fun value => Histogram.tabulate space (values ++ [value])) wrapped) := by
  have hcount (value : α) : (Traced.ofExcept (h.count (space.indexOf? value)) : Traced Mark _) =
      .ret (Histogram.tabulate space (values ++ [value])) := by
    obtain ⟨h', hcount, table'⟩ := table.count_value hlength value
    rw [hcount, table'.eq_tabulate]
    rfl
  simp only [countTrial, hcount, Mode.traverse_of_ret]

/-- The course of the trials that go on from a histogram. -/
def trialsCourse {F : Mode} (e : Experiment F σ χ α) (space : SampleSpace α ρ) :
    Nat → σ → Histogram → Course F Histogram
  | 0, _, h => .ret h
  | n + 1, state, h =>
    (((Course.perform (e.countTrial space (split state).2 h)).within n).andThen
      (e.trialsCourse space n (split state).1)).after #[.split]

theorem trials_eq_trialsCourse {F : Mode} (e : Experiment F σ χ α) (space : SampleSpace α ρ)
    (n : Nat) (state : σ) (h : Histogram) (steps : UInt64) :
    e.trials space n #[] state (F.conclude (.ok ⟨h, steps⟩)) =
      ⟨(e.trialsCourse space n state h steps).log,
        (e.trialsCourse space n state h steps).result.map fun r =>
          (spine n state, F.conclude r)⟩ := by
  induction n generalizing state h steps with
  | zero => rfl
  | succ n ih =>
      have hand := Mode.andThen_eq_perform h steps (e.countTrial space (split state).2)
      simp only [trialsCourse, Course.after, Course.andThen, Course.within]
      generalize Course.perform (e.countTrial space (split state).2 h) steps = w at hand ⊢
      rcases w with ⟨log, fault | err | next⟩
      · rw [trials_succ_of_fault hand]
        rfl
      · rw [trials_succ hand, trials_failed, trialMarks_zero_eq_replicate]
        simp [Traced.after, Traced.ret, Except.map, spine]
      · rw [trials_succ hand, ih]
        simp [Traced.after, Traced.ret, spine]

theorem trialsCourse_renders {e : Experiment (r.mode ε) σ χ α} {trial : σ → Chronicle ε α}
    (hsample : ∀ state, r.Reports (trial state) (e.sample state)) (space : SampleSpace α ρ)
    (n : Nat) (state : σ) (values : List α) (hlength : values.length + n < UInt64.size)
    (steps : UInt64) :
    r.Renders steps ((Chronicle.trials trial n state).map fun rest =>
        Histogram.tabulate space (values ++ rest))
      (e.trialsCourse space n state (Histogram.tabulate space values) steps) := by
  -- The values and the steps so far vary: each trial adds to both before the others go on.
  induction n generalizing values state steps with
  | zero =>
      rw [Chronicle.map_trials_zero, List.append_nil]
      exact .ret _
  | succ n ih =>
      have table := Histogram.isTableOf_tabulate space values (by omega)
      have hcount := (hsample (split state).2).map fun value =>
        Histogram.tabulate space (values ++ [value])
      rw [← e.countTrial_eq_map table (by omega)] at hcount
      have hstep : r.Renders steps _ _ := .within n (.collapse hcount)
      -- The histogram that a trial goes on to is a function of its value, not the value itself.
      rw [Chronicle.within_collapse_map] at hstep
      rw [Chronicle.map_trials_succ]
      refine .after_mark .split (.bind_map hstep fun value sum => ?_)
      have hlength' : (values ++ [value]).length + n < UInt64.size := by
        simp only [List.length_append, List.length_singleton]
        omega
      simpa using ih (split state).1 (values ++ [value]) hlength' sum

/-- What a histogram returns is what its trials lead to, with the warning that they give rise
to. -/
theorem histogram_eq_act {F : Mode} (e : Experiment F σ χ α) (space : SampleSpace α ρ)
    (replicates : UInt64) :
    e.histogram space replicates = .act fun state extras =>
      ((e.trialsCourse space replicates.toNat state (Histogram.tabulate space [])).andThen fun h =>
        (Course.ret { state := spine replicates.toNat state, extras, value := h }).after
          (h.warning replicates)).finish 0 := by
  have hempty := (Histogram.isTableOf_empty space).eq_tabulate
  rw [histogram]
  congr 1
  funext state extras
  rw [Mode.ret_eq_conclude, trials_eq_trialsCourse, hempty, Course.finish, Course.andThen_into,
    Course.into]
  rcases e.trialsCourse space replicates.toNat state (Histogram.tabulate space []) 0 with
    ⟨log, fault | err | next⟩
  · rfl
  · simp [Except.map, Mode.traverse_conclude_error]
  · simp [Except.map, Mode.traverse_conclude_ok, warnOutside_eq, Course.after_into, Traced.after,
      Traced.ret]

theorem histogram_renders {e : Experiment (r.mode ε) σ χ α} {trial : Design ε σ χ ρ α}
    (hsample : ∀ state, r.Reports ((trial.chronicle state ∅).map Run.value) (e.sample state))
    (space : SampleSpace α ρ) (replicates : UInt64) (state : σ) (extras : χ) (steps : UInt64) :
    r.Renders steps ((trial.histogram space replicates).chronicle state extras)
      ((e.histogram space replicates).course state extras steps) := by
  have hlength : ([] : List α).length + replicates.toNat < UInt64.size := by
    simpa using replicates.toNat_lt_size
  have htrials := trialsCourse_renders hsample space replicates.toNat state [] hlength 0
  have hfinish := (htrials.bind fun h sum =>
    (Renders.ret (Run.mk (spine replicates.toNat state) extras h)).after
      (h.warning replicates)).finish
  rw [histogram_eq_act]
  exact (Renders.collapse hfinish).after_mark (.visit .act)

end Experiment

end Aleatory
