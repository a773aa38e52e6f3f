import Aleatory.Proofs.Design.Trials

/-!
# One design, three experiments

The chronicle of a design tells what each of its experiments does, so they can be told from each
other's (`regimes_agree`). The plain experiment makes all of the marks and has the value of the
account. If the chronicle notes no failure, the checked experiment does the same. If it does, the
checked experiment ends with the first failure: it makes the marks before it, then the splits that
the histograms around it have still to make, and nothing else. The experiment that counts does
what the plain one does and counts the total of the charges, if that fits in 64 bits.
-/

namespace Aleatory

/-- The mark that a happening leaves in a plain run. -/
def Happening.mark? {ε : Type} : Happening ε → Option Mark
  | mark m => some m
  | failure _ _ => none

/-- The marks among what is noted. -/
def Happening.marks {ε : Type} (log : Array (Happening ε)) : Array Mark := log.filterMap mark?

namespace Happening

variable {ε : Type}

@[simp] theorem marks_append (log log' : Array (Happening ε)) :
    marks (log ++ log') = marks log ++ marks log' := by
  simp [marks]

@[simp] theorem marks_map_mark (ms : Array Mark) :
    marks (ms.map (.mark : Mark → Happening ε)) = ms := by
  rw [marks, Array.filterMap_map]
  exact Array.filterMap_some

@[simp] theorem marks_failure (e : ε) (pending : Nat) : marks #[.failure e pending] = #[] := rfl

end Happening

/-- An account with its total in 64 bits, if it fits. -/
def Account.counted {α : Type} (x : Account α) : Except Fault (Counted α) :=
  if x.total < UInt64.size then .ok ⟨x.value, x.total.toUInt64⟩ else .error .stepOverflow

theorem Account.counted_eq_ok {α : Type} {x : Account α} {sum : UInt64}
    (h : sum.toNat = x.total) : x.counted = .ok ⟨x.value, sum⟩ := by
  have hfit : x.total < UInt64.size := h ▸ sum.toNat_lt_size
  rw [counted, if_pos hfit, ← h]
  simp

theorem Account.counted_eq_error {α : Type} {x : Account α} (h : UInt64.size ≤ x.total) :
    x.counted = .error .stepOverflow := if_neg (Nat.not_lt.mpr h)

namespace Regime

variable {ε α : Type} {r : Regime} {t : Chronicle ε α}

/-- A regime that takes up none of the failures sees all of the marks. -/
theorem sight_of_not_heeds {log : Array (Happening ε)}
    (h : ∀ e pending, .failure e pending ∈ log → r.heeds e = none) :
    r.sight log = ⟨Happening.marks log, none⟩ := by
  obtain ⟨log⟩ := log
  simp only [sight, Happening.marks, List.filterMap_toArray, List.mem_toArray] at h ⊢
  induction log with
  | nil => rfl
  | cons happening log ih =>
      have hrest := ih fun e pending hmem => h e pending (List.mem_cons_of_mem _ hmem)
      rw [List.foldr_cons, hrest]
      cases happening with
      | mark m => simp [see, Happening.mark?]
      | failure e pending =>
          have hfirst := h e pending List.mem_cons_self
          simp [see, hfirst, Happening.mark?, List.filterMap_cons]

/-- The first failure ends what a checked run shows. -/
theorem sight_checked_of_failure (before : Array Mark) (e : ε) (pending : Nat)
    (after : Array (Happening ε)) :
    checked.sight (before.map .mark ++ #[.failure e pending] ++ after) =
      ⟨before ++ Array.replicate pending .split, some e⟩ := by
  have hfailure : checked.sight #[.failure e pending] =
      ⟨Array.replicate pending .split, some e⟩ := rfl
  rw [sight_append, sight_append, sight_map_mark, hfailure, Sight.append_none, Sight.append_some]

theorem mode_ne_symbolic (hr : r ≠ .counted) : r.mode ε ≠ .symbolic := by
  cases r with
  | plain => exact Mode.identity_ne_symbolic
  | checked => exact Mode.fallible_ne_symbolic ε
  | counted => exact absurd rfl hr

/-- Where neither a failure is taken up nor a step counted, what is noted is what is done. -/
theorem Reports.eq_of_not_heeds {u : Traced Mark ((r.mode ε).Result α)} (h : r.Reports t u)
    (hr : r ≠ .counted) (hs : ∀ e pending, .failure e pending ∈ t.log → r.heeds e = none) :
    u = ⟨Happening.marks t.log, t.result.map fun x => (r.mode ε).ret x.value⟩ := by
  obtain ⟨v, hv, rfl⟩ := h
  have hall := sight_of_not_heeds hs
  cases hv with
  | failed hsight => cases hall.symm.trans hsight
  | @returned log x ms sum hsight hsum =>
      cases hall.symm.trans hsight
      simp only [Except.map, Mode.conclude_ok_eq_ret (mode_ne_symbolic hr)]
  | faulted hsight =>
      cases hall.symm.trans hsight
      rfl
  | overflowed hcounted => exact absurd hcounted hr

/-- Where steps are counted, the value comes with their total, if it fits, and what is noted is
then what is done. -/
theorem Reports.of_counted {u : Traced Mark (Counted α)} (h : counted.Reports t u) {x : Account α}
    (hx : t.result = .ok x) :
    u.result = x.counted ∧ (x.total < UInt64.size → u.log = Happening.marks t.log) := by
  obtain ⟨v, hv, rfl⟩ := h
  have hall : counted.sight t.log = _ := sight_of_not_heeds fun _ _ _ => rfl
  cases hv with
  | failed hsight => cases hall.symm.trans hsight
  | returned hsight hsum =>
      cases hall.symm.trans hsight
      cases hx
      exact ⟨(Account.counted_eq_ok (by simpa using hsum rfl)).symm, fun _ => rfl⟩
  | faulted hsight => cases hx
  | overflowed hr hover hv =>
      have hover : UInt64.size ≤ x.total := by simpa using hover x hx
      refine ⟨?_, fun hfit => absurd hfit (Nat.not_lt.mpr hover)⟩
      rw [Account.counted_eq_error hover, hv, Except.map]

end Regime

namespace Design

open Regime

variable {ε σ χ ρ α : Type} [Elementary ρ] [Generator σ] [EmptyCollection χ]

/-- A design and its experiment can be followed side by side, from any number of steps. -/
theorem course_renders (d : Design ε σ χ ρ α) (r : Regime) (state : σ) (extras : χ)
    (steps : UInt64) :
    r.Renders steps (d.chronicle state extras) ((d.under r).course state extras steps) := by
  -- Each kind of vertex is composed in the same way in the chronicle and in the course.
  induction d generalizing state extras steps with
  | certain value => exact (Renders.ret _).after_mark _
  | step move => exact (Renders.lift _).after_mark _
  | act perform => exact (Renders.perform _).after_mark _
  | map source f ih => exact ((ih state extras steps).map _).after_mark _
  | bind source k ihSource ihRest =>
      exact ((ihSource state extras steps).bind fun run sum =>
        ihRest run.value run.state run.extras sum).after_mark _
  | histogram trial space replicates ih =>
      have hsample (state : σ) :
          r.Reports ((trial.chronicle state ∅).map Run.value) ((trial.under r).sample state) := by
        rw [Experiment.sample, Experiment.run_eq_course]
        exact (ih state ∅ 0).finish.map Run.value
      exact Experiment.histogram_renders hsample space replicates state extras steps

theorem run_reports (d : Design ε σ χ ρ α) (r : Regime) (state : σ) (extras : χ) :
    r.Reports (d.chronicle state extras) ((d.under r).run state extras) := by
  rw [Experiment.run_eq_course]
  exact (d.course_renders r state extras 0).finish

theorem sample_reports (d : Design ε σ χ ρ α) (r : Regime) (state : σ) :
    r.Reports ((d.chronicle state ∅).map Run.value) ((d.under r).sample state) :=
  (d.run_reports r state ∅).map Run.value

/-- The plain experiment does what the chronicle tells. -/
theorem run_plain (d : Design ε σ χ ρ α) (state : σ) (extras : χ) :
    (d.under .plain).run state extras =
      ⟨Happening.marks (d.chronicle state extras).log,
        (d.chronicle state extras).result.map Account.value⟩ :=
  (d.run_reports .plain state extras).eq_of_not_heeds nofun fun _ _ _ => rfl

/-- Where no failure is noted, the checked experiment does what the plain one does. -/
theorem run_checked_of_forall_not_mem {d : Design ε σ χ ρ α} {state : σ} {extras : χ}
    (h : ∀ e pending, .failure e pending ∉ (d.chronicle state extras).log) :
    (d.under .checked).run state extras =
      ⟨((d.under .plain).run state extras).log,
        ((d.under .plain).run state extras).result.map .ok⟩ := by
  have hrun := (d.run_reports .checked state extras).eq_of_not_heeds nofun
    fun e pending hmem => absurd hmem (h e pending)
  rw [hrun, run_plain]
  cases (d.chronicle state extras).result <;> rfl

/-- The checked experiment ends with the first failure noted, after what comes before it and the
splits that the histograms around it have still to make. -/
theorem run_checked_of_log_eq {d : Design ε σ χ ρ α} {state : σ} {extras : χ}
    {before : Array Mark} {e : ε} {pending : Nat} {after : Array (Happening ε)}
    (h : (d.chronicle state extras).log = before.map .mark ++ #[.failure e pending] ++ after) :
    (d.under .checked).run state extras =
      ⟨before ++ Array.replicate pending .split, .ok (.error e)⟩ := by
  have hsight := sight_checked_of_failure before e pending after
  rw [← h] at hsight
  obtain ⟨v, hv, hrun⟩ := d.run_reports .checked state extras
  rw [hrun]
  generalize d.chronicle state extras = t at hsight hv
  cases hv with
  | failed hs =>
      cases hs.symm.trans hsight
      rfl
  | returned hs => cases hs.symm.trans hsight
  | faulted hs => cases hs.symm.trans hsight
  | overflowed hr => cases hr

/-- The experiment that counts does what the plain one does, if the total of the charges fits. -/
theorem run_counted_of_lt {d : Design ε σ χ ρ α} {state : σ} {extras : χ}
    {x : Account (Run σ χ α)} (hx : (d.chronicle state extras).result = .ok x)
    (hfit : x.total < UInt64.size) :
    (d.under .counted).run state extras =
      ⟨((d.under .plain).run state extras).log, .ok ⟨x.value, x.total.toUInt64⟩⟩ := by
  obtain ⟨hresult, hlog⟩ := (d.run_reports .counted state extras).of_counted hx
  rw [Account.counted, if_pos hfit] at hresult
  rw [run_plain, ← hlog hfit]
  exact Traced.eq_mk_of_result hresult

/-- One design describes experiments that agree. The plain one returns, if no step of the design
faults. The checked one does just the same, if no effect step of its run fails; else it does the
same up to the first failure, which it returns as it is, and after it makes no mark but those of
the splits that the histograms around the failed step have still to make. The one that counts
does the same as the plain one and returns the total of the charges with the value, if that total
fits in 64 bits. -/
theorem regimes_agree (d : Design ε σ χ ρ α) (state : σ) (extras : χ) :
    (d.Returns → ∃ x, (d.chronicle state extras).result = .ok x ∧
      ((d.under .plain).run state extras).result = .ok x.value) ∧
    (d.under .plain).run state extras =
      ⟨Happening.marks (d.chronicle state extras).log,
        (d.chronicle state extras).result.map Account.value⟩ ∧
    ((∀ e pending, .failure e pending ∉ (d.chronicle state extras).log) →
      (d.under .checked).run state extras =
        ⟨((d.under .plain).run state extras).log,
          ((d.under .plain).run state extras).result.map .ok⟩) ∧
    (∀ before e pending after,
      (d.chronicle state extras).log = before.map .mark ++ #[.failure e pending] ++ after →
      (d.under .checked).run state extras =
          ⟨before ++ Array.replicate pending .split, .ok (.error e)⟩ ∧
        ((d.under .plain).run state extras).log = before ++ Happening.marks after) ∧
    (∀ x, (d.chronicle state extras).result = .ok x → x.total < UInt64.size →
      (d.under .counted).run state extras =
        ⟨((d.under .plain).run state extras).log, .ok ⟨x.value, x.total.toUInt64⟩⟩) := by
  refine ⟨fun h => ?_, d.run_plain state extras, run_checked_of_forall_not_mem, ?_,
    fun x hx => run_counted_of_lt hx⟩
  · obtain ⟨x, hx⟩ := d.exists_chronicle h state extras
    refine ⟨x, hx, ?_⟩
    rw [run_plain, hx]
    rfl
  · intro before e pending after hlog
    refine ⟨run_checked_of_log_eq hlog, ?_⟩
    rw [run_plain, hlog]
    simp only [Happening.marks_append, Happening.marks_map_mark, Happening.marks_failure,
      Array.append_empty]

/-- Takes one word, and fails if it is odd. -/
def evenWord : Design String SplitMix (List Nat) Float Bool :=
  bind (ofDraws Draws.word) fun bits =>
    if bits % 2 = 0 then certain true else lift { value := false, failure := some "odd" }

theorem regimes_agree_evenWord :
    let oneTrial : Design String SplitMix (List Nat) Float Histogram :=
      evenWord.histogram .boolean 1
    let threeTrials : Design String SplitMix (List Nat) Float Histogram :=
      evenWord.histogram .boolean 3
    let costly : Design String SplitMix (List Nat) Float UInt64 :=
      bind threeTrials fun h => lift { value := h.dropped, steps := 4 }
    (oneTrial.under .checked).run (SplitMix.ofSeed 6) [] =
        ⟨((oneTrial.under .plain).run (SplitMix.ofSeed 6) []).log,
          ((oneTrial.under .plain).run (SplitMix.ofSeed 6) []).result.map .ok⟩ ∧
      (∃ run, (costly.under .counted).run (SplitMix.ofSeed 6) [] =
          ⟨((costly.under .plain).run (SplitMix.ofSeed 6) []).log, .ok ⟨run, 11⟩⟩ ∧
        ((costly.under .plain).run (SplitMix.ofSeed 6) []).result = .ok run) ∧
      (threeTrials.under .checked).run (SplitMix.ofSeed 6) [] =
        ⟨#[.visit .act, .split, .visit .bind, .visit .step, .draw, .visit .certain,
            .split, .visit .bind, .visit .step, .draw, .visit .act] ++ Array.replicate 1 .split,
          .ok (.error "odd")⟩ := by
  intro oneTrial threeTrials costly
  obtain ⟨-, -, hsucceeds, -⟩ := oneTrial.regimes_agree (SplitMix.ofSeed 6) []
  obtain ⟨-, hplain, -, -, hcounts⟩ := costly.regimes_agree (SplitMix.ofSeed 6) []
  obtain ⟨-, -, -, hfails, -⟩ := threeTrials.regimes_agree (SplitMix.ofSeed 6) []
  have hnone : (oneTrial.chronicle (SplitMix.ofSeed 6) []).log =
      #[.mark (.visit .act), .mark .split, .mark (.visit .bind), .mark (.visit .step), .mark .draw,
        .mark (.visit .certain)] := by
    decide +kernel
  have heleven : (costly.chronicle (SplitMix.ofSeed 6) []).result.map Account.total = .ok 11 := by
    decide +kernel
  obtain ⟨x, hx, htotal⟩ := exists_of_map_eq_ok heleven
  have hcounted := hcounts x hx (by rw [htotal]; decide)
  have hfirst := hfails #[.visit .act, .split, .visit .bind, .visit .step, .draw, .visit .certain,
      .split, .visit .bind, .visit .step, .draw, .visit .act] "odd" 1
    #[.mark .split, .mark (.visit .bind), .mark (.visit .step), .mark .draw, .mark (.visit .act),
      .failure "odd" 0] (by decide +kernel)
  refine ⟨hsucceeds ?_, ⟨x.value, ?_, ?_⟩, hfirst.1⟩
  · simp [hnone]
  · rw [hcounted, htotal]
    rfl
  · rw [hplain, hx]
    rfl

end Design

end Aleatory
