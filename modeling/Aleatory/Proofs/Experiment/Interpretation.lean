import Aleatory.Experiment.Run
import Aleatory.Proofs.Experiment.Course
import Aleatory.Proofs.Mode.Unrolling

/-!
# What the machine computes

`Machine.drive` runs a configuration to the end of the run, after a number of steps already made.
It has one equation for every move of the machine (`drive_certain` to `drive_popBind`). By
induction on the experiment, evaluating follows the experiment's course whatever is pending
(`drive_eval`), and by induction on the stack, giving a value follows the course of the pending
continuations (`drive_give`). A run is therefore the course of its experiment
(`Experiment.run_eq_course`).
-/

namespace Aleatory

namespace Mode

universe u v

theorem onward_ret_stop {μ : Type u} {β : Type} (F : Mode) (steps : UInt64) (b : β) :
    F.onward steps (F.ret (Pass.stop b : Pass μ β)) =
      .ended (.ok (F.conclude (.ok ⟨b, steps⟩))) := by
  cases F with
  | identity => rfl
  | fallible ε => rfl
  | symbolic =>
      have h : addCounts .stepOverflow steps 0 = .ok steps := by
        rw [addCounts_of_lt]
        · simp
        · simpa using steps.toNat_lt
      simp [ret, onward, onwardSymbolic, h, conclude]

/-- After a pass that always asks for another one, the loop stands where the act puts it. -/
theorem onward_map_again {α : Type} {μ : Type u} {β : Type} (F : Mode) (steps : UInt64)
    (g : α → μ) (wrapped : F.Result α) :
    F.onward steps (F.map (fun a => (Pass.again (g a) : Pass μ β)) wrapped) =
      match F.charge steps wrapped with
      | .error fault => .ended (.error fault)
      | .ok (.error e) => .ended (.ok (F.conclude (.error e)))
      | .ok (.ok t) => .more t.steps (g t.value) := by
  cases F with
  | identity => rfl
  | fallible ε => cases wrapped <;> rfl
  | symbolic =>
      refine (onwardSymbolic_again steps wrapped.steps (g wrapped.value)).trans ?_
      simp only [charge]
      cases sequenceSteps steps wrapped.steps <;> rfl

end Mode

namespace Machine

variable {F : Mode} {σ χ α β γ : Type}

theorem settle_append (log earlier : Array Mark) (config : Config F σ χ γ) (state : σ)
    (extras : χ) :
    settle (earlier ++ log) config state extras =
      (settle log config state extras).after earlier := by
  fun_induction settle log config state extras with
  | case1 log state extras α a K ih => simpa [settle] using ih
  | case2 log state extras α move K entries fault h => simp [settle, h, Traced.after]
  | case3 log state extras α move K entries run h ih => simpa [settle, h] using ih
  | case4 log state extras α perform K => simp [settle, Traced.after]
  | case5 log state extras α β source f K ih => simpa [settle] using ih
  | case6 log state extras α β source k K ih => simpa [settle] using ih
  | case7 log state extras a => simp [settle, Traced.after]
  | case8 log state extras α a β f K ih => simpa [settle] using ih
  | case9 log state extras α a β k K ih => simpa [settle] using ih

theorem settle_eq_after (log : Array Mark) (config : Config F σ χ γ) (state : σ) (extras : χ) :
    settle log config state extras = (settle #[] config state extras).after log := by
  simpa using settle_append #[] log config state extras

/-- Runs a configuration to the end of the run, after a number of steps already made. -/
def drive (config : Config F σ χ γ) (state : σ) (extras : χ) (steps : UInt64) :
    Traced Mark (F.Result (Run σ χ γ)) :=
  F.loop pass handsOn_acc steps ⟨config, state, extras⟩

/-- Goes on from where the machine stopped on its own. -/
def proceed (steps : UInt64) : Halt F σ χ γ → Traced Mark (F.Result (Run σ χ γ))
  | .done run => .ret (F.conclude (.ok ⟨run, steps⟩))
  | .acting perform K state extras =>
    (Course.perform (perform state extras)).into
      (fun run => drive ⟨.give run.value, K⟩ run.state run.extras) steps

theorem drive_eq (config : Config F σ χ γ) (state : σ) (extras : χ) (steps : UInt64) :
    drive config state extras steps =
      (settle #[] config state extras).andThen (proceed steps) := by
  rw [drive, Mode.loop_eq, pass, Traced.andThen_andThen]
  congr 1
  funext halt
  cases halt with
  | done run =>
      rw [resume, Traced.ret_andThen, Mode.onward_ret_stop]
      rfl
  | acting perform K state extras =>
      simp only [resume, proceed, Course.into, Course.perform, Traced.andThen_andThen,
        Traced.ret_andThen]
      congr 1
      funext wrapped
      rw [Mode.onward_map_again]
      rcases F.charge steps wrapped with fault | e | t
      · simp [Traced.ofExcept]
      · simp [Traced.ofExcept, Traced.ret]
      · simp [Traced.ofExcept, drive]

theorem drive_certain (a : α) (K : Stack F σ χ α γ) (state : σ) (extras : χ) (steps : UInt64) :
    drive ⟨.eval (.certain a), K⟩ state extras steps =
      (drive ⟨.give a, K⟩ state extras steps).after #[.visit .certain] := by
  rw [drive_eq, drive_eq, settle, settle_eq_after, Traced.after_andThen]
  rfl

theorem drive_step (move : σ → χ → Traced Mark (Run σ χ α)) (K : Stack F σ χ α γ) (state : σ)
    (extras : χ) (steps : UInt64) :
    drive ⟨.eval (.step move), K⟩ state extras steps =
      ((move state extras).andThen fun run =>
        drive ⟨.give run.value, K⟩ run.state run.extras steps).after #[.visit .step] := by
  rw [drive_eq, settle]
  rcases move state extras with ⟨entries, fault | run⟩
  · simp [Traced.after]
  · simp only [Traced.mk_ok_andThen]
    rw [settle_eq_after, Traced.after_andThen, drive_eq]
    simp

theorem drive_act (perform : σ → χ → Traced Mark (F.Result (Run σ χ α))) (K : Stack F σ χ α γ)
    (state : σ) (extras : χ) (steps : UInt64) :
    drive ⟨.eval (.act perform), K⟩ state extras steps =
      ((Course.perform (perform state extras)).into
        (fun run => drive ⟨.give run.value, K⟩ run.state run.extras) steps).after
          #[.visit .act] := by
  rw [drive_eq, settle]
  rfl

theorem drive_map (source : Experiment F σ χ α) (f : α → β) (K : Stack F σ χ β γ) (state : σ)
    (extras : χ) (steps : UInt64) :
    drive ⟨.eval (.map source f), K⟩ state extras steps =
      (drive ⟨.eval source, .map f K⟩ state extras steps).after #[.visit .map] := by
  rw [drive_eq, drive_eq, settle, settle_eq_after, Traced.after_andThen]
  rfl

theorem drive_bind (source : Experiment F σ χ α) (k : α → Experiment F σ χ β)
    (K : Stack F σ χ β γ) (state : σ) (extras : χ) (steps : UInt64) :
    drive ⟨.eval (.bind source k), K⟩ state extras steps =
      (drive ⟨.eval source, .bind k K⟩ state extras steps).after #[.visit .bind] := by
  rw [drive_eq, drive_eq, settle, settle_eq_after, Traced.after_andThen]
  rfl

theorem drive_nil (a : γ) (state : σ) (extras : χ) (steps : UInt64) :
    drive (F := F) ⟨.give a, .nil⟩ state extras steps =
      .ret (F.conclude (.ok ⟨{ state, extras, value := a }, steps⟩)) := by
  rw [drive_eq, settle]
  exact Traced.ret_andThen _ _

theorem drive_popMap (a : α) (f : α → β) (K : Stack F σ χ β γ) (state : σ) (extras : χ)
    (steps : UInt64) :
    drive ⟨.give a, .map f K⟩ state extras steps = drive ⟨.give (f a), K⟩ state extras steps := by
  rw [drive_eq, settle, drive_eq]

theorem drive_popBind (a : α) (k : α → Experiment F σ χ β) (K : Stack F σ χ β γ) (state : σ)
    (extras : χ) (steps : UInt64) :
    drive ⟨.give a, .bind k K⟩ state extras steps = drive ⟨.eval (k a), K⟩ state extras steps := by
  rw [drive_eq, settle, drive_eq]

/-- Evaluating an experiment follows its course and gives the value to the stack. -/
theorem drive_eval (e : Experiment F σ χ α) (K : Stack F σ χ α γ) (state : σ) (extras : χ) :
    drive ⟨.eval e, K⟩ state extras =
      (e.course state extras).into fun run =>
        drive ⟨.give run.value, K⟩ run.state run.extras := by
  funext steps
  induction e generalizing state extras steps with
  | certain a => rw [drive_certain, Experiment.course, Course.after_into, Course.ret_into]
  | step move => rw [drive_step, Experiment.course, Course.after_into, Course.lift_into]
  | act perform => rw [drive_act, Experiment.course, Course.after_into]
  | map source f ih =>
      rw [drive_map, Experiment.course, Course.after_into, Course.andThen_into, ih]
      congr 2
      funext run steps
      rw [drive_popMap, Course.ret_into]
      rfl
  | bind source k ihSource ihRest =>
      rw [drive_bind, Experiment.course, Course.after_into, Course.andThen_into, ihSource]
      congr 2
      funext run steps
      rw [drive_popBind, ihRest]

/-- Giving a value to a stack follows the course of the pending continuations. -/
theorem drive_give (K : Stack F σ χ α γ) (run : Run σ χ α) :
    drive ⟨.give run.value, K⟩ run.state run.extras = (K.course run).finish := by
  induction K with
  | nil =>
      funext steps
      rw [drive_nil, Stack.course, Course.finish, Course.ret_into]
  | map f rest ih =>
      funext steps
      rw [drive_popMap, Stack.course, ← ih]
      rfl
  | bind k rest ih =>
      funext steps
      rw [drive_popBind, drive_eval, Stack.course, Course.finish, Course.andThen_into]
      congr 1
      funext run
      exact ih run

theorem drive_eq_course (e : Experiment F σ χ α) (K : Stack F σ χ α γ) (state : σ) (extras : χ) :
    drive ⟨.eval e, K⟩ state extras = ((e.course state extras).andThen K.course).finish := by
  funext steps
  rw [drive_eval, Course.finish, Course.andThen_into]
  congr 1
  funext run
  exact drive_give K run

end Machine

namespace Experiment

variable {F : Mode} {σ χ α : Type}

/-- A run is the course of its experiment, from the count zero. -/
theorem run_eq_course (e : Experiment F σ χ α) (state : σ) (extras : χ) :
    e.run state extras = (e.course state extras).finish 0 := by
  have h := congrFun (Machine.drive_eq_course e .nil state extras) 0
  have hnil : ((e.course state extras).andThen Stack.nil.course) = e.course state extras :=
    Course.andThen_ret _
  rw [hnil] at h
  exact h

end Experiment

end Aleatory
