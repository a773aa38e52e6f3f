import Aleatory.Experiment.Machine
import Aleatory.Experiment.Meaning

/-!
# The course of an experiment

The course of an experiment is its meaning with the count of effect steps carried along. It is
defined by recursion on the experiment, and it is exact in every mode: an act adds its own steps
and one more to the count, nothing else touches the count, and an overflow ends the course at the
act that causes it. `Experiment.denote` agrees with it except for the count, because there every
`bind` counts as a step.

A course is a function of the count so far. Courses compose (`Course.andThen`), with `Course.ret`
as their unit, so the equations of the two ways of going on from an experiment are equations
between courses.
-/

namespace Aleatory

namespace Mode

variable {α : Type}

/-- The result wrapped around a failure, or around a value reached with a count of steps. -/
def conclude : (F : Mode) → Except F.Failure (Counted α) → F.Result α
  | .identity, .ok t => t.value
  | .identity, .error e => nomatch e
  | .fallible _, .ok t => .ok t.value
  | .fallible _, .error e => .error e
  | .symbolic, .ok t => t
  | .symbolic, .error e => nomatch e

/-- Unwraps the result of an act and adds the act to the count of steps. -/
def charge : (F : Mode) → UInt64 → F.Result α → Except Fault (Except F.Failure (Counted α))
  | .identity, steps, a => .ok (.ok ⟨a, steps⟩)
  | .fallible _, steps, .ok a => .ok (.ok ⟨a, steps⟩)
  | .fallible _, _, .error e => .ok (.error e)
  | .symbolic, steps, t =>
    match sequenceSteps steps t.steps with
    | .ok steps => .ok (.ok ⟨t.value, steps⟩)
    | .error fault => .error fault

end Mode

/-- A computation in a mode that carries along the number of effect steps made so far. -/
def Course (F : Mode) (α : Type) : Type :=
  UInt64 → Traced Mark (Except F.Failure (Counted α))

namespace Course

variable {F : Mode} {α β γ : Type}

def ret (a : α) : Course F α := fun steps => .ret (.ok ⟨a, steps⟩)

/-- A computation that needs nothing from the mode. -/
def lift (t : Traced Mark α) : Course F α := fun steps =>
  t.andThen fun a => .ret (.ok ⟨a, steps⟩)

/-- A computation whose result comes wrapped in the mode; it counts as a step. -/
def perform (t : Traced Mark (F.Result α)) : Course F α := fun steps =>
  t.andThen fun wrapped => .ofExcept (F.charge steps wrapped)

def after (earlier : Array Mark) (c : Course F α) : Course F α := fun steps =>
  (c steps).after earlier

/-- Goes on with the value, unless a failure came first. -/
def andThen (c : Course F α) (k : α → Course F β) : Course F β := fun steps =>
  (c steps).andThen fun
    | .ok t => k t.value t.steps
    | .error e => .ret (.error e)

/-- Goes on with the value to the end of a run, unless a failure came first. -/
def into (c : Course F α) (k : α → UInt64 → Traced Mark (F.Result β)) (steps : UInt64) :
    Traced Mark (F.Result β) :=
  (c steps).andThen fun
    | .ok t => k t.value t.steps
    | .error e => .ret (F.conclude (.error e))

/-- The result of a course that nothing follows. -/
def finish (c : Course F α) (steps : UInt64) : Traced Mark (F.Result α) :=
  c.into (fun a steps => .ret (F.conclude (.ok ⟨a, steps⟩))) steps

@[simp] theorem ret_andThen (a : α) (k : α → Course F β) : (ret a).andThen k = k a := by
  funext steps
  simp [ret, andThen]

@[simp] theorem andThen_ret (c : Course F α) : c.andThen ret = c := by
  funext steps
  have hret : (fun r : Except F.Failure (Counted α) => match r with
      | .ok t => (ret t.value : Course F α) t.steps
      | .error e => .ret (.error e)) = Traced.ret := by
    funext r
    cases r <;> rfl
  simp only [andThen]
  rw [hret, Traced.andThen_ret]

theorem andThen_andThen (c : Course F α) (k : α → Course F β) (k' : β → Course F γ) :
    (c.andThen k).andThen k' = c.andThen fun a => (k a).andThen k' := by
  funext steps
  simp only [andThen, Traced.andThen_andThen]
  congr 1
  funext r
  cases r <;> simp

theorem after_andThen (l : Array Mark) (c : Course F α) (k : α → Course F β) :
    (c.after l).andThen k = (c.andThen k).after l := by
  funext steps
  exact Traced.after_andThen l (c steps) _

@[simp] theorem ret_into (a : α) (k : α → UInt64 → Traced Mark (F.Result β)) :
    (ret a : Course F α).into k = k a := by
  funext steps
  simp [ret, into]

theorem andThen_into (c : Course F α) (k : α → Course F β)
    (k' : β → UInt64 → Traced Mark (F.Result γ)) :
    (c.andThen k).into k' = c.into fun a => (k a).into k' := by
  funext steps
  simp only [into, andThen, Traced.andThen_andThen]
  congr 1
  funext r
  cases r <;> simp

theorem after_into (l : Array Mark) (c : Course F α)
    (k : α → UInt64 → Traced Mark (F.Result β)) (steps : UInt64) :
    (c.after l).into k steps = (c.into k steps).after l :=
  Traced.after_andThen l (c steps) _

theorem lift_into (t : Traced Mark α) (k : α → UInt64 → Traced Mark (F.Result β))
    (steps : UInt64) : (lift t : Course F α).into k steps = t.andThen fun a => k a steps := by
  simp [lift, into, Traced.andThen_andThen]

end Course

namespace Experiment

variable {F : Mode} {σ χ : Type}

/-- The course that a run of an experiment takes from a state and extras. -/
def course {α : Type} : Experiment F σ χ α → σ → χ → Course F (Run σ χ α)
  | certain value, state, extras =>
    (Course.ret { state, extras, value }).after #[.visit .certain]
  | step move, state, extras => (Course.lift (move state extras)).after #[.visit .step]
  | act perform, state, extras => (Course.perform (perform state extras)).after #[.visit .act]
  | map source f, state, extras =>
    ((source.course state extras).andThen fun run => .ret (run.map f)).after #[.visit .map]
  | bind source k, state, extras =>
    ((source.course state extras).andThen fun run =>
      (k run.value).course run.state run.extras).after #[.visit .bind]

end Experiment

/-- The course of the pending continuations, the topmost first. -/
def Stack.course {F : Mode} {σ χ α γ : Type} :
    Stack F σ χ α γ → Run σ χ α → Course F (Run σ χ γ)
  | .nil, run => .ret run
  | .map f K, run => K.course (run.map f)
  | .bind k K, run => ((k run.value).course run.state run.extras).andThen K.course

end Aleatory
