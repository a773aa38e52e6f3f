import Aleatory.Experiment

/-!
# What an experiment means

The meaning of an experiment is defined by recursion on it, with neither a stack nor a loop: the
two ways of going on from another experiment are the mode's own.  In the symbolic mode this
meaning counts one step for every `bind`, which a run does not.
-/

namespace Aleatory

/-- The same run with a function applied to its value. -/
def Run.map {σ χ α β : Type} (f : α → β) (r : Run σ χ α) : Run σ χ β :=
  { state := r.state, extras := r.extras, value := f r.value }

namespace Experiment

variable {F : Mode} {σ χ : Type}

/-- The state, the extras and the value that an experiment leads to. -/
def denote {α : Type} : Experiment F σ χ α → σ → χ → Traced Mark (F.Result (Run σ χ α))
  | certain value, state, extras =>
    ⟨#[.visit .certain], .ok (F.ret { state, extras, value })⟩
  | step move, state, extras =>
    ((move state extras).andThen fun run => .ret (F.ret run)).after #[.visit .step]
  | act perform, state, extras => (perform state extras).after #[.visit .act]
  | map source f, state, extras =>
    ((source.denote state extras).andThen fun wrapped =>
      .ret (F.map (Run.map f) wrapped)).after #[.visit .map]
  | bind source k, state, extras =>
    ((source.denote state extras).andThen fun wrapped =>
      F.andThen wrapped fun run =>
        (k run.value).denote run.state run.extras).after #[.visit .bind]

end Experiment

end Aleatory
