import Aleatory.Experiment
import Aleatory.Mode.Loop

/-!
# Running an experiment

An experiment is run by a machine with an explicit stack of pending continuations, so that long
chains need no deep recursion.  Between two acts the machine moves on its own: `Machine.settle`
runs it until the stack is empty or an act is reached.  The act is then performed in the mode, and
the loop of the mode resumes the machine with the act's value.

The machine always ends.  A configuration is a cursor and a stack; `Config.Next` lists the moves
from one configuration to the next whatever value a step or an act yields, and is well founded
(`Config.next_wellFounded`) because every experiment is a well-founded tree.
-/

namespace Aleatory

/-- Pending continuations that lead from a value of the first type to one of the second. -/
inductive Stack (F : Mode) (σ χ : Type) : Type → Type → Type 1 where
  | nil {α : Type} : Stack F σ χ α α
  | map {α β γ : Type} (f : α → β) (rest : Stack F σ χ β γ) : Stack F σ χ α γ
  | bind {α β γ : Type} (k : α → Experiment F σ χ β) (rest : Stack F σ χ β γ) : Stack F σ χ α γ

/-- What the machine looks at: an experiment to evaluate, or a value to return. -/
inductive Cursor (F : Mode) (σ χ : Type) : Type → Type 1 where
  | eval {α : Type} (experiment : Experiment F σ χ α) : Cursor F σ χ α
  | give {α : Type} (value : α) : Cursor F σ χ α

/-- A cursor with a stack that takes its value to the type `γ` of the whole run. -/
structure Config (F : Mode) (σ χ γ : Type) : Type 1 where
  {α : Type}
  cursor : Cursor F σ χ α
  stack : Stack F σ χ α γ

namespace Config

variable {F : Mode} {σ χ γ : Type}

/-- The moves of the machine, the later configuration first. -/
inductive Next : Config F σ χ γ → Config F σ χ γ → Prop where
  | certain {α : Type} (a : α) (K : Stack F σ χ α γ) :
      Next ⟨.give a, K⟩ ⟨.eval (.certain a), K⟩
  | step {α : Type} (move : σ → χ → Traced Mark (Run σ χ α)) (a : α) (K : Stack F σ χ α γ) :
      Next ⟨.give a, K⟩ ⟨.eval (.step move), K⟩
  | act {α : Type} (perform : σ → χ → Traced Mark (F.Result (Run σ χ α))) (a : α)
      (K : Stack F σ χ α γ) : Next ⟨.give a, K⟩ ⟨.eval (.act perform), K⟩
  | map {α β : Type} (source : Experiment F σ χ α) (f : α → β) (K : Stack F σ χ β γ) :
      Next ⟨.eval source, .map f K⟩ ⟨.eval (.map source f), K⟩
  | bind {α β : Type} (source : Experiment F σ χ α) (k : α → Experiment F σ χ β)
      (K : Stack F σ χ β γ) : Next ⟨.eval source, .bind k K⟩ ⟨.eval (.bind source k), K⟩
  | popMap {α β : Type} (a : α) (f : α → β) (K : Stack F σ χ β γ) :
      Next ⟨.give (f a), K⟩ ⟨.give a, .map f K⟩
  | popBind {α β : Type} (a : α) (k : α → Experiment F σ χ β) (K : Stack F σ χ β γ) :
      Next ⟨.eval (k a), K⟩ ⟨.give a, .bind k K⟩

/-- Evaluation ends if the stack deals with every value. -/
theorem acc_eval {α : Type} (e : Experiment F σ χ α) (K : Stack F σ χ α γ)
    (h : ∀ a, Acc Next (⟨.give a, K⟩ : Config F σ χ γ)) :
    Acc Next (⟨.eval e, K⟩ : Config F σ χ γ) := by
  induction e with
  | certain a =>
    constructor
    intro c hc
    cases hc
    exact h a
  | step move =>
    constructor
    intro c hc
    cases hc
    exact h _
  | act perform =>
    constructor
    intro c hc
    cases hc
    exact h _
  | map source f ih =>
    constructor
    intro c hc
    cases hc
    refine ih _ fun a => ?_
    constructor
    intro c hc
    cases hc
    exact h _
  | bind source k ihSource ihRest =>
    constructor
    intro c hc
    cases hc
    refine ihSource _ fun a => ?_
    constructor
    intro c hc
    cases hc
    exact ihRest a K h

/-- Every stack deals with every value. -/
theorem acc_give {α : Type} (K : Stack F σ χ α γ) (a : α) :
    Acc Next (⟨.give a, K⟩ : Config F σ χ γ) := by
  induction K with
  | nil =>
    constructor
    intro c hc
    cases hc
  | map f rest ih =>
    constructor
    intro c hc
    cases hc
    exact ih _
  | bind k rest ih =>
    constructor
    intro c hc
    cases hc
    exact acc_eval (k a) rest ih

theorem next_wellFounded : WellFounded (Next : Config F σ χ γ → Config F σ χ γ → Prop) := by
  constructor
  intro c
  obtain ⟨cursor, K⟩ := c
  cases cursor with
  | eval e => exact acc_eval e K (acc_give K)
  | give a => exact acc_give K a

instance : WellFoundedRelation (Config F σ χ γ) := ⟨Next, next_wellFounded⟩

end Config

/-- A configuration with the state and the extras that go along with it. -/
structure Machine (F : Mode) (σ χ γ : Type) : Type 1 where
  config : Config F σ χ γ
  state : σ
  extras : χ

/-- Where the machine stops on its own: at the end of the run, or at an act and the stack that
waits for its value. -/
inductive Halt (F : Mode) (σ χ γ : Type) : Type 1 where
  | done (run : Run σ χ γ)
  | acting {α : Type} (perform : σ → χ → Traced Mark (F.Result (Run σ χ α)))
      (stack : Stack F σ χ α γ) (state : σ) (extras : χ)

namespace Machine

variable {F : Mode} {σ χ γ : Type}

/-- Moves until the run ends or an act is reached, behind what was logged before. -/
def settle (log : Array Mark) (config : Config F σ χ γ) (state : σ) (extras : χ) :
    Traced Mark (Halt F σ χ γ) :=
  match config with
  | ⟨.eval (.certain a), K⟩ => settle (log.push (.visit .certain)) ⟨.give a, K⟩ state extras
  | ⟨.eval (.step move), K⟩ =>
    match move state extras with
    | ⟨entries, .error fault⟩ => ⟨log.push (.visit .step) ++ entries, .error fault⟩
    | ⟨entries, .ok run⟩ =>
      settle (log.push (.visit .step) ++ entries) ⟨.give run.value, K⟩ run.state run.extras
  | ⟨.eval (.act perform), K⟩ => ⟨log.push (.visit .act), .ok (.acting perform K state extras)⟩
  | ⟨.eval (.map source f), K⟩ =>
    settle (log.push (.visit .map)) ⟨.eval source, .map f K⟩ state extras
  | ⟨.eval (.bind source k), K⟩ =>
    settle (log.push (.visit .bind)) ⟨.eval source, .bind k K⟩ state extras
  | ⟨.give a, .nil⟩ => ⟨log, .ok (.done { state, extras, value := a })⟩
  | ⟨.give a, .map f K⟩ => settle log ⟨.give (f a), K⟩ state extras
  | ⟨.give a, .bind k K⟩ => settle log ⟨.eval (k a), K⟩ state extras
termination_by config
decreasing_by all_goals constructor

/-- Performs the act that the machine stopped at, and puts its value in front of the stack. -/
def resume : Halt F σ χ γ → Traced Mark (F.Result (Pass (Machine F σ χ γ) (Run σ χ γ)))
  | .done run => .ret (F.ret (.stop run))
  | .acting perform K state extras =>
    (perform state extras).andThen fun wrapped => .ret <|
      F.map (fun run => .again ⟨⟨.give run.value, K⟩, run.state, run.extras⟩) wrapped

/-- One pass of the loop: up to the next act, and through it. -/
def pass (m : Machine F σ χ γ) : Traced Mark (F.Result (Pass (Machine F σ χ γ) (Run σ χ γ))) :=
  (settle #[] m.config m.state m.extras).andThen resume

end Machine

end Aleatory
