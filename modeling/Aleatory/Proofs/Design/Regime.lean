import Aleatory.Equivalence.Histogram
import Mathlib.Logic.Basic
import Mathlib.Tactic.Choose

/-!
# Designs of experiments

An experiment belongs to one mode. A design is an experiment before a mode is chosen: an effect
step of a design says what its value is, how many steps it counts for and whether it fails, and
each regime takes up what its mode can express. In the plain regime an effect step is its value;
in the checked one it is its failure, if it has one; in the one that counts it is its value with
its steps.

`Design.under` is the experiment that a design describes under a regime. The ways to describe an
experiment have their counterparts among designs (`under_lift`, `under_zip`, `under_ofDraws`).
-/

namespace Aleatory

/-- What an effect step leads to, in all modes at once. -/
structure Outcome (ε α : Type) where
  value : α
  failure : Option ε := none
  steps : UInt64 := 0

def Outcome.map {ε α β : Type} (f : α → β) (o : Outcome ε α) : Outcome ε β :=
  { value := f o.value, failure := o.failure, steps := o.steps }

/-- What an experiment keeps of its effect steps. -/
inductive Regime where
  | plain
  | checked
  | counted
  deriving DecidableEq

namespace Regime

variable {ε α β : Type}

@[reducible]
def mode (ε : Type) : Regime → Mode
  | plain => .identity
  | checked => .fallible ε
  | counted => .symbolic

/-- What a regime keeps of an outcome. -/
def wrap : (r : Regime) → Outcome ε α → (r.mode ε).Result α
  | plain, o => o.value
  | checked, o =>
    match o.failure with
    | some e => .error e
    | none => .ok o.value
  | counted, o => ⟨o.value, o.steps⟩

theorem wrap_map (r : Regime) (f : α → β) (o : Outcome ε α) :
    r.wrap (o.map f) = (r.mode ε).map f (r.wrap o) := by
  cases r with
  | plain => rfl
  | checked =>
      obtain ⟨value, failure, steps⟩ := o
      cases failure <;> rfl
  | counted => rfl

end Regime

/-- Descriptions of how a value of the given type is drawn, for all modes at once. -/
inductive Design (ε σ χ ρ : Type) [Elementary ρ] : Type → Type 1 where
  | certain {α : Type} (value : α) : Design ε σ χ ρ α
  /-- A step that needs nothing from a mode: it may take words, and read and write the extras. -/
  | step {α : Type} (move : σ → χ → Traced Mark (Run σ χ α)) : Design ε σ χ ρ α
  /-- A step of which a regime keeps what it can. -/
  | act {α : Type} (perform : σ → χ → Traced Mark (Outcome ε (Run σ χ α))) : Design ε σ χ ρ α
  | map {α β : Type} (source : Design ε σ χ ρ α) (f : α → β) : Design ε σ χ ρ β
  | bind {α β : Type} (source : Design ε σ χ ρ α) (k : α → Design ε σ χ ρ β) : Design ε σ χ ρ β
  /-- The histogram of a number of independent trials. -/
  | histogram {α : Type} [BEq α] (trial : Design ε σ χ ρ α) (space : SampleSpace α ρ)
      (replicates : UInt64) : Design ε σ χ ρ Histogram

namespace Design

variable {ε σ χ ρ α β : Type} [Elementary ρ]

/-- A program that takes words from the state and leaves the extras alone. -/
def ofDraws (program : Draws σ α) : Design ε σ χ ρ α :=
  step fun state extras =>
    (program state).andThen fun (value, state) => .ret { state, extras, value }

/-- An outcome as it is; the state and the extras stay as they are. -/
def lift (outcome : Outcome ε α) : Design ε σ χ ρ α :=
  act fun state extras => .ret (outcome.map fun value => { state, extras, value })

/-- Both values; the second design runs after the first one. -/
def zip (first : Design ε σ χ ρ α) (second : Design ε σ χ ρ β) : Design ε σ χ ρ (α × β) :=
  bind first fun a => map second fun b => (a, b)

variable [Generator σ] [EmptyCollection χ]

/-- The experiment that a design describes under a regime. -/
def under (r : Regime) {α : Type} : Design ε σ χ ρ α → Experiment (r.mode ε) σ χ α
  | certain value => .certain value
  | step move => .step move
  | act perform => .act fun state extras =>
    (perform state extras).andThen fun outcome => .ret (r.wrap outcome)
  | map source f => .map (source.under r) f
  | bind source k => .bind (source.under r) fun a => (k a).under r
  | histogram trial space replicates => (trial.under r).histogram space replicates

theorem under_ofDraws (r : Regime) (program : Draws σ α) :
    (ofDraws program : Design ε σ χ ρ α).under r = .ofDraws program := rfl

theorem under_zip (r : Regime) (first : Design ε σ χ ρ α) (second : Design ε σ χ ρ β) :
    (first.zip second).under r = (first.under r).zip (second.under r) := rfl

theorem under_lift (r : Regime) (outcome : Outcome ε α) :
    (lift outcome : Design ε σ χ ρ α).under r = .lift (r.wrap outcome) := by
  simp only [lift, under, Experiment.lift, Traced.ret_andThen, Regime.wrap_map]

/-- Every experiment in the mode that counts is described by a design. -/
theorem exists_under_counted (e : Experiment .symbolic σ χ α) :
    ∃ d : Design ε σ χ ρ α, d.under .counted = e := by
  induction e with
  | certain value => exact ⟨.certain value, rfl⟩
  | step move => exact ⟨.step move, rfl⟩
  | act perform =>
      refine ⟨.act fun state extras => (perform state extras).andThen fun wrapped =>
        .ret { value := wrapped.value, steps := wrapped.steps }, ?_⟩
      simp only [under, Traced.andThen_andThen, Traced.ret_andThen]
      congr 1
      funext state extras
      exact Traced.andThen_ret _
  | map source f ih =>
      obtain ⟨d, rfl⟩ := ih
      exact ⟨d.map f, rfl⟩
  | bind source k ihSource ihRest =>
      obtain ⟨d, rfl⟩ := ihSource
      choose rest hrest using ihRest
      exact ⟨d.bind rest, congrArg _ (funext hrest)⟩

end Design

end Aleatory
