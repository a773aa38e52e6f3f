import Aleatory.Generator
import Aleatory.Mode

/-!
# Experiments

An experiment describes how a value is drawn from a generator state `σ`, next to extras `χ` that
are threaded through unchanged unless a vertex writes to them, in a mode `F`.  It is a tree of
five kinds of vertex: a certain value, a step on the state and the extras, an act that runs in the
mode, and the two ways of going on from the value of another experiment.  A description runs
nothing by itself.
-/

namespace Aleatory

/-- What a run ends with: the state and the extras after it, and the value drawn. -/
structure Run (σ χ α : Type) where
  state : σ
  extras : χ
  value : α
  deriving DecidableEq, Repr

/-- Descriptions of how a value of the given type is drawn. -/
inductive Experiment (F : Mode) (σ χ : Type) : Type → Type 1 where
  /-- Always the same value. -/
  | certain {α : Type} (value : α) : Experiment F σ χ α
  /-- A step that needs nothing from the mode. -/
  | step {α : Type} (move : σ → χ → Traced Mark (Run σ χ α)) : Experiment F σ χ α
  /-- A step whose result comes wrapped in the mode. -/
  | act {α : Type} (perform : σ → χ → Traced Mark (F.Result (Run σ χ α))) : Experiment F σ χ α
  /-- A function of the value of `source`. -/
  | map {α β : Type} (source : Experiment F σ χ α) (f : α → β) : Experiment F σ χ β
  /-- The experiment that the value of `source` selects. -/
  | bind {α β : Type} (source : Experiment F σ χ α) (k : α → Experiment F σ χ β) :
      Experiment F σ χ β

namespace Experiment

variable {F : Mode} {σ χ α β : Type}

instance : Monad (Experiment F σ χ) where
  pure := certain
  map f source := map source f
  bind := bind

/-- The kind of the topmost vertex. -/
def vertex : Experiment F σ χ α → Vertex
  | certain _ => .certain
  | step _ => .step
  | act _ => .act
  | map _ _ => .map
  | bind _ _ => .bind

/-- A program that takes words from the state and leaves the extras alone. -/
def ofDraws (program : Draws σ α) : Experiment F σ χ α :=
  step fun state extras =>
    (program state).andThen fun (value, state) => .ret { state, extras, value }

/-- A wrapped value; the state and the extras stay as they are. -/
def lift (wrapped : F.Result α) : Experiment F σ χ α :=
  act fun state extras => .ret (F.map (fun value => { state, extras, value }) wrapped)

/-- Both values; the second experiment runs after the first one. -/
def zip (first : Experiment F σ χ α) (second : Experiment F σ χ β) : Experiment F σ χ (α × β) :=
  bind first fun a => map second fun b => (a, b)

def word [Generator σ] : Experiment F σ χ UInt64 := ofDraws Draws.word

/-- A multiple of `2 ^ -53` in `[0, 1)`, each of them equally likely. -/
def unit [Generator σ] : Experiment F σ χ Float := ofDraws Draws.unit

end Experiment

end Aleatory
