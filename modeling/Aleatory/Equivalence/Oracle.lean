import Aleatory.Equivalence.Criterion
import Aleatory.Equivalence.Histogram
import Aleatory.Equivalence.Likelihood

/-!
# The oracle

The oracle decides whether two experiments draw from one distribution.  From every given state it
makes a histogram of each experiment and compares the two; the first difference found settles the
question.  If the mode has no verdict to give, because it never has one or because a run failed,
the statistical answer is put aside and the two experiments are run once from every state: they
are equivalent if their wrapped values agree.
-/

namespace Aleatory

/-- What a comparison of two histograms says. -/
structure Verdict (ρ : Type) where
  probability : ρ
  equal : Bool
  deriving DecidableEq, Repr

/-- A prior and the largest probability of a difference that still counts as equal. -/
structure BayesTest (ρ : Type) where
  prior : List ρ
  threshold : ρ

def BayesTest.verdict {ρ : Type} [GammaArithmetic ρ] (t : BayesTest ρ) (first second : Histogram) :
    Except Fault (Verdict ρ) :=
  match Likelihood.probabilityOfDifference first.counts.toList second.counts.toList t.prior with
  | .ok p => .ok ⟨p, Elementary.le p t.threshold⟩
  | .error fault => .error fault

/-- One entry of the oracle's journal. -/
inductive Notice (ρ : Type) where
  /-- Something that a run left in its log. -/
  | ran (mark : Mark)
  /-- The histograms from one state were compared. -/
  | compared (state : Nat) (probability threshold : ρ) (equal : Bool)
  /-- The statistical answer is put aside for an exact comparison from this many states. -/
  | exact (states : Nat)

structure Oracle (α ρ : Type) [BEq α] [GammaArithmetic ρ] where
  space : SampleSpace α ρ
  criterion : Criterion ρ

namespace Oracle

variable {F : Mode} {σ χ α ρ : Type} [Generator σ] [EmptyCollection χ] [BEq α] [GammaArithmetic ρ]

def test (o : Oracle α ρ) : BayesTest ρ := ⟨o.space.prior, o.criterion.threshold⟩

/-- Samples an experiment, with the log as part of the journal. -/
def sample {β : Type} (e : Experiment F σ χ β) (state : σ) :
    Traced (Notice ρ) (F.Result β) :=
  (e.sample state).mapLog .ran

/-- The histogram of an experiment from one state. -/
def histogram (o : Oracle α ρ) (e : Experiment F σ χ α) (state : σ) :
    Traced (Notice ρ) (F.Result Histogram) :=
  sample (e.histogram o.space o.criterion.replicates) state

/-- Compares two histograms and notes the verdict. -/
def verdict (o : Oracle α ρ) (index : Nat) (first second : Histogram) : Traced (Notice ρ) Bool :=
  match o.test.verdict first second with
  | .ok v => ⟨#[.compared index v.probability o.test.threshold v.equal], .ok v.equal⟩
  | .error fault => .fail fault

/-- Compares two experiments from one state; the second is sampled only if the first succeeds. -/
def verdictFrom (o : Oracle α ρ) (x y : Experiment F σ χ α) (index : Nat) (state : σ) :
    Traced (Notice ρ) (F.Result Bool) :=
  (o.histogram x state).andThen fun first =>
    F.andThen first fun first =>
      (o.histogram y state).andThen fun second =>
        F.traverse (fun second => o.verdict index first second) second

/-- Compares two experiments from each state in turn, behind the journal and the verdict so
far.  Once the verdict is negative or the mode has failed, nothing more is sampled. -/
def verdicts (o : Oracle α ρ) (x y : Experiment F σ χ α) :
    Nat → List σ → Array (Notice ρ) → F.Result Bool → Traced (Notice ρ) (F.Result Bool)
  | _, [], journal, soFar => ⟨journal, .ok soFar⟩
  | index, state :: rest, journal, soFar =>
    let next := F.andThen soFar fun equal =>
      if equal then o.verdictFrom x y index state else .ret (F.ret false)
    match next with
    | ⟨entries, .ok soFar⟩ => verdicts o x y (index + 1) rest (journal ++ entries) soFar
    | ⟨entries, .error fault⟩ => ⟨journal ++ entries, .error fault⟩

/-- Whether the wrapped values from every state agree, behind the journal so far; the first
disagreement ends the comparison. -/
def agreement [BEq F.Failure] (x y : Experiment F σ χ α) :
    List σ → Array (Notice ρ) → Traced (Notice ρ) Bool
  | [], journal => ⟨journal, .ok true⟩
  | state :: rest, journal =>
    let both := (sample x state).andThen fun a =>
      (sample y state).andThen fun b => .ret (F.agree (· == ·) (· == ·) a b)
    match both with
    | ⟨entries, .ok true⟩ => agreement x y rest (journal ++ entries)
    | ⟨entries, .ok false⟩ => ⟨journal ++ entries, .ok false⟩
    | ⟨entries, .error fault⟩ => ⟨journal ++ entries, .error fault⟩

/-- Compares two experiments exactly, and says so first. -/
def exactly [BEq F.Failure] (states : List σ) (x y : Experiment F σ χ α) :
    Traced (Notice ρ) Bool :=
  agreement x y states #[.exact states.length]

/-- Whether two experiments are equivalent as far as the given states show. -/
def equivalent [BEq F.Failure] (o : Oracle α ρ) (states : List σ) (x y : Experiment F σ χ α) :
    Traced (Notice ρ) Bool :=
  match F.settle (F.ret true) with
  | none => exactly states x y
  | some _ =>
    (o.verdicts x y 0 states #[] (F.ret true)).andThen fun verdict =>
      match F.settle verdict with
      | some equal => .ret equal
      | none => exactly states x y

end Oracle

end Aleatory
