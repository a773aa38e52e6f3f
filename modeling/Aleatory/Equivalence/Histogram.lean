import Aleatory.Equivalence.SampleSpace
import Aleatory.Experiment.Run

/-!
# Histograms

A histogram counts how often each outcome of a sample space was met, and how many samples fell
outside of it.  `Experiment.histogram` is an experiment of its own, which makes a histogram of
independent trials: the state is split for every trial, and each trial starts from its own half
with empty extras.
-/

namespace Aleatory

/-- A count for each outcome, and the number of samples outside the sample space. -/
structure Histogram where
  counts : Array UInt64
  dropped : UInt64 := 0
  deriving DecidableEq, Repr

namespace Histogram

/-- No sample, for a given number of outcomes. -/
def empty (size : Nat) : Histogram := { counts := Array.replicate size 0 }

/-- The number of samples inside the sample space. -/
def total (h : Histogram) : Except Fault UInt64 := sumCounts h.counts.toList

/-- Counts one more sample: at an index, or outside if there is none in range. -/
def count (h : Histogram) (index : Option Nat) : Except Fault Histogram :=
  match index with
  | some i =>
    if hi : i < h.counts.size then
      match addCounts .countOverflow h.counts[i] 1 with
      | .ok count => .ok { h with counts := h.counts.set i count }
      | .error fault => .error fault
    else outside h
  | none => outside h
where
  outside (h : Histogram) : Except Fault Histogram :=
    match addCounts .countOverflow h.dropped 1 with
    | .ok dropped => .ok { h with dropped := dropped }
    | .error fault => .error fault

end Histogram

namespace Experiment

variable {F : Mode} {σ χ α ρ : Type} [Generator σ] [EmptyCollection χ] [BEq α] [Elementary ρ]

/-- Samples once and counts the value. -/
def countTrial (e : Experiment F σ χ α) (space : SampleSpace α ρ) (trial : σ) (h : Histogram) :
    Traced Mark (F.Result Histogram) :=
  (e.sample trial).andThen fun wrapped =>
    F.traverse (fun value => .ofExcept (h.count (space.indexOf? value))) wrapped

/-- Makes the remaining trials behind the log, the state and the wrapped histogram of those made.
After a failure the state is still split for each remaining trial, but nothing is sampled. -/
def trials (e : Experiment F σ χ α) (space : SampleSpace α ρ) :
    Nat → Array Mark → σ → F.Result Histogram → Traced Mark (σ × F.Result Histogram)
  | 0, log, state, counted => ⟨log, .ok (state, counted)⟩
  | remaining + 1, log, state, counted =>
    let (kept, trial) := Generator.split state
    match F.andThen counted (e.countTrial space trial) with
    | ⟨entries, .ok counted⟩ => trials e space remaining (log.push .split ++ entries) kept counted
    | ⟨entries, .error fault⟩ => ⟨log.push .split ++ entries, .error fault⟩

/-- Warns if samples fell outside the sample space. -/
def warnOutside (replicates : UInt64) (h : Histogram) : Traced Mark Histogram :=
  if 0 < h.dropped then ⟨#[.outside h.dropped replicates], .ok h⟩ else .ret h

/-- The histogram of a number of independent trials. -/
def histogram (e : Experiment F σ χ α) (space : SampleSpace α ρ) (replicates : UInt64) :
    Experiment F σ χ Histogram :=
  act fun state extras =>
    (trials e space replicates.toNat #[] state (F.ret (.empty space.size))).andThen
      fun (state, counted) =>
        F.traverse (fun h => (warnOutside replicates h).andThen fun h =>
          .ret { state, extras, value := h }) counted

end Experiment

end Aleatory
