import Aleatory.Traced

/-!
# What a run leaves in its log

Besides its result, a run of an experiment can be seen to evaluate vertices of the experiment, to
take words from a generator, to split a generator, and to warn that samples fell outside a
declared sample space.  Nothing else about it can be observed.
-/

namespace Aleatory

/-- The five kinds of vertex of an experiment. -/
inductive Vertex where
  | certain
  | step
  | act
  | map
  | bind
  deriving DecidableEq, Repr

/-- One observable happening of a run. -/
inductive Mark where
  /-- A vertex of the experiment was evaluated. -/
  | visit (vertex : Vertex)
  /-- One word was taken from a generator. -/
  | draw
  /-- A generator was split. -/
  | split
  /-- A finished table of `replicates` trials holds `dropped` of them outside its sample space. -/
  | outside (dropped replicates : UInt64)
  deriving DecidableEq, Repr

end Aleatory
