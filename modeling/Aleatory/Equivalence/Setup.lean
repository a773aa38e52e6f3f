import Aleatory.Decimal.Shortest

/-!
# What may be wrong with a comparison before it starts

A comparison of two experiments is set up by a sample space with a prior and by a criterion.
-/

namespace Aleatory

/-- The reasons for which a setup is refused; `ρ` is the type of numbers. -/
inductive SetupError (ρ : Type) where
  | noReplicates
  | badThreshold (threshold : ρ)
  | noOutcomes
  | duplicateOutcome (index : Nat)
  | priorLength (outcomes entries : Nat)
  | badPrior (index : Nat) (entry : ρ)
  /-- A part of the criterion was never given. -/
  | missing (part : String)
  deriving DecidableEq, Repr

namespace SetupError

variable {ρ : Type}

/-- The message, for a way to write numbers. -/
def render (number : ρ → String) : SetupError ρ → String
  | noReplicates => "Invalid replicate count 0: must be at least 1"
  | badThreshold threshold =>
    "Invalid threshold " ++ number threshold ++ ": must lie strictly inside (0, 1)"
  | noOutcomes => "Outcome space is empty"
  | duplicateOutcome index =>
    "Outcome at index " ++ toString index ++ " duplicates an earlier outcome"
  | priorLength outcomes entries =>
    "Prior has " ++ toString entries ++ " entries for " ++ toString outcomes ++ " outcomes"
  | badPrior index entry =>
    "Invalid prior entry " ++ number entry ++ " at index " ++ toString index
      ++ ": must be finite and positive"
  | missing part => "Invalid parameter \x27" ++ part ++ "\x27: must be specified"

/-- The message of a setup over the doubles. -/
def message : SetupError Float → String := render plainText

end SetupError

end Aleatory
