import Aleatory.Equivalence.Setup
import Aleatory.Json.Reader
import Aleatory.Numeric.Elementary

/-!
# Criteria

A criterion says how many trials a comparison makes from each state and up to which probability of
a difference it still answers that there is none.  It can be built at once, part by part, or from
a document.

A document is taken in as `serde` 1.0 takes in a record of a word and a double: from a list of the
two, or from fields in any order, each of the two exactly once and others ignored.
-/

namespace Aleatory

/-- A positive number of trials and a threshold strictly between zero and one. -/
structure Criterion (ρ : Type) [Elementary ρ] where
  replicates : UInt64
  threshold : ρ
  replicates_pos : 0 < replicates
  threshold_inside : (Elementary.lt 0.0 threshold && Elementary.lt threshold 1.0) = true

namespace Criterion

variable {ρ : Type} [Elementary ρ]

/-- The criterion of given parts. -/
def ofParts (replicates : UInt64) (threshold : ρ) : Except (SetupError ρ) (Criterion ρ) :=
  if hr : 0 < replicates then
    if ht : (Elementary.lt 0.0 threshold && Elementary.lt threshold 1.0) = true then
      .ok ⟨replicates, threshold, hr, ht⟩
    else .error (.badThreshold threshold)
  else .error .noReplicates

/-- A criterion whose parts need not all be given yet. -/
structure Draft (ρ : Type) where
  replicates : Option UInt64 := none
  threshold : Option ρ := none

def Draft.build (draft : Draft ρ) : Except (SetupError ρ) (Criterion ρ) :=
  match draft.replicates, draft.threshold with
  | none, _ => .error (.missing "replicates")
  | some _, none => .error (.missing "threshold")
  | some replicates, some threshold => ofParts replicates threshold

/-- The document of a criterion over the doubles. -/
def toJson (c : Criterion Float) : Json :=
  .object [("replicates", .ofNat c.replicates.toNat), ("threshold", .ofFloat c.threshold)]

/-- The content of a part that is given now, unless it was given before. -/
def once {α : Type} : Option α → Option α → Option α
  | none, given => given
  | some _, _ => none

/-- Takes the next field of a document. A field of any other name is passed over; a part that is
no number of its kind, or that is given twice, spoils the document. -/
def Draft.take (draft : Draft Float) : String × Json → Option (Draft Float)
  | (name, value) =>
    if name = "replicates" then do
      let replicates ← once draft.replicates value.count?
      return { draft with replicates }
    else if name = "threshold" then do
      let threshold ← once draft.threshold value.double?
      return { draft with threshold }
    else some draft

/-- The criterion of a document: an array of the two parts, or an object with a field for each.
Nothing at all if the document has neither shape. -/
def ofJson? : Json → Option (Except (SetupError Float) (Criterion Float))
  | .array [replicates, threshold] => do
    return ofParts (← replicates.count?) (← threshold.double?)
  | .object fields => do
    let draft ← fields.foldlM Draft.take {}
    return ofParts (← draft.replicates) (← draft.threshold)
  | _ => none

/-- The criterion of a text; nothing at all if the text is no document or its document has not the
shape of one. What follows the document is looked at last, when the two numbers make a
criterion. -/
def ofText? (text : String) : Option (Except (SetupError Float) (Criterion Float)) :=
  match Json.readOutline text.toList with
  | some (document, rest) =>
    match ofJson? document with
    | some (.ok c) => if (Json.skipBlanks rest).isEmpty then some (.ok c) else none
    | refused => refused
  | none => none

end Criterion

end Aleatory
