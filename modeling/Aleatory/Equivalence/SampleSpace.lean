import Aleatory.Equivalence.Setup
import Aleatory.Numeric.Elementary

/-!
# Sample spaces

A sample space lists the outcomes that an experiment is declared to have, and gives each of them
an entry of a Dirichlet prior.  Outcomes are compared by a given equality that need not be
reflexive; no outcome of a sample space equals an earlier one, so a value has at most one index.
-/

namespace Aleatory

section

variable {α ρ : Type}

/-- No outcome equals an earlier one. -/
def Distinct [BEq α] (outcomes : List α) : Prop :=
  outcomes.Pairwise fun earlier later => (earlier == later) = false

/-- The least index, counted from `index` on, of an outcome that equals an earlier one. -/
def duplicateFrom? [BEq α] (earlier : List α) (index : Nat) : List α → Option Nat
  | [] => none
  | outcome :: rest =>
    if earlier.any (· == outcome) then some index
    else duplicateFrom? (earlier ++ [outcome]) (index + 1) rest

/-- The least index of an outcome that equals an earlier one. -/
def duplicate? [BEq α] (outcomes : List α) : Option Nat := duplicateFrom? [] 0 outcomes

/-- An entry that a prior may have. -/
def isPriorEntry [Elementary ρ] (entry : ρ) : Bool :=
  Elementary.isFinite entry && Elementary.lt 0.0 entry

/-- The first entry that a prior may not have, and its index. -/
def badEntry? [Elementary ρ] (prior : List ρ) : Option (ρ × Nat) :=
  prior.zipIdx.find? fun (entry, _) => !isPriorEntry entry

end

/-- Outcomes and a prior entry for each of them. -/
structure SampleSpace (α ρ : Type) [BEq α] [Elementary ρ] where
  outcomes : List α
  prior : List ρ
  nonempty : outcomes ≠ []
  distinct : Distinct outcomes
  aligned : prior.length = outcomes.length
  positive : ∀ entry ∈ prior, isPriorEntry entry = true

section

variable {α ρ : Type} [BEq α]

/-- Without a duplicate, no outcome equals one before it or one given as earlier. -/
theorem distinct_of_duplicateFrom?_eq_none {earlier outcomes : List α} {index : Nat}
    (h : duplicateFrom? earlier index outcomes = none) :
    Distinct outcomes ∧ ∀ e ∈ earlier, ∀ o ∈ outcomes, (e == o) = false := by
  induction outcomes generalizing earlier index with
  | nil => exact ⟨.nil, by simp⟩
  | cons outcome rest ih =>
    simp only [duplicateFrom?] at h
    split at h
    · cases h
    · next hany =>
      obtain ⟨hrest, hsep⟩ := ih h
      refine ⟨.cons (fun o ho => hsep outcome (by simp) o ho) hrest, ?_⟩
      intro e he o ho
      rcases List.mem_cons.mp ho with rfl | ho
      · simp only [List.any_eq_true, not_exists, not_and, Bool.not_eq_true] at hany
        exact hany e he
      · exact hsep e (by simp [he]) o ho

theorem distinct_of_duplicate?_eq_none {outcomes : List α} (h : duplicate? outcomes = none) :
    Distinct outcomes :=
  (distinct_of_duplicateFrom?_eq_none h).1

theorem isPriorEntry_of_badEntry?_eq_none [Elementary ρ] {prior : List ρ}
    (h : badEntry? prior = none) : ∀ entry ∈ prior, isPriorEntry entry = true := by
  intro entry hentry
  obtain ⟨index, hindex⟩ := List.mem_iff_getElem?.mp hentry
  have hmem : (entry, index) ∈ prior.zipIdx := List.mem_zipIdx_iff_getElem?.mpr hindex
  simpa using List.find?_eq_none.mp h _ hmem

end

namespace SampleSpace

variable {α ρ : Type} [BEq α] [Elementary ρ]

/-- The sample space of given outcomes and prior entries.  The outcomes are checked first: that
there are any, and that they are distinct; then the length of the prior; then its entries. -/
def ofPrior (outcomes : List α) (prior : List ρ) : Except (SetupError ρ) (SampleSpace α ρ) :=
  if hempty : outcomes = [] then .error .noOutcomes
  else
    match hdup : duplicate? outcomes with
    | some index => .error (.duplicateOutcome index)
    | none =>
      if hlength : prior.length = outcomes.length then
        match hbad : badEntry? prior with
        | some (entry, index) => .error (.badPrior index entry)
        | none => .ok ⟨outcomes, prior, hempty, distinct_of_duplicate?_eq_none hdup, hlength,
            isPriorEntry_of_badEntry?_eq_none hbad⟩
      else .error (.priorLength outcomes.length prior.length)

/-- The sample space of given outcomes, all of them with the prior entry one. -/
def ofOutcomes (outcomes : List α) : Except (SetupError ρ) (SampleSpace α ρ) :=
  ofPrior outcomes (List.replicate outcomes.length 1.0)

def size (space : SampleSpace α ρ) : Nat := space.outcomes.length

def isEmpty (space : SampleSpace α ρ) : Bool := space.outcomes.isEmpty

/-- The index of the outcome that equals a value. -/
def indexOf? (space : SampleSpace α ρ) (value : α) : Option Nat :=
  space.outcomes.findIdx? (· == value)

/-- False and true, with the prior entry one each. -/
def boolean : SampleSpace Bool Float where
  outcomes := [false, true]
  prior := [1.0, 1.0]
  nonempty := by simp
  distinct := by simp [Distinct]
  aligned := rfl
  positive := by decide +kernel

end SampleSpace

end Aleatory
