import Aleatory.Traced

/-!
# Modes

A mode says what a run wraps around its result: nothing (`identity`), a possible failure
(`fallible`), or the number of effect steps that were sequenced to reach it (`symbolic`).
Continuations may log and fault, so sequencing in a mode happens inside `Traced`.

Mapping a wrapped value costs no step; going on from it costs one.
-/

namespace Aleatory

universe u v w

/-- What a run wraps around its result. -/
inductive Mode : Type 1 where
  /-- The bare value. -/
  | identity
  /-- The value, or the first failure. -/
  | fallible (ε : Type)
  /-- The value and the number of effect steps sequenced to reach it. -/
  | symbolic

/-- A value with the number of effect steps sequenced to reach it. -/
structure Counted (α : Type u) : Type u where
  value : α
  steps : UInt64
  deriving DecidableEq, Repr

/-- The steps of two computations in sequence: those of both and one more. -/
def sequenceSteps (first second : UInt64) : Except Fault UInt64 := do
  let both ← addCounts .stepOverflow first second
  addCounts .stepOverflow both 1

theorem sequenceSteps_of_lt {first second : UInt64}
    (h : first.toNat + second.toNat + 1 < UInt64.size) :
    sequenceSteps first second = .ok (first + second + 1) := by
  have both : addCounts .stepOverflow first second = .ok (first + second) :=
    addCounts_of_lt _ (by omega)
  have sum : (first + second).toNat = first.toNat + second.toNat := toNat_of_addCounts both
  have one : addCounts .stepOverflow (first + second) 1 = .ok (first + second + 1) :=
    addCounts_of_lt _ (by simpa [sum] using h)
  simp [sequenceSteps, both, one, bind, Except.bind]

theorem toNat_sequenceSteps {first second : UInt64}
    (h : first.toNat + second.toNat + 1 < UInt64.size) :
    (first + second + 1).toNat = first.toNat + second.toNat + 1 := by
  have sum : (first + second).toNat = first.toNat + second.toNat :=
    toNat_of_addCounts (addCounts_of_lt .stepOverflow (by omega))
  have one : (first + second + 1).toNat = (first + second).toNat + 1 :=
    toNat_of_addCounts (addCounts_of_lt .stepOverflow (by simpa [sum] using h))
  rw [one, sum]

theorem sequenceSteps_of_le {first second : UInt64}
    (h : UInt64.size ≤ first.toNat + second.toNat + 1) :
    sequenceSteps first second = .error .stepOverflow := by
  by_cases hlt : first.toNat + second.toNat < UInt64.size
  · have both : addCounts .stepOverflow first second = .ok (first + second) :=
      addCounts_of_lt _ hlt
    have sum : (first + second).toNat = first.toNat + second.toNat := toNat_of_addCounts both
    have one : addCounts .stepOverflow (first + second) 1 = .error .stepOverflow :=
      addCounts_of_le _ (by simpa [sum] using h)
    simp [sequenceSteps, both, one, bind, Except.bind]
  · have both : addCounts .stepOverflow first second = .error .stepOverflow :=
      addCounts_of_le _ (Nat.le_of_not_lt hlt)
    simp [sequenceSteps, both, bind, Except.bind]

/-- Adds the steps of an earlier computation to those of the one that follows it. -/
def Counted.following {α : Type u} (earlier : UInt64) (t : Counted α) : Except Fault (Counted α) :=
  match sequenceSteps earlier t.steps with
  | .ok steps => .ok ⟨t.value, steps⟩
  | .error fault => .error fault

namespace Mode

/-- The values that a mode wraps around results of type `α`. -/
@[reducible]
def Result : Mode → Type u → Type u
  | .identity, α => α
  | .fallible ε, α => Except ε α
  | .symbolic, α => Counted α

/-- The failures that a mode may report. -/
@[reducible]
def Failure : Mode → Type
  | .fallible ε => ε
  | _ => Empty

variable {ω : Type} {α : Type u} {β : Type v}

/-- Wraps a plain value. -/
def ret : (F : Mode) → α → F.Result α
  | .identity, a => a
  | .fallible _, a => .ok a
  | .symbolic, a => ⟨a, 0⟩

/-- Applies a function to the wrapped value. -/
def map : (F : Mode) → (α → β) → F.Result α → F.Result β
  | .identity, f, a => f a
  | .fallible _, _, .error e => .error e
  | .fallible _, f, .ok a => .ok (f a)
  | .symbolic, f, t => ⟨f t.value, t.steps⟩

/-- Applies a function that may log and fault to the wrapped value. -/
def traverse : (F : Mode) → (α → Traced ω β) → F.Result α → Traced ω (F.Result β)
  | .identity, f, a => f a
  | .fallible _, _, .error e => .ret (.error e)
  | .fallible _, f, .ok a => (f a).andThen fun b => .ret (.ok b)
  | .symbolic, f, t => (f t.value).andThen fun b => .ret ⟨b, t.steps⟩

/-- Goes on from the wrapped value.  A failure skips the continuation; a symbolic sequence adds
the steps of both sides and one more. -/
def andThen : (F : Mode) → F.Result α → (α → Traced ω (F.Result β)) → Traced ω (F.Result β)
  | .identity, a, k => k a
  | .fallible _, .error e, _ => .ret (.error e)
  | .fallible _, .ok a, k => k a
  | .symbolic, t, k => (k t.value).andThen fun next => .ofExcept (next.following t.steps)

/-- The concrete verdict that a wrapped verdict stands for, if it stands for one. -/
def settle : (F : Mode) → F.Result Bool → Option Bool
  | .identity, b => some b
  | .fallible _, .ok b => some b
  | .fallible _, .error _ => none
  | .symbolic, _ => none

/-- Whether two wrapped values agree: both values, both failures, or both values and step counts. -/
def agree : (F : Mode) → (F.Failure → F.Failure → Bool) → (α → α → Bool) →
    F.Result α → F.Result α → Bool
  | .identity, _, same, a, b => same a b
  | .fallible _, _, same, .ok a, .ok b => same a b
  | .fallible _, sameFailure, _, .error e, .error f => sameFailure e f
  | .fallible _, _, _, _, _ => false
  | .symbolic, _, same, s, t => same s.value t.value && s.steps == t.steps

@[simp]
theorem map_ret (F : Mode) (f : α → β) (a : α) : F.map f (F.ret a) = F.ret (f a) := by
  cases F <;> rfl

@[simp]
theorem map_map {γ : Type w} (F : Mode) (g : β → γ) (f : α → β) (fa : F.Result α) :
    F.map g (F.map f fa) = F.map (fun a => g (f a)) fa := by
  cases F with
  | identity => rfl
  | fallible ε => cases fa <;> rfl
  | symbolic => rfl

@[simp]
theorem map_id' (F : Mode) (fa : F.Result α) : F.map (fun a => a) fa = fa := by
  cases F with
  | identity => rfl
  | fallible ε => cases fa <;> rfl
  | symbolic => rfl

end Mode

end Aleatory
