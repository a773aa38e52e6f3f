import Aleatory.Mode

/-!
# Loops in a mode

A pass of a loop either asks for another pass from a new value or stops with a result; both come
wrapped in the mode.  A loop runs its passes one after the other without nesting them: a failure
ends it, and a symbolic loop adds the steps of every pass and one more for every further pass.

`iterate` takes a proof that the loop ends from the value it starts at; `iterateWithin` takes the
largest number of passes instead.
-/

namespace Aleatory

universe u v

/-- What a pass of a loop decides. -/
inductive Pass (α : Type u) (β : Type v) : Type (max u v) where
  /-- Another pass, from this value. -/
  | again (a : α)
  /-- No further pass. -/
  | stop (b : β)

/-- Where a loop stands after a pass: before another one, with the steps so far, or at its end. -/
inductive Onward (F : Mode) (α : Type u) (β : Type v) : Type (max u v) where
  | more (steps : UInt64) (a : α)
  | ended (result : Except Fault (F.Result β))

namespace Mode

variable {ω : Type} {α : Type u} {β : Type v}

/-- Adds the steps of one symbolic pass to those so far. -/
def onwardSymbolic (steps : UInt64) (pass : Counted (Pass α β)) : Onward .symbolic α β :=
  match addCounts .stepOverflow steps pass.steps with
  | .error fault => .ended (.error fault)
  | .ok sum =>
    match pass.value with
    | .stop b => .ended (.ok ⟨b, sum⟩)
    | .again a =>
      match addCounts .stepOverflow sum 1 with
      | .error fault => .ended (.error fault)
      | .ok steps => .more steps a

/-- Where a loop stands after a pass, given the steps before it. -/
def onward : (F : Mode) → UInt64 → F.Result (Pass α β) → Onward F α β
  | .identity, steps, .again a => .more steps a
  | .identity, _, .stop b => .ended (.ok b)
  | .fallible _, steps, .ok (.again a) => .more steps a
  | .fallible _, _, .ok (.stop b) => .ended (.ok (.ok b))
  | .fallible _, _, .error e => .ended (.ok (.error e))
  | .symbolic, steps, pass => onwardSymbolic steps pass

/-- The value from which a wrapped pass asks for another one. -/
def next? : (F : Mode) → F.Result (Pass α β) → Option α
  | .identity, .again a => some a
  | .identity, .stop _ => none
  | .fallible _, .ok (.again a) => some a
  | .fallible _, .ok (.stop _) => none
  | .fallible _, .error _ => none
  | .symbolic, ⟨.again a, _⟩ => some a
  | .symbolic, ⟨.stop _, _⟩ => none

theorem next?_of_onward {F : Mode} {steps steps' : UInt64} {r : F.Result (Pass α β)} {a : α}
    (h : F.onward steps r = .more steps' a) : F.next? r = some a := by
  cases F with
  | identity =>
    cases r with
    | again b => cases h; rfl
    | stop b => cases h
  | fallible ε =>
    match r, h with
    | .ok (.again b), h => cases h; rfl
    | .ok (.stop b), h => cases h
    | .error e, h => cases h
  | symbolic =>
    obtain ⟨pass, n⟩ := r
    simp only [onward, onwardSymbolic] at h
    split at h
    · cases h
    · cases pass with
      | stop b => cases h
      | again b =>
        simp only at h
        split at h
        · cases h
        · cases h; rfl

/-- One pass from `a` asks for another one from `a'`. -/
def HandsOn (F : Mode) (pass : α → Traced ω (F.Result (Pass α β))) (a' a : α) : Prop :=
  ∃ r, (pass a).result = .ok r ∧ F.next? r = some a'

/-- Runs passes behind a log and a number of steps already made. -/
def iterateFrom (F : Mode) (pass : α → Traced ω (F.Result (Pass α β))) (log : Array ω)
    (steps : UInt64) (start : { a // Acc (F.HandsOn pass) a }) : Traced ω (F.Result β) :=
  match h : pass start.1 with
  | ⟨entries, .error fault⟩ => ⟨log ++ entries, .error fault⟩
  | ⟨entries, .ok r⟩ =>
    match h' : F.onward steps r with
    | .ended result => ⟨log ++ entries, result⟩
    | .more steps a =>
      have handed : F.HandsOn pass a start.1 := ⟨r, by rw [h], next?_of_onward h'⟩
      iterateFrom F pass (log ++ entries) steps ⟨a, start.2.inv handed⟩
termination_by start
decreasing_by exact handed

/-- Runs passes from a value from which the loop ends. -/
def iterate (F : Mode) (pass : α → Traced ω (F.Result (Pass α β))) (a : α)
    (ends : Acc (F.HandsOn pass) a) : Traced ω (F.Result β) :=
  iterateFrom F pass #[] 0 ⟨a, ends⟩

/-- Runs at most a given number of passes behind a log and a number of steps already made. -/
def iterateWithinFrom (F : Mode) (pass : α → Traced ω (F.Result (Pass α β))) :
    Nat → Array ω → UInt64 → α → Traced ω (F.Result β)
  | 0, log, _, _ => ⟨log, .error .passesExhausted⟩
  | passes + 1, log, steps, a =>
    match pass a with
    | ⟨entries, .error fault⟩ => ⟨log ++ entries, .error fault⟩
    | ⟨entries, .ok r⟩ =>
      match F.onward steps r with
      | .ended result => ⟨log ++ entries, result⟩
      | .more steps a => iterateWithinFrom F pass passes (log ++ entries) steps a

/-- Runs at most a given number of passes. -/
def iterateWithin (F : Mode) (passes : Nat) (pass : α → Traced ω (F.Result (Pass α β))) (a : α) :
    Traced ω (F.Result β) :=
  iterateWithinFrom F pass passes #[] 0 a

end Mode

end Aleatory
