import Aleatory.Fault

/-!
# Computations with a log

`Traced ω α` is a computation that has already been carried out: the entries it logged, in order,
and its value, or the fault that ended it.  Entries logged before a fault are kept.  Loops pass
the log so far along and append to it, so a long run costs no more than its entries.
-/

namespace Aleatory

universe u v w

/-- What was logged, in order, and the value reached or the fault that ended the computation. -/
structure Traced (ω : Type) (α : Type u) : Type u where
  /-- The entries logged, oldest first. -/
  log : Array ω
  /-- The value, unless a fault came first. -/
  result : Except Fault α

namespace Traced

variable {ω : Type} {α : Type u} {β : Type v}

/-- A value, with nothing logged. -/
def ret (a : α) : Traced ω α := ⟨#[], .ok a⟩

/-- A fault, with nothing logged. -/
def fail (fault : Fault) : Traced ω α := ⟨#[], .error fault⟩

/-- Puts earlier entries in front of the log. -/
def after (earlier : Array ω) (t : Traced ω α) : Traced ω α := ⟨earlier ++ t.log, t.result⟩

/-- Goes on with the value, if there is one. -/
def andThen (t : Traced ω α) (k : α → Traced ω β) : Traced ω β :=
  match t.result with
  | .ok a => (k a).after t.log
  | .error fault => ⟨t.log, .error fault⟩

/-- A computation that logs nothing. -/
def ofExcept (result : Except Fault α) : Traced ω α := ⟨#[], result⟩

/-- Changes the entries and keeps the result. -/
def mapLog {ω' : Type} (f : ω → ω') (t : Traced ω α) : Traced ω' α := ⟨t.log.map f, t.result⟩

instance : Monad (Traced ω) where
  pure := ret
  bind := andThen

@[simp]
theorem ret_andThen (a : α) (k : α → Traced ω β) : (ret a).andThen k = k a := by
  simp [ret, andThen, after]

@[simp]
theorem fail_andThen (fault : Fault) (k : α → Traced ω β) :
    (fail fault : Traced ω α).andThen k = fail fault := rfl

@[simp]
theorem andThen_ret (t : Traced ω α) : t.andThen ret = t := by
  obtain ⟨log, result⟩ := t
  cases result <;> simp [andThen, ret, after]

@[simp]
theorem log_after (l : Array ω) (t : Traced ω α) : (t.after l).log = l ++ t.log := rfl

@[simp]
theorem result_after (l : Array ω) (t : Traced ω α) : (t.after l).result = t.result := rfl

@[simp]
theorem mk_ok_andThen (l : Array ω) (a : α) (k : α → Traced ω β) :
    (⟨l, .ok a⟩ : Traced ω α).andThen k = (k a).after l := rfl

@[simp]
theorem mk_error_andThen (l : Array ω) (fault : Fault) (k : α → Traced ω β) :
    (⟨l, .error fault⟩ : Traced ω α).andThen k = ⟨l, .error fault⟩ := rfl

@[simp]
theorem after_empty (t : Traced ω α) : t.after #[] = t := by
  simp [after]

@[simp]
theorem after_after (l m : Array ω) (t : Traced ω α) : (t.after m).after l = t.after (l ++ m) := by
  simp [after, Array.append_assoc]

theorem after_andThen (l : Array ω) (t : Traced ω α) (k : α → Traced ω β) :
    (t.after l).andThen k = (t.andThen k).after l := by
  obtain ⟨log, result⟩ := t
  cases result <;> simp [andThen, after, Array.append_assoc]

/-- Going on twice is going on once with the composite. -/
theorem andThen_andThen {γ : Type w} (t : Traced ω α) (k : α → Traced ω β) (k' : β → Traced ω γ) :
    (t.andThen k).andThen k' = t.andThen fun a => (k a).andThen k' := by
  obtain ⟨log, result⟩ := t
  cases result with
  | error fault => rfl
  | ok a =>
    show ((k a).after log).andThen k' = ((k a).andThen k').after log
    exact after_andThen log (k a) k'

end Traced

end Aleatory
