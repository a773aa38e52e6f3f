import Aleatory.Proofs.Experiment.Course

/-!
# Wrapped results

Every wrapped result is the conclusion of a failure or of a counted value (`exists_conclude`), and
the operations of a mode act on conclusions.
-/

namespace Aleatory

namespace Mode

variable {ω α β : Type} {F : Mode}

theorem identity_ne_symbolic : identity ≠ symbolic := nofun

theorem fallible_ne_symbolic (ε : Type) : fallible ε ≠ symbolic := nofun

theorem exists_conclude (wrapped : F.Result α) : ∃ r, wrapped = F.conclude r := by
  cases F with
  | identity => exact ⟨.ok ⟨wrapped, 0⟩, rfl⟩
  | fallible ε =>
      cases wrapped with
      | error e => exact ⟨.error e, rfl⟩
      | ok a => exact ⟨.ok ⟨a, 0⟩, rfl⟩
  | symbolic => exact ⟨.ok wrapped, rfl⟩

theorem ret_eq_conclude (a : α) : F.ret a = F.conclude (.ok ⟨a, 0⟩) := by
  cases F <;> rfl

theorem map_conclude_ok (f : α → β) (t : Counted α) :
    F.map f (F.conclude (.ok t)) = F.conclude (.ok ⟨f t.value, t.steps⟩) := by
  cases F <;> rfl

theorem map_conclude_error (f : α → β) (e : F.Failure) :
    F.map f (F.conclude (.error e)) = F.conclude (.error e) := by
  cases F with
  | fallible ε => rfl
  | identity => exact e.elim
  | symbolic => exact e.elim

theorem traverse_conclude_ok (f : α → Traced ω β) (t : Counted α) :
    F.traverse f (F.conclude (.ok t)) =
      (f t.value).andThen fun b => .ret (F.conclude (.ok ⟨b, t.steps⟩)) := by
  cases F with
  | identity => exact (Traced.andThen_ret (f t.value)).symm
  | fallible ε => rfl
  | symbolic => rfl

theorem traverse_conclude_error (f : α → Traced ω β) (e : F.Failure) :
    F.traverse f (F.conclude (.error e)) = .ret (F.conclude (.error e)) := by
  cases F with
  | fallible ε => rfl
  | identity => exact e.elim
  | symbolic => exact e.elim

theorem traverse_of_ret (f : α → β) (wrapped : F.Result α) :
    F.traverse (fun a => (Traced.ret (f a) : Traced ω β)) wrapped = .ret (F.map f wrapped) := by
  cases F with
  | identity => rfl
  | fallible ε => cases wrapped <;> simp [traverse, map]
  | symbolic => simp [traverse, map]

theorem andThen_conclude_error (e : F.Failure) (k : α → Traced ω (F.Result β)) :
    F.andThen (F.conclude (.error e)) k = .ret (F.conclude (.error e)) := by
  cases F with
  | fallible ε => rfl
  | identity => exact e.elim
  | symbolic => exact e.elim

/-- Going on to another value adds the steps of both and one more, where steps are counted. -/
theorem andThen_of_ok {t : Counted α} {next : Counted β} {k : α → Traced ω (F.Result β)}
    {log : Array ω} (h : k t.value = ⟨log, .ok (F.conclude (.ok next))⟩)
    (hfit : F = .symbolic → t.steps.toNat + next.steps.toNat + 1 < UInt64.size) :
    F.andThen (F.conclude (.ok t)) k =
      ⟨log, .ok (F.conclude (.ok ⟨next.value, t.steps + next.steps + 1⟩))⟩ := by
  cases F with
  | identity => exact h
  | fallible ε => exact h
  | symbolic =>
      have hsteps := sequenceSteps_of_lt (hfit rfl)
      simp only [andThen, conclude] at h ⊢
      rw [h]
      simp [Counted.following, hsteps, Traced.ofExcept, Traced.after]

theorem andThen_of_error {t : Counted α} {e : F.Failure} {k : α → Traced ω (F.Result β)}
    {log : Array ω} (h : k t.value = ⟨log, .ok (F.conclude (.error e))⟩) :
    F.andThen (F.conclude (.ok t)) k = ⟨log, .ok (F.conclude (.error e))⟩ := by
  cases F with
  | fallible ε => exact h
  | identity => exact e.elim
  | symbolic => exact e.elim

theorem andThen_of_fault {t : Counted α} {fault : Fault} {k : α → Traced ω (F.Result β)}
    {log : Array ω} (h : k t.value = ⟨log, .error fault⟩) :
    F.andThen (F.conclude (.ok t)) k = ⟨log, .error fault⟩ := by
  cases F with
  | identity => exact h
  | fallible ε => exact h
  | symbolic =>
      simp only [andThen, conclude] at h ⊢
      rw [h]
      rfl

theorem andThen_of_overflow {t : Counted α} {next : Counted β} {k : α → Traced ω (Counted β)}
    {log : Array ω} (h : k t.value = ⟨log, .ok next⟩)
    (hover : UInt64.size ≤ t.steps.toNat + next.steps.toNat + 1) :
    symbolic.andThen t k = ⟨log, .error .stepOverflow⟩ := by
  have hsteps := sequenceSteps_of_le hover
  simp only [andThen]
  rw [h]
  simp [Counted.following, hsteps, Traced.ofExcept, Traced.after]

/-- Going on from a value is performing what follows as an effect step, after the steps made. -/
theorem andThen_eq_perform (a : α) (steps : UInt64)
    (k : α → Traced Mark (F.Result β)) :
    F.andThen (F.conclude (.ok ⟨a, steps⟩)) k =
      ⟨(Course.perform (k a) steps).log, (Course.perform (k a) steps).result.map F.conclude⟩ := by
  simp only [Course.perform]
  cases F with
  | identity =>
      simp only [andThen, conclude]
      rcases k a with ⟨log, fault | b⟩
      · rfl
      · simp [charge, Traced.ofExcept, Traced.after, Except.map, conclude]
  | fallible ε =>
      simp only [andThen, conclude]
      rcases k a with ⟨log, fault | e | b⟩
      · rfl
      · simp [charge, Traced.ofExcept, Traced.after, Except.map, conclude]
      · simp [charge, Traced.ofExcept, Traced.after, Except.map, conclude]
  | symbolic =>
      simp only [andThen, conclude]
      rcases k a with ⟨log, fault | b⟩
      · rfl
      · simp only [Traced.mk_ok_andThen, charge, Counted.following]
        cases sequenceSteps steps b.steps <;> rfl

theorem conclude_error_inj {e e' : F.Failure} :
    F.conclude (.error e : Except F.Failure (Counted α)) = F.conclude (.error e') ↔ e = e' := by
  cases F with
  | fallible ε => exact Except.error.injEq e e' ▸ Iff.rfl
  | identity => exact e.elim
  | symbolic => exact e.elim

theorem conclude_ok_ne_error (t : Counted α) (e : F.Failure) :
    F.conclude (.ok t) ≠ F.conclude (.error e) := by
  cases F with
  | fallible ε => exact nofun
  | identity => exact e.elim
  | symbolic => exact e.elim

theorem charge_conclude_error (steps : UInt64) (e : F.Failure) :
    F.charge steps (F.conclude (.error e : Except F.Failure (Counted α))) = .ok (.error e) := by
  cases F with
  | fallible ε => rfl
  | identity => exact e.elim
  | symbolic => exact e.elim

theorem ret_andThen (hF : F ≠ .symbolic) (a : α) (k : α → Traced ω (F.Result β)) :
    F.andThen (F.ret a) k = k a := by
  cases F with
  | identity => rfl
  | fallible ε => rfl
  | symbolic => exact absurd rfl hF

theorem settle_ret (hF : F ≠ .symbolic) (b : Bool) : F.settle (F.ret b) = some b := by
  cases F with
  | identity => rfl
  | fallible ε => rfl
  | symbolic => exact absurd rfl hF

theorem settle_conclude_error (e : F.Failure) : F.settle (F.conclude (.error e)) = none := by
  cases F with
  | fallible ε => rfl
  | identity => exact e.elim
  | symbolic => exact e.elim

theorem eq_ret_of_settle {wrapped : F.Result Bool} {b : Bool} (h : F.settle wrapped = some b) :
    wrapped = F.ret b := by
  cases F with
  | identity => exact Option.some.inj h
  | fallible ε =>
      cases wrapped with
      | error e => cases h
      | ok a => exact congrArg Except.ok (Option.some.inj h)
  | symbolic => cases h

theorem conclude_ok_eq_ret (hF : F ≠ .symbolic) (t : Counted α) :
    F.conclude (.ok t) = F.ret t.value := by
  cases F with
  | identity => rfl
  | fallible ε => rfl
  | symbolic => exact absurd rfl hF

theorem ret_inj {a b : α} : F.ret a = F.ret b ↔ a = b := by
  constructor
  · intro h
    cases F with
    | identity => exact h
    | fallible ε => exact Except.ok.inj h
    | symbolic => exact congrArg Counted.value h
  · rintro rfl
    rfl

theorem ret_ne_conclude_error (a : α) (e : F.Failure) : F.ret a ≠ F.conclude (.error e) := by
  rw [ret_eq_conclude]
  exact conclude_ok_ne_error _ e

theorem traverse_ret (f : α → Traced ω β) (a : α) :
    F.traverse f (F.ret a) = (f a).andThen fun b => .ret (F.ret b) := by
  simp only [ret_eq_conclude, traverse_conclude_ok]

/-- A verdict that is not positive stays as it is. -/
theorem andThen_of_settle (hF : F ≠ .symbolic) {wrapped : F.Result Bool}
    (h : F.settle wrapped ≠ some true) (next : Traced ω (F.Result Bool)) :
    (F.andThen wrapped fun equal => if equal then next else .ret (F.ret false)) =
      .ret wrapped := by
  cases F with
  | identity =>
      obtain rfl : wrapped = false := by
        cases wrapped with
        | false => rfl
        | true => exact absurd rfl h
      rfl
  | fallible ε =>
      rcases wrapped with e | _ | _
      · rfl
      · rfl
      · exact absurd rfl h
  | symbolic => exact absurd rfl hF

end Mode

end Aleatory
