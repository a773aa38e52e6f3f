import Aleatory.Mode.Loop

/-!
# Loops one pass at a time

`Mode.iterateFrom` passes the log and a proof that the loop ends along with the value. Neither
influences what the loop does: the log only stands in front of what is logged later
(`iterateFrom_eq_after`), and any two proofs are the same. For passes that come to an end from
every value, `Mode.loop` therefore needs neither, and `loop_eq` unrolls it by one pass.
-/

namespace Aleatory

universe u v

theorem Traced.eq_mk_of_result {ω : Type} {α : Type u} {t : Traced ω α}
    {result : Except Fault α} (h : t.result = result) : t = ⟨t.log, result⟩ := by
  rw [← h]

namespace Mode

variable {ω : Type} {α : Type u} {β : Type v} {F : Mode}
  {pass : α → Traced ω (F.Result (Pass α β))}

/-- The steps of a symbolic pass that asks for another one are sequenced, as those of an act are. -/
theorem onwardSymbolic_again (steps n : UInt64) (a : α) :
    onwardSymbolic steps (⟨.again a, n⟩ : Counted (Pass α β)) =
      match sequenceSteps steps n with
      | .ok steps => .more steps a
      | .error fault => .ended (.error fault) := by
  simp only [onwardSymbolic, sequenceSteps]
  cases addCounts .stepOverflow steps n with
  | error fault => rfl
  | ok both =>
      simp only [bind, Except.bind]
      cases addCounts .stepOverflow both 1 <;> rfl

theorem iterateFrom_of_fault {a : α} {ends : Acc (F.HandsOn pass) a} {entries : Array ω}
    {fault : Fault} (h : pass a = ⟨entries, .error fault⟩) (log : Array ω) (steps : UInt64) :
    F.iterateFrom pass log steps ⟨a, ends⟩ = ⟨log ++ entries, .error fault⟩ := by
  rw [iterateFrom]
  split
  · next h₁ =>
      cases h.symm.trans h₁
      rfl
  · next h₁ => cases h.symm.trans h₁

theorem iterateFrom_of_ended {a : α} {ends : Acc (F.HandsOn pass) a} {entries : Array ω}
    {r : F.Result (Pass α β)} {steps : UInt64} {result : Except Fault (F.Result β)}
    (h : pass a = ⟨entries, .ok r⟩) (h' : F.onward steps r = .ended result) (log : Array ω) :
    F.iterateFrom pass log steps ⟨a, ends⟩ = ⟨log ++ entries, result⟩ := by
  rw [iterateFrom]
  split
  · next h₁ => cases h.symm.trans h₁
  · next h₁ =>
      cases h.symm.trans h₁
      split
      · next h₂ =>
          cases h'.symm.trans h₂
          rfl
      · next h₂ => cases h'.symm.trans h₂

theorem iterateFrom_of_more {a a' : α} {ends : Acc (F.HandsOn pass) a} {entries : Array ω}
    {r : F.Result (Pass α β)} {steps steps' : UInt64} (h : pass a = ⟨entries, .ok r⟩)
    (h' : F.onward steps r = .more steps' a') (log : Array ω)
    (ends' : Acc (F.HandsOn pass) a') :
    F.iterateFrom pass log steps ⟨a, ends⟩ =
      F.iterateFrom pass (log ++ entries) steps' ⟨a', ends'⟩ := by
  rw [iterateFrom]
  split
  · next h₁ => cases h.symm.trans h₁
  · next h₁ =>
      cases h.symm.trans h₁
      split
      · next h₂ => cases h'.symm.trans h₂
      · next h₂ =>
          cases h'.symm.trans h₂
          rfl

/-- What was logged before a loop stands in front of its log and changes nothing else. -/
theorem iterateFrom_eq_after (log : Array ω) (steps : UInt64)
    (start : { a // Acc (F.HandsOn pass) a }) :
    F.iterateFrom pass log steps start = (F.iterateFrom pass #[] steps start).after log := by
  obtain ⟨a, ends⟩ := start
  -- The induction is on the proof that the loop ends; the log grows with every pass.
  induction ends generalizing log steps with
  | intro a below ih =>
      rcases h : pass a with ⟨entries, fault | r⟩
      · simp [iterateFrom_of_fault h, Traced.after]
      · cases h' : F.onward steps r with
        | ended result => simp [iterateFrom_of_ended h h', Traced.after]
        | more steps' a' =>
            have handed : F.HandsOn pass a' a := ⟨r, by rw [h], next?_of_onward h'⟩
            have ends' := below a' handed
            rw [iterateFrom_of_more h h' log ends', iterateFrom_of_more h h' #[] ends',
              ih a' handed (log ++ entries), ih a' handed (#[] ++ entries)]
            simp

/-- The loop over passes that come to an end from every value, after a number of steps already
made. -/
def loop (F : Mode) (pass : α → Traced ω (F.Result (Pass α β)))
    (ends : ∀ a, Acc (F.HandsOn pass) a) (steps : UInt64) (a : α) : Traced ω (F.Result β) :=
  F.iterateFrom pass #[] steps ⟨a, ends a⟩

/-- A loop makes one pass, and goes on from where that pass left it. -/
theorem loop_eq (ends : ∀ a, Acc (F.HandsOn pass) a) (steps : UInt64) (a : α) :
    F.loop pass ends steps a =
      (pass a).andThen fun r =>
        match F.onward steps r with
        | .more steps a => F.loop pass ends steps a
        | .ended result => .ofExcept result := by
  unfold loop
  rcases h : pass a with ⟨entries, fault | r⟩
  · rw [iterateFrom_of_fault h]
    simp
  · cases h' : F.onward steps r with
    | ended result =>
        rw [iterateFrom_of_ended h h']
        simp [h', Traced.ofExcept, Traced.after]
    | more steps' a' =>
        rw [iterateFrom_of_more h h' #[] (ends a'), iterateFrom_eq_after]
        simp [h']

end Mode

end Aleatory
