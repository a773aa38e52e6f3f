import Aleatory.Proofs.Experiment.Interpretation
import Aleatory.Proofs.Experiment.Reckoning

/-!
# A run computes what its experiment means

`Experiment.denote` knows neither a stack nor a loop, and `Stack.denote` continues it to pending
continuations. In the modes that do not count, the course of an experiment is its meaning,
performed as one act (`Experiment.course_eq_perform`), so a run ends in its meaning, failure or
not. In the symbolic mode the two count differently. There a reckoning says what both of them do
(`Reckoned`): the run overflows just if its own count does not fit in 64 bits, and as long as both
counts fit, run and meaning log the same and lead to the same state, extras and value. The main
result is about every machine that evaluates an experiment in front of a stack: it computes the
meaning of the experiment followed by that of the stack.
-/

namespace Aleatory

/-! ## Modes that do not count -/

namespace Course

variable {F : Mode} {α β : Type}

theorem perform_ret (hF : F ≠ .symbolic) (a : α) :
    (perform (.ret (F.ret a)) : Course F α) = ret a := by
  funext steps
  cases F with
  | identity => simp [perform, Mode.ret, Mode.charge, ret, Traced.ofExcept, Traced.ret]
  | fallible ε => simp [perform, Mode.ret, Mode.charge, ret, Traced.ofExcept, Traced.ret]
  | symbolic => exact absurd rfl hF

theorem perform_after (l : Array Mark) (t : Traced Mark (F.Result α)) :
    (perform (t.after l) : Course F α) = (perform t).after l := by
  funext steps
  exact Traced.after_andThen l t _

theorem perform_bind (t : Traced Mark α) (k : α → Traced Mark (F.Result β)) :
    (perform (t.andThen k) : Course F β) = fun steps =>
      t.andThen fun a => perform (k a) steps := by
  funext steps
  simp [perform, Traced.andThen_andThen]

theorem perform_andThen (hF : F ≠ .symbolic) (t : Traced Mark (F.Result α))
    (k : α → Traced Mark (F.Result β)) :
    (perform (t.andThen fun wrapped => F.andThen wrapped k) : Course F β) =
      (perform t).andThen fun a => perform (k a) := by
  rw [perform_bind]
  funext steps
  simp only [perform, andThen, Traced.andThen_andThen]
  congr 1
  funext wrapped
  cases F with
  | identity => simp [Mode.andThen, Mode.charge, Traced.ofExcept]
  | fallible ε =>
      cases wrapped with
      | error e => simp [Mode.andThen, Mode.charge, Traced.ofExcept, Traced.ret]
      | ok a => simp [Mode.andThen, Mode.charge, Traced.ofExcept]
  | symbolic => exact absurd rfl hF

theorem perform_finish (hF : F ≠ .symbolic) (t : Traced Mark (F.Result α)) (steps : UInt64) :
    (perform t : Course F α).finish steps = t := by
  rw [finish, into, perform, Traced.andThen_andThen]
  refine (congrArg t.andThen (funext fun wrapped => ?_)).trans (Traced.andThen_ret t)
  cases F with
  | identity => rfl
  | fallible ε => cases wrapped <;> rfl
  | symbolic => exact absurd rfl hF

end Course

namespace Mode

variable {F : Mode} {α β : Type}

/-- Mapping is going on to the wrapped image, where that counts no step. -/
theorem ret_map_eq_andThen (hF : F ≠ .symbolic) {ω : Type} (f : α → β) (wrapped : F.Result α) :
    (Traced.ret (F.map f wrapped) : Traced ω (F.Result β)) =
      F.andThen wrapped fun a => .ret (F.ret (f a)) := by
  cases F with
  | identity => rfl
  | fallible ε => cases wrapped <;> rfl
  | symbolic => exact absurd rfl hF

end Mode

namespace Experiment

variable {F : Mode} {σ χ α : Type}

/-- Without a count, the course of an experiment is its meaning. -/
theorem course_eq_perform (hF : F ≠ .symbolic) (e : Experiment F σ χ α) (state : σ)
    (extras : χ) : e.course state extras = Course.perform (e.denote state extras) := by
  induction e generalizing state extras with
  | certain a =>
      have h := Course.perform_after #[.visit .certain]
        (.ret (F.ret ({ state, extras, value := a } : Run σ χ _)))
      rw [Course.perform_ret hF] at h
      exact h.symm
  | step move =>
      rw [course, denote, Course.perform_after, Course.perform_bind]
      simp only [Course.perform_ret hF]
      rfl
  | act perform => rw [course, denote, Course.perform_after]
  | map source f ih =>
      rw [course, denote, Course.perform_after, ih]
      simp only [Mode.ret_map_eq_andThen hF]
      rw [Course.perform_andThen hF]
      simp only [Course.perform_ret hF]
  | bind source k ihSource ihRest =>
      rw [course, denote, Course.perform_after, Course.perform_andThen hF, ihSource]
      simp only [ihRest]

end Experiment

theorem Stack.course_eq_perform {F : Mode} {σ χ α γ : Type} (hF : F ≠ .symbolic)
    (K : Stack F σ χ α γ) (run : Run σ χ α) : K.course run = Course.perform (K.denote run) := by
  induction K with
  | nil => rw [course, denote, Course.perform_ret hF]
  | map f rest ih => rw [course, denote, ih]
  | bind k rest ih =>
      rw [course, denote, Course.perform_andThen hF, Experiment.course_eq_perform hF]
      congr 1
      funext run
      exact ih run

/-! ## The symbolic mode -/

/-- A run and a meaning that count do what a reckoning says, each with the count of its own. -/
structure Reckoned {α : Type} (t : Traced Note α) (run meaning : Traced Mark (Counted α)) :
    Prop where
  run_eq : Note.total Note.inRun t.log < UInt64.size → run = t.counted Note.inRun
  run_overflows :
    UInt64.size ≤ Note.total Note.inRun t.log → run.result = .error .stepOverflow
  meaning_eq :
    Note.total Note.inMeaning t.log < UInt64.size → meaning = t.counted Note.inMeaning
  /-- Where both counts fit, they are all that run and meaning differ in. -/
  agree : Note.total Note.inRun t.log < UInt64.size →
    Note.total Note.inMeaning t.log < UInt64.size →
    run.log = meaning.log ∧
      run.result.map Counted.value = meaning.result.map Counted.value

theorem Traced.map_value_counted {α : Type} (count : Note → Nat) (t : Traced Note α) :
    (t.counted count).result.map Counted.value = t.result := by
  rcases t with ⟨log, fault | a⟩ <;> rfl

namespace Follows

variable {α : Type} {c : Course .symbolic α} {t : Traced Note α}

theorem finish_eq (h : Follows 0 (c 0) t) (hfit : Note.total Note.inRun t.log < UInt64.size) :
    c.finish 0 = t.counted Note.inRun := by
  have hc := h.fits (by rwa [UInt64.toNat_zero, Nat.zero_add])
  rw [UInt64.toNat_zero, Nat.zero_add] at hc
  rw [Course.finish, Course.into, hc]
  rcases t with ⟨log, fault | a⟩
  · rfl
  · simp [Traced.counted, Traced.after, Traced.ret, Mode.conclude, Except.map]

theorem finish_overflows (h : Follows 0 (c 0) t)
    (hover : UInt64.size ≤ Note.total Note.inRun t.log) :
    (c.finish 0).result = .error .stepOverflow := by
  have hc := h.overflows (by rwa [UInt64.toNat_zero, Nat.zero_add])
  simp [Course.finish, Course.into, Traced.andThen, hc]

/-- What follows a reckoning and what means it agree. -/
theorem reckoned (h : Follows 0 (c 0) t) {meaning : Traced Mark (Counted α)}
    (hmeaning : Means meaning t) : Reckoned t (c.finish 0) meaning where
  run_eq := h.finish_eq
  run_overflows := h.finish_overflows
  meaning_eq := hmeaning
  agree hrun hden := by
    rw [h.finish_eq hrun, hmeaning hden, Traced.map_value_counted, Traced.map_value_counted]
    exact ⟨rfl, rfl⟩

end Follows

/-! ## Adequacy -/

namespace Machine

variable {σ χ α γ : Type}

/-- Evaluating an experiment in front of a stack computes the meaning of the experiment and then
that of the stack. -/
theorem drive_eq_denote {F : Mode} (hF : F ≠ .symbolic) (e : Experiment F σ χ α)
    (K : Stack F σ χ α γ) (state : σ) (extras : χ) (steps : UInt64) :
    drive ⟨.eval e, K⟩ state extras steps =
      (e.denote state extras).andThen fun wrapped => F.andThen wrapped K.denote := by
  have hK : K.course = fun run => Course.perform (K.denote run) :=
    funext (K.course_eq_perform hF)
  rw [drive_eq_course, e.course_eq_perform hF, hK, ← Course.perform_andThen hF,
    Course.perform_finish hF]

/-- With a count, it does what the two reckonings say, one after the other. -/
theorem drive_reckoned (e : Experiment .symbolic σ χ α) (K : Stack .symbolic σ χ α γ) (state : σ)
    (extras : χ) :
    Reckoned ((e.reckon state extras).onward K.reckon) (drive ⟨.eval e, K⟩ state extras 0)
      ((e.denote state extras).andThen fun wrapped =>
        Mode.symbolic.andThen wrapped K.denote) := by
  rw [drive_eq_course]
  exact ((e.course_follows state extras 0).onward K.course_follows).reckoned
    ((e.denote_means state extras).onward K.denote_means)

end Machine

namespace Experiment

theorem run_eq_denote {F : Mode} (hF : F ≠ .symbolic) {σ χ α : Type} (e : Experiment F σ χ α)
    (state : σ) (extras : χ) : e.run state extras = e.denote state extras := by
  rw [run_eq_course, e.course_eq_perform hF, Course.perform_finish hF]

theorem run_reckoned {σ χ α : Type} (e : Experiment .symbolic σ χ α) (state : σ) (extras : χ) :
    Reckoned (e.reckon state extras) (e.run state extras) (e.denote state extras) := by
  rw [run_eq_course]
  exact (e.course_follows state extras 0).reckoned (e.denote_means state extras)

/-- A run computes the meaning of its experiment. More generally, a machine that evaluates an
experiment with continuations pending computes the meaning of the experiment and then that of the
continuations, the topmost first. Without a count the two are the same; with one, they are what
the reckoning comes to in either way of counting. -/
theorem run_matches_denote {σ χ : Type} (state : σ) (extras : χ) :
    (∀ {F : Mode} {α : Type} (e : Experiment F σ χ α), F ≠ .symbolic →
      e.run state extras = e.denote state extras ∧
      ∀ {γ : Type} (K : Stack F σ χ α γ),
        F.iterate Machine.pass ⟨⟨.eval e, K⟩, state, extras⟩ (Machine.handsOn_acc _) =
          (e.denote state extras).andThen fun wrapped => F.andThen wrapped K.denote) ∧
    ∀ {α : Type} (e : Experiment .symbolic σ χ α),
      Reckoned (e.reckon state extras) (e.run state extras) (e.denote state extras) ∧
      ∀ {γ : Type} (K : Stack .symbolic σ χ α γ),
        Reckoned ((e.reckon state extras).onward K.reckon)
          (Mode.symbolic.iterate Machine.pass ⟨⟨.eval e, K⟩, state, extras⟩
            (Machine.handsOn_acc _))
          ((e.denote state extras).andThen fun wrapped =>
            Mode.symbolic.andThen wrapped K.denote) := by
  refine ⟨fun e hF => ⟨?_, fun K => ?_⟩, fun e => ⟨?_, fun K => ?_⟩⟩
  · exact e.run_eq_denote hF state extras
  · exact Machine.drive_eq_denote hF e K state extras 0
  · exact e.run_reckoned state extras
  · exact Machine.drive_reckoned e K state extras

/-- Takes the state itself as its value and makes the state one larger, in a number of steps. -/
def tick (steps : UInt64) : Experiment .symbolic Nat Unit Nat :=
  act fun state extras => .ret ⟨{ state := state + 1, extras, value := state }, steps⟩

/-- Two ticks, of two and of three steps. -/
def twoTicks : Experiment .symbolic Nat Unit Nat :=
  bind (tick 2) fun first => map (tick 3) fun second => first + 10 * second

/-- One more tick, and then a successor. -/
def pendingTick : Stack .symbolic Nat Unit Nat Nat :=
  .bind (fun total => map (tick 4) fun third => total * third) (.map (· + 1) .nil)

/-- Two ticks count seven steps in a run and six in their meaning; with a tick pending, both count
twelve. A tick that fills the counter has a meaning, and its run overflows. Without a count, a
failure skips what is pending. -/
theorem run_matches_denote_ticks :
    twoTicks.run 5 () = ⟨#[.visit .bind, .visit .act, .visit .map, .visit .act],
      .ok ⟨{ state := 7, extras := (), value := 65 }, 7⟩⟩ ∧
    twoTicks.denote 5 () = ⟨#[.visit .bind, .visit .act, .visit .map, .visit .act],
      .ok ⟨{ state := 7, extras := (), value := 65 }, 6⟩⟩ ∧
    (Mode.symbolic.iterate Machine.pass ⟨⟨.eval twoTicks, pendingTick⟩, 5, ()⟩
      (Machine.handsOn_acc _)).result = .ok ⟨{ state := 8, extras := (), value := 456 }, 12⟩ ∧
    ((tick 0xffffffffffffffff).run 0 ()).result = .error .stepOverflow ∧
    ((tick 0xffffffffffffffff).denote 0 ()).result =
      .ok ⟨{ state := 1, extras := (), value := 0 }, 0xffffffffffffffff⟩ ∧
    (Mode.fallible String).iterate Machine.pass
      ⟨⟨.eval (lift (.error "stopped")), .bind (fun n : Nat => .certain (n + 1)) .nil⟩, 5, ()⟩
      (Machine.handsOn_acc _) = ⟨#[.visit .act], .ok (.error "stopped")⟩ := by
  have hne : Mode.fallible String ≠ .symbolic := by simp
  obtain ⟨htwo, hpending⟩ := (run_matches_denote 5 ()).2 twoTicks
  obtain ⟨hfull, -⟩ := (run_matches_denote 0 ()).2 (tick 0xffffffffffffffff)
  refine ⟨?_, ?_, ?_, ?_, ?_, ?_⟩
  · rw [htwo.run_eq (by decide +kernel)]
    cbv
  · rw [htwo.meaning_eq (by decide +kernel)]
    cbv
  · rw [(hpending pendingTick).run_eq (by decide +kernel)]
    cbv
  · exact hfull.run_overflows (by decide +kernel)
  · rfl
  · exact ((run_matches_denote 5 ()).1 (F := .fallible String) (lift (.error "stopped")) hne).2 _

end Experiment

end Aleatory
