import Aleatory.Proofs.Experiment.Course
import Mathlib.Algebra.GroupWithZero.Nat

/-!
# Exact reckonings

A run and a meaning in the mode that counts keep different counts, and both are kept in 64 bits. A
reckoning keeps neither. It notes what either of them would count (`Note`), next to the marks that
both of them log, by recursion on the experiment (`Experiment.reckon`). The steps that a run and a
meaning come to are then two sums of natural numbers over the same notes: a run counts an act with
its steps and one more (`Note.inRun`), a meaning counts an act with its steps, and one for each
`bind` (`Note.inMeaning`).

The course of an experiment is its reckoning with the sum in 64 bits; it overflows just if the sum
does not fit (`Experiment.course_follows`). So is its meaning, as long as the other sum fits
(`Experiment.denote_means`).
-/

namespace Aleatory

universe u v

/-- What a reckoning notes. -/
inductive Note where
  /-- Something that is logged. -/
  | mark (mark : Mark)
  /-- An act was performed that counts for this many steps. -/
  | act (steps : Nat)
  /-- What a value was gone on to has come to its end. -/
  | onward

namespace Note

/-- What a note stands for in a log. -/
def mark? : Note → Option Mark
  | mark m => some m
  | act _ => none
  | onward => none

/-- The marks among notes. -/
def marks (notes : Array Note) : Array Mark := notes.filterMap mark?

/-- What a run counts for a note. -/
def inRun : Note → Nat
  | mark _ => 0
  | act steps => steps + 1
  | onward => 0

/-- What a meaning counts for a note. -/
def inMeaning : Note → Nat
  | mark _ => 0
  | act steps => steps
  | onward => 1

/-- The sum of what is counted for notes. -/
def total (count : Note → Nat) (notes : Array Note) : Nat := (notes.toList.map count).sum

@[simp] theorem marks_append (notes notes' : Array Note) :
    marks (notes ++ notes') = marks notes ++ marks notes' := by
  simp [marks]

@[simp] theorem marks_map_mark (ms : Array Mark) : marks (ms.map mark) = ms := by
  rw [marks, Array.filterMap_map]
  exact Array.filterMap_some

@[simp] theorem marks_push_act (notes : Array Note) (steps : Nat) :
    marks (notes.push (act steps)) = marks notes := by
  have hnone : marks #[act steps] = #[] := rfl
  rw [← Array.append_singleton, marks_append, hnone, Array.append_empty]

@[simp] theorem marks_push_onward (notes : Array Note) :
    marks (notes.push onward) = marks notes := by
  have hnone : marks #[onward] = #[] := rfl
  rw [← Array.append_singleton, marks_append, hnone, Array.append_empty]

@[simp] theorem total_empty (count : Note → Nat) : total count #[] = 0 := rfl

@[simp] theorem total_append (count : Note → Nat) (notes notes' : Array Note) :
    total count (notes ++ notes') = total count notes + total count notes' := by
  simp [total]

@[simp] theorem total_push (count : Note → Nat) (notes : Array Note) (note : Note) :
    total count (notes.push note) = total count notes + count note := by
  simp [total]

theorem total_after_mark {α : Type u} (count : Note → Nat) (hmark : ∀ m, count (mark m) = 0)
    (t : Traced Note α) (m : Mark) :
    total count (t.after #[mark m]).log = total count t.log := by
  simp [total, hmark]

theorem total_map_mark {count : Note → Nat} (hmark : ∀ m, count (mark m) = 0) (ms : Array Mark) :
    total count (ms.map mark) = 0 := by
  simp [total, Function.comp_def, hmark, List.map_const']

end Note

namespace Traced

variable {α : Type u} {β : Type v}

/-- An act that is noted with its steps. -/
def noteAct (t : Traced Mark (Counted α)) : Traced Note α :=
  (t.mapLog .mark).andThen fun w => ⟨#[.act w.steps.toNat], .ok w.value⟩

/-- Goes on with the value, and notes that at the end. -/
def onward (t : Traced Note α) (k : α → Traced Note β) : Traced Note β :=
  t.andThen fun a => (k a).andThen fun b => ⟨#[.onward], .ok b⟩

/-- What is logged and returned with a count of what was noted. -/
def counted (count : Note → Nat) (t : Traced Note α) : Traced Mark (Counted α) :=
  ⟨Note.marks t.log, t.result.map fun a => ⟨a, .ofNat (Note.total count t.log)⟩⟩

end Traced

/-- What an experiment does, with notes of all that is counted. -/
def Experiment.reckon {σ χ α : Type} :
    Experiment .symbolic σ χ α → σ → χ → Traced Note (Run σ χ α)
  | certain value, state, extras =>
    ⟨#[.mark (.visit .certain)], .ok { state, extras, value }⟩
  | step move, state, extras => ((move state extras).mapLog .mark).after #[.mark (.visit .step)]
  | act perform, state, extras => (perform state extras).noteAct.after #[.mark (.visit .act)]
  | map source f, state, extras =>
    ((source.reckon state extras).andThen fun run => .ret (run.map f)).after #[.mark (.visit .map)]
  | bind source k, state, extras =>
    ((source.reckon state extras).onward fun run =>
      (k run.value).reckon run.state run.extras).after #[.mark (.visit .bind)]

namespace Stack

variable {F : Mode} {σ χ α γ : Type}

/-- The meaning of the pending continuations, the topmost first. -/
def denote {α γ : Type} : Stack F σ χ α γ → Run σ χ α → Traced Mark (F.Result (Run σ χ γ))
  | .nil, run => .ret (F.ret run)
  | .map f K, run => K.denote (run.map f)
  | .bind k K, run =>
    ((k run.value).denote run.state run.extras).andThen fun wrapped => F.andThen wrapped K.denote

/-- What the pending continuations do, with notes of all that is counted. -/
def reckon {α γ : Type} : Stack .symbolic σ χ α γ → Run σ χ α → Traced Note (Run σ χ γ)
  | .nil, run => .ret run
  | .map f K, run => K.reckon (run.map f)
  | .bind k K, run => ((k run.value).reckon run.state run.extras).onward K.reckon

end Stack

/-! ## Courses -/

/-- After a number of steps, a course does what a reckoning says as long as the sum fits, and
overflows if it does not. -/
structure Follows {α : Type} (steps : UInt64) (v : Traced Mark (Except Empty (Counted α)))
    (t : Traced Note α) : Prop where
  fits : steps.toNat + Note.total Note.inRun t.log < UInt64.size →
    v = ⟨Note.marks t.log, t.result.map fun a =>
      .ok ⟨a, .ofNat (steps.toNat + Note.total Note.inRun t.log)⟩⟩
  overflows : UInt64.size ≤ steps.toNat + Note.total Note.inRun t.log →
    v.result = .error .stepOverflow

namespace Follows

variable {α β : Type} {steps : UInt64} {v : Traced Mark (Except Empty (Counted α))}
  {t : Traced Note α}

/-- Where nothing is counted, nothing overflows. -/
theorem of_free (hfree : Note.total Note.inRun t.log = 0)
    (hv : v = ⟨Note.marks t.log, t.result.map fun a => .ok ⟨a, steps⟩⟩) : Follows steps v t where
  fits _ := by rw [hv, hfree, Nat.add_zero, UInt64.ofNat_toNat]
  overflows hover := by
    rw [hfree, Nat.add_zero] at hover
    exact absurd steps.toNat_lt (Nat.not_lt.mpr hover)

theorem ret (steps : UInt64) (a : α) :
    Follows steps (Course.ret (F := .symbolic) a steps) (.ret a) :=
  of_free rfl rfl

theorem lift (steps : UInt64) (t : Traced Mark α) :
    Follows steps (Course.lift (F := .symbolic) t steps) (t.mapLog .mark) := by
  refine of_free (Note.total_map_mark (fun _ => rfl) t.log) ?_
  rcases t with ⟨log, fault | a⟩ <;>
    simp [Course.lift, Traced.mapLog, Traced.ret, Traced.after, Except.map]

theorem perform (steps : UInt64) (t : Traced Mark (Counted α)) :
    Follows steps (Course.perform (F := .symbolic) t steps) t.noteAct := by
  have hfree (log : Array Mark) : Note.total Note.inRun (log.map .mark) = 0 :=
    Note.total_map_mark (fun _ => rfl) log
  rcases t with ⟨log, fault | w⟩
  · refine of_free (hfree log) ?_
    simp [Course.perform, Traced.noteAct, Traced.mapLog, Except.map]
  · have hsum : Note.total Note.inRun (Traced.noteAct ⟨log, .ok w⟩).log = w.steps.toNat + 1 := by
      simp [Traced.noteAct, Traced.mapLog, Traced.after, hfree, Note.inRun]
    constructor
    · intro hfit
      rw [hsum, ← Nat.add_assoc] at hfit
      have hcount : steps + w.steps + 1 = .ofNat (steps.toNat + (w.steps.toNat + 1)) := by
        rw [← Nat.add_assoc, ← toNat_sequenceSteps hfit, UInt64.ofNat_toNat]
      rw [hsum, ← hcount]
      simp [Course.perform, Mode.charge, sequenceSteps_of_lt hfit, Traced.ofExcept, Traced.noteAct,
        Traced.mapLog, Traced.after, Except.map]
    · intro hover
      rw [hsum, ← Nat.add_assoc] at hover
      simp [Course.perform, Mode.charge, sequenceSteps_of_le hover, Traced.ofExcept]

theorem after_mark (h : Follows steps v t) (m : Mark) :
    Follows steps (v.after #[m]) (t.after #[.mark m]) := by
  have hsum := Note.total_after_mark Note.inRun (fun _ => rfl) t m
  constructor
  · intro hfit
    rw [hsum] at hfit ⊢
    rw [h.fits hfit]
    simp [Traced.after, Note.marks, Note.mark?]
  · intro hover
    rw [hsum] at hover
    exact h.overflows hover

theorem andThen {c : Course .symbolic α} (h : Follows steps (c steps) t)
    {k : α → Course .symbolic β} {l : α → Traced Note β}
    (hk : ∀ a sum, Follows sum (k a sum) (l a)) :
    Follows steps (c.andThen k steps) (t.andThen l) := by
  rw [Course.andThen]
  rcases t with ⟨log, fault | a⟩
  · constructor
    · intro hfit
      rw [h.fits hfit]
      rfl
    · intro hover
      simp [Traced.andThen, h.overflows hover]
  · have hsum : Note.total Note.inRun ((l a).after log).log =
        Note.total Note.inRun log + Note.total Note.inRun (l a).log := by
      rw [Traced.log_after, Note.total_append]
    rw [Traced.mk_ok_andThen]
    by_cases hfirst : steps.toNat + Note.total Note.inRun log < UInt64.size
    · -- What follows goes on from the sum so far.
      have hcount := UInt64.toNat_ofNat_of_lt' hfirst
      have hnext := hk a (.ofNat (steps.toNat + Note.total Note.inRun log))
      rw [h.fits hfirst]
      simp only [Except.map, Traced.mk_ok_andThen]
      constructor
      · intro hfit
        rw [hsum, ← Nat.add_assoc] at hfit ⊢
        rw [hnext.fits (by rwa [hcount]), hcount]
        simp [Traced.after]
      · intro hover
        rw [hsum, ← Nat.add_assoc] at hover
        exact hnext.overflows (by rwa [hcount])
    · have hover := h.overflows (Nat.le_of_not_lt hfirst)
      constructor
      · intro hfit
        rw [hsum] at hfit
        exact absurd (by omega) hfirst
      · intro _
        simp [Traced.andThen, hover]

/-- A note that a value was gone on from is nothing to a run. -/
theorem note_onward (h : Follows steps v t) :
    Follows steps v (t.andThen fun a => ⟨#[.onward], .ok a⟩) := by
  rcases t with ⟨log, fault | a⟩
  · exact h
  · have hsum : Note.total Note.inRun (log ++ #[.onward]) = Note.total Note.inRun log := by
      simp [Note.inRun]
    constructor
    · intro hfit
      simp only [Traced.mk_ok_andThen, Traced.after, hsum] at hfit ⊢
      rw [h.fits hfit]
      simp
    · intro hover
      simp only [Traced.mk_ok_andThen, Traced.after, hsum] at hover
      exact h.overflows hover

theorem onward {c : Course .symbolic α} (h : Follows steps (c steps) t)
    {k : α → Course .symbolic β} {l : α → Traced Note β}
    (hk : ∀ a sum, Follows sum (k a sum) (l a)) :
    Follows steps (c.andThen k steps) (t.onward l) :=
  h.andThen fun a sum => (hk a sum).note_onward

end Follows

/-- The course of an experiment is its reckoning, counted as a run counts. -/
theorem Experiment.course_follows {σ χ α : Type} (e : Experiment .symbolic σ χ α) (state : σ)
    (extras : χ) (steps : UInt64) :
    Follows steps (e.course state extras steps) (e.reckon state extras) := by
  induction e generalizing state extras steps with
  | certain a => exact (Follows.ret steps _).after_mark _
  | step move => exact (Follows.lift steps _).after_mark _
  | act perform => exact (Follows.perform steps _).after_mark _
  | map source f ih =>
      exact ((ih state extras steps).andThen fun run sum => .ret sum (run.map f)).after_mark _
  | bind source k ihSource ihRest =>
      exact ((ihSource state extras steps).onward fun run sum =>
        ihRest run.value run.state run.extras sum).after_mark _

theorem Stack.course_follows {σ χ α γ : Type} (K : Stack .symbolic σ χ α γ) (run : Run σ χ α)
    (steps : UInt64) : Follows steps (K.course run steps) (K.reckon run) := by
  induction K generalizing steps with
  | nil => exact .ret steps run
  | map f rest ih => exact ih (run.map f) steps
  | bind k rest ih =>
      exact (Experiment.course_follows _ _ _ steps).onward fun run sum => ih run sum

/-! ## Meanings -/

/-- As long as its sum fits, a meaning is a reckoning that is counted as meanings are. -/
def Means {α : Type} (u : Traced Mark (Counted α)) (t : Traced Note α) : Prop :=
  Note.total Note.inMeaning t.log < UInt64.size → u = t.counted Note.inMeaning

namespace Means

variable {α β : Type} {u : Traced Mark (Counted α)} {t : Traced Note α}

theorem ret (a : α) : Means (.ret (Mode.symbolic.ret a)) (.ret a) := fun _ => rfl

theorem lift (t : Traced Mark α) :
    Means (t.andThen fun a => .ret (Mode.symbolic.ret a)) (t.mapLog .mark) := by
  intro _
  have hfree : Note.total Note.inMeaning (t.log.map .mark) = 0 :=
    Note.total_map_mark (fun _ => rfl) t.log
  rcases t with ⟨log, fault | a⟩
  · simp [Traced.counted, Traced.mapLog, Except.map]
  · simp [Traced.counted, Traced.mapLog, Traced.ret, Traced.after, Mode.ret, Except.map, hfree]

theorem perform (u : Traced Mark (Counted α)) : Means u u.noteAct := by
  intro _
  have hfree : Note.total Note.inMeaning (u.log.map .mark) = 0 :=
    Note.total_map_mark (fun _ => rfl) u.log
  rcases u with ⟨log, fault | w⟩
  · simp [Traced.counted, Traced.noteAct, Traced.mapLog, Except.map]
  · simp [Traced.counted, Traced.noteAct, Traced.mapLog, Traced.after, Except.map, hfree,
      Note.inMeaning]

theorem after_mark (h : Means u t) (m : Mark) : Means (u.after #[m]) (t.after #[.mark m]) := by
  have hsum := Note.total_after_mark Note.inMeaning (fun _ => rfl) t m
  intro hfit
  rw [hsum] at hfit
  rw [h hfit, Traced.counted, Traced.counted, hsum]
  simp [Traced.after, Note.marks, Note.mark?]

theorem map (h : Means u t) (f : α → β) :
    Means (u.andThen fun w => .ret (Mode.symbolic.map f w)) (t.andThen fun a => .ret (f a)) := by
  intro hfit
  rcases t with ⟨log, fault | a⟩
  · rw [h hfit]
    rfl
  · simp only [Traced.mk_ok_andThen, Traced.after, Traced.ret, Array.append_empty] at hfit ⊢
    rw [h hfit]
    simp [Traced.counted, Traced.after, Mode.map, Except.map]

theorem onward (h : Means u t) {k : α → Traced Mark (Counted β)} {l : α → Traced Note β}
    (hk : ∀ a, Means (k a) (l a)) :
    Means (u.andThen fun w => Mode.symbolic.andThen w k) (t.onward l) := by
  intro hfit
  rcases t with ⟨log, fault | a⟩
  · rw [h hfit]
    rfl
  · have hnext := hk a
    simp only [Traced.onward, Traced.mk_ok_andThen] at hfit ⊢
    rcases hl : l a with ⟨log', fault | b⟩
    · rw [hl] at hnext hfit
      simp only [Traced.mk_error_andThen, Traced.log_after, Note.total_append] at hfit
      have hfirst : Note.total Note.inMeaning log < UInt64.size := by omega
      have hsecond : Note.total Note.inMeaning log' < UInt64.size := by omega
      rw [h hfirst]
      simp [Traced.counted, Mode.andThen, hnext hsecond, Traced.after, Except.map]
    · rw [hl] at hnext hfit
      simp only [Traced.mk_ok_andThen, Traced.log_after, Note.total_append] at hfit
      have honward : Note.total Note.inMeaning #[.onward] = 1 := rfl
      rw [honward, ← Nat.add_assoc] at hfit
      have hfirst : Note.total Note.inMeaning log < UInt64.size := by omega
      have hsecond : Note.total Note.inMeaning log' < UInt64.size := by omega
      rw [← UInt64.toNat_ofNat_of_lt' hfirst, ← UInt64.toNat_ofNat_of_lt' hsecond] at hfit
      have hsteps := sequenceSteps_of_lt hfit
      rw [h hfirst]
      simp [Traced.counted, Mode.andThen, hnext hsecond, Counted.following, hsteps,
        Traced.ofExcept, Traced.after, Except.map, Note.inMeaning, UInt64.add_assoc]

end Means

/-- The meaning of an experiment is its reckoning, counted as meanings are. -/
theorem Experiment.denote_means {σ χ α : Type} (e : Experiment .symbolic σ χ α) (state : σ)
    (extras : χ) : Means (e.denote state extras) (e.reckon state extras) := by
  induction e generalizing state extras with
  | certain a => exact (Means.ret _).after_mark _
  | step move => exact (Means.lift _).after_mark _
  | act perform => exact (Means.perform _).after_mark _
  | map source f ih => exact ((ih state extras).map (Run.map f)).after_mark _
  | bind source k ihSource ihRest =>
      exact ((ihSource state extras).onward fun run =>
        ihRest run.value run.state run.extras).after_mark _

theorem Stack.denote_means {σ χ α γ : Type} (K : Stack .symbolic σ χ α γ) (run : Run σ χ α) :
    Means (K.denote run) (K.reckon run) := by
  induction K with
  | nil => exact .ret run
  | map f rest ih => exact ih (run.map f)
  | bind k rest ih => exact (Experiment.denote_means _ _ _).onward ih

end Aleatory
