import Aleatory.Proofs.Experiment.Interpretation

/-!
# Laws of composition

Experiments that are composed in different ways are different descriptions, and their runs visit
different vertices. All else is the same: what a run ends with, the count of effect steps and a
fault included, and what its steps and acts leave in the log. So the laws of a monad hold for runs
up to the visits to vertices that only compose (`Experiment.RunsAlike`).

The mode's own two ways of going on do not obey these laws, since going on costs a step in the
symbolic mode and mapping does not. A run obeys them because it charges acts alone. The proof
erases the visits that only compose from a course (`Course.deeds`); what is left is composed by
`Course.andThen` just as the experiment is, and courses obey the laws.
-/

namespace Aleatory

/-- Whether a mark was left by a step or an act, and not by a vertex that only composes. -/
def Mark.isDeed : Mark → Bool
  | .visit .certain | .visit .map | .visit .bind => false
  | _ => true

namespace Traced

variable {α β : Type}

/-- The same computation, with only the deeds in its log. -/
def deeds (t : Traced Mark α) : Traced Mark α := ⟨t.log.filter Mark.isDeed, t.result⟩

@[simp] theorem deeds_ret (a : α) : (ret a : Traced Mark α).deeds = ret a := rfl

theorem deeds_after (l : Array Mark) (t : Traced Mark α) :
    (t.after l).deeds = t.deeds.after (l.filter Mark.isDeed) := by
  simp [deeds, after]

theorem deeds_andThen (t : Traced Mark α) (k : α → Traced Mark β) :
    (t.andThen k).deeds = t.deeds.andThen fun a => (k a).deeds := by
  rcases t with ⟨log, fault | a⟩
  · rfl
  · exact deeds_after log (k a)

end Traced

namespace Course

variable {F : Mode} {α β : Type}

/-- The same course, with only the deeds in its log. -/
def deeds (c : Course F α) : Course F α := fun steps => (c steps).deeds

@[simp] theorem deeds_ret (a : α) : (ret a : Course F α).deeds = ret a := rfl

/-- Visits that only compose leave no deeds. -/
theorem deeds_after_of_filter {l : Array Mark} (h : l.filter Mark.isDeed = #[])
    (c : Course F α) : (c.after l).deeds = c.deeds := by
  funext steps
  simp only [deeds, after, Traced.deeds_after, h, Traced.after_empty]

theorem deeds_andThen (c : Course F α) (k : α → Course F β) :
    (c.andThen k).deeds = c.deeds.andThen fun a => (k a).deeds := by
  funext steps
  simp only [deeds, andThen, Traced.deeds_andThen]
  congr 1
  funext r
  cases r <;> rfl

theorem deeds_finish (c : Course F α) (steps : UInt64) :
    (c.finish steps).deeds = c.deeds.finish steps := by
  simp only [deeds, finish, into, Traced.deeds_andThen]
  congr 1
  funext r
  cases r <;> rfl

end Course

namespace Experiment

variable {F : Mode} {σ χ α β γ : Type}

/-- The course of an experiment, with only the deeds in its log. -/
def deeds (e : Experiment F σ χ α) (state : σ) (extras : χ) : Course F (Run σ χ α) :=
  (e.course state extras).deeds

theorem deeds_certain (a : α) (state : σ) (extras : χ) :
    (certain a : Experiment F σ χ α).deeds state extras = .ret { state, extras, value := a } :=
  Course.deeds_after_of_filter rfl _

theorem deeds_map (source : Experiment F σ χ α) (f : α → β) (state : σ) (extras : χ) :
    (map source f).deeds state extras =
      (source.deeds state extras).andThen fun run => .ret (run.map f) := by
  rw [deeds, course, Course.deeds_after_of_filter rfl, Course.deeds_andThen]
  rfl

theorem deeds_bind (source : Experiment F σ χ α) (k : α → Experiment F σ χ β) (state : σ)
    (extras : χ) :
    (bind source k).deeds state extras =
      (source.deeds state extras).andThen fun run =>
        (k run.value).deeds run.state run.extras := by
  rw [deeds, course, Course.deeds_after_of_filter rfl, Course.deeds_andThen]
  rfl

/-! ## The laws, as equations between deeds -/

theorem certain_bind_deeds (a : α) (f : α → Experiment F σ χ β) :
    (bind (certain a) f).deeds = (f a).deeds := by
  funext state extras
  rw [deeds_bind, deeds_certain, Course.ret_andThen]

theorem bind_certain_deeds (m : Experiment F σ χ α) : (bind m certain).deeds = m.deeds := by
  funext state extras
  simp only [deeds_bind, deeds_certain]
  exact Course.andThen_ret _

theorem bind_bind_deeds (m : Experiment F σ χ α) (f : α → Experiment F σ χ β)
    (g : β → Experiment F σ χ γ) :
    (bind (bind m f) g).deeds = (bind m fun a => bind (f a) g).deeds := by
  funext state extras
  simp only [deeds_bind, Course.andThen_andThen]

theorem map_deeds (m : Experiment F σ χ α) (h : α → β) :
    (map m h).deeds = (bind m fun a => certain (h a)).deeds := by
  funext state extras
  simp only [deeds_map, deeds_bind, deeds_certain]
  rfl

theorem map_map_deeds (m : Experiment F σ χ α) (h : α → β) (h' : β → γ) :
    (map (map m h) h').deeds = (map m fun a => h' (h a)).deeds := by
  funext state extras
  simp only [deeds_map, Course.andThen_andThen, Course.ret_andThen]
  rfl

/-! ## Chains -/

/-- What a number of passes through `f` lead to from a value, each pass put behind all those
before it. -/
def leftNested (f : α → Experiment F σ χ α) (init : α) : Nat → Experiment F σ χ α
  | 0 => certain init
  | n + 1 => bind (leftNested f init n) f

/-- What a number of passes through `f` lead to from a value, all later passes put behind the
first one. -/
def rightNested (f : α → Experiment F σ χ α) : Nat → α → Experiment F σ χ α
  | 0, value => certain value
  | n + 1, value => bind (f value) (rightNested f n)

/-- Passes nested to the left and then passes nested to the right are all of them nested to the
right. -/
theorem leftNested_bind_rightNested_deeds (f : α → Experiment F σ χ α) (init : α) (n k : Nat) :
    (bind (leftNested f init n) (rightNested f k)).deeds = (rightNested f (n + k) init).deeds := by
  -- Each step moves one pass from the left chain to the right one, so `k` varies.
  induction n generalizing k with
  | zero => rw [leftNested, certain_bind_deeds, Nat.zero_add]
  | succ n ih =>
      calc (bind (bind (leftNested f init n) f) (rightNested f k)).deeds
          = (bind (leftNested f init n) (rightNested f (k + 1))).deeds := bind_bind_deeds _ _ _
        _ = (rightNested f (n + (k + 1)) init).deeds := ih (k + 1)
        _ = (rightNested f (n + 1 + k) init).deeds := by rw [Nat.add_right_comm, Nat.add_assoc]

theorem leftNested_deeds (f : α → Experiment F σ χ α) (init : α) (n : Nat) :
    (leftNested f init n).deeds = (rightNested f n init).deeds := by
  have hcertain : (rightNested f 0 : α → Experiment F σ χ α) = certain := rfl
  have h := leftNested_bind_rightNested_deeds f init n 0
  rwa [hcertain, bind_certain_deeds] at h

/-! ## Runs -/

/-- From every state and extras, two experiments run to the same result with the same deeds. -/
def RunsAlike (e e' : Experiment F σ χ α) : Prop :=
  ∀ state extras, (e.run state extras).result = (e'.run state extras).result ∧
    (e.run state extras).log.filter Mark.isDeed = (e'.run state extras).log.filter Mark.isDeed

theorem runsAlike_of_deeds {e e' : Experiment F σ χ α} (h : e.deeds = e'.deeds) :
    RunsAlike e e' := by
  intro state extras
  have hrun : (e.run state extras).deeds = (e'.run state extras).deeds := by
    rw [run_eq_course, run_eq_course, Course.deeds_finish, Course.deeds_finish]
    exact congrArg (fun c : σ → χ → Course F (Run σ χ α) => (c state extras).finish 0) h
  have hresult := congrArg Traced.result hrun
  have hlog := congrArg Traced.log hrun
  exact ⟨hresult, hlog⟩

/-- In every mode, runs obey the laws of a monad, and a chain of passes may be nested either
way. -/
theorem composition_laws (F : Mode) {σ χ : Type} :
    (∀ {α β : Type} (a : α) (f : α → Experiment F σ χ β),
      RunsAlike (bind (certain a) f) (f a)) ∧
    (∀ {α : Type} (m : Experiment F σ χ α), RunsAlike (bind m certain) m) ∧
    (∀ {α β γ : Type} (m : Experiment F σ χ α) (f : α → Experiment F σ χ β)
      (g : β → Experiment F σ χ γ),
      RunsAlike (bind (bind m f) g) (bind m fun a => bind (f a) g)) ∧
    (∀ {α β : Type} (m : Experiment F σ χ α) (h : α → β),
      RunsAlike (map m h) (bind m fun a => certain (h a))) ∧
    (∀ {α β γ : Type} (m : Experiment F σ χ α) (h : α → β) (h' : β → γ),
      RunsAlike (map (map m h) h') (map m fun a => h' (h a))) ∧
    ∀ {α : Type} (f : α → Experiment F σ χ α) (init : α) (n : Nat),
      RunsAlike (leftNested f init n) (rightNested f n init) := by
  refine ⟨?_, ?_, ?_, ?_, ?_, ?_⟩
  · exact fun a f => runsAlike_of_deeds (certain_bind_deeds a f)
  · exact fun m => runsAlike_of_deeds (bind_certain_deeds m)
  · exact fun m f g => runsAlike_of_deeds (bind_bind_deeds m f g)
  · exact fun m h => runsAlike_of_deeds (map_deeds m h)
  · exact fun m h h' => runsAlike_of_deeds (map_map_deeds m h h')
  · exact fun f init n => runsAlike_of_deeds (leftNested_deeds f init n)

end Experiment

end Aleatory
