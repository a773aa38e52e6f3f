import Aleatory.Proofs.Experiment.Interpretation
import Aleatory.Proofs.Mode.Passes

/-!
# Single iterations of the machine

An iteration (`Machine.turn`) looks at the cursor and leaves the stack as it is, puts a pending
continuation on top of it, or takes one off (`Config.frameMove`). All that later proofs need of it
is in `Machine.turnsTo_turn`. Every iteration moves to a configuration below (`Config.Next`), so the
machine halts after finitely many of them, with what `Machine.settle` gives (`settle_of_passes`).
-/

namespace Aleatory

/-! ## The stack -/

/-- A pending continuation, whatever it takes and makes. -/
inductive Frame (F : Mode) (σ χ : Type) : Type 1 where
  | map {α β : Type} (f : α → β)
  | bind {α β : Type} (k : α → Experiment F σ χ β)

/-- What an iteration does to the stack. -/
inductive FrameMove (F : Mode) (σ χ : Type) : Type 1 where
  | rest
  | push (frame : Frame F σ χ)
  | pop

variable {F : Mode} {σ χ α γ : Type}

def Stack.frames {α γ : Type} : Stack F σ χ α γ → List (Frame F σ χ)
  | .nil => []
  | .map f K => .map f :: K.frames
  | .bind k K => .bind k :: K.frames

def Config.frames (config : Config F σ χ γ) : List (Frame F σ χ) := config.stack.frames

def Config.frameMove : Config F σ χ γ → FrameMove F σ χ
  | ⟨.eval (.map _ f), _⟩ => .push (.map f)
  | ⟨.eval (.bind _ k), _⟩ => .push (.bind k)
  | ⟨.give _, .map _ _⟩ => .pop
  | ⟨.give _, .bind _ _⟩ => .pop
  | _ => .rest

/-- The pending continuations before and after an iteration. -/
inductive FrameMove.Applies :
    FrameMove F σ χ → List (Frame F σ χ) → List (Frame F σ χ) → Prop
  | rest (frames : List (Frame F σ χ)) : Applies .rest frames frames
  | push (frame : Frame F σ χ) (frames : List (Frame F σ χ)) :
      Applies (.push frame) frames (frame :: frames)
  | pop (frame : Frame F σ χ) (frames : List (Frame F σ χ)) :
      Applies .pop (frame :: frames) frames

/-- A move to a configuration below, which changes the stack as it is said to. -/
def Config.MovesTo (config config' : Config F σ χ γ) : Prop :=
  Config.Next config' config ∧ config.frameMove.Applies config.frames config'.frames

/-- Where the machine halts: at an act, or with a value and nothing on the stack. -/
def Halt.At : Halt F σ χ γ → Config F σ χ γ → Prop
  | .acting perform K _ _, config => config = ⟨.eval (.act perform), K⟩
  | .done run, config => config = ⟨.give run.value, .nil⟩

/-! ## Iterations -/

namespace Machine

variable {m m' : Machine F σ χ γ}

/-- One iteration of the machine on its own: another machine, or a halt. -/
def turn (m : Machine F σ χ γ) :
    Traced Mark (Mode.identity.Result (Pass (Machine F σ χ γ) (Halt F σ χ γ))) :=
  match m.config with
  | ⟨.eval (.certain a), K⟩ => ⟨#[.visit .certain], .ok (.again ⟨⟨.give a, K⟩, m.state, m.extras⟩)⟩
  | ⟨.eval (.step move), K⟩ =>
    ((move m.state m.extras).andThen fun run =>
      .ret (.again ⟨⟨.give run.value, K⟩, run.state, run.extras⟩)).after #[.visit .step]
  | ⟨.eval (.act perform), K⟩ => ⟨#[.visit .act], .ok (.stop (.acting perform K m.state m.extras))⟩
  | ⟨.eval (.map source f), K⟩ =>
    ⟨#[.visit .map], .ok (.again ⟨⟨.eval source, .map f K⟩, m.state, m.extras⟩)⟩
  | ⟨.eval (.bind source k), K⟩ =>
    ⟨#[.visit .bind], .ok (.again ⟨⟨.eval source, .bind k K⟩, m.state, m.extras⟩)⟩
  | ⟨.give a, .nil⟩ => .ret (.stop (.done ⟨m.state, m.extras, a⟩))
  | ⟨.give a, .map f K⟩ => .ret (.again ⟨⟨.give (f a), K⟩, m.state, m.extras⟩)
  | ⟨.give a, .bind k K⟩ => .ret (.again ⟨⟨.eval (k a), K⟩, m.state, m.extras⟩)

theorem turn_step (move : σ → χ → Traced Mark (Run σ χ α)) (K : Stack F σ χ α γ) (state : σ)
    (extras : χ) :
    turn ⟨⟨.eval (.step move), K⟩, state, extras⟩ =
      ((move state extras).andThen fun run =>
        .ret (.again ⟨⟨.give run.value, K⟩, run.state, run.extras⟩)).after #[.visit .step] := rfl

/-- What is known of a machine from the result of its iteration: another machine lies below it and
has the stack that the iteration leaves, and a halt shows where the machine stands. -/
def TurnsTo (m : Machine F σ χ γ) :
    Except Fault (Mode.identity.Result (Pass (Machine F σ χ γ) (Halt F σ χ γ))) → Prop
  | .error _ => m.config.frameMove = .rest
  | .ok (.again m') => m.config.MovesTo m'.config
  | .ok (.stop halt) => halt.At m.config

theorem turnsTo_turn (m : Machine F σ χ γ) : m.TurnsTo m.turn.result := by
  obtain ⟨⟨cursor, K⟩, state, extras⟩ := m
  cases cursor with
  | eval e =>
      cases e with
      | certain a => exact ⟨.certain a K, .rest _⟩
      | step move =>
          rw [turn_step]
          rcases move state extras with ⟨entries, fault | run⟩
          · rfl
          · exact ⟨.step move run.value K, .rest _⟩
      | act perform => rfl
      | map source f => exact ⟨.map source f K, .push _ _⟩
      | bind source k => exact ⟨.bind source k K, .push _ _⟩
  | give a =>
      cases K with
      | nil => rfl
      | map f K => exact ⟨.popMap a f K, .pop _ _⟩
      | bind k K => exact ⟨.popBind a k K, .pop _ _⟩

theorem turnsTo_of_result
    {r : Except Fault (Mode.identity.Result (Pass (Machine F σ χ γ) (Halt F σ χ γ)))}
    (h : m.turn.result = r) : m.TurnsTo r := by
  rw [← h]
  exact turnsTo_turn m

theorem config_of_acting {perform : σ → χ → Traced Mark (F.Result (Run σ χ α))}
    {K : Stack F σ χ α γ} {state : σ} {extras : χ}
    (h : m.turn.result = .ok (.stop (.acting perform K state extras))) :
    m.config = ⟨.eval (.act perform), K⟩ := turnsTo_of_result h

/-- The machine runs on its own by making iterations until it halts. -/
theorem settle_eq_turn (m : Machine F σ χ γ) :
    settle #[] m.config m.state m.extras = m.turn.andThen fun
      | .again m => settle #[] m.config m.state m.extras
      | .stop halt => .ret halt := by
  -- `settle` carries its log along; `settle_eq_after` puts it in front of what the rest logs.
  obtain ⟨⟨cursor, K⟩, state, extras⟩ := m
  cases cursor with
  | eval e =>
      cases e with
      | certain a =>
          rw [settle, settle_eq_after]
          rfl
      | step move =>
          rw [settle]
          rcases h : move state extras with ⟨entries, fault | run⟩
          · simp [turn_step, h, Traced.after]
          · simp only [turn_step, h, Traced.mk_ok_andThen]
            rw [settle_eq_after]
            simp [Traced.ret, Traced.after]
      | act perform =>
          rw [settle]
          simp [turn, Traced.ret, Traced.after]
      | map source f =>
          rw [settle, settle_eq_after]
          rfl
      | bind source k =>
          rw [settle, settle_eq_after]
          rfl
  | give a =>
      cases K with
      | nil =>
          rw [settle]
          rfl
      | map f K =>
          rw [settle]
          exact (Traced.ret_andThen _ _).symm
      | bind k K =>
          rw [settle]
          exact (Traced.ret_andThen _ _).symm

theorem eq_again_of_next? {r : Mode.identity.Result (Pass (Machine F σ χ γ) (Halt F σ χ γ))}
    (h : Mode.identity.next? r = some m') : r = .again m' := by
  cases r with
  | again m =>
      cases h
      rfl
  | stop halt => cases h

theorem turn_handsOn_acc (m : Machine F σ χ γ) : Acc (Mode.identity.HandsOn turn) m := by
  have hbelow : Subrelation (Mode.identity.HandsOn (@turn F σ χ γ))
      (InvImage Config.Next Machine.config) := by
    rintro m' m ⟨r, h, hnext⟩
    rw [eq_again_of_next? hnext] at h
    exact (turnsTo_of_result h).1
  exact hbelow.accessible (InvImage.accessible _ (Config.next_wellFounded.apply m.config))

theorem settle_of_passes {ms : List (Machine F σ χ γ)}
    {out : Except Fault (Mode.identity.Result (Halt F σ χ γ))}
    (h : Mode.identity.Passes turn m ms out) :
    settle #[] m.config m.state m.extras = ⟨Mode.logOf turn (m :: ms), out⟩ := by
  induction h with
  | fault h =>
      rw [settle_eq_turn, Traced.eq_mk_of_result h, Mode.logOf_singleton]
      rfl
  | stop h =>
      rw [settle_eq_turn, Traced.eq_mk_of_result h, Mode.logOf_singleton]
      simp [Mode.map, Traced.ret, Traced.after]
  | again h hnext _ ih =>
      rw [eq_again_of_next? hnext] at h
      rw [settle_eq_turn, Traced.eq_mk_of_result h, Mode.logOf_cons, Traced.mk_ok_andThen]
      exact congrArg (Traced.after _) ih

end Machine

end Aleatory
