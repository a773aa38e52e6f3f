import Aleatory.Proofs.Experiment.Turn
import Mathlib.Data.List.Chain

/-!
# The iterations of a run

A `Journey` lists the machines at which the iterations of a whole run begin, through acts and past
them. Each iteration leads to a configuration below, an act no less than the others, so every
machine has a journey (`Machine.exists_journey`), and the loop of the mode ends with what the
journey ends with.

A `Ledger` numbers the continuations as they are put on the stack and enters those that are taken
off. It balances throughout a journey: no continuation is taken off twice, and at the end of a run
that neither fails nor faults all of them have been taken off (`Machine.journey_ends`).
-/

namespace Aleatory

variable {F : Mode} {σ χ α γ : Type}

namespace Machine

variable {m m' : Machine F σ χ γ}

/-! ## Journeys -/

/-- The machines at which the iterations of a run begin, after a number of steps already made, and
what the run ends with. -/
inductive Journey : Machine F σ χ γ → UInt64 → List (Machine F σ χ γ) →
    Except Fault (Except F.Failure (Counted (Run σ χ γ))) → Prop
  | fault {m : Machine F σ χ γ} {steps : UInt64} {fault : Fault}
      (h : m.turn.result = .error fault) : Journey m steps [m] (.error fault)
  | done {m : Machine F σ χ γ} {steps : UInt64} {run : Run σ χ γ}
      (h : m.turn.result = .ok (.stop (.done run))) : Journey m steps [m] (.ok (.ok ⟨run, steps⟩))
  | again {m m' : Machine F σ χ γ} {steps : UInt64} {ms : List (Machine F σ χ γ)}
      {out : Except Fault (Except F.Failure (Counted (Run σ χ γ)))}
      (h : m.turn.result = .ok (.again m')) (later : Journey m' steps ms out) :
      Journey m steps (m :: ms) out
  | actFault {m : Machine F σ χ γ} {steps : UInt64} {α : Type}
      {perform : σ → χ → Traced Mark (F.Result (Run σ χ α))} {K : Stack F σ χ α γ} {state : σ}
      {extras : χ} {fault : Fault}
      (h : m.turn.result = .ok (.stop (.acting perform K state extras)))
      (hact : (Course.perform (perform state extras) steps).result = .error fault) :
      Journey m steps [m] (.error fault)
  | actFailure {m : Machine F σ χ γ} {steps : UInt64} {α : Type}
      {perform : σ → χ → Traced Mark (F.Result (Run σ χ α))} {K : Stack F σ χ α γ} {state : σ}
      {extras : χ} {e : F.Failure}
      (h : m.turn.result = .ok (.stop (.acting perform K state extras)))
      (hact : (Course.perform (perform state extras) steps).result = .ok (.error e)) :
      Journey m steps [m] (.ok (.error e))
  | act {m : Machine F σ χ γ} {steps : UInt64} {α : Type}
      {perform : σ → χ → Traced Mark (F.Result (Run σ χ α))} {K : Stack F σ χ α γ} {state : σ}
      {extras : χ} {t : Counted (Run σ χ α)} {ms : List (Machine F σ χ γ)}
      {out : Except Fault (Except F.Failure (Counted (Run σ χ γ)))}
      (h : m.turn.result = .ok (.stop (.acting perform K state extras)))
      (hact : (Course.perform (perform state extras) steps).result = .ok (.ok t))
      (later : Journey ⟨⟨.give t.value.value, K⟩, t.value.state, t.value.extras⟩ t.steps ms out) :
      Journey m steps (m :: ms) out

variable {steps : UInt64} {ms : List (Machine F σ χ γ)}
  {out : Except Fault (Except F.Failure (Counted (Run σ χ γ)))}

/-- Every machine has a journey: its iterations, and those after an act, begin below it. -/
theorem exists_journey (m : Machine F σ χ γ) (steps : UInt64) :
    ∃ ms out, Journey m steps ms out := by
  obtain ⟨config, state, extras⟩ := m
  -- Neither the experiment nor the stack need shrink: the induction is on both together, and the
  -- value of an act is given to a configuration below the act.
  induction config using Config.next_wellFounded.induction generalizing state extras steps with
  | _ config ih =>
      rcases h : (turn ⟨config, state, extras⟩).result with fault | m' | halt
      · exact ⟨_, _, .fault h⟩
      · obtain ⟨ms, out, later⟩ :=
          ih m'.config (turnsTo_of_result h).1 steps m'.state m'.extras
        exact ⟨_, out, .again h later⟩
      · cases halt with
        | done run => exact ⟨_, _, .done h⟩
        | acting perform K state' extras' =>
            rcases hact : (Course.perform (perform state' extras') steps).result with fault | e | t
            · exact ⟨_, _, .actFault h hact⟩
            · exact ⟨_, _, .actFailure h hact⟩
            · have hnext : Config.Next ⟨.give t.value.value, K⟩ config := by
                rw [show config = _ from config_of_acting h]
                exact .act perform _ K
              obtain ⟨ms, out, later⟩ := ih _ hnext t.steps t.value.state t.value.extras
              exact ⟨_, out, .act h hact later⟩

theorem Journey.head?_eq (h : Journey m steps ms out) : ms.head? = some m := by
  cases h <;> rfl

/-- Each iteration of a journey begins at a machine below the one before. -/
theorem Journey.isChain (h : Journey m steps ms out) :
    ms.IsChain fun m m' => m.config.MovesTo m'.config := by
  induction h with
  | fault h => exact .singleton _
  | done h => exact .singleton _
  | again h later ih =>
      refine ih.cons fun m'' hm => ?_
      cases later.head?_eq.symm.trans hm
      exact turnsTo_of_result h
  | actFault h hact => exact .singleton _
  | actFailure h hact => exact .singleton _
  | act h hact later ih =>
      refine ih.cons fun m'' hm => ?_
      cases later.head?_eq.symm.trans hm
      rw [config_of_acting h]
      exact ⟨.act _ _ _, .rest _⟩

theorem drive_eq_turn (m : Machine F σ χ γ) (steps : UInt64) :
    drive m.config m.state m.extras steps = m.turn.andThen fun
      | .again m => drive m.config m.state m.extras steps
      | .stop halt => proceed steps halt := by
  rw [drive_eq, settle_eq_turn, Traced.andThen_andThen]
  congr 1
  funext p
  cases p with
  | again m => exact (drive_eq _ _ _ _).symm
  | stop halt => exact Traced.ret_andThen _ _

/-- The loop of the mode ends with what the journey ends with. -/
theorem Journey.result_drive (h : Journey m steps ms out) :
    (drive m.config m.state m.extras steps).result = out.map F.conclude := by
  induction h with
  | fault h =>
      rw [drive_eq_turn, Traced.eq_mk_of_result h]
      rfl
  | done h =>
      rw [drive_eq_turn, Traced.eq_mk_of_result h]
      rfl
  | again h _ ih =>
      rw [drive_eq_turn, Traced.eq_mk_of_result h]
      exact ih
  | actFault h hact =>
      rw [drive_eq_turn, Traced.eq_mk_of_result h]
      simp only [Traced.mk_ok_andThen, Traced.result_after, proceed, Course.into]
      rw [Traced.eq_mk_of_result hact]
      rfl
  | actFailure h hact =>
      rw [drive_eq_turn, Traced.eq_mk_of_result h]
      simp only [Traced.mk_ok_andThen, Traced.result_after, proceed, Course.into]
      rw [Traced.eq_mk_of_result hact]
      rfl
  | act h hact _ ih =>
      rw [drive_eq_turn, Traced.eq_mk_of_result h]
      simp only [Traced.mk_ok_andThen, Traced.result_after, proceed, Course.into]
      rw [Traced.eq_mk_of_result hact]
      exact ih

end Machine

/-! ## The books of a run -/

/-- The pending continuations of a run, numbered as they are put on the stack: those on the stack,
the topmost first, all that were ever put there, and all that were taken off, the oldest first. -/
structure Ledger (F : Mode) (σ χ : Type) : Type 1 where
  held : List (Nat × Frame F σ χ)
  pushed : List (Nat × Frame F σ χ)
  popped : List (Nat × Frame F σ χ)

namespace Ledger

/-- Continuations that are on the stack at first count as put there. -/
def opening (frames : List (Frame F σ χ)) : Ledger F σ χ where
  held := (List.range frames.length).zip frames
  pushed := (List.range frames.length).zip frames
  popped := []

def record (ledger : Ledger F σ χ) : FrameMove F σ χ → Ledger F σ χ
  | .rest => ledger
  | .push frame =>
    { ledger with
      held := (ledger.pushed.length, frame) :: ledger.held
      pushed := ledger.pushed ++ [(ledger.pushed.length, frame)] }
  | .pop =>
    match ledger.held with
    | [] => ledger
    | entry :: held => { ledger with held, popped := ledger.popped ++ [entry] }

/-- The ledger of some machines, each of which makes an iteration. -/
def recordAll (ledger : Ledger F σ χ) (ms : List (Machine F σ χ γ)) : Ledger F σ χ :=
  ms.foldl (fun ledger m => ledger.record m.config.frameMove) ledger

/-- A ledger that agrees with the stack. What was put there has numbers of its own, and was either
taken off or is still there. -/
structure Balances (ledger : Ledger F σ χ) (frames : List (Frame F σ χ)) : Prop where
  held_frames : ledger.held.map Prod.snd = frames
  pushed_numbers : ledger.pushed.map Prod.fst = List.range ledger.pushed.length
  entries : (ledger.popped ++ ledger.held).Perm ledger.pushed

theorem opening_balances (frames : List (Frame F σ χ)) : (opening frames).Balances frames where
  held_frames := List.map_snd_zip (by simp)
  pushed_numbers := by
    simp [opening, List.map_fst_zip]
  entries := .refl _

theorem Balances.record {ledger : Ledger F σ χ} {frames frames' : List (Frame F σ χ)}
    {move : FrameMove F σ χ} (h : ledger.Balances frames) (hmove : move.Applies frames frames') :
    (ledger.record move).Balances frames' := by
  obtain ⟨hheld, hnumbers, hentries⟩ := h
  cases hmove with
  | rest => exact ⟨hheld, hnumbers, hentries⟩
  | push frame =>
      refine ⟨congrArg (frame :: ·) hheld, ?_, ?_⟩
      · simp [Ledger.record, hnumbers, List.range_succ]
      · refine List.perm_middle.trans ?_
        exact (hentries.cons _).trans (List.perm_append_singleton _ _).symm
  | pop frame =>
      obtain ⟨held, pushed, popped⟩ := ledger
      cases held with
      | nil => cases hheld
      | cons entry held =>
          refine ⟨(List.cons.inj hheld).2, hnumbers, ?_⟩
          simpa [Ledger.record] using hentries

/-- With nothing left on the stack, all that was put there has been taken off. -/
theorem Balances.closed {ledger : Ledger F σ χ} (h : ledger.Balances []) :
    ledger.held = [] ∧ ledger.popped.Perm ledger.pushed := by
  have hheld := List.map_eq_nil_iff.mp h.held_frames
  have hentries := h.entries
  rw [hheld, List.append_nil] at hentries
  exact ⟨hheld, hentries⟩

end Ledger

namespace Machine

variable {m : Machine F σ χ γ} {steps : UInt64} {ms : List (Machine F σ χ γ)}
  {out : Except Fault (Except F.Failure (Counted (Run σ χ γ)))} {ledger : Ledger F σ χ}

theorem recordAll_of_rest (hledger : ledger.Balances m.config.frames)
    (hrest : m.config.frameMove = .rest) : (ledger.recordAll [m]).Balances m.config.frames := by
  show (ledger.record m.config.frameMove).Balances _
  rw [hrest]
  exact hledger

/-- The books balance throughout a journey, and a run that neither fails nor faults leaves nothing
on the stack. -/
theorem Journey.balances (h : Journey m steps ms out) (hledger : ledger.Balances m.config.frames) :
    ∃ last, ms.getLast? = some last ∧ (ledger.recordAll ms).Balances last.config.frames ∧
      ∀ t, out = .ok (.ok t) → last.config.frames = [] := by
  induction h generalizing ledger with
  | fault h =>
      exact ⟨_, rfl, recordAll_of_rest hledger (turnsTo_of_result h), nofun⟩
  | @done m steps run h =>
      have hconfig : m.config = ⟨.give run.value, .nil⟩ := turnsTo_of_result h
      exact ⟨m, rfl, recordAll_of_rest hledger (by rw [hconfig]; rfl),
        fun _ _ => by rw [hconfig]; rfl⟩
  | again h later ih =>
      obtain ⟨last, hlast, hbalances, hempty⟩ := ih (hledger.record (turnsTo_of_result h).2)
      exact ⟨last, by rw [List.getLast?_cons, hlast]; rfl, hbalances, hempty⟩
  | actFault h hact =>
      exact ⟨_, rfl, recordAll_of_rest hledger (by rw [config_of_acting h]; rfl), nofun⟩
  | actFailure h hact =>
      exact ⟨_, rfl, recordAll_of_rest hledger (by rw [config_of_acting h]; rfl), nofun⟩
  | @act m steps α perform K state extras t ms out h hact later ih =>
      have hconfig := config_of_acting h
      have hrecord := recordAll_of_rest hledger (by rw [hconfig]; rfl)
      rw [hconfig] at hrecord
      obtain ⟨last, hlast, hbalances, hempty⟩ := ih hrecord
      exact ⟨last, by rw [List.getLast?_cons, hlast]; rfl, hbalances, hempty⟩

end Machine

/-! ## Runs that do not fault -/

/-- The steps and the acts of an experiment return, from every state and all extras. -/
def Experiment.Reliable {α : Type} : Experiment F σ χ α → Prop
  | .certain _ => True
  | .step move => ∀ state extras, ∃ run, (move state extras).result = .ok run
  | .act perform => ∀ state extras, ∃ wrapped, (perform state extras).result = .ok wrapped
  | .map source _ => source.Reliable
  | .bind source k => source.Reliable ∧ ∀ a, (k a).Reliable

def Stack.Reliable {α γ : Type} : Stack F σ χ α γ → Prop
  | .nil => True
  | .map _ K => K.Reliable
  | .bind k K => (∀ a, (k a).Reliable) ∧ K.Reliable

def Config.Reliable : Config F σ χ γ → Prop
  | ⟨.eval e, K⟩ => e.Reliable ∧ K.Reliable
  | ⟨.give _, K⟩ => K.Reliable

theorem Mode.charge_error {β : Type} {steps : UInt64} {wrapped : F.Result β} {fault : Fault}
    (h : F.charge steps wrapped = .error fault) : F = .symbolic ∧ fault = .stepOverflow := by
  cases F with
  | identity => cases h
  | fallible ε => cases wrapped <;> cases h
  | symbolic =>
      refine ⟨rfl, ?_⟩
      by_cases hfit : steps.toNat + wrapped.steps.toNat + 1 < UInt64.size
      · simp only [Mode.charge, sequenceSteps_of_lt hfit] at h
        cases h
      · simp only [Mode.charge, sequenceSteps_of_le (Nat.le_of_not_lt hfit)] at h
        cases h
        rfl

namespace Machine

variable {m : Machine F σ χ γ} {steps : UInt64} {ms : List (Machine F σ χ γ)}
  {out : Except Fault (Except F.Failure (Counted (Run σ χ γ)))}

theorem turn_of_reliable (hm : m.config.Reliable) :
    ∃ p, m.turn.result = .ok p ∧ ∀ m', p = .again m' → m'.config.Reliable := by
  obtain ⟨⟨cursor, K⟩, state, extras⟩ := m
  cases cursor with
  | eval e =>
      cases e with
      | certain a => exact ⟨_, rfl, by rintro _ ⟨⟩; exact hm.2⟩
      | step move =>
          obtain ⟨run, hrun⟩ := hm.1 state extras
          refine ⟨.again ⟨⟨.give run.value, K⟩, run.state, run.extras⟩, ?_,
            by rintro _ ⟨⟩; exact hm.2⟩
          rw [turn_step, Traced.eq_mk_of_result hrun]
          rfl
      | act perform => exact ⟨_, rfl, by rintro _ ⟨⟩⟩
      | map source f => exact ⟨_, rfl, by rintro _ ⟨⟩; exact hm⟩
      | bind source k => exact ⟨_, rfl, by rintro _ ⟨⟩; exact ⟨hm.1.1, hm.1.2, hm.2⟩⟩
  | give a =>
      cases K with
      | nil => exact ⟨_, rfl, by rintro _ ⟨⟩⟩
      | map f K => exact ⟨_, rfl, by rintro _ ⟨⟩; exact hm⟩
      | bind k K => exact ⟨_, rfl, by rintro _ ⟨⟩; exact ⟨hm.1 a, hm.2⟩⟩

/-- If the steps return, the machine halts by itself, at an act or with a value and nothing on the
stack. -/
theorem passes_halt {out : Except Fault (Mode.identity.Result (Halt F σ χ γ))}
    (h : Mode.identity.Passes turn m ms out) (hm : m.config.Reliable) :
    ∃ (halt : Halt F σ χ γ) (last : Machine F σ χ γ),
      out = .ok halt ∧ (m :: ms).getLast? = some last ∧ halt.At last.config := by
  induction h with
  | fault h =>
      obtain ⟨p, hp, -⟩ := turn_of_reliable hm
      cases h.symm.trans hp
  | stop h =>
      exact ⟨_, _, rfl, rfl, turnsTo_of_result h⟩
  | again h hnext _ ih =>
      obtain ⟨p, hp, hreliable⟩ := turn_of_reliable hm
      cases h.symm.trans hp
      obtain ⟨halt, last, hout, hlast, hat⟩ := ih (hreliable _ (eq_again_of_next? hnext))
      exact ⟨halt, last, hout, by rw [List.getLast?_cons_cons, hlast], hat⟩

/-- If the steps and acts return, only a symbolic run may end without a result, when its steps do
not fit. -/
theorem Journey.outcome (h : Journey m steps ms out) (hm : m.config.Reliable) :
    (∃ r, out = .ok r) ∨ (F = .symbolic ∧ out = .error .stepOverflow) := by
  induction h with
  | fault h =>
      obtain ⟨p, hp, -⟩ := turn_of_reliable hm
      cases h.symm.trans hp
  | done h => exact .inl ⟨_, rfl⟩
  | again h _ ih =>
      obtain ⟨p, hp, hreliable⟩ := turn_of_reliable hm
      cases h.symm.trans hp
      exact ih (hreliable _ rfl)
  | @actFault m steps α perform K state extras fault h hact =>
      rw [config_of_acting h] at hm
      obtain ⟨wrapped, hwrapped⟩ := hm.1 state extras
      rw [Course.perform, Traced.eq_mk_of_result hwrapped] at hact
      obtain ⟨hF, rfl⟩ := Mode.charge_error hact
      exact .inr ⟨hF, rfl⟩
  | actFailure h hact => exact .inl ⟨_, rfl⟩
  | @act m steps α perform K state extras t ms out h hact later ih =>
      rw [config_of_acting h] at hm
      exact ih hm.2

/-- Every machine comes to its end. It makes finitely many iterations before it halts, at an act or
with a value and nothing on the stack; the loop that resumes it after acts makes finitely many
passes; and the whole run is a finite journey from each machine to one below it, whose outcome is
that of the loop. The books of the run balance: what is on the stack at the last iteration is what
was put there and not taken off, and if the run ends with a value the stack is empty and all that
was ever put there was taken off once. If the steps and acts return, the run ends with a value or,
in a mode that has failures, with the first of them, unless the steps of a symbolic run do not
fit. -/
theorem journey_ends (m : Machine F σ χ γ) :
    (∃ ms out, Mode.identity.Passes turn m ms out ∧
      settle #[] m.config m.state m.extras = ⟨Mode.logOf turn (m :: ms), out⟩ ∧
      (m.config.Reliable → ∃ (halt : Halt F σ χ γ) (last : Machine F σ χ γ),
        out = .ok halt ∧ (m :: ms).getLast? = some last ∧ halt.At last.config)) ∧
    (∃ ms out, F.Passes pass m ms out) ∧
    ∃ ms out last ledger, Journey m 0 ms out ∧
      (F.iterate pass m (handsOn_acc m)).result = out.map F.conclude ∧
      ms.IsChain (fun m m' => m.config.MovesTo m'.config) ∧ ms.getLast? = some last ∧
      ledger = (Ledger.opening m.config.frames).recordAll ms ∧
      ledger.Balances last.config.frames ∧
      (∀ t, out = .ok (.ok t) → last.config.frames = [] ∧
        ledger.held = [] ∧ ledger.popped.Perm ledger.pushed) ∧
      (m.config.Reliable → (∃ r, out = .ok r) ∨ (F = .symbolic ∧ out = .error .stepOverflow)) := by
  refine ⟨?_, Mode.exists_passes (handsOn_acc m), ?_⟩
  · obtain ⟨ms, out, h⟩ := Mode.exists_passes (turn_handsOn_acc m)
    exact ⟨ms, out, h, settle_of_passes h, passes_halt h⟩
  · obtain ⟨ms, out, h⟩ := exists_journey m 0
    obtain ⟨last, hlast, hbalances, hempty⟩ := h.balances (Ledger.opening_balances m.config.frames)
    refine ⟨ms, out, last, _, h, h.result_drive, h.isChain, hlast, rfl, hbalances, fun t ht => ?_,
      h.outcome⟩
    have hnone := hempty t ht
    rw [hnone] at hbalances
    exact ⟨hnone, hbalances.closed⟩

/-- A draw that puts two continuations on the stack, and takes the second off to reach an act. -/
theorem journey_ends_double :
    let m : Machine (.fallible String) Unit Unit Nat :=
      ⟨⟨.eval (.bind (.map (.certain 1) (· + 1)) fun n => .lift (.ok (n * 2))), .nil⟩, (), ()⟩
    m.config.Reliable ∧ ∃ ms t last, Journey m 0 ms (.ok (.ok t)) ∧ t.value.value = 4 ∧
      ms.getLast? = some last ∧ last.config.frames = [] ∧
      ((Ledger.opening []).recordAll ms).popped.Perm ((Ledger.opening []).recordAll ms).pushed := by
  intro m
  have hreliable : m.config.Reliable := ⟨⟨trivial, fun n state extras => ⟨_, rfl⟩⟩, trivial⟩
  obtain ⟨-, -, ms, out, last, _, hjourney, hresult, -, hlast, rfl, -, hclosed, houtcome⟩ :=
    journey_ends m
  have hvalue : (Mode.iterate (.fallible String) pass m (handsOn_acc m)).result =
      .ok (.ok ⟨(), (), 4⟩) :=
    congrArg Traced.result (@Experiment.run_eq_course (.fallible String) Unit Unit Nat
      (.bind (.map (.certain 1) (· + 1)) fun n => .lift (.ok (n * 2))) () ())
  obtain ⟨e | t, rfl⟩ := (houtcome hreliable).resolve_right nofun
  · cases hvalue.symm.trans hresult
  · obtain ⟨hempty, -, hperm⟩ := hclosed t rfl
    have ht : ⟨(), (), 4⟩ = t.value :=
      Except.ok.inj (Except.ok.inj (hvalue.symm.trans hresult))
    exact ⟨hreliable, ms, t, last, hjourney, by rw [← ht], hlast, hempty, hperm⟩

end Machine

end Aleatory
