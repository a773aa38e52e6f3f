import Aleatory.Experiment.Machine

/-!
# Runs and samples

`Experiment.run` hands the machine to the loop of the mode.  The loop ends from every machine
(`Machine.handsOn_acc`): an act hands on to a machine whose configuration lies strictly below.
-/

namespace Aleatory

open Relation (TransGen)

namespace Mode

/-- A wrapped pass that always asks for another one hands on one of the values it may ask for. -/
theorem exists_of_next?_map_again {F : Mode} {α β : Type} {μ : Type 1} {g : α → μ}
    {wrapped : F.Result α} {m : μ}
    (h : F.next? (F.map (fun a => (Pass.again (g a) : Pass μ β)) wrapped) = some m) :
    ∃ a, m = g a := by
  cases F with
  | identity => exact ⟨wrapped, (Option.some.inj h).symm⟩
  | fallible ε =>
    cases wrapped with
    | error e => cases h
    | ok a => exact ⟨a, (Option.some.inj h).symm⟩
  | symbolic => exact ⟨wrapped.value, (Option.some.inj h).symm⟩

theorem next?_ret_stop (F : Mode) {α : Type 1} {β : Type} (b : β) :
    F.next? (F.ret (Pass.stop b : Pass α β)) = none := by
  cases F <;> rfl

end Mode

namespace Machine

variable {F : Mode} {σ χ γ : Type}

/-- Whatever value the act yields, the machine goes on below the configuration it settled from. -/
theorem transGen_of_settle_acting {log : Array Mark} {config : Config F σ χ γ} {state : σ}
    {extras : χ} {α : Type} {perform : σ → χ → Traced Mark (F.Result (Run σ χ α))}
    {K : Stack F σ χ α γ} {state' : σ} {extras' : χ}
    (h : (settle log config state extras).result = .ok (.acting perform K state' extras')) (a : α) :
    TransGen Config.Next (⟨.give a, K⟩ : Config F σ χ γ) config := by
  fun_induction settle log config state extras with
  | case1 log state extras α b K ih => exact (ih h).tail (.certain b K)
  | case2 log state extras α move K entries fault hmove => cases h
  | case3 log state extras α move K entries run hmove ih =>
    exact (ih h).tail (.step move run.value K)
  | case4 log state extras α perform K =>
    cases h
    exact .single (.act perform a K)
  | case5 log state extras α β source f K ih => exact (ih h).tail (.map source f K)
  | case6 log state extras α β source k K ih => exact (ih h).tail (.bind source k K)
  | case7 log state extras b => cases h
  | case8 log state extras α b β f K ih => exact (ih h).tail (.popMap b f K)
  | case9 log state extras α b β k K ih => exact (ih h).tail (.popBind b k K)

/-- A pass hands on to a machine below. -/
theorem transGen_of_handsOn {m' m : Machine F σ χ γ} (h : F.HandsOn pass m' m) :
    TransGen Config.Next m'.config m.config := by
  obtain ⟨r, hr, hnext⟩ := h
  unfold pass at hr
  cases hs : (settle #[] m.config m.state m.extras).result with
  | error fault => simp [Traced.andThen, hs] at hr
  | ok halt =>
    simp only [Traced.andThen, hs, Traced.after] at hr
    cases halt with
    | done run =>
      cases hr
      rw [Mode.next?_ret_stop] at hnext
      cases hnext
    | acting perform K state extras =>
      cases hp : (perform state extras).result with
      | error fault => simp [resume, Traced.andThen, hp] at hr
      | ok wrapped =>
        simp only [resume, Traced.andThen, hp, Traced.after] at hr
        cases hr
        obtain ⟨run, rfl⟩ := Mode.exists_of_next?_map_again hnext
        exact transGen_of_settle_acting hs run.value

/-- The loop of the mode ends from every machine. -/
theorem handsOn_acc (m : Machine F σ χ γ) : Acc (F.HandsOn pass) m :=
  Subrelation.accessible transGen_of_handsOn
    (InvImage.accessible config (Config.next_wellFounded.transGen.apply m.config))

end Machine

namespace Experiment

variable {F : Mode} {σ χ α : Type}

/-- Runs an experiment from a state and extras. -/
def run (e : Experiment F σ χ α) (state : σ) (extras : χ) : Traced Mark (F.Result (Run σ χ α)) :=
  F.iterate Machine.pass ⟨⟨.eval e, .nil⟩, state, extras⟩ (Machine.handsOn_acc _)

/-- Runs an experiment from a state and empty extras, and keeps only the value. -/
def sample [EmptyCollection χ] (e : Experiment F σ χ α) (state : σ) : Traced Mark (F.Result α) :=
  (e.run state ∅).andThen fun wrapped => .ret (F.map Run.value wrapped)

end Experiment

end Aleatory
