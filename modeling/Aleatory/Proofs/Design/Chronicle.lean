import Aleatory.Proofs.Design.Regime
import Aleatory.Proofs.Equivalence.Sampling

/-!
# The chronicle of a design

The chronicle of a design is what its plain experiment does, told by recursion on the design, with
neither a machine nor a mode. It keeps two things besides that a plain run does not show. Its log
says where an effect step fails, and for how many trials the histograms around that step have
still to split (`Happening.failure`). Its account lists the charges of the effect steps, in order
and as natural numbers, so that no charge is lost to an overflow (`Account`).

An effect step of the design itself is charged once, with the steps of its outcome. A histogram is
an effect step too: it is charged with the steps of its trials, each of which is charged inside
of it as an effect step is outside (`Chronicle.collapse`).
-/

namespace Aleatory

/-- What a chronicle notes. -/
inductive Happening (ε : Type) where
  /-- Something that a plain run leaves in its log as well. -/
  | mark (mark : Mark)
  /-- An effect step failed, and the histograms around it have this many trials to split for. -/
  | failure (e : ε) (pending : Nat)
  deriving DecidableEq

/-- The same happening within a histogram with more trials to come. -/
def Happening.within {ε : Type} (trials : Nat) : Happening ε → Happening ε
  | mark m => mark m
  | failure e pending => failure e (pending + trials)

/-- A value, and the steps that each effect step on the way to it counted for. -/
structure Account (α : Type) where
  value : α
  charges : List Nat

/-- The steps of a run with the given account: those of its effect steps, and one more for each. -/
def Account.total {α : Type} (x : Account α) : Nat := (x.charges.map (· + 1)).sum

/-- The account of what follows, behind charges made before. -/
def Account.behind {α : Type} (charges : List Nat) (x : Account α) : Account α :=
  ⟨x.value, charges ++ x.charges⟩

@[simp] theorem Account.total_singleton {α : Type} (a : α) (n : Nat) :
    (⟨a, [n]⟩ : Account α).total = n + 1 := rfl

@[simp] theorem Account.total_behind {α β : Type} (x : Account α) (y : Account β) :
    (y.behind x.charges).total = x.total + y.total := by
  simp [behind, total]

/-- Trials are charged with one step each and with those of their accounts. -/
theorem Account.total_map {α β : Type} (b : β) (accounts : List (Account α)) :
    (⟨b, accounts.map total⟩ : Account β).total = accounts.length + (accounts.map total).sum := by
  rw [total]
  induction accounts with
  | nil => rfl
  | cons x accounts ih =>
      simp only [List.map_cons, List.sum_cons, List.length_cons] at ih ⊢
      omega

theorem exists_of_map_eq_ok {α β : Type} {f : α → β} {result : Except Fault α} {b : β}
    (h : result.map f = .ok b) : ∃ a, result = .ok a ∧ f a = b := by
  cases result with
  | error fault => cases h
  | ok a => exact ⟨a, rfl, Except.ok.inj h⟩

/-- What happens, and the account of the value reached or the fault that ended it. -/
abbrev Chronicle (ε α : Type) : Type := Traced (Happening ε) (Account α)

namespace Chronicle

variable {ε σ α β : Type}

def ret (a : α) : Chronicle ε α := Traced.ret ⟨a, []⟩

/-- A computation that charges nothing. -/
def lift (t : Traced Mark α) : Chronicle ε α := ⟨t.log.map .mark, t.result.map (⟨·, []⟩)⟩

def map (f : α → β) (t : Chronicle ε α) : Chronicle ε β :=
  ⟨t.log, t.result.map fun x => ⟨f x.value, x.charges⟩⟩

/-- Goes on with the value; the charges of what follows stand behind those so far. -/
def bind (t : Chronicle ε α) (k : α → Chronicle ε β) : Chronicle ε β :=
  t.andThen fun x => ⟨(k x.value).log, (k x.value).result.map (.behind x.charges)⟩

/-- An effect step with a given outcome. A failure is noted, and the plain value stands in for
it. -/
def perform (t : Traced Mark (Outcome ε α)) : Chronicle ε α :=
  (t.mapLog .mark).andThen fun o =>
    ⟨(o.failure.map (.failure · 0)).toArray, .ok ⟨o.value, [o.steps.toNat]⟩⟩

/-- The whole chronicle as one effect step. -/
def collapse (t : Chronicle ε α) : Chronicle ε α :=
  ⟨t.log, t.result.map fun x => ⟨x.value, [x.total]⟩⟩

/-- The same chronicle within a histogram with more trials to come. -/
def within (trials : Nat) (t : Chronicle ε α) : Chronicle ε α := t.mapLog (.within trials)

theorem map_eq_bind (f : α → β) (t : Chronicle ε α) : t.map f = t.bind fun a => ret (f a) := by
  obtain ⟨log, fault | x⟩ := t
  · rfl
  · simp [map, bind, ret, Traced.ret, Traced.after, Except.map, Account.behind]

theorem map_id' (t : Chronicle ε α) : t.map (fun a => a) = t := by
  rcases t with ⟨log, fault | x⟩ <;> rfl

theorem map_map {γ : Type} (g : β → γ) (f : α → β) (t : Chronicle ε α) :
    (t.map f).map g = t.map fun a => g (f a) := by
  rcases t with ⟨log, fault | x⟩ <;> rfl

theorem map_bind {γ : Type} (g : β → γ) (t : Chronicle ε α) (k : α → Chronicle ε β) :
    (t.bind k).map g = t.bind fun a => (k a).map g := by
  rcases t with ⟨log, fault | x⟩
  · rfl
  · simp only [bind, map, Traced.mk_ok_andThen, Traced.after]
    cases (k x.value).result <;> rfl

theorem result_map {t : Chronicle ε α} {x : Account α} (h : t.result = .ok x) (f : α → β) :
    (t.map f).result = .ok ⟨f x.value, x.charges⟩ := by
  rw [map, h, Except.map]

theorem result_bind {t : Chronicle ε α} {k : α → Chronicle ε β} {x : Account α} {y : Account β}
    (hx : t.result = .ok x) (hy : (k x.value).result = .ok y) :
    (t.bind k).result = .ok (y.behind x.charges) := by
  simp only [bind, Traced.andThen, hx, hy, Traced.after, Except.map]

theorem result_collapse {t : Chronicle ε α} {x : Account α} (h : t.result = .ok x) :
    t.collapse.result = .ok ⟨x.value, [x.total]⟩ := by
  rw [collapse, h, Except.map]

theorem bind_ok (log : Array (Happening ε)) (x : Account α) (k : α → Chronicle ε β) :
    bind ⟨log, .ok x⟩ k =
      ⟨log ++ (k x.value).log, (k x.value).result.map (.behind x.charges)⟩ := rfl

/-- The values of a number of trials, each of them an effect step; the state is split for each. -/
def trials [Generator σ] (trial : σ → Chronicle ε α) : Nat → σ → Chronicle ε (List α)
  | 0, _ => ret []
  | n + 1, state =>
    (bind ((trial (Generator.split state).2).within n).collapse fun value =>
      map (value :: ·) (trials trial n (Generator.split state).1)).after #[.mark .split]

/-- The charges of trials are the totals of their accounts. -/
theorem result_trials [Generator σ] {trial : σ → Chronicle ε α} {state : σ}
    {accounts : List (Account α)} (h : ∀ i (hi : i < accounts.length),
      (trial (Generator.branch i state)).result = .ok accounts[i]) :
    (trials trial accounts.length state).result =
      .ok ⟨accounts.map Account.value, accounts.map Account.total⟩ := by
  induction accounts generalizing state with
  | nil => rfl
  | cons x accounts ih =>
      have hfirst : (trial (Generator.split state).2).result = .ok x := h 0 (Nat.zero_lt_succ _)
      have hrest := ih fun i hi => h (i + 1) (Nat.succ_lt_succ hi)
      have hwithin : ((trial (Generator.split state).2).within accounts.length).result = .ok x :=
        hfirst
      exact result_bind (k := fun value => map (value :: ·) (trials trial accounts.length
        (Generator.split state).1)) (result_collapse hwithin) (result_map hrest _)

end Chronicle

namespace Design

variable {ε σ χ ρ α : Type} [Elementary ρ] [Generator σ] [EmptyCollection χ]

/-- What the plain experiment of a design does, with its failures and its charges. -/
def chronicle {α : Type} : Design ε σ χ ρ α → σ → χ → Chronicle ε (Run σ χ α)
  | certain value, state, extras =>
    (Chronicle.ret { state, extras, value }).after #[.mark (.visit .certain)]
  | step move, state, extras =>
    (Chronicle.lift (move state extras)).after #[.mark (.visit .step)]
  | act perform, state, extras =>
    (Chronicle.perform (perform state extras)).after #[.mark (.visit .act)]
  | map source f, state, extras =>
    ((source.chronicle state extras).map (Run.map f)).after #[.mark (.visit .map)]
  | bind source k, state, extras =>
    ((source.chronicle state extras).bind fun run =>
      (k run.value).chronicle run.state run.extras).after #[.mark (.visit .bind)]
  | histogram trial space replicates, state, extras =>
    let sampled := Chronicle.trials (fun state => (trial.chronicle state ∅).map Run.value)
      replicates.toNat state
    ((sampled.map (Histogram.tabulate space)).bind fun h =>
      (Chronicle.ret { state := Generator.spine replicates.toNat state, extras, value := h }).after
        ((h.warning replicates).map .mark)).collapse.after #[.mark (.visit .act)]

/-- No step and no effect step of the design faults. -/
def Returns {α : Type} : Design ε σ χ ρ α → Prop
  | certain _ => True
  | step move => ∀ state extras, ∃ run, (move state extras).result = .ok run
  | act perform => ∀ state extras, ∃ outcome, (perform state extras).result = .ok outcome
  | map source _ => source.Returns
  | bind source k => source.Returns ∧ ∀ a, (k a).Returns
  | histogram trial _ _ => trial.Returns

/-- A histogram is charged with one step for each trial and the steps of them all. -/
theorem result_chronicle_histogram [BEq α] {trial : Design ε σ χ ρ α} (space : SampleSpace α ρ)
    {replicates : UInt64} {state : σ} {accounts : List (Account α)}
    (hlength : accounts.length = replicates.toNat) (h : ∀ i (hi : i < accounts.length),
      ((trial.chronicle (Generator.branch i state) ∅).map Run.value).result = .ok accounts[i])
    (extras : χ) :
    ((trial.histogram space replicates).chronicle state extras).result =
      .ok ⟨⟨Generator.spine replicates.toNat state, extras,
          Histogram.tabulate space (accounts.map Account.value)⟩,
        [replicates.toNat + (accounts.map Account.total).sum]⟩ := by
  let drawn (state : σ) : Chronicle ε α := (trial.chronicle state ∅).map Run.value
  have htrials : (Chronicle.trials drawn accounts.length state).result = _ :=
    Chronicle.result_trials h
  rw [hlength] at htrials
  have hwarned := Chronicle.result_bind (k := fun h => (Chronicle.ret (Run.mk
    (Generator.spine replicates.toNat state) extras h)).after ((h.warning replicates).map .mark))
    (Chronicle.result_map htrials (Histogram.tabulate space)) rfl
  refine (Chronicle.result_collapse hwarned).trans ?_
  rw [Account.total_behind, Account.total_map, hlength]
  rfl

/-- If no step faults, the design leads to a value. -/
theorem exists_chronicle (d : Design ε σ χ ρ α) (h : d.Returns) (state : σ) (extras : χ) :
    ∃ x, (d.chronicle state extras).result = .ok x := by
  induction d generalizing state extras with
  | certain value => exact ⟨_, rfl⟩
  | step move =>
      obtain ⟨run, hrun⟩ := h state extras
      exact ⟨⟨run, []⟩, by rw [chronicle, Traced.result_after, Chronicle.lift, hrun, Except.map]⟩
  | act perform =>
      obtain ⟨outcome, houtcome⟩ := h state extras
      refine ⟨⟨outcome.value, [outcome.steps.toNat]⟩, ?_⟩
      simp only [chronicle, Chronicle.perform, Traced.andThen, Traced.mapLog,
        houtcome, Traced.after]
  | map source f ih =>
      obtain ⟨x, hx⟩ := ih h state extras
      exact ⟨_, Chronicle.result_map hx (Run.map f)⟩
  | bind source k ihSource ihRest =>
      obtain ⟨x, hx⟩ := ihSource h.1 state extras
      obtain ⟨y, hy⟩ := ihRest x.value.value (h.2 x.value.value) x.value.state x.value.extras
      exact ⟨_, Chronicle.result_bind hx hy⟩
  | histogram trial space replicates ih =>
      choose account haccount using fun state => ih h state ∅
      let accounts := (List.range replicates.toNat).map fun i =>
        (⟨(account (Generator.branch i state)).value.value,
          (account (Generator.branch i state)).charges⟩ : Account _)
      have haccounts : ∀ i (hi : i < accounts.length),
          ((trial.chronicle (Generator.branch i state) ∅).map Run.value).result =
            .ok accounts[i] := by
        intro i hi
        simp only [accounts, List.getElem_map, List.getElem_range]
        exact Chronicle.result_map (haccount _) Run.value
      exact ⟨_, result_chronicle_histogram space (by simp [accounts]) haccounts extras⟩

end Design

end Aleatory
