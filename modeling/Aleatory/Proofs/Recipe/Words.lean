import Aleatory.Proofs.Experiment.Interpretation
import Aleatory.Proofs.Mode.Wrapping
import Aleatory.Proofs.Recipe.Reading

/-!
# Draws are linear in the words

A run of a recipe takes the first words of its state, in order and each of them once, ends in the
state behind them, and splits nothing. What it leads to is what the recipe reads off these words,
so two states that begin with the same words lead to the same extras and the same value, whatever
their types are (`Recipe.draws_linear`).

The proof follows the course of the recipe's experiment. `Upshot.Told` says what is left of an
upshot in a computation from a state, and is kept by going on (`Course.Tells.andThen`).
-/

namespace Aleatory

open Generator

theorem Draws.bind_eq {σ α β : Type} [Generator σ] {first : Draws σ α} {k : α → Draws σ β}
    {state : σ} {n m : ℕ} {a : α} {b : β}
    (hfirst : first state = ⟨.replicate n .draw, .ok (a, advance n state)⟩)
    (hrest : k a (advance n state) =
      ⟨.replicate m .draw, .ok (b, advance m (advance n state))⟩) :
    (first >>= k) state = ⟨.replicate (n + m) .draw, .ok (b, advance (n + m) state)⟩ := by
  show (first state).andThen (fun x => k x.1 x.2) = _
  rw [hfirst, Traced.mk_ok_andThen, hrest, Traced.after, advance_add,
    Array.replicate_append_replicate]

/-- The bytes that a stream of words begins with. -/
def leadingBytes (count : ℕ) (s : Stream' UInt64) : List UInt8 :=
  ((s.take ((count + 7) / 8)).flatMap wordBytes).take count

theorem leadingBytes_of_pos {count : ℕ} (hpos : count ≠ 0) (s : Stream' UInt64) :
    leadingBytes count s = (wordBytes s.head).take count ++ leadingBytes (count - 8) s.tail := by
  have hwords : (count + 7) / 8 = (count - 8 + 7) / 8 + 1 := by omega
  rw [leadingBytes, hwords, Stream'.take_succ, List.flatMap_cons, List.take_append,
    length_wordBytes, leadingBytes]

namespace Draws

variable {σ : Type} [Generator σ]

theorem fillOnto_eq (log : Array Mark) (written : Array UInt8) (count : ℕ) (state : σ) :
    fillOnto log written count state = ⟨log ++ .replicate ((count + 7) / 8) .draw,
      .ok (written.toList ++ leadingBytes count (words state),
        advance ((count + 7) / 8) state)⟩ := by
  fun_induction fillOnto log written count state with
  | case1 => simp [leadingBytes, advance]
  | case2 log written count state hpos bits next hword ih =>
      have hwords : (count + 7) / 8 = 1 + (count - 8 + 7) / 8 := by omega
      have hhead : (words state).head = bits := congrArg Prod.fst hword
      have hnext : (Generator.word state).2 = next := congrArg Prod.snd hword
      have htail : (words state).tail = words next := hnext ▸ drop_words 1 state
      rw [ih, leadingBytes_of_pos hpos, hhead, htail, hwords, advance_add, advance, advance,
        hnext, ← Array.replicate_append_replicate]
      simp

/-- The bytes begin the words of the state, and the state moves on by whole words. -/
theorem bytes_eq (count : ℕ) (state : σ) :
    bytes count state = ⟨.replicate ((count + 7) / 8) .draw,
      .ok (leadingBytes count (words state), advance ((count + 7) / 8) state)⟩ := by
  rw [bytes, fillOnto_eq]
  simp

end Draws

/-- The calls take the words that they read, and nothing else. -/
theorem Calls.draws_eq {σ α : Type} [Generator σ] (program : Calls α) (state : σ) :
    program.draws state =
      ⟨.replicate (program.read (words state)).1 .draw,
        .ok ((program.read (words state)).2, advance (program.read (words state)).1 state)⟩ := by
  induction program generalizing state with
  | done value => rfl
  | word k ih =>
      rw [draws, read]
      exact Draws.bind_eq (n := 1) rfl (ih _ _)
  | half k ih =>
      rw [draws, read]
      exact Draws.bind_eq (n := 1) rfl (ih _ _)
  | bytes count k ih =>
      rw [draws, read, drop_words]
      exact Draws.bind_eq (Draws.bytes_eq count state) (ih _ _)

/-- A computation, with steps made before it, comes to an upshot: it takes words from the state,
splits nothing, and ends with the upshot behind these words, unless the steps do not fit in the
count. -/
inductive Upshot.Told {F : Mode} {σ χ α : Type} [Generator σ] (R : Upshot χ α) (state : σ)
    (steps : UInt64) : Traced Mark (Except F.Failure (Counted (Run σ χ α))) → Prop where
  | ended {log : Array Mark} {sum : UInt64} (hsum : sum.toNat = steps.toNat + R.steps)
      (hdraws : log.count .draw = R.words) (hsplits : log.count .split = 0) :
      R.Told state steps ⟨log, .ok (.ok ⟨⟨advance R.words state, R.extras, R.value⟩, sum⟩)⟩
  | overflowed {log : Array Mark} (hover : UInt64.size ≤ steps.toNat + R.steps)
      (hdraws : log.count .draw ≤ R.words) (hsplits : log.count .split = 0) :
      R.Told state steps ⟨log, .error .stepOverflow⟩

/-- A course comes to an upshot, however many steps were made before it. -/
def Course.Tells {F : Mode} {σ χ α : Type} [Generator σ] (c : Course F (Run σ χ α))
    (R : Upshot χ α) (state : σ) : Prop :=
  ∀ steps, R.Told state steps (c steps)

namespace Course.Tells

variable {F : Mode} {σ χ α β : Type} [Generator σ] {c : Course F (Run σ χ α)} {R : Upshot χ α}
  {state : σ}

/-- A visit takes no word and splits nothing. -/
theorem visit (h : c.Tells R state) (vertex : Vertex) :
    (c.after #[.visit vertex]).Tells R state := by
  intro steps
  have ht := h steps
  show R.Told state steps ((c steps).after #[.visit vertex])
  generalize c steps = t at ht ⊢
  cases ht with
  | ended hsum hdraws hsplits => exact .ended hsum (by simpa using hdraws) (by simpa using hsplits)
  | overflowed hover hdraws hsplits =>
      exact .overflowed hover (by simpa using hdraws) (by simpa using hsplits)

/-- A step that takes words and counts nothing. -/
theorem lift {n : ℕ} {extras : χ} {value : α} {t : Traced Mark (Run σ χ α)}
    (ht : t = ⟨.replicate n .draw, .ok ⟨advance n state, extras, value⟩⟩) :
    (Course.lift t : Course F (Run σ χ α)).Tells ⟨n, 0, extras, value⟩ state := by
  intro steps
  rw [Course.lift, ht, Traced.mk_ok_andThen]
  exact .ended rfl (by simp [Traced.ret]) (by simp [Traced.ret, Array.count_replicate])

theorem ret {extras : χ} {value : α} :
    (Course.ret ⟨state, extras, value⟩ : Course F (Run σ χ α)).Tells ⟨0, 0, extras, value⟩
      state :=
  fun _ => .ended rfl rfl rfl

/-- An act that wraps a value adds its cost to the count. -/
theorem perform {extras : χ} {t : Counted α} :
    (Course.perform (.ret (F.map (fun value => ⟨state, extras, value⟩) (F.conclude (.ok t)))) :
      Course F (Run σ χ α)).Tells ⟨0, F.cost t.steps, extras, t.value⟩ state := by
  intro steps
  rw [Course.perform, Traced.ret_andThen]
  cases F with
  | identity => exact .ended rfl rfl rfl
  | fallible ε => exact .ended rfl rfl rfl
  | symbolic =>
      simp only [Mode.map, Mode.conclude, Mode.charge]
      by_cases hfit : steps.toNat + t.steps.toNat + 1 < UInt64.size
      · rw [sequenceSteps_of_lt hfit]
        exact .ended (toNat_sequenceSteps hfit) rfl rfl
      · have hover := Nat.le_of_not_lt hfit
        rw [sequenceSteps_of_le hover]
        exact .overflowed hover (Nat.zero_le _) rfl

/-- Going on from where the words of the first upshot end leads to both upshots in sequence. -/
theorem andThen {k : Run σ χ α → Course F (Run σ χ β)} {R' : Upshot χ β} (h : c.Tells R state)
    (hk : (k ⟨advance R.words state, R.extras, R.value⟩).Tells R' (advance R.words state)) :
    (c.andThen k).Tells (R'.behind R.words R.steps) state := by
  intro steps
  have ht := h steps
  rw [Course.andThen]
  generalize c steps = t at ht ⊢
  cases ht with
  | overflowed hover hdraws hsplits =>
      exact .overflowed (by simp only [Upshot.behind]; omega)
        (by simp only [Upshot.behind]; omega) hsplits
  | @ended log sum hsum hdraws hsplits =>
      have ht' := hk sum
      show (R'.behind R.words R.steps).Told state steps
        ((k ⟨advance R.words state, R.extras, R.value⟩ sum).after log)
      generalize k ⟨advance R.words state, R.extras, R.value⟩ sum = t' at ht' ⊢
      cases ht' with
      | @ended log' sum' hsum' hdraws' hsplits' =>
          rw [← advance_add]
          refine .ended (R := R'.behind R.words R.steps) ?_ ?_ ?_
          · simp only [Upshot.behind]
            omega
          · simp [Upshot.behind, hdraws, hdraws']
          · simp [hsplits, hsplits']
      | overflowed hover hdraws' hsplits' =>
          refine .overflowed ?_ ?_ ?_
          · simp only [Upshot.behind]
            omega
          · simpa [Upshot.behind, hdraws] using hdraws'
          · simp [hsplits, hsplits']

theorem map (h : c.Tells R state) (f : α → β) :
    (c.andThen fun run => .ret (run.map f)).Tells { R with value := f R.value } state :=
  h.andThen (k := fun run => .ret (run.map f)) ret

end Course.Tells

namespace Experiment

variable {F : Mode} {σ χ : Type} [Generator σ] (state : σ) (extras : χ)

theorem word_tells : ((word : Experiment F σ χ UInt64).course state extras).Tells
    ⟨1, 0, extras, (Generator.word state).1⟩ state :=
  (Course.Tells.lift rfl).visit .step

theorem unit_tells : ((unit : Experiment F σ χ Float).course state extras).Tells
    ⟨1, 0, extras, unitOfWord (Generator.word state).1⟩ state :=
  (Course.Tells.lift rfl).visit .step

/-- What a run comes to if its course does. -/
theorem run_of_tells {α : Type} {e : Experiment F σ χ α} {R : Upshot χ α} {state : σ} {extras : χ}
    (h : (e.course state extras).Tells R state) :
    (e.run state extras).log.count .split = 0 ∧
    (R.steps < UInt64.size → (e.run state extras).log.count .draw = R.words ∧
      (e.run state extras).result =
        .ok (F.conclude (.ok ⟨⟨advance R.words state, R.extras, R.value⟩, R.steps.toUInt64⟩))) ∧
    (UInt64.size ≤ R.steps → (e.run state extras).log.count .draw ≤ R.words ∧
      (e.run state extras).result = .error .stepOverflow) := by
  have ht := h 0
  rw [run_eq_course, Course.finish, Course.into]
  generalize e.course state extras 0 = t at ht ⊢
  cases ht with
  | @ended log sum hsum hdraws hsplits =>
      rw [UInt64.toNat_zero, Nat.zero_add] at hsum
      have hcount : R.steps.toUInt64 = sum := by simp [← hsum]
      refine ⟨by simpa [Traced.ret] using hsplits, fun _ => ⟨?_, ?_⟩, fun hfar => ?_⟩
      · simpa [Traced.ret] using hdraws
      · rw [hcount]
        rfl
      · exact absurd sum.toNat_lt_size (by omega)
  | overflowed hover hdraws hsplits =>
      rw [UInt64.toNat_zero, Nat.zero_add] at hover
      exact ⟨hsplits, fun hfit => absurd hfit (Nat.not_lt.mpr hover), fun _ => ⟨hdraws, rfl⟩⟩

end Experiment

namespace Inversion

variable {F : Mode} {σ χ α : Type}

theorem eq_of_check {check : Except ParameterError Unit} {e e' : Experiment F σ χ α}
    (h : (match check with
      | .ok () => .ok e
      | .error fault => .error fault : Except ParameterError (Experiment F σ χ α)) = .ok e') :
    e = e' := by
  cases check with
  | ok _ => exact Except.ok.inj h
  | error fault => cases h

/-- What a sampler builds takes one word and makes a value of it. -/
theorem course_tells [Generator σ] {s : Inversion α} {e : Experiment F σ χ α}
    (h : s.build = .ok e) (state : σ) (extras : χ) :
    (e.course state extras).Tells ⟨1, 0, extras, s.value (word state).1⟩ state := by
  have hunit (f : Float → α) : ((Experiment.map .unit f : Experiment F σ χ α).course state
      extras).Tells ⟨1, 0, extras, f (unitOfWord (word state).1)⟩ state :=
    ((Experiment.unit_tells state extras).map f).visit .map
  have hopen (f : Float → α) : ((Experiment.map Inverse.openUnit f : Experiment F σ χ α).course
      state extras).Tells ⟨1, 0, extras, f (Inverse.openUnitOfWord (word state).1)⟩ state :=
    ((((Experiment.word_tells state extras).map _).visit .map).map f).visit .map
  cases s with
  | uniform low high => exact eq_of_check h ▸ hunit _
  | bernoulli p => exact eq_of_check h ▸ hunit _
  | categorical weights => exact eq_of_check h ▸ hunit _
  | exponential rate => exact eq_of_check h ▸ hopen _
  | gumbel location scale => exact eq_of_check h ▸ hopen _

end Inversion

theorem SplitMix.take_numbered (n : ℕ) (s : SplitMix) :
    (take n (⟨s⟩ : Numbered)).1 = (take n s).1 := by
  have hword (i : ℕ) : nthWord i (⟨s⟩ : Numbered) = nthWord i s := by
    induction i generalizing s with
    | zero => rfl
    | succ i ih => exact ih (Generator.word s).2
  apply Array.toList_inj.mp
  simp only [toList_take, hword]

namespace Recipe

variable {F : Mode} {κ : Type} [DecidableEq κ] [Kind κ] {σ : Type} [Generator σ]

/-- The course of a recipe comes to what is read off the words of the state. -/
theorem course_tells {α : Type} (r : Recipe F κ α) (state : σ) (extras : Store κ) :
    ((r.experiment σ).course state extras).Tells (r.read (words state) extras) state := by
  induction r generalizing state extras with
  | certain value => exact Course.Tells.ret.visit _
  | word => exact Experiment.word_tells state extras
  | unit => exact Experiment.unit_tells state extras
  | calls program =>
      refine (Course.Tells.lift ?_).visit _
      simp [program.draws_eq, Traced.after, Traced.ret]
  | sampler s built accepted => exact s.course_tells (accepted σ) state extras
  | lookup key => exact (Course.Tells.lift (n := 0) rfl).visit _
  | store key value => exact (Course.Tells.lift (n := 0) rfl).visit _
  | lift t => exact Course.Tells.perform.visit _
  | map source f ih => exact ((ih state extras).map f).visit _
  | bind source k ihSource ihRest =>
      rw [read, drop_words]
      exact ((ihSource state extras).andThen (ihRest _ _ _)).visit _
  | zip first second ihFirst ihSecond =>
      rw [read, drop_words]
      refine ((ihFirst state extras).andThen ?_).visit .bind
      exact ((ihSecond _ _).map _).visit .map

/-- Only the symbolic mode counts steps. -/
theorem steps_eq_zero (hF : F ≠ .symbolic) {α : Type} (r : Recipe F κ α) (s : Stream' UInt64)
    (extras : Store κ) : (r.read s extras).steps = 0 := by
  induction r generalizing s extras with
  | lift t =>
      cases F with
      | identity => rfl
      | fallible ε => rfl
      | symbolic => exact absurd rfl hF
  | map source f ih => exact ih s extras
  | bind source k ihSource ihRest => simp [read, Upshot.behind, ihSource, ihRest]
  | zip first second ihFirst ihSecond => simp [read, Upshot.behind, ihFirst, ihSecond]
  | _ => rfl

/-- From every state, a recipe takes the first words of the state, each of them once and no
others, ends in the state behind them and splits nothing, unless the count of the symbolic mode
overflows on the way. The extras and the value at the end are read off these words: they are the
same from any state of any type that begins with them. What a sampler by inversion builds takes
one word. -/
theorem draws_linear {α : Type} (r : Recipe F κ α) (state : σ) (extras : Store κ) :
    let R := r.read (words state) extras
    let run := (r.experiment σ).run state extras
    run.log.count .split = 0 ∧
    (R.steps < UInt64.size → run.log.count .draw = R.words ∧ run.result =
      .ok (F.conclude (.ok ⟨⟨advance R.words state, R.extras, R.value⟩, R.steps.toUInt64⟩))) ∧
    (UInt64.size ≤ R.steps → run.log.count .draw ≤ R.words ∧ run.result = .error .stepOverflow) ∧
    (F ≠ .symbolic → R.steps = 0) ∧
    (∀ {τ : Type} [Generator τ] (state' : τ), (take R.words state').1 = (take R.words state).1 →
      r.read (words state') extras = R ∧
      ((r.experiment τ).run state' extras).result.map (F.map fun run => (run.extras, run.value)) =
        run.result.map (F.map fun run => (run.extras, run.value))) ∧
    ∀ {β : Type} (s : Inversion β) (e : Experiment F σ (Store κ) β), s.build = .ok e →
      (e.run state extras).log.count .draw = 1 ∧ (e.run state extras).log.count .split = 0 ∧
      (e.run state extras).result =
        .ok (F.ret ⟨(Generator.word state).2, extras, s.value (Generator.word state).1⟩) := by
  intro R run
  obtain ⟨hsplit, hends, hover⟩ := Experiment.run_of_tells (r.course_tells state extras)
  refine ⟨hsplit, hends, hover, fun hF => r.steps_eq_zero hF _ _, ?_, ?_⟩
  · intro τ _ state' hwords
    have htake : (words state).take R.words = (words state').take R.words := by
      rw [← toList_take_eq, ← toList_take_eq, hwords]
    have hread : r.read (words state') extras = R := r.read_congr htake
    obtain ⟨-, hends', hover'⟩ := Experiment.run_of_tells (r.course_tells state' extras)
    rw [hread] at hends' hover'
    refine ⟨hread, ?_⟩
    rcases Nat.lt_or_ge R.steps UInt64.size with hfit | hfar
    · rw [(hends hfit).2, (hends' hfit).2, Except.map, Except.map, Mode.map_conclude_ok,
        Mode.map_conclude_ok]
    · rw [(hover hfar).2, (hover' hfar).2]
      rfl
  · intro β s e hbuild
    obtain ⟨hsplit, hends, -⟩ := Experiment.run_of_tells (s.course_tells hbuild state extras)
    obtain ⟨hdraw, hresult⟩ := hends (show 0 < UInt64.size by decide)
    exact ⟨hdraw, hsplit, hresult.trans (congrArg _ (Mode.ret_eq_conclude _).symm)⟩

/-- As many bytes as the lowest bits of a first word say, and a step more in the count. -/
def fill : Recipe F κ (List UInt8) :=
  .bind .word fun bits =>
    .bind (.lift ⟨(), 0⟩) fun () => .calls (.bytes (bits % 16).toNat .done)

instance : Kind Empty := ⟨nofun, nofun⟩

/-- A state and the numbered state at the same seed begin with the same words. -/
theorem draws_linear_fill :
    let r : Recipe .symbolic Empty (List UInt8) := fill
    let greatest : Recipe .symbolic Empty Unit := .lift ⟨(), -1⟩
    let plain : Recipe .identity Empty Unit := .lift ⟨(), -1⟩
    let s := SplitMix.ofSeed 6
    let s' : SplitMix.Numbered := ⟨s⟩
    let fair : Experiment .symbolic SplitMix (Store Empty) Bool := .map .unit fun u => u < 0.5
    (r.read (words s) ∅).steps < UInt64.size ∧
    ((r.experiment SplitMix).run s ∅).log.count .draw = (r.read (words s) ∅).words ∧
    (take (r.read (words s) ∅).words s').1 = (take (r.read (words s) ∅).words s).1 ∧
    r.read (words s') ∅ = r.read (words s) ∅ ∧
    UInt64.size ≤ (greatest.read (words s) ∅).steps ∧
    ((greatest.experiment SplitMix).run s ∅).result = .error .stepOverflow ∧
    Mode.identity ≠ .symbolic ∧ (plain.read (words s) ∅).steps = 0 ∧
    (Inversion.bernoulli 0.5).build = .ok fair ∧ (fair.run s ∅).log.count .draw = 1 := by
  intro r greatest plain s s' fair
  have hsteps : (r.read (words s) ∅).steps < UInt64.size := (by decide : 1 < UInt64.size)
  have hwords := SplitMix.take_numbered (r.read (words s) ∅).words s
  have hfar : UInt64.size ≤ (greatest.read (words s) ∅).steps :=
    (by decide : UInt64.size ≤ (-1 : UInt64).toNat + 1)
  have hcheck : checkProbability 0.5 = .ok () := if_pos (by decide +kernel)
  have hbuild : (Inversion.bernoulli 0.5).build = .ok fair := by
    rw [Inversion.build, Inverse.bernoulli, hcheck]
  obtain ⟨-, hends, -, -, htwo, hone⟩ := draws_linear r s ∅
  obtain ⟨-, -, hover, -⟩ := draws_linear greatest s ∅
  obtain ⟨-, -, -, hplain, -⟩ := draws_linear plain s ∅
  exact ⟨hsteps, (hends hsteps).1, hwords, (htwo s' hwords).1, hfar, (hover hfar).2,
    Mode.identity_ne_symbolic, hplain Mode.identity_ne_symbolic, hbuild, (hone _ fair hbuild).1⟩

end Recipe

end Aleatory
