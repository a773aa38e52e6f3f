import Aleatory.Equivalence.Oracle
import Aleatory.Proofs.Equivalence.Sampling

/-!
# Surveys

Both tiers of the oracle go through the states in order and stop at the first one with an answer
other than yes. `scan` is that loop, with the question as a parameter: `Oracle.inspect` for the
statistical tier and `Oracle.compare` for the exact one. `Oracle.equivalent` is written with the
two scans, so what it returns and what it leaves in the journal follow from the same few facts
about `scan`.
-/

namespace Aleatory

/-- Either a predicate holds on a whole list, or there is a first place where it does not. -/
theorem forall_or_exists_first {σ : Type} (p : σ → Prop) (states : List σ) :
    (∀ s ∈ states, p s) ∨
      ∃ before s after, states = before ++ s :: after ∧ (∀ b ∈ before, p b) ∧ ¬p s := by
  induction states with
  | nil => exact .inl nofun
  | cons s rest ih =>
      by_cases hs : p s
      · rcases ih with hall | ⟨before, t, after, rfl, hbefore, ht⟩
        · exact .inl (List.forall_mem_cons.mpr ⟨hs, hall⟩)
        · exact .inr ⟨s :: before, t, after, rfl, List.forall_mem_cons.mpr ⟨hs, hbefore⟩, ht⟩
      · exact .inr ⟨[], s, rest, rfl, nofun, hs⟩

section Scan

variable {ω σ β : Type} [DecidableEq β]

/-- Asks the states in order, each with its index, until an answer is not `yes`. -/
def scan (yes : β) (ask : Nat → σ → Traced ω β) : Nat → List σ → Traced ω β
  | _, [] => .ret yes
  | index, state :: rest =>
    (ask index state).andThen fun answer =>
      if answer = yes then scan yes ask (index + 1) rest else .ret answer

/-- What asking every state in order leaves in the log. -/
def scanLog (ask : Nat → σ → Traced ω β) : Nat → List σ → Array ω
  | _, [] => #[]
  | index, state :: rest => (ask index state).log ++ scanLog ask (index + 1) rest

variable {yes : β} {ask : Nat → σ → Traced ω β}

theorem scan_cons_of_yes {index : Nat} {state : σ} (h : (ask index state).result = .ok yes)
    (rest : List σ) :
    scan yes ask index (state :: rest) =
      (scan yes ask (index + 1) rest).after (ask index state).log := by
  rw [scan, Traced.andThen, h]
  simp only [if_true]

theorem scan_cons_of_stop {index : Nat} {state : σ} (h : (ask index state).result ≠ .ok yes)
    (rest : List σ) : scan yes ask index (state :: rest) = ask index state := by
  rw [scan]
  rcases hask : ask index state with ⟨entries, fault | answer⟩
  · rfl
  · have hanswer : answer ≠ yes := by
      rintro rfl
      exact h (congrArg Traced.result hask)
    simp [hanswer, Traced.ret, Traced.after]

variable {found : σ → Except Fault β} (hfound : ∀ index s, (ask index s).result = found s)

include hfound

theorem scan_append {before : List σ} (h : ∀ s ∈ before, found s = .ok yes) (index : Nat)
    (rest : List σ) :
    scan yes ask index (before ++ rest) =
      (scan yes ask (index + before.length) rest).after (scanLog ask index before) := by
  induction before generalizing index with
  | nil => exact (Traced.after_empty _).symm
  | cons s before ih =>
      obtain ⟨hs, hbefore⟩ := List.forall_mem_cons.mp h
      rw [List.cons_append, scan_cons_of_yes ((hfound index s).trans hs), ih hbefore,
        Traced.after_after, List.length_cons, Nat.add_assoc, Nat.add_comm 1, scanLog]

theorem scan_of_forall {states : List σ} (h : ∀ s ∈ states, found s = .ok yes) (index : Nat) :
    scan yes ask index states = ⟨scanLog ask index states, .ok yes⟩ := by
  have happend := scan_append hfound h index []
  rw [List.append_nil] at happend
  rw [happend, scan, Traced.ret, Traced.after, Array.append_empty]

theorem scan_of_stop {before : List σ} (h : ∀ s ∈ before, found s = .ok yes) {state : σ}
    (hstop : found state ≠ .ok yes) (index : Nat) (rest : List σ) :
    scan yes ask index (before ++ state :: rest) =
      ⟨scanLog ask index before ++ (ask (index + before.length) state).log, found state⟩ := by
  have hask : (ask (index + before.length) state).result ≠ .ok yes := by
    rw [hfound]
    exact hstop
  rw [scan_append hfound h, scan_cons_of_stop hask, Traced.after, hfound]

/-- A scan answers yes just if every state does. -/
theorem scan_result_eq_yes (index : Nat) (states : List σ) :
    (scan yes ask index states).result = .ok yes ↔ ∀ s ∈ states, found s = .ok yes := by
  constructor
  · intro h
    rcases forall_or_exists_first (fun s => found s = .ok yes) states with
      hall | ⟨before, s, after, rfl, hbefore, hs⟩
    · exact hall
    · rw [scan_of_stop hfound hbefore hs] at h
      exact absurd h hs
  · intro h
    rw [scan_of_forall hfound h]

/-- Any other answer, or fault, is that of the first state that does not answer yes. -/
theorem scan_result_eq {r : Except Fault β} (hr : r ≠ .ok yes) (index : Nat) (states : List σ) :
    (scan yes ask index states).result = r ↔
      ∃ before s after, states = before ++ s :: after ∧ (∀ b ∈ before, found b = .ok yes) ∧
        found s = r := by
  constructor
  · intro h
    rcases forall_or_exists_first (fun s => found s = .ok yes) states with
      hall | ⟨before, s, after, rfl, hbefore, hs⟩
    · rw [scan_of_forall hfound hall] at h
      exact absurd h.symm hr
    · rw [scan_of_stop hfound hbefore hs] at h
      exact ⟨before, s, after, rfl, hbefore, h⟩
  · rintro ⟨before, s, after, rfl, hbefore, rfl⟩
    rw [scan_of_stop hfound hbefore hr]

end Scan

namespace Oracle

section Exact

variable {F : Mode} {σ χ α ρ : Type} [EmptyCollection χ] [BEq α] [BEq F.Failure]

/-- What the exact tier finds from one state. -/
def compare (x y : Experiment F σ χ α) (state : σ) : Traced (Notice ρ) Bool :=
  (sample x state).andThen fun a =>
    (sample y state).andThen fun b => .ret (F.agree (· == ·) (· == ·) a b)

theorem agreement_eq_scan (x y : Experiment F σ χ α) (index : Nat) (states : List σ)
    (journal : Array (Notice ρ)) :
    agreement x y states journal =
      (scan true (fun _ => compare x y) index states).after journal := by
  induction states generalizing index journal with
  | nil => simp [agreement, scan, Traced.after, Traced.ret]
  | cons state rest ih =>
      rw [agreement, scan, ← compare]
      rcases (compare x y state : Traced (Notice ρ) Bool) with ⟨entries, fault | _ | _⟩
      · simp [Traced.after]
      · simp [Traced.after, Traced.ret]
      · simp [ih (index + 1)]

theorem exactly_eq_scan (states : List σ) (x y : Experiment F σ χ α) :
    (exactly states x y : Traced (Notice ρ) Bool) =
      (scan true (fun _ => compare x y) 0 states).after #[.exact states.length] :=
  agreement_eq_scan x y 0 states _

end Exact

variable {F : Mode} {σ χ α ρ : Type} [Generator σ] [EmptyCollection χ] [BEq α] [GammaArithmetic ρ]

/-- What the statistical tier finds from one state: a verdict, or nothing if a histogram
failed. -/
def inspect (o : Oracle α ρ) (x y : Experiment F σ χ α) (index : Nat) (state : σ) :
    Traced (Notice ρ) (Option Bool) :=
  (o.verdictFrom x y index state).andThen fun wrapped => .ret (F.settle wrapped)

/-- After a negative verdict or a failure nothing more is sampled. -/
theorem verdicts_of_settle (hF : F ≠ .symbolic) (o : Oracle α ρ) (x y : Experiment F σ χ α)
    {soFar : F.Result Bool} (h : F.settle soFar ≠ some true) (index : Nat) (states : List σ)
    (journal : Array (Notice ρ)) :
    o.verdicts x y index states journal soFar = ⟨journal, .ok soFar⟩ := by
  induction states generalizing index journal with
  | nil => rfl
  | cons state rest ih =>
      rw [verdicts, Mode.andThen_of_settle hF h]
      simp only [Traced.ret, ih, Array.append_empty]

theorem verdicts_eq_scan (hF : F ≠ .symbolic) (o : Oracle α ρ) (x y : Experiment F σ χ α)
    (index : Nat) (states : List σ) (journal : Array (Notice ρ)) :
    ((o.verdicts x y index states journal (F.ret true)).andThen fun wrapped =>
      .ret (F.settle wrapped)) =
        (scan (some true) (o.inspect x y) index states).after journal := by
  induction states generalizing index journal with
  | nil => simp [verdicts, scan, Traced.after, Traced.ret, Mode.settle_ret hF]
  | cons state rest ih =>
      rw [verdicts, Mode.ret_andThen hF, scan, inspect]
      rcases o.verdictFrom x y index state with ⟨entries, fault | wrapped⟩
      · simp [Traced.after]
      · simp only [if_true, Traced.mk_ok_andThen]
        -- The loop runs on to the end of the list where the scan stops, but it does nothing more.
        by_cases hyes : F.settle wrapped = some true
        · obtain rfl := Mode.eq_ret_of_settle hyes
          rw [ih, hyes]
          simp [Traced.after, Traced.ret, Traced.andThen]
        · rw [verdicts_of_settle hF o x y hyes]
          simp [hyes, Traced.after, Traced.ret, Traced.andThen]

/-- Where a verdict can be had, the oracle goes through the states statistically, and exactly if
that ends without a verdict. -/
theorem equivalent_eq_scan [BEq F.Failure] (hF : F ≠ .symbolic) (o : Oracle α ρ)
    (states : List σ) (x y : Experiment F σ χ α) :
    o.equivalent states x y =
      (scan (some true) (o.inspect x y) 0 states).andThen fun
        | some equal => .ret equal
        | none => exactly states x y := by
  have hscan := verdicts_eq_scan hF o x y 0 states #[]
  rw [Traced.after_empty] at hscan
  rw [equivalent, Mode.settle_ret hF, ← hscan, Traced.andThen_andThen]
  exact congrArg (Traced.andThen _) (funext fun wrapped => (Traced.ret_andThen _ _).symm)

/-! ## What the statistical tier finds from one state -/

variable (o : Oracle α ρ) (x y : Experiment F σ χ α)

/-- The histograms from a state succeed, and they are judged to be equal or not. -/
def Judges (state : σ) (equal : Bool) : Prop :=
  ∃ first second v,
    (o.histogram x state).result = .ok (F.ret first) ∧
    (o.histogram y state).result = .ok (F.ret second) ∧
    o.test.verdict first second = .ok v ∧ v.equal = equal

/-- One of the histograms from a state fails. -/
def Fails (state : σ) : Prop :=
  (∃ err, (o.histogram x state).result = .ok (F.conclude (.error err))) ∨
    ∃ first err,
      (o.histogram x state).result = .ok (F.ret first) ∧
      (o.histogram y state).result = .ok (F.conclude (.error err))

variable {o x y} {state : σ} (hF : F ≠ .symbolic)

include hF

theorem inspect_of_tables {first second : Histogram} {v : Verdict ρ}
    (hx : (o.histogram x state).result = .ok (F.ret first))
    (hy : (o.histogram y state).result = .ok (F.ret second))
    (hv : o.test.verdict first second = .ok v) (index : Nat) :
    o.inspect x y index state =
      ⟨(o.histogram x state).log ++ (o.histogram y state).log ++
          #[.compared index v.probability o.test.threshold v.equal],
        .ok (some v.equal)⟩ := by
  simp [inspect, verdictFrom, Traced.andThen, hx, hy, Mode.ret_andThen hF, Mode.traverse_ret,
    verdict, hv, Mode.settle_ret hF, Traced.ret, Traced.after]

omit hF in
theorem inspect_of_left_error {err : F.Failure}
    (hx : (o.histogram x state).result = .ok (F.conclude (.error err))) (index : Nat) :
    o.inspect x y index state = ⟨(o.histogram x state).log, .ok none⟩ := by
  simp [inspect, verdictFrom, Traced.andThen, hx, Mode.andThen_conclude_error,
    Mode.settle_conclude_error, Traced.ret, Traced.after]

theorem inspect_of_right_error {first : Histogram} {err : F.Failure}
    (hx : (o.histogram x state).result = .ok (F.ret first))
    (hy : (o.histogram y state).result = .ok (F.conclude (.error err))) (index : Nat) :
    o.inspect x y index state =
      ⟨(o.histogram x state).log ++ (o.histogram y state).log, .ok none⟩ := by
  simp [inspect, verdictFrom, Traced.andThen, hx, hy, Mode.ret_andThen hF,
    Mode.traverse_conclude_error, Mode.settle_conclude_error, Traced.ret, Traced.after]

theorem histogram_cases (o : Oracle α ρ) (e : Experiment F σ χ α) (state : σ) :
    (∃ h, (o.histogram e state).result = .ok (F.ret h)) ∨
      (∃ err, (o.histogram e state).result = .ok (F.conclude (.error err))) ∨
        ∃ fault, (o.histogram e state).result = .error fault := by
  cases hresult : (o.histogram e state).result with
  | error fault => exact .inr (.inr ⟨fault, rfl⟩)
  | ok wrapped =>
      obtain ⟨r, rfl⟩ := Mode.exists_conclude wrapped
      rcases r with err | t
      · exact .inr (.inl ⟨err, rfl⟩)
      · exact .inl ⟨t.value, by rw [Mode.conclude_ok_eq_ret hF]⟩

theorem inspect_cases (o : Oracle α ρ) (x y : Experiment F σ χ α) (state : σ) :
    (∃ equal, o.Judges x y state equal) ∨ o.Fails x y state ∨
      ∃ fault, ∀ index, (o.inspect x y index state).result = .error fault := by
  rcases histogram_cases hF o x state with ⟨first, hx⟩ | ⟨err, hx⟩ | ⟨fault, hx⟩
  · rcases histogram_cases hF o y state with ⟨second, hy⟩ | ⟨err, hy⟩ | ⟨fault, hy⟩
    · cases hv : o.test.verdict first second with
      | ok v => exact .inl ⟨v.equal, first, second, v, hx, hy, hv, rfl⟩
      | error fault =>
          refine .inr (.inr ⟨fault, fun index => ?_⟩)
          simp [inspect, verdictFrom, Traced.andThen, hx, hy, Mode.ret_andThen hF,
            Mode.traverse_ret, verdict, hv, Traced.fail, Traced.after]
    · exact .inr (.inl (.inr ⟨first, err, hx, hy⟩))
    · refine .inr (.inr ⟨fault, fun index => ?_⟩)
      simp [inspect, verdictFrom, Traced.andThen, hx, hy, Mode.ret_andThen hF, Traced.after]
  · exact .inr (.inl (.inl ⟨err, hx⟩))
  · refine .inr (.inr ⟨fault, fun index => ?_⟩)
    simp [inspect, verdictFrom, Traced.andThen, hx]

theorem Judges.inspect_result {equal : Bool} (h : o.Judges x y state equal) (index : Nat) :
    (o.inspect x y index state).result = .ok (some equal) := by
  obtain ⟨first, second, v, hx, hy, hv, rfl⟩ := h
  rw [inspect_of_tables hF hx hy hv]

theorem Fails.inspect_result (h : o.Fails x y state) (index : Nat) :
    (o.inspect x y index state).result = .ok none := by
  rcases h with ⟨err, hx⟩ | ⟨first, err, hx, hy⟩
  · rw [inspect_of_left_error hx]
  · rw [inspect_of_right_error hF hx hy]

theorem inspect_result (index : Nat) (state : σ) :
    (o.inspect x y index state).result = (o.inspect x y 0 state).result := by
  rcases inspect_cases hF o x y state with ⟨equal, h⟩ | h | ⟨fault, h⟩
  · rw [h.inspect_result hF, h.inspect_result hF]
  · rw [h.inspect_result hF, h.inspect_result hF]
  · rw [h, h]

/-! ## The oracle from the first state that is not judged to be equal -/

theorem found_of_judges {states : List σ} (h : ∀ s ∈ states, o.Judges x y s true) :
    ∀ s ∈ states, (o.inspect x y 0 s).result = .ok (some true) :=
  fun s hs => (h s hs).inspect_result hF 0

/-- The statistical tier up to the first state that is not judged to be equal. -/
theorem scan_inspect_of_stop {before : List σ} (h : ∀ s ∈ before, o.Judges x y s true)
    {found : Except Fault (Option Bool)} (hstate : (o.inspect x y 0 state).result = found)
    (hstop : found ≠ .ok (some true)) (after : List σ) :
    scan (some true) (o.inspect x y) 0 (before ++ state :: after) =
      ⟨scanLog (o.inspect x y) 0 before ++ (o.inspect x y before.length state).log, found⟩ := by
  subst hstate
  rw [scan_of_stop (inspect_result hF) (found_of_judges hF h) hstop, Nat.zero_add]

variable [BEq F.Failure]

theorem equivalent_of_forall {states : List σ} (h : ∀ s ∈ states, o.Judges x y s true) :
    o.equivalent states x y = ⟨scanLog (o.inspect x y) 0 states, .ok true⟩ := by
  rw [equivalent_eq_scan hF, scan_of_forall (inspect_result hF) (found_of_judges hF h)]
  simp [Traced.after, Traced.ret]

/-- If a state is judged not to be equal, the answer is negative, and no later state is
inspected. -/
theorem equivalent_of_unequal {before : List σ} (h : ∀ s ∈ before, o.Judges x y s true)
    (hstate : o.Judges x y state false) (after : List σ) :
    o.equivalent (before ++ state :: after) x y =
      ⟨scanLog (o.inspect x y) 0 before ++ (o.inspect x y before.length state).log,
        .ok false⟩ := by
  rw [equivalent_eq_scan hF, scan_inspect_of_stop hF h (hstate.inspect_result hF 0) nofun]
  simp [Traced.after, Traced.ret]

/-- If a histogram fails, no later state is inspected, and the exact tier answers for all the
states. -/
theorem equivalent_of_fails {before : List σ} (h : ∀ s ∈ before, o.Judges x y s true)
    (hstate : o.Fails x y state) (after : List σ) :
    o.equivalent (before ++ state :: after) x y =
      (exactly (before ++ state :: after) x y).after
        (scanLog (o.inspect x y) 0 before ++ (o.inspect x y before.length state).log) := by
  rw [equivalent_eq_scan hF, scan_inspect_of_stop hF h (hstate.inspect_result hF 0) nofun]
  simp only [Traced.mk_ok_andThen]

theorem equivalent_of_fault {before : List σ} (h : ∀ s ∈ before, o.Judges x y s true)
    {fault : Fault} (hstate : (o.inspect x y 0 state).result = .error fault) (after : List σ) :
    o.equivalent (before ++ state :: after) x y =
      ⟨scanLog (o.inspect x y) 0 before ++ (o.inspect x y before.length state).log,
        .error fault⟩ := by
  rw [equivalent_eq_scan hF, scan_inspect_of_stop hF h hstate nofun]
  simp only [Traced.mk_error_andThen]

/-- Every state is judged to be equal, or the first that is not is judged unequal, or fails, or
faults. -/
theorem equivalent_cases (o : Oracle α ρ) (x y : Experiment F σ χ α) (states : List σ) :
    ((∀ s ∈ states, o.Judges x y s true) ∧ (o.equivalent states x y).result = .ok true) ∨
      ∃ before s after, states = before ++ s :: after ∧ (∀ b ∈ before, o.Judges x y b true) ∧
        ((o.Judges x y s false ∧ (o.equivalent states x y).result = .ok false) ∨
          (o.Fails x y s ∧
            (o.equivalent states x y).result =
              (exactly states x y : Traced (Notice ρ) Bool).result) ∨
          ∃ fault, (o.inspect x y 0 s).result = .error fault ∧
            (o.equivalent states x y).result = .error fault) := by
  rcases forall_or_exists_first (fun s => o.Judges x y s true) states with
    hall | ⟨before, s, after, rfl, hbefore, hs⟩
  · exact .inl ⟨hall, congrArg Traced.result (equivalent_of_forall hF hall)⟩
  · refine .inr ⟨before, s, after, rfl, hbefore, ?_⟩
    rcases inspect_cases hF o x y s with ⟨equal, h⟩ | h | ⟨fault, h⟩
    · cases equal with
      | true => exact absurd h hs
      | false =>
          exact .inl ⟨h, congrArg Traced.result (equivalent_of_unequal hF hbefore h after)⟩
    · refine .inr (.inl ⟨h, ?_⟩)
      rw [equivalent_of_fails hF hbefore h after, Traced.result_after]
    · refine .inr (.inr ⟨fault, h 0, ?_⟩)
      rw [equivalent_of_fault hF hbefore (h 0) after]

end Oracle

end Aleatory
