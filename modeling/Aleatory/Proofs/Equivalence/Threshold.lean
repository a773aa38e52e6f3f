import Aleatory.Proofs.Equivalence.Decision
import Aleatory.Proofs.Numeric.Special
import Aleatory.Proofs.Numeric.Transcendental

/-!
# Raising the threshold

A higher threshold may turn a verdict of difference into one of equality. The statistical tier
then goes on past the state where it stopped, may meet a failure there, and leaves the answer to
the exact tier. None of this can happen to a positive answer, since there is no verdict of
difference before the state that decides it. With the higher threshold the oracle does the same
again, entry by entry, and notes another threshold.
-/

namespace Aleatory

namespace Traced

variable {ω ω' : Type} {α β : Type} (f : ω → ω')

@[simp]
theorem mapLog_mk (log : Array ω) (result : Except Fault α) :
    (⟨log, result⟩ : Traced ω α).mapLog f = ⟨log.map f, result⟩ := rfl

theorem mapLog_ret (a : α) : (ret a : Traced ω α).mapLog f = ret a := by
  simp [mapLog, ret]

theorem mapLog_after (log : Array ω) (t : Traced ω α) :
    (t.after log).mapLog f = (t.mapLog f).after (log.map f) := by
  simp [mapLog, after]

theorem mapLog_andThen (t : Traced ω α) (k : α → Traced ω β) :
    (t.andThen k).mapLog f = (t.mapLog f).andThen fun a => (k a).mapLog f := by
  rcases t with ⟨log, fault | a⟩
  · rfl
  · exact mapLog_after f log (k a)

end Traced

/-- The same entry, with another threshold where one is noted. -/
def Notice.withThreshold {ρ : Type} (threshold : ρ) : Notice ρ → Notice ρ
  | compared state probability _ equal => compared state probability threshold equal
  | ran mark => ran mark
  | exact states => exact states

section Scan

variable {ω σ β : Type} [DecidableEq β] {yes : β} {ask ask' : Nat → σ → Traced ω β} {f : ω → ω}

/-- If the states leave the same entries up to a change of each, so do the scans. -/
theorem scan_eq_mapLog {states : List σ}
    (h : ∀ index, ∀ s ∈ states, ask' index s = (ask index s).mapLog f) (index : Nat) :
    scan yes ask' index states = (scan yes ask index states).mapLog f := by
  induction states generalizing index with
  | nil => exact (Traced.mapLog_ret f yes).symm
  | cons s rest ih =>
      have hrest := ih (fun index s hs => h index s (List.mem_cons_of_mem _ hs)) (index + 1)
      rw [scan, scan, Traced.mapLog_andThen, h index s (List.mem_cons_self ..), hrest]
      refine congrArg (Traced.andThen _) (funext fun answer => ?_)
      by_cases hyes : answer = yes
      · rw [if_pos hyes, if_pos hyes]
      · rw [if_neg hyes, if_neg hyes, Traced.mapLog_ret]

/-- What comes after the state where a scan stops makes no difference. -/
theorem scan_append_of_stop {found : σ → Except Fault β}
    (hfound : ∀ index s, (ask index s).result = found s) {before : List σ}
    (h : ∀ s ∈ before, found s = .ok yes) {state : σ} (hstop : found state ≠ .ok yes)
    (index : Nat) (after : List σ) :
    scan yes ask index (before ++ state :: after) = scan yes ask index (before ++ [state]) := by
  rw [scan_of_stop hfound h hstop, scan_of_stop hfound h hstop]

end Scan

namespace Oracle

section Exact

variable {F : Mode} {σ χ α ρ : Type} [EmptyCollection χ] (threshold : ρ)

/-- A run notes no threshold. -/
theorem mapLog_sample (e : Experiment F σ χ α) (state : σ) :
    (sample e state).mapLog (Notice.withThreshold threshold) = sample e state := by
  simp [sample, Traced.mapLog, Notice.withThreshold]

variable [BEq α] [BEq F.Failure]

/-- The exact tier notes no threshold. -/
theorem mapLog_exactly (states : List σ) (x y : Experiment F σ χ α) :
    (exactly states x y).mapLog (Notice.withThreshold threshold) = exactly states x y := by
  have hcompare (state : σ) :
      compare x y state = (compare x y state).mapLog (Notice.withThreshold threshold) := by
    simp only [compare, Traced.mapLog_andThen, mapLog_sample, Traced.mapLog_ret]
  rw [exactly_eq_scan, Traced.mapLog_after, ← scan_eq_mapLog fun _ s _ => hcompare s]
  simp [Notice.withThreshold]

end Exact

section Raised

variable {F : Mode} {σ χ α ρ : Type} [Generator σ] [EmptyCollection χ] [BEq α] [GammaArithmetic ρ]

/-- Two oracles differ in the threshold alone, and the second one has none that is lower. -/
structure Relaxes (o o' : Oracle α ρ) : Prop where
  space : o'.space = o.space
  replicates : o'.criterion.replicates = o.criterion.replicates
  threshold : Elementary.le o.criterion.threshold o'.criterion.threshold = true

variable {o o' : Oracle α ρ} {x y : Experiment F σ χ α} {state : σ} (h : o.Relaxes o')

include h

theorem Relaxes.histogram (e : Experiment F σ χ α) (state : σ) :
    o'.histogram e state = o.histogram e state := by
  rw [Oracle.histogram, h.space, h.replicates]
  rfl

theorem Relaxes.fails_iff : o'.Fails x y state ↔ o.Fails x y state := by
  simp only [Fails, h.histogram]

theorem Relaxes.map_histogram_log (e : Experiment F σ χ α) (state : σ) :
    (o'.histogram e state).log =
      (o.histogram e state).log.map (Notice.withThreshold o'.criterion.threshold) := by
  rw [h.histogram]
  exact (congrArg Traced.log (mapLog_sample _ _ _)).symm

/-- A state that fails leaves the same entries. -/
theorem Relaxes.inspect_of_fails (hF : F ≠ .symbolic) (hfails : o.Fails x y state) (index : Nat) :
    o'.inspect x y index state =
      (o.inspect x y index state).mapLog (Notice.withThreshold o'.criterion.threshold) := by
  rcases hfails with ⟨err, hx⟩ | ⟨first, err, hx, hy⟩
  · have hx' := (congrArg Traced.result (h.histogram x state)).trans hx
    rw [inspect_of_left_error hx, inspect_of_left_error hx', h.map_histogram_log]
    rfl
  · have hx' := (congrArg Traced.result (h.histogram x state)).trans hx
    have hy' := (congrArg Traced.result (h.histogram y state)).trans hy
    rw [inspect_of_right_error hF hx hy, inspect_of_right_error hF hx' hy', h.map_histogram_log,
      h.map_histogram_log, Traced.mapLog_mk, Array.map_append]

variable (htrans : ∀ {a b c : ρ}, Elementary.le a b = true → Elementary.le b c = true →
  Elementary.le a c = true)

include htrans

/-- A verdict of equality stays one, with the same probability. -/
theorem Relaxes.verdict_eq {first second : Histogram} {v : Verdict ρ}
    (hv : o.test.verdict first second = .ok v) (hequal : v.equal = true) :
    o'.test.verdict first second = .ok v := by
  rw [BayesTest.verdict, test, h.space]
  rw [BayesTest.verdict, test] at hv
  cases hp : Likelihood.probabilityOfDifference first.counts.toList second.counts.toList
      o.space.prior with
  | error fault =>
      rw [hp] at hv
      cases hv
  | ok p =>
      rw [hp] at hv
      obtain rfl := Except.ok.inj hv
      have hbelow : Elementary.le p o.criterion.threshold = true := hequal
      simp only [hbelow, htrans hbelow h.threshold]

theorem Relaxes.judges (hj : o.Judges x y state true) : o'.Judges x y state true := by
  obtain ⟨first, second, v, hx, hy, hv, hequal⟩ := hj
  exact ⟨first, second, v, by rw [h.histogram, hx], by rw [h.histogram, hy],
    h.verdict_eq htrans hv hequal, hequal⟩

/-- A state that is judged to be equal leaves the same entries but for the threshold. -/
theorem Relaxes.inspect_of_judges (hF : F ≠ .symbolic) (hj : o.Judges x y state true)
    (index : Nat) :
    o'.inspect x y index state =
      (o.inspect x y index state).mapLog (Notice.withThreshold o'.criterion.threshold) := by
  obtain ⟨first, second, v, hx, hy, hv, hequal⟩ := hj
  have hx' := (congrArg Traced.result (h.histogram x state)).trans hx
  have hy' := (congrArg Traced.result (h.histogram y state)).trans hy
  rw [inspect_of_tables hF hx hy hv, inspect_of_tables hF hx' hy' (h.verdict_eq htrans hv hequal),
    h.map_histogram_log, h.map_histogram_log]
  simp [Traced.mapLog, Notice.withThreshold, test]

variable [BEq F.Failure] {states : List σ}

/-- If both oracles stop after some states, and these leave the same entries but for the threshold,
so do the whole runs. -/
theorem Relaxes.equivalent_eq_of_scan (hF : F ≠ .symbolic) {visited : List σ}
    (hscan : scan (some true) (o.inspect x y) 0 states =
      scan (some true) (o.inspect x y) 0 visited)
    (hscan' : scan (some true) (o'.inspect x y) 0 states =
      scan (some true) (o'.inspect x y) 0 visited)
    (hvisited : ∀ s ∈ visited, o.Judges x y s true ∨ o.Fails x y s) :
    o'.equivalent states x y =
      (o.equivalent states x y).mapLog (Notice.withThreshold o'.criterion.threshold) := by
  have hinspect (index : Nat) (s : σ) (hs : s ∈ visited) :
      o'.inspect x y index s =
        (o.inspect x y index s).mapLog (Notice.withThreshold o'.criterion.threshold) :=
    (hvisited s hs).elim (fun hj => h.inspect_of_judges htrans hF hj index)
      fun hfails => h.inspect_of_fails hF hfails index
  rw [equivalent_eq_scan hF, equivalent_eq_scan hF, hscan, hscan', scan_eq_mapLog hinspect,
    Traced.mapLog_andThen]
  refine congrArg (Traced.andThen _) (funext fun found => ?_)
  rcases found with _ | equal
  · exact (mapLog_exactly _ states x y).symm
  · exact (Traced.mapLog_ret _ equal).symm

/-- Where the statistical tier of a positive answer ends, with either threshold: after all the
states, or at one and the same failure. -/
theorem Relaxes.ends_alike (hF : F ≠ .symbolic)
    (hresult : (o.equivalent states x y).result = .ok true) :
    ((∀ s ∈ states, o.Judges x y s true ∧ o'.Judges x y s true) ∨
      ∃ before s after, states = before ++ s :: after ∧
        (∀ b ∈ before, o.Judges x y b true ∧ o'.Judges x y b true) ∧
        o.Fails x y s ∧ o'.Fails x y s) ∧
      o'.equivalent states x y =
        (o.equivalent states x y).mapLog (Notice.withThreshold o'.criterion.threshold) := by
  have hboth {equal : List σ} (hall : ∀ s ∈ equal, o.Judges x y s true) (s : σ) (hs : s ∈ equal) :
      o.Judges x y s true ∧ o'.Judges x y s true :=
    ⟨hall s hs, h.judges htrans (hall s hs)⟩
  rcases equivalent_cases hF o x y states with
    ⟨hall, -⟩ | ⟨before, s, after, rfl, hbefore, ⟨-, hstop⟩ | ⟨hfails, -⟩ | ⟨fault, -, hstop⟩⟩
  · exact ⟨.inl (hboth hall),
      h.equivalent_eq_of_scan htrans hF rfl rfl fun s hs => .inl (hall s hs)⟩
  · cases hresult.symm.trans hstop
  · have hfails' := h.fails_iff.mpr hfails
    refine ⟨.inr ⟨before, s, after, rfl, hboth hbefore, hfails, hfails'⟩, ?_⟩
    have hstop {o : Oracle α ρ} (hbefore : ∀ b ∈ before, o.Judges x y b true)
        (hfails : o.Fails x y s) :
        scan (some true) (o.inspect x y) 0 (before ++ s :: after) =
          scan (some true) (o.inspect x y) 0 (before ++ [s]) := by
      refine scan_append_of_stop (inspect_result hF) (found_of_judges hF hbefore) ?_ 0 after
      rw [hfails.inspect_result hF]
      exact nofun
    refine h.equivalent_eq_of_scan htrans hF (hstop hbefore hfails)
      (hstop (fun b hb => h.judges htrans (hbefore b hb)) hfails') fun t ht => ?_
    rcases List.mem_append.mp ht with hb | hs
    · exact .inl (hbefore t hb)
    · exact .inr (List.mem_singleton.mp hs ▸ hfails)
  · cases hresult.symm.trans hstop

end Raised

/-- A positive answer stands with every higher threshold. Both runs take the same histograms, end
the statistical tier at the same place, with the same failure if there is one, and go on to the
exact tier or not alike; their journals differ in the threshold that they note. -/
theorem equivalent_of_raised_threshold {F : Mode} {σ χ α : Type} [Generator σ] [EmptyCollection χ]
    [BEq α] [BEq F.Failure] (functions : Transcendental Float) :
    letI := GammaArithmetic.double functions
    letI := Elementary.double functions
    ∀ {o o' : Oracle α Float}, o.Relaxes o' → ∀ (states : List σ) (x y : Experiment F σ χ α),
      (o.equivalent states x y).result = .ok true →
      (o'.equivalent states x y).result = .ok true ∧
      o'.equivalent states x y =
        (o.equivalent states x y).mapLog (Notice.withThreshold o'.criterion.threshold) ∧
      (∀ (e : Experiment F σ χ α) s, o'.histogram e s = o.histogram e s) ∧
      (F ≠ .symbolic →
        (∀ s ∈ states, o.Judges x y s true ∧ o'.Judges x y s true) ∨
        ∃ before s after, states = before ++ s :: after ∧
          (∀ b ∈ before, o.Judges x y b true ∧ o'.Judges x y b true) ∧
          o.Fails x y s ∧ o'.Fails x y s) := by
  let _ := GammaArithmetic.double functions
  let _ := Elementary.double functions
  intro o o' h states x y hresult
  have htrans {a b c : Float} (hab : decide (a ≤ b) = true) (hbc : decide (b ≤ c) = true) :
      decide (a ≤ c) = true :=
    decide_eq_true (Double.le_trans (of_decide_eq_true hab) (of_decide_eq_true hbc))
  have hsame : o'.equivalent states x y =
      (o.equivalent states x y).mapLog (Notice.withThreshold o'.criterion.threshold) := by
    cases F with
    | identity => exact (h.ends_alike htrans Mode.identity_ne_symbolic hresult).2
    | fallible ε => exact (h.ends_alike htrans (Mode.fallible_ne_symbolic ε) hresult).2
    | symbolic => exact (mapLog_exactly _ states x y).symm
  exact ⟨(congrArg Traced.result hsame).trans hresult, hsame, h.histogram,
    fun hF => (h.ends_alike htrans hF hresult).1⟩

/-- One trial from every state, over tabulated functions. -/
def oneTrial (threshold : Float)
    (hthreshold : ((0.0 : Float) < threshold && threshold < (1.0 : Float)) = true) :
    @Oracle Bool Float _ (.double .tabulated) :=
  letI := GammaArithmetic.double .tabulated
  letI := Elementary.double .tabulated
  { space := ⟨[true], [2.0], by simp, by simp [Distinct], rfl, by decide +kernel⟩
    criterion := ⟨1, threshold, by decide, hthreshold⟩ }

theorem oneTrial_relaxes {threshold raised : Float}
    (hthreshold : ((0.0 : Float) < threshold && threshold < (1.0 : Float)) = true)
    (hraised : ((0.0 : Float) < raised && raised < (1.0 : Float)) = true)
    (hle : threshold ≤ raised) :
    letI := GammaArithmetic.double .tabulated
    (oneTrial threshold hthreshold).Relaxes (oneTrial raised hraised) :=
  letI := GammaArithmetic.double .tabulated
  ⟨rfl, rfl, decide_eq_true hle⟩

section Witness

open Experiment

theorem compares_evenWord (state : SplitMix) : Compares evenWord evenWord state true := by
  refine ⟨_, _, evenWord_sample state, evenWord_sample state, ?_⟩
  by_cases heven : (Generator.word state).1 % 2 = 0
  · rw [if_pos heven]
    rfl
  · rw [if_neg heven]
    rfl

theorem oneTrial_judges_evenWord :
    letI := GammaArithmetic.double .tabulated
    (oneTrial 0.5 (by decide)).Judges evenWord evenWord (SplitMix.ofSeed 4) true := by
  let _ := GammaArithmetic.double .tabulated
  let _ := Elementary.double .tabulated
  have heven : (evenWord.sample (Generator.branch 0 (SplitMix.ofSeed 4))).result =
      .ok (.ok true) := by
    rw [evenWord_sample]
    decide +kernel
  have hyields : evenWord.Yields (SplitMix.ofSeed 4) [⟨true, 0⟩] :=
    yields_cons.mpr ⟨heven, yields_nil _ _⟩
  have hlength : ([⟨true, 0⟩] : List (Counted Bool)).length = (1 : UInt64).toNat := rfl
  obtain ⟨table, htable, hsample⟩ := histogram_sample_of_ok (Mode.fallible_ne_symbolic String)
    (oneTrial 0.5 (by decide)).space hyields hlength
  have hentries : table = ⟨#[1], 0⟩ := htable.eq_tabulate.trans (by decide +kernel)
  subst hentries
  have hresult := congrArg Traced.result hsample
  exact ⟨_, _, ⟨-0.0, true⟩, hresult, hresult, by decide +kernel, rfl⟩

theorem oneTrial_fails_evenWord :
    letI := GammaArithmetic.double .tabulated
    (oneTrial 0.5 (by decide)).Fails evenWord evenWord (SplitMix.ofSeed 0) := by
  let _ := GammaArithmetic.double .tabulated
  let _ := Elementary.double .tabulated
  have hodd : (evenWord.sample (Generator.branch 0 (SplitMix.ofSeed 0))).result =
      .ok (.error "odd") := by
    rw [evenWord_sample]
    decide +kernel
  have hlength : ([] : List (Counted Bool)).length < (1 : UInt64).toNat := Nat.one_pos
  have hsample := histogram_sample_of_error (oneTrial 0.5 (by decide)).space
    (yields_nil evenWord (SplitMix.ofSeed 0)) hlength hodd
  exact .inl ⟨"odd", congrArg Traced.result hsample⟩

/-- The first state is judged to be equal, and the second one fails. -/
theorem equivalent_of_raised_threshold_evenWord :
    letI := GammaArithmetic.double .tabulated
    (oneTrial 0.5 (by decide)).Relaxes (oneTrial 0.75 (by decide)) ∧
      ((oneTrial 0.5 (by decide)).equivalent [SplitMix.ofSeed 4, SplitMix.ofSeed 0] evenWord
        evenWord).result = .ok true ∧
      ((oneTrial 0.75 (by decide)).equivalent [SplitMix.ofSeed 4, SplitMix.ofSeed 0] evenWord
        evenWord).result = .ok true := by
  let _ := GammaArithmetic.double .tabulated
  have hrelaxes := oneTrial_relaxes (by decide) (by decide) (show (0.5 : Float) ≤ 0.75 by decide)
  have hjudges : ∀ s ∈ [SplitMix.ofSeed 4],
      (oneTrial 0.5 (by decide)).Judges evenWord evenWord s true :=
    fun s hs => List.mem_singleton.mp hs ▸ oneTrial_judges_evenWord
  have hstop := equivalent_of_fails (Mode.fallible_ne_symbolic String) hjudges
    oneTrial_fails_evenWord []
  have hresult : ((oneTrial 0.5 (by decide)).equivalent [SplitMix.ofSeed 4, SplitMix.ofSeed 0]
      evenWord evenWord).result = .ok true := by
    rw [List.singleton_append] at hstop
    rw [hstop, Traced.result_after]
    exact exactly_result_eq_true.mpr fun t _ => compares_evenWord t
  exact ⟨hrelaxes, hresult,
    (equivalent_of_raised_threshold .tabulated hrelaxes _ _ _ hresult).1⟩

end Witness

end Oracle

end Aleatory
