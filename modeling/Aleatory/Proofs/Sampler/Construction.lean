import Aleatory.Generator.SplitMix
import Aleatory.Proofs.Numeric.Double
import Aleatory.Sampler.Direct

/-!
# The construction of samplers

Both families of samplers make the same promise about parameters: a sampler is built just for the
valid ones, and otherwise the error names the parameter that is at fault. The promise is a
structure, `Samplers.Keeps`, and what each family does is an instance of it. Sampling by inversion
keeps it for all parameters. Sampling from bits keeps it except for weights that are not negative
and have no finite total, which it neither accepts nor refuses: they fault (`samplers_keep`).
-/

namespace Aleatory

universe u

/-- The parameter that an error names. No weights at all are an error of its own kind. -/
def ParameterError.named? : ParameterError → Option String
  | noWeights => none
  | e => some e.parameter

/-- Parameters are accepted just if they are valid, and otherwise the error names the given one. -/
def Settles {β : Type u} (valid : Prop) (named? : Option String) :
    Except ParameterError β → Prop
  | .ok _ => valid
  | .error e => ¬valid ∧ e.named? = named?

/-- The samplers that a family can build. -/
structure Samplers (F : Mode) (σ χ : Type) where
  uniform : Float → Float → Except ParameterError (Experiment F σ χ Float)
  bernoulli : Float → Except ParameterError (Experiment F σ χ Bool)
  categorical : List Float → Except Fault (Except ParameterError (Experiment F σ χ Nat))
  exponential : Float → Except ParameterError (Experiment F σ χ Float)
  gumbel : Float → Float → Except ParameterError (Experiment F σ χ Float)

def Inverse.samplers {F : Mode} {σ χ : Type} [Generator σ] : Samplers F σ χ where
  uniform := uniform
  bernoulli := bernoulli
  categorical weights := .ok (categorical weights)
  exponential := exponential
  gumbel := gumbel

def Direct.samplers {F : Mode} {σ χ : Type} [Generator σ] : Samplers F σ χ where
  uniform := uniform
  bernoulli := bernoulli
  categorical := categorical
  exponential := exponential
  gumbel := gumbel

def PositiveFinite (x : Float) : Prop := 0.0 < x ∧ x.isFinite = true

def ValidInterval (low high : Float) : Prop :=
  low.isFinite = true ∧ high.isFinite = true ∧ (high - low).isFinite = true ∧ low < high

def ValidWeights (weights : List Float) : Prop :=
  weights ≠ [] ∧ (∀ w ∈ weights, w.isFinite = true ∧ 0.0 ≤ w) ∧
    PositiveFinite (totalWeight weights)

/-- Weights of which none is negative, and whose total is beyond the finite numbers. -/
def Unbounded (weights : List Float) : Prop :=
  (∀ w ∈ weights, 0.0 ≤ w) ∧ (totalWeight weights).isFinite = false

/-- The promise of a family of samplers, for all parameters; only lists of weights that are not
served may fault. -/
structure Samplers.Keeps {F : Mode} {σ χ : Type} (family : Samplers F σ χ)
    (served : List Float → Prop) : Prop where
  uniform : ∀ low high,
    Settles (ValidInterval low high) (some "low/high") (family.uniform low high)
  bernoulli : ∀ p, Settles (0.0 ≤ p ∧ p ≤ 1.0) (some "p") (family.bernoulli p)
  categorical : ∀ weights, served weights → ∃ answer,
    family.categorical weights = .ok answer ∧
      Settles (ValidWeights weights) (if weights = [] then none else some "weights") answer
  unserved : ∀ weights, ¬served weights → family.categorical weights = .error .unboundedTotal
  exponential : ∀ rate, Settles (PositiveFinite rate) (some "rate") (family.exponential rate)
  gumbel : ∀ location scale,
    Settles (location.isFinite = true ∧ PositiveFinite scale)
      (some (if location.isFinite then "scale" else "location")) (family.gumbel location scale)

/-! ## The checks -/

theorem isPositiveFinite_iff {x : Float} : isPositiveFinite x = true ↔ PositiveFinite x := by
  rw [isPositiveFinite, Bool.and_eq_true, decide_eq_true_iff, PositiveFinite]

/-- What is built after a check settles what the check settles. -/
theorem Settles.build {β : Type u} {valid : Prop} {named? : Option String}
    {check : Except ParameterError Unit} (h : Settles valid named? check) (sampler : β) :
    Settles valid named? (match check with | .ok () => .ok sampler | .error e => .error e) := by
  cases check with
  | ok _ => exact h
  | error e => exact h

/-- A check by one condition settles what the condition says. -/
theorem Settles.of_iff {valid condition : Prop} [Decidable condition] (h : condition ↔ valid)
    (e : ParameterError) :
    Settles valid e.named? (if condition then .ok () else .error e) := by
  by_cases hcondition : condition
  · rw [if_pos hcondition]
    exact h.mp hcondition
  · rw [if_neg hcondition]
    exact ⟨fun hvalid => hcondition (h.mpr hvalid), rfl⟩

theorem checkInterval_settles (low high : Float) :
    Settles (ValidInterval low high) (some "low/high") (checkInterval low high) := by
  rw [checkInterval]
  by_cases hfinite : (!low.isFinite || !high.isFinite || !(high - low).isFinite) = true
  · rw [if_pos hfinite]
    refine ⟨?_, rfl⟩
    rintro ⟨hlow, hhigh, hwidth, -⟩
    simp [hlow, hhigh, hwidth] at hfinite
  · rw [if_neg hfinite]
    obtain ⟨⟨hlow, hhigh⟩, hwidth⟩ :
        (low.isFinite = true ∧ high.isFinite = true) ∧ (high - low).isFinite = true := by
      simpa using hfinite
    by_cases hempty : high ≤ low
    · rw [if_pos hempty]
      exact ⟨fun h => (Double.not_le_iff_lt hlow hhigh).mpr h.2.2.2 hempty, rfl⟩
    · rw [if_neg hempty]
      exact ⟨hlow, hhigh, hwidth, (Double.not_le_iff_lt hlow hhigh).mp hempty⟩

theorem checkProbability_settles (p : Float) :
    Settles (0.0 ≤ p ∧ p ≤ 1.0) (some "p") (checkProbability p) :=
  .of_iff Iff.rfl (.improbable p)

theorem checkRate_settles (rate : Float) :
    Settles (PositiveFinite rate) (some "rate") (checkRate rate) :=
  .of_iff isPositiveFinite_iff (.badRate rate)

theorem checkLocationScale_settles (location scale : Float) :
    Settles (location.isFinite = true ∧ PositiveFinite scale)
      (some (if location.isFinite then "scale" else "location"))
      (checkLocationScale location scale) := by
  rw [checkLocationScale]
  cases hlocation : location.isFinite with
  | false => exact ⟨fun h => Bool.false_ne_true h.1, rfl⟩
  | true =>
      have hscale : isPositiveFinite scale = true ↔ true = true ∧ PositiveFinite scale := by
        rw [isPositiveFinite_iff, eq_self, true_and]
      exact .of_iff hscale (.badScale scale)

/-- The search for a weight to refuse finds none just if there is none. -/
theorem find?_badWeight_eq_none {weights : List Float} :
    (weights.zipIdx.find? fun (w, _) => !w.isFinite || w < 0.0) = none ↔
      ∀ w ∈ weights, w.isFinite = true ∧ 0.0 ≤ w := by
  have hgood (w : Float) : ¬(!w.isFinite || w < 0.0) = true ↔ w.isFinite = true ∧ 0.0 ≤ w := by
    cases hfinite : w.isFinite with
    | false => simp
    | true => simpa using Double.not_lt_iff_le (a := 0.0) rfl hfinite
  have hfst : weights.zipIdx.map Prod.fst = weights := List.zipIdx_map_fst 0 weights
  rw [List.find?_eq_none]
  constructor
  · intro h w hw
    rw [← hfst] at hw
    obtain ⟨entry, hentry, rfl⟩ := List.mem_map.mp hw
    exact (hgood entry.1).mp (h entry hentry)
  · intro h entry hentry
    exact (hgood entry.1).mpr (h entry.1 (hfst ▸ List.mem_map_of_mem hentry))

theorem checkWeights_settles (weights : List Float) :
    Settles (ValidWeights weights) (if weights = [] then none else some "weights")
      (checkWeights weights) := by
  rw [checkWeights]
  by_cases hempty : weights = []
  · subst hempty
    exact ⟨fun h => h.1 rfl, rfl⟩
  · rw [if_neg hempty, if_neg (by simpa using hempty)]
    cases hbad : weights.zipIdx.find? fun (w, _) => !w.isFinite || w < 0.0 with
    | some found =>
        refine ⟨fun h => ?_, rfl⟩
        rw [find?_badWeight_eq_none.mpr h.2.1] at hbad
        cases hbad
    | none =>
        refine .of_iff ?_ (.badTotal (totalWeight weights))
        rw [isPositiveFinite_iff]
        exact ⟨fun htotal => ⟨hempty, find?_badWeight_eq_none.mp hbad, htotal⟩, fun h => h.2.2⟩

/-! ## The samplers that check by themselves -/

namespace Direct

variable {F : Mode} {σ χ : Type} [Generator σ]

theorem bernoulli_settles (p : Float) :
    Settles (0.0 ≤ p ∧ p ≤ 1.0) (some "p") (bernoulli p : Except _ (Experiment F σ χ Bool)) := by
  rw [bernoulli]
  by_cases hbelow : 0.0 ≤ p ∧ p < 1.0
  · rw [if_pos hbelow]
    exact ⟨hbelow.1, Double.le_iff_lt_or_beq.mpr (.inl hbelow.2)⟩
  · rw [if_neg hbelow]
    by_cases hone : (p == 1.0) = true
    · rw [if_pos hone]
      exact ⟨Double.zero_le_of_beq_one hone, Double.le_iff_lt_or_beq.mpr (.inr hone)⟩
    · rw [if_neg hone]
      refine ⟨fun ⟨hzero, hp⟩ => ?_, rfl⟩
      rcases Double.le_iff_lt_or_beq.mp hp with hlt | hbeq
      · exact hbelow ⟨hzero, hlt⟩
      · exact hone hbeq

theorem runningSums_getLastD (weights : List Float) :
    (Inverse.runningSums weights).getLastD 0.0 = weights.foldl (· + ·) 0.0 := by
  have key (weights : List Float) : ∀ start : Float,
      (Inverse.runningSums.go start weights).getLastD start = weights.foldl (· + ·) start := by
    induction weights with
    | nil => exact fun _ => rfl
    | cons w rest ih =>
        intro start
        rw [Inverse.runningSums.go, List.getLastD_cons, ih, List.foldl_cons]
  exact key weights 0.0

/-- The last running sum is started at the other zero than the total, which makes no difference to
what is asked of it. -/
theorem total_alike (weights : List Float) :
    (weights.foldl (· + ·) 0.0).isFinite = (totalWeight weights).isFinite ∧
      (0.0 < weights.foldl (· + ·) 0.0 ↔ 0.0 < totalWeight weights) := by
  rw [totalWeight, Elementary.sum]
  rcases Double.foldl_negZero weights with h | ⟨hneg, hzero⟩
  · exact ⟨congrArg Float.isFinite h.symm, by rw [← h]⟩
  · rw [hneg, hzero]
    decide

variable {weights : List Float}

theorem any_negative_eq_false (h : ∀ w ∈ weights, 0.0 ≤ w) :
    (weights.any fun w => !(0.0 ≤ w)) = false := by
  rw [List.any_eq_false]
  intro w hw
  simp [h w hw]

/-- Weights are settled unless none is negative and their total is beyond the finite numbers. -/
theorem categorical_settles (h : ¬Unbounded weights) :
    ∃ answer, (categorical weights : Except Fault (Except _ (Experiment F σ χ Nat))) = .ok answer ∧
      Settles (ValidWeights weights) (if weights = [] then none else some "weights") answer := by
  simp only [categorical, runningSums_getLastD]
  by_cases hempty : weights = []
  · subst hempty
    exact ⟨_, rfl, fun h => h.1 rfl, rfl⟩
  rw [if_neg hempty, if_neg (by simpa using hempty)]
  by_cases hnonneg : ∀ w ∈ weights, 0.0 ≤ w
  · have hfinite : (totalWeight weights).isFinite = true :=
      Bool.of_not_eq_false fun hinfinite => h ⟨hnonneg, hinfinite⟩
    obtain ⟨hfinite_iff, hpos_iff⟩ := total_alike weights
    have hpos := Double.zero_lt_iff_of_zero_le (Double.zero_le_foldl Double.zero_le_zero hnonneg)
    rw [any_negative_eq_false hnonneg, hfinite_iff, hfinite]
    cases hzero : weights.foldl (· + ·) 0.0 == 0.0 with
    | true =>
        refine ⟨_, rfl, fun hvalid => ?_, rfl⟩
        have hfalse := hpos.mp (hpos_iff.mpr hvalid.2.2.1)
        rw [hzero] at hfalse
        cases hfalse
    | false =>
        exact ⟨_, rfl, hempty,
          fun w hw => ⟨(Double.isFinite_of_foldl hfinite).2 w hw, hnonneg w hw⟩,
          hpos_iff.mp (hpos.mpr hzero), hfinite⟩
  · have hany : (weights.any fun w => !(0.0 ≤ w)) = true := by simpa using hnonneg
    rw [hany]
    exact ⟨_, rfl, fun hvalid => hnonneg fun w hw => (hvalid.2.1 w hw).2, rfl⟩

/-- A total beyond the finite numbers passes all the checks and leaves nothing to build. -/
theorem categorical_of_unbounded (h : Unbounded weights) :
    (categorical weights : Except Fault (Except _ (Experiment F σ χ Nat))) =
      .error .unboundedTotal := by
  obtain ⟨hnonneg, hinfinite⟩ := h
  have hempty : weights ≠ [] := by
    rintro rfl
    cases hinfinite
  have htotal : (weights.foldl (· + ·) 0.0).isFinite = false :=
    (total_alike weights).1.trans hinfinite
  have hzero : (weights.foldl (· + ·) 0.0 == 0.0) = false := by
    cases h : weights.foldl (· + ·) 0.0 == 0.0 with
    | false => rfl
    | true =>
        rw [Double.isFinite_of_beq_zero h] at htotal
        cases htotal
  simp only [categorical, runningSums_getLastD, any_negative_eq_false hnonneg, htotal, hzero]
  rw [if_neg (by simpa using hempty)]
  rfl

end Direct

/-- What becomes of the parameters of samplers. By inversion all of them are settled, and from bits
all but unbounded weights, which fault. -/
theorem samplers_keep (F : Mode) (σ χ : Type) [Generator σ] :
    (Inverse.samplers : Samplers F σ χ).Keeps (fun _ => True) ∧
      (Direct.samplers : Samplers F σ χ).Keeps (fun weights => ¬Unbounded weights) := by
  constructor
  · exact {
      uniform := fun low high => (checkInterval_settles low high).build _
      bernoulli := fun p => (checkProbability_settles p).build _
      categorical := fun weights _ => ⟨_, rfl, (checkWeights_settles weights).build _⟩
      unserved := fun _ h => absurd trivial h
      exponential := fun rate => (checkRate_settles rate).build _
      gumbel := fun location scale => (checkLocationScale_settles location scale).build _ }
  · exact {
      uniform := fun low high => (checkInterval_settles low high).build _
      bernoulli := Direct.bernoulli_settles
      categorical := fun _ h => Direct.categorical_settles h
      unserved := fun _ h => Direct.categorical_of_unbounded (Classical.not_not.mp h)
      exponential := fun rate => (checkRate_settles rate).build _
      gumbel := fun location scale => (checkLocationScale_settles location scale).build _ }

/-- An infinite weight is refused by one family, and makes the other one fault. -/
theorem categorical_infinite_weight :
    (Inverse.categorical [1.0, 1.0 / 0.0] :
        Except ParameterError (Experiment .identity SplitMix Unit Nat)) =
      .error (.badWeight 1 (1.0 / 0.0)) ∧
    (Direct.categorical [1.0, 1.0 / 0.0] :
        Except Fault (Except ParameterError (Experiment .identity SplitMix Unit Nat))) =
      .error .unboundedTotal ∧
    ¬(Direct.samplers : Samplers .identity SplitMix Unit).Keeps fun _ => True := by
  have hfault : (Direct.categorical [1.0, 1.0 / 0.0] :
      Except Fault (Except ParameterError (Experiment .identity SplitMix Unit Nat))) =
        .error .unboundedTotal := by
    rfl
  refine ⟨by rfl, hfault, fun hkeeps => ?_⟩
  obtain ⟨answer, hanswer, -⟩ := hkeeps.categorical [1.0, 1.0 / 0.0] trivial
  cases hfault.symm.trans hanswer

end Aleatory
