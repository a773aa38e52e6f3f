import Aleatory.Proofs.Likelihood.Probability
import Mathlib.Order.Bounds.Basic

/-!
# What the checks of a sample space refuse, and what they are good for

Four things may be wrong with outcomes and prior entries, and they are looked for in a fixed order.
`SampleSpace.Checked` says when each of them is reported, with the least index at which it is
found, and that there is a sample space of just the given lists otherwise.

The outcomes that pass are told apart by an equality that is symmetric and transitive: no two of
them equal one value. So the index of a value is unambiguous, whether or not the equality is
reflexive (`SampleSpace.ofPrior_validates`).
-/

namespace Aleatory

open Double Float.Model

/-- The outcome at an index equals one before it. -/
def Repeats {α : Type} [BEq α] (outcomes : List α) (i : ℕ) : Prop :=
  ∃ outcome, outcomes[i]? = some outcome ∧ ∃ e ∈ outcomes.take i, (e == outcome) = true

/-- What no entry of a prior may be. -/
def Unusable (entry : Float) : Prop :=
  entry.isNaN = true ∨ entry.isInf = true ∨ (entry == 0.0) = true ∨ entry < 0.0

/-- The prior entry at an index is none that a prior may have. -/
def Spoils (prior : List Float) (i : ℕ) : Prop :=
  ∃ entry, prior[i]? = some entry ∧ Unusable entry

/-! ## The least index of a duplicate -/

section Duplicates

variable {α : Type} [BEq α]

/-- The least index is counted from the index of the first outcome, behind the earlier ones. -/
theorem isLeast_of_duplicateFrom? {earlier outcomes : List α} {index k : ℕ}
    (h : duplicateFrom? earlier index outcomes = some k) :
    index ≤ k ∧ IsLeast {i | ∃ outcome, outcomes[i]? = some outcome ∧
      ∃ e ∈ earlier ++ outcomes.take i, (e == outcome) = true} (k - index) := by
  induction outcomes generalizing earlier index with
  | nil => cases h
  | cons outcome rest ih =>
      rw [duplicateFrom?] at h
      split at h
      · rename_i hany
        obtain rfl := Option.some.inj h
        obtain ⟨e, he, heq⟩ := List.any_eq_true.mp hany
        rw [Nat.sub_self]
        exact ⟨le_rfl, ⟨outcome, rfl, e, by simpa using he, heq⟩, fun _ _ => Nat.zero_le _⟩
      · rename_i hany
        obtain ⟨hle, ⟨o, ho, e, he, heq⟩, hleast⟩ := ih h
        obtain ⟨d, rfl⟩ : ∃ d, k = index + 1 + d := ⟨k - (index + 1), by omega⟩
        have hnext : index + 1 + d - index = d + 1 := by omega
        rw [Nat.add_sub_cancel_left] at ho he hleast
        rw [hnext]
        refine ⟨by omega, ⟨o, ho, e, by simpa [List.append_assoc] using he, heq⟩, ?_⟩
        rintro (_ | i) ⟨o', ho', e', he', heq'⟩
        · obtain rfl := Option.some.inj ho'
          exact absurd (List.any_eq_true.mpr ⟨e', by simpa using he', heq'⟩) hany
        · exact Nat.succ_le_succ
            (hleast ⟨o', ho', e', by simpa [List.append_assoc] using he', heq'⟩)

theorem isLeast_of_duplicate? {outcomes : List α} {i : ℕ} (h : duplicate? outcomes = some i) :
    IsLeast {i | Repeats outcomes i} i :=
  (isLeast_of_duplicateFrom? h).2

theorem Repeats.ne_nil {outcomes : List α} {i : ℕ} (h : Repeats outcomes i) : outcomes ≠ [] := by
  obtain ⟨_, hi, _⟩ := h
  rintro rfl
  cases hi

theorem Distinct.not_repeats {outcomes : List α} (h : Distinct outcomes) (i : ℕ) :
    ¬Repeats outcomes i := by
  rintro ⟨outcome, hi, e, he, heq⟩
  obtain ⟨hlt, rfl⟩ := List.getElem?_eq_some_iff.mp hi
  obtain ⟨j, hj, rfl⟩ := List.mem_take_iff_getElem.mp he
  have hfalse := List.pairwise_iff_getElem.mp h j i (by omega) hlt (by omega)
  exact Bool.false_ne_true (hfalse.symm.trans heq)

end Duplicates

/-! ## The least index of a bad entry -/

theorem isPriorEntry_eq_false_iff {entry : Float} :
    isPriorEntry entry = false ↔ Unusable entry := by
  change ((view entry).isFinite && decide (0.0 < entry)) = false ↔
    (view entry).isNaN = true ∨ (view entry).isInf = true ∨ _
  rw [Bool.and_eq_false_iff, decide_eq_false_iff_not, lt_iff, beq_iff, lt_iff, view_zero]
  rcases view entry with (_ | _) | _ | (_ | _) | ⟨_ | _, _, _, _⟩ <;>
    simp [UnpackedFloat.isFinite, UnpackedFloat.isNaN, UnpackedFloat.isInf, UnpackedFloat.compare]

theorem isLeast_of_badEntry? {prior : List Float} {entry : Float} {i : ℕ}
    (h : badEntry? prior = some (entry, i)) :
    prior[i]? = some entry ∧ IsLeast {i | Spoils prior i} i := by
  obtain ⟨hbad, k, hk, hpair, hbefore⟩ := List.find?_eq_some_iff_getElem.mp h
  rw [List.length_zipIdx] at hk
  rw [List.getElem_zipIdx, Prod.mk.injEq, Nat.zero_add] at hpair
  obtain ⟨rfl, rfl⟩ := hpair
  have hentry := List.getElem?_eq_getElem hk
  refine ⟨hentry, ⟨_, hentry, isPriorEntry_eq_false_iff.mp (by simpa using hbad)⟩, ?_⟩
  rintro j ⟨entry', hj, hunusable⟩
  by_contra hlt
  obtain ⟨hj', rfl⟩ := List.getElem?_eq_some_iff.mp hj
  have hgood := hbefore j (by omega)
  rw [List.getElem_zipIdx] at hgood
  change (!!isPriorEntry prior[j]) = true at hgood
  rw [isPriorEntry_eq_false_iff.mpr hunusable] at hgood
  cases hgood

/-! ## The checks in order -/

namespace SampleSpace

variable {α : Type} [BEq α]

/-- Nothing is wrong with outcomes and prior entries. -/
structure Sound (outcomes : List α) (prior : List Float) : Prop where
  nonempty : outcomes ≠ []
  not_repeats : ∀ i, ¬Repeats outcomes i
  aligned : prior.length = outcomes.length
  not_spoils : ∀ i, ¬Spoils prior i

theorem sound (space : SampleSpace α Float) : Sound space.outcomes space.prior where
  nonempty := space.nonempty
  not_repeats := space.distinct.not_repeats
  aligned := space.aligned
  not_spoils := by
    rintro i ⟨entry, hi, hunusable⟩
    have hpositive := space.positive entry (List.mem_of_getElem? hi)
    rw [isPriorEntry_eq_false_iff.mpr hunusable] at hpositive
    cases hpositive

/-- How outcomes and prior entries fare with the checks. -/
inductive Checked (outcomes : List α) (prior : List Float) :
    Except (SetupError Float) (SampleSpace α Float) → Prop
  | noOutcomes (hnone : outcomes = []) : Checked outcomes prior (.error .noOutcomes)
  | duplicateOutcome {i : ℕ} (hleast : IsLeast {i | Repeats outcomes i} i) :
      Checked outcomes prior (.error (.duplicateOutcome i))
  | priorLength (hsome : outcomes ≠ []) (hdistinct : ∀ i, ¬Repeats outcomes i)
      (hlength : prior.length ≠ outcomes.length) :
      Checked outcomes prior (.error (.priorLength outcomes.length prior.length))
  | badPrior {i : ℕ} {entry : Float} (hsome : outcomes ≠ [])
      (hdistinct : ∀ i, ¬Repeats outcomes i) (hlength : prior.length = outcomes.length)
      (hentry : prior[i]? = some entry) (hleast : IsLeast {i | Spoils prior i} i) :
      Checked outcomes prior (.error (.badPrior i entry))
  | accepted {space : SampleSpace α Float} (hsound : Sound outcomes prior)
      (houtcomes : space.outcomes = outcomes) (hprior : space.prior = prior) :
      Checked outcomes prior (.ok space)

theorem Checked.of_space (space : SampleSpace α Float) :
    Checked space.outcomes space.prior (.ok space) :=
  .accepted space.sound rfl rfl

theorem ofPrior_checked (outcomes : List α) (prior : List Float) :
    Checked outcomes prior (ofPrior outcomes prior) := by
  rw [ofPrior]
  split
  · rename_i hnone
    exact .noOutcomes hnone
  · rename_i hsome
    split
    · rename_i i hduplicate
      exact .duplicateOutcome (isLeast_of_duplicate? hduplicate)
    · rename_i hduplicate
      have hdistinct := (distinct_of_duplicate?_eq_none hduplicate).not_repeats
      split
      · rename_i hlength
        split
        · rename_i entry i hbad
          obtain ⟨hentry, hleast⟩ := isLeast_of_badEntry? hbad
          exact .badPrior hsome hdistinct hlength hentry hleast
        · exact .of_space ⟨outcomes, prior, _, _, _, _⟩
      · rename_i hlength
        exact .priorLength hsome hdistinct hlength

section

variable {outcomes : List α} {prior : List Float}
  {result : Except (SetupError Float) (SampleSpace α Float)}

theorem Checked.of_nil (h : Checked outcomes prior result) (hnone : outcomes = []) :
    result = .error .noOutcomes := by
  cases h with
  | noOutcomes => rfl
  | duplicateOutcome hleast => exact absurd hnone hleast.1.ne_nil
  | priorLength hsome | badPrior hsome => exact absurd hnone hsome
  | accepted hsound => exact absurd hnone hsound.nonempty

theorem Checked.of_repeats (h : Checked outcomes prior result) {i : ℕ}
    (hleast : IsLeast {i | Repeats outcomes i} i) : result = .error (.duplicateOutcome i) := by
  cases h with
  | noOutcomes hnone => exact absurd hnone hleast.1.ne_nil
  | duplicateOutcome hleast' => rw [hleast.unique hleast']
  | priorLength _ hdistinct | badPrior _ hdistinct => exact absurd hleast.1 (hdistinct i)
  | accepted hsound => exact absurd hleast.1 (hsound.not_repeats i)

theorem Checked.of_length (h : Checked outcomes prior result) (hsome : outcomes ≠ [])
    (hdistinct : ∀ i, ¬Repeats outcomes i) (hlength : prior.length ≠ outcomes.length) :
    result = .error (.priorLength outcomes.length prior.length) := by
  cases h with
  | noOutcomes hnone => exact absurd hnone hsome
  | duplicateOutcome hleast => exact absurd hleast.1 (hdistinct _)
  | priorLength => rfl
  | badPrior _ _ hlength' => exact absurd hlength' hlength
  | accepted hsound => exact absurd hsound.aligned hlength

theorem Checked.of_spoils (h : Checked outcomes prior result) (hsome : outcomes ≠ [])
    (hdistinct : ∀ i, ¬Repeats outcomes i) (hlength : prior.length = outcomes.length) {i : ℕ}
    {entry : Float} (hentry : prior[i]? = some entry) (hleast : IsLeast {i | Spoils prior i} i) :
    result = .error (.badPrior i entry) := by
  cases h with
  | noOutcomes hnone => exact absurd hnone hsome
  | duplicateOutcome hleast' => exact absurd hleast'.1 (hdistinct _)
  | priorLength _ _ hlength' => exact absurd hlength hlength'
  | badPrior _ _ _ hentry' hleast' =>
      obtain rfl := hleast.unique hleast'
      rw [Option.some.inj (hentry.symm.trans hentry')]
  | accepted hsound => exact absurd hleast.1 (hsound.not_spoils i)

end

theorem exists_of_sound {outcomes : List α} {prior : List Float} (h : Sound outcomes prior) :
    ∃ space, ofPrior outcomes prior = .ok space := by
  have hchecked := ofPrior_checked outcomes prior
  generalize ofPrior outcomes prior = result at hchecked
  cases hchecked with
  | noOutcomes hnone => exact absurd hnone h.nonempty
  | duplicateOutcome hleast => exact absurd hleast.1 (h.not_repeats _)
  | priorLength _ _ hlength => exact absurd h.aligned hlength
  | badPrior _ _ _ _ hleast => exact absurd hleast.1 (h.not_spoils _)
  | accepted _ _ _ => exact ⟨_, rfl⟩

/-- Where a value stands among outcomes. -/
def StandsAt (outcomes : List α) (value : α) (i : ℕ) : Prop :=
  ∃ outcome, outcomes[i]? = some outcome ∧ (outcome == value) = true

theorem indexOf?_eq_none_iff (space : SampleSpace α Float) (value : α) :
    space.indexOf? value = none ↔ ∀ i, ¬StandsAt space.outcomes value i := by
  rw [indexOf?, List.findIdx?_eq_none_iff]
  constructor
  · rintro h i ⟨outcome, hi, heq⟩
    exact Bool.false_ne_true ((h outcome (List.mem_of_getElem? hi)).symm.trans heq)
  · intro h outcome hmem
    obtain ⟨i, hi⟩ := List.mem_iff_getElem?.mp hmem
    exact Bool.eq_false_iff.mpr fun heq => h i ⟨outcome, hi, heq⟩

theorem standsAt_of_indexOf? {space : SampleSpace α Float} {value : α} {i : ℕ}
    (h : space.indexOf? value = some i) : StandsAt space.outcomes value i := by
  obtain ⟨hlt, heq, -⟩ := List.findIdx?_eq_some_iff_getElem.mp h
  exact ⟨space.outcomes[i], List.getElem?_eq_getElem hlt, heq⟩

section Indexing

variable (hsymm : ∀ a b : α, (a == b) = true → (b == a) = true)
  (htrans : ∀ a b c : α, (a == b) = true → (b == c) = true → (a == c) = true)

include hsymm htrans

/-- Two outcomes that equal one value equal each other. -/
theorem not_lt_of_standsAt {space : SampleSpace α Float} {value : α} {i j : ℕ}
    (hi : StandsAt space.outcomes value i) (hj : StandsAt space.outcomes value j) : ¬i < j := by
  intro hlt
  obtain ⟨earlier, hearlier, heq⟩ := hi
  obtain ⟨later, hlater, heq'⟩ := hj
  refine space.sound.not_repeats j ⟨later, hlater, earlier, ?_, htrans _ _ _ heq (hsymm _ _ heq')⟩
  rw [List.mem_iff_getElem?]
  exact ⟨i, by rw [List.getElem?_take_of_lt hlt, hearlier]⟩

theorem standsAt_unique {space : SampleSpace α Float} {value : α} {i j : ℕ}
    (hi : StandsAt space.outcomes value i) (hj : StandsAt space.outcomes value j) : i = j := by
  have hle := not_lt_of_standsAt hsymm htrans hi hj
  have hge := not_lt_of_standsAt hsymm htrans hj hi
  omega

theorem indexOf?_eq_some_iff (space : SampleSpace α Float) (value : α) (i : ℕ) :
    space.indexOf? value = some i ↔ StandsAt space.outcomes value i := by
  refine ⟨standsAt_of_indexOf?, fun hi => ?_⟩
  cases hindex : space.indexOf? value with
  | none => exact absurd hi ((indexOf?_eq_none_iff space value).mp hindex i)
  | some j => rw [standsAt_unique hsymm htrans hi (standsAt_of_indexOf? hindex)]

end Indexing

/-- Outcomes and prior entries are refused for the first of four things that is wrong with them,
at the least index where it is: that there are no outcomes, that one equals an earlier one, that
the entries are not as many, or that one of them is no finite positive number. Else they make up a
sample space, and there a value stands at one index at most, which is the one that is found. -/
theorem ofPrior_validates (hsymm : ∀ a b : α, (a == b) = true → (b == a) = true)
    (htrans : ∀ a b c : α, (a == b) = true → (b == c) = true → (a == c) = true)
    (outcomes : List α) (prior : List Float) :
    (ofPrior outcomes prior = .error .noOutcomes ↔ outcomes = []) ∧
    (∀ i, ofPrior outcomes prior = .error (.duplicateOutcome i) ↔
      IsLeast {i | Repeats outcomes i} i) ∧
    (∀ n m, ofPrior outcomes prior = .error (.priorLength n m) ↔
      outcomes ≠ [] ∧ (∀ i, ¬Repeats outcomes i) ∧
        n = outcomes.length ∧ m = prior.length ∧ m ≠ n) ∧
    (∀ i entry, ofPrior outcomes prior = .error (.badPrior i entry) ↔
      outcomes ≠ [] ∧ (∀ i, ¬Repeats outcomes i) ∧ prior.length = outcomes.length ∧
        prior[i]? = some entry ∧ IsLeast {i | Spoils prior i} i) ∧
    ((∃ space, ofPrior outcomes prior = .ok space) ↔ Sound outcomes prior) ∧
    ∀ space, ofPrior outcomes prior = .ok space →
      space.outcomes = outcomes ∧ space.prior = prior ∧ prior.length = outcomes.length ∧
      (∀ value, (∀ i j, StandsAt outcomes value i → StandsAt outcomes value j → i = j) ∧
        (∀ i, space.indexOf? value = some i ↔ StandsAt outcomes value i) ∧
        (space.indexOf? value = none ↔ ∀ i, ¬StandsAt outcomes value i)) ∧
      ∀ i outcome, outcomes[i]? = some outcome → (outcome == outcome) = true →
        space.indexOf? outcome = some i := by
  have hchecked := ofPrior_checked outcomes prior
  refine ⟨⟨fun h => ?_, fun hnone => hchecked.of_nil hnone⟩,
    fun i => ⟨fun h => ?_, fun hleast => hchecked.of_repeats hleast⟩,
    fun n m => ⟨fun h => ?_, ?_⟩, fun i entry => ⟨fun h => ?_, ?_⟩, ⟨?_, exists_of_sound⟩, ?_⟩
  · rw [h] at hchecked
    cases hchecked with
    | noOutcomes hnone => exact hnone
  · rw [h] at hchecked
    cases hchecked with
    | duplicateOutcome hleast => exact hleast
  · rw [h] at hchecked
    cases hchecked with
    | priorLength hsome hdistinct hlength => exact ⟨hsome, hdistinct, rfl, rfl, hlength⟩
  · rintro ⟨hsome, hdistinct, rfl, rfl, hlength⟩
    exact hchecked.of_length hsome hdistinct hlength
  · rw [h] at hchecked
    cases hchecked with
    | badPrior hsome hdistinct hlength hentry hleast =>
        exact ⟨hsome, hdistinct, hlength, hentry, hleast⟩
  · rintro ⟨hsome, hdistinct, hlength, hentry, hleast⟩
    exact hchecked.of_spoils hsome hdistinct hlength hentry hleast
  · rintro ⟨space, h⟩
    rw [h] at hchecked
    cases hchecked with
    | accepted hsound _ _ => exact hsound
  · intro space h
    rw [h] at hchecked
    cases hchecked with
    | accepted hsound houtcomes hprior =>
        subst houtcomes hprior
        refine ⟨rfl, rfl, space.aligned, fun value => ⟨fun i j => standsAt_unique hsymm htrans,
          indexOf?_eq_some_iff hsymm htrans space value, indexOf?_eq_none_iff space value⟩, ?_⟩
        intro i outcome hi hself
        exact (indexOf?_eq_some_iff hsymm htrans space outcome i).mpr ⟨outcome, hi, hself⟩

section Witness

/-- One between two NaNs, which do not equal each other. -/
def amongNaNs : List Float := [0.0 / 0.0, 1.0, 0.0 / 0.0]

/-- One, the two zeros, which equal each other, and one again. -/
def zerosAmongOnes : List Float := [1.0, 0.0, -0.0, 1.0]

/-- NaN may be an outcome any number of times and is found at none of them; the two zeros are one
outcome. -/
theorem ofPrior_validates_nans :
    ((∀ a b : Float, (a == b) = true → (b == a) = true) ∧
      ∀ a b c : Float, (a == b) = true → (b == c) = true → (a == c) = true) ∧
    (∃ space, ofPrior amongNaNs [0.5, 2.0, 0.5] = .ok space ∧
      space.indexOf? 1.0 = some 1 ∧ space.indexOf? (0.0 / 0.0) = none) ∧
    ofPrior zerosAmongOnes [1.0] = .error (.duplicateOutcome 2) := by
  have hdistinct : Distinct amongNaNs := distinct_of_duplicate?_eq_none (by decide +kernel)
  have hok : ∃ space, ofPrior amongNaNs [0.5, 2.0, 0.5] = .ok space :=
    ⟨_, ofPrior_self ⟨amongNaNs, [0.5, 2.0, 0.5], List.cons_ne_nil _ _, hdistinct, by decide,
      by decide +kernel⟩⟩
  obtain ⟨-, -, -, -, -, hindex⟩ := ofPrior_validates (fun _ _ => beq_symm)
    (fun _ _ _ => beq_trans) amongNaNs [0.5, 2.0, 0.5]
  obtain ⟨-, hduplicate, -⟩ := ofPrior_validates (fun _ _ => beq_symm)
    (fun _ _ _ => beq_trans) zerosAmongOnes [1.0]
  obtain ⟨space, hspace⟩ := hok
  obtain ⟨-, -, -, hvalue, hself⟩ := hindex space hspace
  refine ⟨⟨fun _ _ => beq_symm, fun _ _ _ => beq_trans⟩,
    ⟨space, hspace, hself 1 1.0 rfl (by decide), (hvalue _).2.2.mpr ?_⟩, (hduplicate 2).mpr ?_⟩
  · rintro i ⟨outcome, -, heq⟩
    rw [beq_nan (by decide)] at heq
    cases heq
  · exact isLeast_of_duplicate? (by decide +kernel)

end Witness

end SampleSpace

end Aleatory
