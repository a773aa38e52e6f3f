import Aleatory.Equivalence.Oracle
import Aleatory.Proofs.Likelihood.Bounds

/-!
# The probability of a difference in doubles

A comparison answers with a number between zero and one whenever the two likelihoods are numbers,
and they are as long as no entry of the prior is extremely large. The entries of a prior are
checked one by one, but the likelihoods sum them up: where the sum overflows, the probability is
NaN, and no threshold is at or above it.
-/

namespace Aleatory

namespace SampleSpace

variable {α ρ : Type} [BEq α]

theorem duplicateFrom?_eq_none {earlier outcomes : List α} (index : Nat)
    (hdistinct : Distinct outcomes) (hsep : ∀ e ∈ earlier, ∀ o ∈ outcomes, (e == o) = false) :
    duplicateFrom? earlier index outcomes = none := by
  induction outcomes generalizing earlier index with
  | nil => rfl
  | cons outcome rest ih =>
      obtain ⟨hhead, hrest⟩ := List.pairwise_cons.mp hdistinct
      have hany : ¬earlier.any (· == outcome) = true := by
        rw [List.any_eq_true]
        rintro ⟨e, he, heq⟩
        rw [hsep e he outcome List.mem_cons_self] at heq
        cases heq
      rw [duplicateFrom?, if_neg hany]
      refine ih _ hrest fun e he o ho => ?_
      rcases List.mem_append.mp he with he | he
      · exact hsep e he o (List.mem_cons_of_mem _ ho)
      · rw [List.mem_singleton.mp he]
        exact hhead o ho

/-- What a sample space is made of passes the checks that make one. -/
theorem ofPrior_self [Elementary ρ] (space : SampleSpace α ρ) :
    ofPrior space.outcomes space.prior = .ok space := by
  have hduplicate : duplicate? space.outcomes = none :=
    duplicateFrom?_eq_none 0 space.distinct nofun
  have hentries : badEntry? space.prior = none := by
    refine List.find?_eq_none.mpr fun entry hentry => ?_
    have hvalid := space.positive entry.1 (List.fst_mem_of_mem_zipIdx hentry)
    simp [hvalid]
  rw [ofPrior, dif_neg space.nonempty]
  split
  · rename_i h
    rw [hduplicate] at h
    cases h
  · rw [dif_pos space.aligned]
    split
    · rename_i h
      rw [hentries] at h
      cases h
    · rfl

end SampleSpace

theorem BayesTest.verdict_of_probability {ρ : Type} [GammaArithmetic ρ] {t : BayesTest ρ}
    {first second : Histogram} {p : ρ}
    (hp : Likelihood.probabilityOfDifference first.counts.toList second.counts.toList t.prior =
      .ok p) :
    t.verdict first second = .ok ⟨p, Elementary.le p t.threshold⟩ := by
  rw [verdict, hp]

namespace Likelihood

open Double

section

variable {α : Type} [BEq α] {functions : Transcendental Float} (space : SampleSpace α Float)
  {first second : Histogram} {n m : UInt64}

theorem length_counts {h : Histogram} (hsize : h.counts.size = space.size) :
    h.counts.toList.length = space.prior.length := by
  rw [Array.length_toList, hsize, space.aligned]
  rfl

/-- Histograms of the size of the sample space whose totals fit in 64 bits have likelihoods. -/
theorem exists_likelihoods (functions : Transcendental Float)
    (hfirst : first.counts.size = space.size) (hsecond : second.counts.size = space.size)
    (hn : first.total = .ok n) (hm : second.total = .ok m) :
    letI := GammaArithmetic.double functions
    ∃ same one other : Float,
      joint first.counts.toList second.counts.toList space.prior = .ok same ∧
      single first.counts.toList space.prior = .ok one ∧
      single second.counts.toList space.prior = .ok other ∧
      probabilityOfDifference first.counts.toList second.counts.toList space.prior =
        .ok (posterior same (one + other)) := by
  have h : Comparable first.counts.toList second.counts.toList space.prior :=
    .of_sums (length_counts space hfirst) (length_counts space hsecond) hn hm
  obtain ⟨same, one, other, hsame, hone, hother⟩ :=
    @Comparable.exists_likelihoods Float (.double functions) _ _ _ h
  exact ⟨same, one, other, hsame, hone, hother,
    @probabilityOfDifference_eq Float (.double functions) _ _ _ _ _ _ hsame hone hother⟩

theorem verdict_double (functions : Transcendental Float) {prior : List Float} {p : Float}
    (hp : @probabilityOfDifference Float (.double functions) first.counts.toList
      second.counts.toList prior = .ok p) (threshold : Float) :
    @BayesTest.verdict Float (.double functions) ⟨prior, threshold⟩ first second =
      .ok ⟨p, decide (p ≤ threshold)⟩ :=
  @BayesTest.verdict_of_probability Float (.double functions) ⟨prior, threshold⟩ _ _ _ hp

end

/-- The posterior probability of a difference is a number between zero and one just if the two
likelihoods determine it. No prior whose entries stay within `1e280` leaves it undetermined, and
every prior whose sum overflows does. -/
theorem difference_is_probability {α : Type} [BEq α] {functions : Transcendental Float}
    (hf : functions.Sound) (space : SampleSpace α Float) {first second : Histogram} {n m : UInt64}
    (hfirst : first.counts.size = space.size) (hsecond : second.counts.size = space.size)
    (hn : first.total = .ok n) (hm : second.total = .ok m) :
    letI := GammaArithmetic.double functions
    ∃ same one other p : Float,
      joint first.counts.toList second.counts.toList space.prior = .ok same ∧
      single first.counts.toList space.prior = .ok one ∧
      single second.counts.toList space.prior = .ok other ∧
      probabilityOfDifference first.counts.toList second.counts.toList space.prior = .ok p ∧
      (p.isNaN = true ↔ Undetermined same (one + other)) ∧
      (p.isNaN = false → 0.0 ≤ p ∧ p ≤ 1.0) ∧
      ((∀ entry ∈ space.prior, entry ≤ 1e280) → p.isNaN = false) ∧
      ((Elementary.sum space.prior == 1.0 / 0.0) = true → p.isNaN = true) ∧
      ∀ threshold : Float, (BayesTest.mk space.prior threshold).verdict first second =
        .ok ⟨p, decide (p ≤ threshold)⟩ := by
  obtain ⟨same, one, other, hsame, hone, hother, hp⟩ :=
    exists_likelihoods space functions hfirst hsecond hn hm
  obtain ⟨hnan, hbounds⟩ := posterior_spec hf (a := same) (b := one + other)
  have hlength := length_counts space hfirst
  have hlength' := length_counts space hsecond
  refine ⟨same, one, other, _, hsame, hone, hother, hp, hnan, ?_, ?_, ?_,
    verdict_double functions hp⟩
  · intro hnumber
    exact hbounds fun hu => Bool.false_ne_true (hnumber.symm.trans (hnan.mpr hu))
  · intro hentries
    have halpha := moderate_prior space hentries
    obtain ⟨same', hsame', hwithin⟩ := joint_within hf halpha hlength hlength' hn hm
    obtain ⟨one', hone', hwithin_one⟩ := single_within hf halpha hlength hn
    obtain ⟨other', hother', hwithin_other⟩ := single_within hf halpha hlength' hm
    obtain rfl : same' = same := Except.ok.inj (hsame'.symm.trans hsame)
    obtain rfl : one' = one := Except.ok.inj (hone'.symm.trans hone)
    obtain rfl : other' = other := Except.ok.inj (hother'.symm.trans hother)
    rw [← Bool.not_eq_true, hnan]
    exact not_undetermined hwithin.isFinite
      (hwithin_one.add hwithin_other (by norm_num)).isFinite
  · intro hsum
    exact hnan.mpr (.inl (joint_isNaN hf hlength hlength' hn hm (beq_infinity_iff.mp hsum) hsame))

theorem difference_is_probability_boolean :
    Transcendental.tabulated.Sound ∧
      ∃ p : Float, @probabilityOfDifference Float (.double .tabulated) [1, 0] [0, 1]
          SampleSpace.boolean.prior = .ok p ∧
        p.isNaN = false ∧ 0.0 ≤ p ∧ p ≤ 1.0 := by
  obtain ⟨_, _, _, p, -, -, -, hp, -, hbounds, hnumber, -, -⟩ :=
    difference_is_probability Transcendental.tabulated_sound SampleSpace.boolean
      (show (Histogram.mk #[1, 0] 0).counts.size = _ from rfl)
      (show (Histogram.mk #[0, 1] 0).counts.size = _ from rfl) (n := 1) (m := 1) rfl rfl
  have hentries : ∀ entry ∈ SampleSpace.boolean.prior, entry ≤ 1e280 := by decide +kernel
  exact ⟨Transcendental.tabulated_sound, p, hp, hnumber hentries, hbounds (hnumber hentries)⟩

/-- A sample space whose prior entries are valid one by one and overflow together. -/
def overflowing : SampleSpace Bool Float :=
  { SampleSpace.boolean with
    prior := [1.7976931348623157e308, 1.7976931348623157e308]
    aligned := rfl
    positive := by decide +kernel }

/-- Not even two empty histograms have a posterior probability over this sample space. -/
theorem difference_is_nan :
    Transcendental.tabulated.Sound ∧
      SampleSpace.ofPrior [false, true] [1.7976931348623157e308, 1.7976931348623157e308] =
        .ok overflowing ∧
      ∀ functions : Transcendental Float, functions.Sound →
        letI := GammaArithmetic.double functions
        ∃ p : Float, probabilityOfDifference [0, 0] [0, 0] overflowing.prior = .ok p ∧
          p.isNaN = true ∧
          ∀ threshold : Float, (BayesTest.mk overflowing.prior threshold).verdict (.empty 2)
            (.empty 2) = .ok ⟨p, false⟩ := by
  refine ⟨Transcendental.tabulated_sound, SampleSpace.ofPrior_self overflowing, ?_⟩
  intro functions hf
  obtain ⟨same, one, other, hsame, -, -, hp⟩ :=
    exists_likelihoods overflowing functions (show (Histogram.empty 2).counts.size = _ from rfl)
      (show (Histogram.empty 2).counts.size = _ from rfl) (n := 0) (m := 0) rfl rfl
  have hsum : (overflowing.prior.foldl (· + ·) (-0.0) == 1.0 / 0.0) = true := by decide +kernel
  have hnan := (posterior_spec hf (b := one + other)).1.mpr (.inl (joint_isNaN hf rfl rfl rfl rfl
    (beq_infinity_iff.mp hsum) hsame))
  refine ⟨_, hp, hnan, fun threshold => ?_⟩
  rw [verdict_double functions hp, decide_eq_false (not_le_of_nan (.inl hnan))]

end Likelihood

end Aleatory
