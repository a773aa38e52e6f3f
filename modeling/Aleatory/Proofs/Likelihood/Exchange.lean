import Aleatory.Equivalence.Likelihood
import Aleatory.Proofs.Equivalence.Frequency
import Aleatory.Proofs.Numeric.Double

/-!
# Exchanging two histograms

The likelihoods are sums that are grouped around the two histograms: `x + y` comes before the
entry of the prior, the two gamma functions of the counts are added before they are subtracted,
and the two totals come before the total of the prior. So exchanging the histograms turns around
single sums of two numbers and nothing else, and the likelihoods stay the same, digit for digit,
as soon as `a + b = b + a`, whatever the other operations are (`likelihoods_exchange`).

A computation faults just if a histogram has not the length of the prior, or a total that does not
fit in 64 bits (`joint_eq_error_iff`), which is the same in either order.
-/

namespace Aleatory

namespace Likelihood

/-- Two histograms that have likelihoods with a prior: both have its length, and totals that fit in
64 bits. -/
structure Comparable {ρ : Type} (first second : List UInt64) (alpha : List ρ) : Prop where
  first_length : first.length = alpha.length
  second_length : second.length = alpha.length
  first_total : (first.map UInt64.toNat).sum < UInt64.size
  second_total : (second.map UInt64.toNat).sum < UInt64.size

theorem Comparable.of_sums {ρ : Type} {first second : List UInt64} {alpha : List ρ} {n m : UInt64}
    (hfirst : first.length = alpha.length) (hsecond : second.length = alpha.length)
    (hn : sumCounts first = .ok n) (hm : sumCounts second = .ok m) :
    Comparable first second alpha :=
  ⟨hfirst, hsecond, sum_lt_of_sumCounts hn, sum_lt_of_sumCounts hm⟩

variable {ρ : Type} [GammaArithmetic ρ]

theorem countTotal_eq (counts : List UInt64) :
    (countTotal counts : Except Fault ρ) =
      if (counts.map UInt64.toNat).sum < UInt64.size then
        .ok (Elementary.ofCount (.ofNat (counts.map UInt64.toNat).sum))
      else .error .countOverflow := by
  rw [countTotal, sumCounts_eq]
  split_ifs <;> rfl

theorem exists_countTotal {counts : List UInt64}
    (h : (counts.map UInt64.toNat).sum < UInt64.size) :
    ∃ n : ρ, countTotal counts = .ok n :=
  ⟨_, (countTotal_eq counts).trans (if_pos h)⟩

section Spec

variable {first second : List UInt64} {alpha : List ρ}

theorem joint_of_length_ne (h : first.length ≠ alpha.length ∨ second.length ≠ alpha.length) :
    joint first second alpha = .error .lengthMismatch := by
  by_cases hfirst : first.length = alpha.length
  · have hsecond : second.length ≠ alpha.length := h.resolve_left (not_not_intro hfirst)
    simp only [joint, hfirst, hsecond, ne_eq, not_true_eq_false, not_false_eq_true, if_true,
      if_false]
    rfl
  · simp only [joint, hfirst, ne_eq, not_false_eq_true, if_true]
    rfl

section Aligned

variable (hfirst : first.length = alpha.length) (hsecond : second.length = alpha.length)

include hfirst

theorem single_of_total {n : ρ} (hn : countTotal first = .ok n) :
    single first alpha =
      .ok (GammaArithmetic.lnGamma (Elementary.sum alpha) + GammaArithmetic.lnGamma (n + 1.0) -
          GammaArithmetic.lnGamma (n + Elementary.sum alpha) +
        Elementary.sum (List.zipWith singleTerm first alpha)) := by
  simp only [single, hfirst, hn, ne_eq, not_true_eq_false, if_false]
  rfl

include hsecond

theorem joint_of_overflow
    (h : ¬((first.map UInt64.toNat).sum < UInt64.size ∧
      (second.map UInt64.toNat).sum < UInt64.size)) :
    joint first second alpha = .error .countOverflow := by
  simp only [joint, hfirst, hsecond, ne_eq, not_true_eq_false, if_false, countTotal_eq]
  by_cases hn : (first.map UInt64.toNat).sum < UInt64.size
  · rw [if_pos hn, if_neg fun hm => h ⟨hn, hm⟩]
    rfl
  · rw [if_neg hn]
    rfl

theorem joint_of_totals {n m : ρ} (hn : countTotal first = .ok n) (hm : countTotal second = .ok m) :
    joint first second alpha =
      .ok (GammaArithmetic.lnGamma (Elementary.sum alpha) +
          (GammaArithmetic.lnGamma (n + 1.0) + GammaArithmetic.lnGamma (m + 1.0)) -
          GammaArithmetic.lnGamma (n + m + Elementary.sum alpha) +
        Elementary.sum
          (List.zipWith (fun (x, y) a => jointTerm x y a) (first.zip second) alpha)) := by
  simp only [joint, hfirst, hsecond, hn, hm, ne_eq, not_true_eq_false, if_false]
  rfl

end Aligned

theorem Comparable.exists_likelihoods (h : Comparable first second alpha) :
    ∃ same one other, joint first second alpha = .ok same ∧ single first alpha = .ok one ∧
      single second alpha = .ok other := by
  obtain ⟨n, hn⟩ := exists_countTotal (ρ := ρ) h.first_total
  obtain ⟨m, hm⟩ := exists_countTotal (ρ := ρ) h.second_total
  exact ⟨_, _, _, joint_of_totals h.first_length h.second_length hn hm,
    single_of_total h.first_length hn, single_of_total h.second_length hm⟩

/-- Both orders fault alike. -/
theorem joint_of_not_comparable (h : ¬Comparable first second alpha) :
    ∃ fault, joint first second alpha = .error fault ∧
      joint second first alpha = .error fault := by
  by_cases hlength : first.length = alpha.length ∧ second.length = alpha.length
  · obtain ⟨hfirst, hsecond⟩ := hlength
    have hover : ¬((first.map UInt64.toNat).sum < UInt64.size ∧
        (second.map UInt64.toNat).sum < UInt64.size) :=
      fun hfits => h ⟨hfirst, hsecond, hfits.1, hfits.2⟩
    exact ⟨.countOverflow, joint_of_overflow hfirst hsecond hover,
      joint_of_overflow hsecond hfirst fun hfits => hover hfits.symm⟩
  · have hne := not_and_or.mp hlength
    exact ⟨.lengthMismatch, joint_of_length_ne hne, joint_of_length_ne hne.symm⟩

end Spec

/-- What a judge makes of the likelihoods of the two hypotheses. -/
def differenceBy {β : Type} (judge : ρ → ρ → β) (first second : List UInt64) (alpha : List ρ) :
    Except Fault β := do
  let same ← joint first second alpha
  let ofFirst ← single first alpha
  let ofSecond ← single second alpha
  return judge same (ofFirst + ofSecond)

section Likelihoods

variable {first second : List UInt64} {alpha : List ρ} {same one other : ρ}
  (hsame : joint first second alpha = .ok same) (hone : single first alpha = .ok one)
  (hother : single second alpha = .ok other)

include hsame hone hother

theorem differenceBy_eq {β : Type} (judge : ρ → ρ → β) :
    differenceBy judge first second alpha = .ok (judge same (one + other)) := by
  rw [differenceBy, hsame, hone, hother]
  rfl

/-- The probability of a difference is what `posterior` makes of the likelihoods. -/
theorem probabilityOfDifference_eq :
    probabilityOfDifference first second alpha = .ok (posterior same (one + other)) :=
  differenceBy_eq hsame hone hother posterior

end Likelihoods

theorem differenceBy_of_fault {β : Type} (judge : ρ → ρ → β) {first second : List UInt64}
    {alpha : List ρ} {fault : Fault} (h : joint first second alpha = .error fault) :
    differenceBy judge first second alpha = .error fault := by
  rw [differenceBy, h]
  rfl

theorem differenceBy_eq_error_iff {β : Type} (judge : ρ → ρ → β) (first second : List UInt64)
    (alpha : List ρ) :
    (∃ fault, differenceBy judge first second alpha = .error fault) ↔
      ¬Comparable first second alpha := by
  constructor
  · rintro ⟨fault, hfault⟩ h
    obtain ⟨same, one, other, hsame, hone, hother⟩ := h.exists_likelihoods
    cases hfault.symm.trans (differenceBy_eq hsame hone hother judge)
  · intro h
    obtain ⟨fault, hfault, -⟩ := joint_of_not_comparable h
    exact ⟨fault, differenceBy_of_fault judge hfault⟩

theorem joint_eq_error_iff (first second : List UInt64) (alpha : List ρ) :
    (∃ fault, joint first second alpha = .error fault) ↔ ¬Comparable first second alpha := by
  constructor
  · rintro ⟨fault, hfault⟩ h
    obtain ⟨same, one, other, hsame, -⟩ := h.exists_likelihoods
    cases hfault.symm.trans hsame
  · intro h
    obtain ⟨fault, hfault, -⟩ := joint_of_not_comparable h
    exact ⟨fault, hfault⟩

variable (hadd : ∀ a b : ρ, a + b = b + a)

include hadd

theorem jointTerm_comm (first second : UInt64) (a : ρ) :
    jointTerm first second a = jointTerm second first a := by
  simp only [jointTerm]
  rw [hadd (Elementary.ofCount first) (Elementary.ofCount second), hadd (GammaArithmetic.lnGamma _)]

theorem jointTerms_comm (first second : List UInt64) (alpha : List ρ) :
    List.zipWith (fun (x, y) a => jointTerm x y a) (first.zip second) alpha =
      List.zipWith (fun (x, y) a => jointTerm x y a) (second.zip first) alpha := by
  induction first generalizing second alpha with
  | nil => simp
  | cons x first ih =>
      cases second with
      | nil => simp
      | cons y second =>
          cases alpha with
          | nil => rfl
          | cons a alpha =>
              simp only [List.zip_cons_cons, List.zipWith_cons_cons, jointTerm_comm hadd x y a,
                ih second alpha]

theorem joint_comm (first second : List UInt64) (alpha : List ρ) :
    joint first second alpha = joint second first alpha := by
  by_cases h : Comparable first second alpha
  · obtain ⟨n, hn⟩ := exists_countTotal (ρ := ρ) h.first_total
    obtain ⟨m, hm⟩ := exists_countTotal (ρ := ρ) h.second_total
    rw [joint_of_totals h.first_length h.second_length hn hm,
      joint_of_totals h.second_length h.first_length hm hn, jointTerms_comm hadd first second,
      hadd n m, hadd (GammaArithmetic.lnGamma (n + 1.0))]
  · obtain ⟨fault, hfirst, hsecond⟩ := joint_of_not_comparable h
    rw [hfirst, hsecond]

/-- Whatever is made of the likelihoods does not depend on the order of the histograms. -/
theorem differenceBy_comm {β : Type} (judge : ρ → ρ → β) (first second : List UInt64)
    (alpha : List ρ) :
    differenceBy judge first second alpha = differenceBy judge second first alpha := by
  by_cases h : Comparable first second alpha
  · obtain ⟨same, one, other, hsame, hone, hother⟩ := h.exists_likelihoods
    have hsame' : joint second first alpha = .ok same :=
      (joint_comm hadd second first alpha).trans hsame
    rw [differenceBy_eq hsame hone hother, differenceBy_eq hsame' hother hone, hadd one other]
  · obtain ⟨fault, hfirst, hsecond⟩ := joint_of_not_comparable h
    rw [differenceBy_of_fault judge hfirst, differenceBy_of_fault judge hsecond]

/-- The probability of a difference does not depend on the order of the histograms. -/
theorem probabilityOfDifference_comm (first second : List UInt64) (alpha : List ρ) :
    probabilityOfDifference first second alpha = probabilityOfDifference second first alpha :=
  differenceBy_comm hadd posterior first second alpha

end Likelihood

/-- The doubles, with given transcendental functions and a given logarithm of the gamma
function. -/
@[reducible]
def GammaArithmetic.doubleWith (functions : Transcendental Float) (lnGamma : Float → Float) :
    GammaArithmetic Float :=
  let _ : Elementary Float := .double functions
  { lnGamma }

namespace Likelihood

/-- Exchanging two histograms changes neither their likelihood nor what is made of it, and no
fault appears or disappears. -/
structure Exchangeable {ρ : Type} [GammaArithmetic ρ] (first second : List UInt64)
    (alpha : List ρ) : Prop where
  joint_eq : joint first second alpha = joint second first alpha
  difference_eq : ∀ {β : Type} (judge : ρ → ρ → β),
    differenceBy judge first second alpha = differenceBy judge second first alpha
  probability_eq :
    probabilityOfDifference first second alpha = probabilityOfDifference second first alpha
  joint_faults :
    (∃ fault, joint first second alpha = .error fault) ↔ ¬Comparable first second alpha
  probability_faults :
    (∃ fault, probabilityOfDifference first second alpha = .error fault) ↔
      ¬Comparable first second alpha

theorem exchangeable {ρ : Type} [GammaArithmetic ρ] (hadd : ∀ a b : ρ, a + b = b + a)
    (first second : List UInt64) (alpha : List ρ) : Exchangeable first second alpha where
  joint_eq := joint_comm hadd first second alpha
  difference_eq judge := differenceBy_comm hadd judge first second alpha
  probability_eq := probabilityOfDifference_comm hadd first second alpha
  joint_faults := joint_eq_error_iff first second alpha
  probability_faults := differenceBy_eq_error_iff posterior first second alpha

/-- The comparison of histograms is symmetric digit for digit over all numbers whose addition is
commutative, and so over the doubles, whatever their transcendental functions and their logarithm
of the gamma function are. -/
theorem likelihoods_exchange :
    (∀ (ρ : Type) [GammaArithmetic ρ], (∀ a b : ρ, a + b = b + a) →
      ∀ first second (alpha : List ρ), Exchangeable first second alpha) ∧
    ∀ functions lnGamma first second alpha,
      @Exchangeable Float (.doubleWith functions lnGamma) first second alpha :=
  ⟨fun _ _ hadd => exchangeable hadd,
    fun functions lnGamma =>
      @exchangeable Float (.doubleWith functions lnGamma) Double.add_comm⟩

/-- The histograms of two opposite samples, and of two numbers of outcomes that do not fit. -/
theorem likelihoods_exchange_opposite :
    joint [1, 0] [0, 1] [1.0, (1.0 : Float)] = joint [0, 1] [1, 0] [1.0, 1.0] ∧
      probabilityOfDifference [1, 0] [0, 1] [1.0, (1.0 : Float)] =
        probabilityOfDifference [0, 1] [1, 0] [1.0, 1.0] ∧
      ∃ fault, probabilityOfDifference [1, 0] [0] [1.0, (1.0 : Float)] = .error fault := by
  have hdouble := likelihoods_exchange.1 Float Double.add_comm
  have hopposite := hdouble [1, 0] [0, 1] [1.0, 1.0]
  refine ⟨hopposite.joint_eq, hopposite.probability_eq, ?_⟩
  apply (hdouble [1, 0] [0] [1.0, 1.0]).probability_faults.mpr
  intro h
  exact absurd h.second_length (by decide)

end Likelihood

end Aleatory
