import Aleatory.Proofs.Design.Agreement

/-!
# What an experiment that counts comes to

An experiment that counts returns the total of the charges that its chronicle lists, if that fits
in 64 bits, and overflows otherwise (`counted_exactly`). So the count depends on nothing but the
effect steps on the way: it makes no difference how they are nested in other vertices, and the
count never wraps. Every experiment in the mode that counts is described by some design
(`exists_under_counted`).

The charge of a histogram is made up of the totals of its trials, and these are what the samples
of the trials count.
-/

namespace Aleatory

namespace Chronicle

variable {ε σ α β : Type}

theorem exists_of_result_bind {t : Chronicle ε α} {k : α → Chronicle ε β} {z : Account β}
    (h : (t.bind k).result = .ok z) :
    ∃ x y, t.result = .ok x ∧ (k x.value).result = .ok y := by
  rcases t with ⟨log, fault | x⟩
  · cases h
  · obtain ⟨y, hy, -⟩ := exists_of_map_eq_ok h
    exact ⟨x, y, rfl, hy⟩

/-- Trials that reach values have accounts of their own. -/
theorem exists_accounts [Generator σ] {trial : σ → Chronicle ε α} {n : Nat} {state : σ}
    {x : Account (List α)} (h : (trials trial n state).result = .ok x) :
    ∃ accounts : List (Account α), accounts.length = n ∧
      ∀ i (hi : i < accounts.length),
        (trial (Generator.branch i state)).result = .ok accounts[i] := by
  induction n generalizing state x with
  | zero => exact ⟨[], rfl, nofun⟩
  | succ n ih =>
      obtain ⟨y, z, hy, hz⟩ := exists_of_result_bind h
      obtain ⟨first, hfirst, -⟩ := exists_of_map_eq_ok hy
      obtain ⟨rest, hrest, -⟩ := exists_of_map_eq_ok hz
      obtain ⟨accounts, hlength, haccounts⟩ := ih hrest
      refine ⟨first :: accounts, congrArg Nat.succ hlength, fun i hi => ?_⟩
      cases i with
      | zero => exact hfirst
      | succ i => exact haccounts i (Nat.lt_of_succ_lt_succ hi)

end Chronicle

namespace Design

open Generator

variable {ε σ χ ρ α : Type} [Elementary ρ] [Generator σ] [EmptyCollection χ]

theorem run_counted_of_ok {d : Design ε σ χ ρ α} {state : σ} {extras : χ}
    {x : Account (Run σ χ α)} (hx : (d.chronicle state extras).result = .ok x) :
    ((d.under .counted).run state extras).result = x.counted :=
  ((d.run_reports .counted state extras).of_counted hx).1

theorem sample_counted_of_ok {d : Design ε σ χ ρ α} {state : σ} {x : Account α}
    (hx : ((d.chronicle state ∅).map Run.value).result = .ok x) :
    ((d.under .counted).sample state).result = x.counted :=
  ((d.sample_reports .counted state).of_counted hx).1

/-- The charge of a histogram, and the accounts of its trials that it is made up of. -/
theorem exists_accounts_of_histogram [BEq α] {trial : Design ε σ χ ρ α} {space : SampleSpace α ρ}
    {replicates : UInt64} {state : σ} {extras : χ} {x : Account (Run σ χ Histogram)}
    (hx : ((trial.histogram space replicates).chronicle state extras).result = .ok x) :
    ∃ accounts : List (Account α), accounts.length = replicates.toNat ∧
      x.charges = [replicates.toNat + (accounts.map Account.total).sum] ∧
      ∀ i (hi : i < accounts.length),
        ((trial.chronicle (branch i state) ∅).map Run.value).result = .ok accounts[i] := by
  obtain ⟨_, hwarned, -⟩ := exists_of_map_eq_ok hx
  obtain ⟨_, _, htable, -⟩ := Chronicle.exists_of_result_bind hwarned
  obtain ⟨_, htrials, -⟩ := exists_of_map_eq_ok htable
  obtain ⟨accounts, hlength, haccounts⟩ := Chronicle.exists_accounts htrials
  have hresult := result_chronicle_histogram space hlength haccounts extras
  obtain rfl := Except.ok.inj (hx.symm.trans hresult)
  exact ⟨accounts, hlength, rfl, haccounts⟩

/-- An experiment that counts reaches the exact total of the charges on the way, each with one
step more, or overflows if that does not fit, whether it is run or sampled. A histogram is charged
with the number of its trials and what the samples of them count. -/
theorem counted_exactly (d : Design ε σ χ ρ α) (state : σ) (extras : χ) :
    (d.Returns → ∃ x, (d.chronicle state extras).result = .ok x) ∧
    (∀ x, (d.chronicle state extras).result = .ok x →
      ((d.under .counted).run state extras).result =
        if x.total < UInt64.size then .ok ⟨x.value, x.total.toUInt64⟩
        else .error .stepOverflow) ∧
    (∀ x, (d.chronicle state ∅).result = .ok x →
      ((d.under .counted).sample state).result =
        if x.total < UInt64.size then .ok ⟨x.value.value, x.total.toUInt64⟩
        else .error .stepOverflow) ∧
    ∀ {β : Type} [BEq β] (trial : Design ε σ χ ρ β) (space : SampleSpace β ρ)
      (replicates : UInt64) (x : Account (Run σ χ Histogram)),
      ((trial.histogram space replicates).chronicle state extras).result = .ok x →
      ∃ accounts : List (Account β), accounts.length = replicates.toNat ∧
        x.charges = [replicates.toNat + (accounts.map Account.total).sum] ∧
        ∀ i (hi : i < accounts.length),
          ((trial.under .counted).sample (branch i state)).result =
            if accounts[i].total < UInt64.size then
              .ok ⟨accounts[i].value, accounts[i].total.toUInt64⟩
            else .error .stepOverflow := by
  refine ⟨fun h => d.exists_chronicle h state extras, fun x hx => run_counted_of_ok hx,
    fun x hx => sample_counted_of_ok (Chronicle.result_map hx Run.value), ?_⟩
  intro β _ trial space replicates x hx
  obtain ⟨accounts, hlength, hcharges, haccounts⟩ := exists_accounts_of_histogram hx
  exact ⟨accounts, hlength, hcharges, fun i hi => sample_counted_of_ok (haccounts i hi)⟩

/-- Of three trials that each draw a word, two make an effect step. -/
theorem counted_exactly_evenWord :
    let threeTrials : Design String SplitMix (List Nat) Float Histogram :=
      evenWord.histogram .boolean 3
    let greatest : Design String SplitMix (List Nat) Float Unit := lift { value := (), steps := -1 }
    ((threeTrials.under .counted).run (SplitMix.ofSeed 6) []).result.map Counted.steps = .ok 6 ∧
      ((greatest.under .counted).run (SplitMix.ofSeed 6) []).result = .error .stepOverflow := by
  intro threeTrials greatest
  obtain ⟨-, hcounts, -⟩ := threeTrials.counted_exactly (SplitMix.ofSeed 6) []
  obtain ⟨-, hoverflows, -⟩ := greatest.counted_exactly (SplitMix.ofSeed 6) []
  have hthree : (threeTrials.chronicle (SplitMix.ofSeed 6) []).result.map Account.total =
      .ok 6 := by
    decide +kernel
  have hgreatest : (greatest.chronicle (SplitMix.ofSeed 6) []).result.map Account.total =
      .ok UInt64.size := by
    decide +kernel
  obtain ⟨x, hx, htotal⟩ := exists_of_map_eq_ok hthree
  obtain ⟨y, hy, hsize⟩ := exists_of_map_eq_ok hgreatest
  refine ⟨?_, ?_⟩
  · rw [hcounts x hx, htotal]
    rfl
  · rw [hoverflows y hy, hsize]
    rfl

end Design

end Aleatory
