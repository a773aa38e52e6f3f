import Aleatory.Proofs.Equivalence.Sampling
import Aleatory.Proofs.Generator.Period

/-!
# Trials never share a state

A split goes on with the state two draws later (`SplitMix.spine_eq_advance`), and the seed that it
hands out is the word that would have been drawn next (`SplitMix.seed_branch`). The step of a
reachable state is odd, so its walk comes back after `2 ^ 64` draws and no earlier, which is after
`2 ^ 63` splits. Until then no seed is handed out twice, and no state is split twice
(`SplitMix.trials_never_share`).

So all the trials of a histogram start from different states. An experiment that returns the seed
that it starts from shows it: its histogram counts no outcome more than once.
-/

namespace Aleatory

/-! ## Tables of values that are all different -/

theorem Histogram.IsTableOf.count_le_one {α ρ : Type} [BEq α] [LawfulBEq α] [Elementary ρ]
    {h : Histogram} {space : SampleSpace α ρ} {values : List α} (table : h.IsTableOf space values)
    (hvalues : values.Nodup) : ∀ count ∈ h.counts, count.toNat ≤ 1 := by
  intro count hcount
  obtain ⟨i, hi, rfl⟩ := Array.mem_iff_getElem.mp hcount
  have hspace : i < space.outcomes.length := hi.trans_eq table.size_eq
  have hindex (value : α) (hvalue : space.indexOf? value = some i) :
      value = space.outcomes[i] := by
    have hfound := (List.findIdx?_eq_some_iff_getElem.mp hvalue).2.1
    exact (eq_of_beq hfound).symm
  calc h.counts[i].toNat
      = values.countP fun value => space.indexOf? value = some i := table.count_eq i hi
    _ ≤ values.count space.outcomes[i] := by
        apply List.countP_mono_left
        intro value _ hvalue
        exact beq_iff_eq.mpr (hindex value (of_decide_eq_true hvalue))
    _ ≤ 1 := List.nodup_iff_count_le_one.mp hvalues _

namespace Experiment

open Generator

variable {F : Mode} {σ χ α ρ : Type}

/-- Returns what can be read off the state, and draws nothing. -/
def observe (read : σ → α) : Experiment F σ χ α :=
  .step fun state extras => .ret { state, extras, value := read state }

variable [EmptyCollection χ]

theorem observe_sample (read : σ → α) (state : σ) :
    (observe read : Experiment F σ χ α).sample state =
      ⟨#[.visit .step], .ok (F.conclude (.ok ⟨read state, 0⟩))⟩ := by
  rw [sample, run_eq_course, observe, course]
  simp [Course.after, Course.lift, Course.finish, Course.into, Traced.andThen, Traced.ret,
    Traced.after, ← Mode.ret_eq_conclude]

variable [Generator σ] [BEq α] [LawfulBEq α] [Elementary ρ]

/-- If all the trials read different values, no outcome is counted more than once. -/
theorem histogram_observe_run (read : σ → α) (space : SampleSpace α ρ) (replicates : UInt64)
    (state : σ) (extras : χ) (hfew : replicates.toNat + 1 < UInt64.size)
    (hread : ((List.range replicates.toNat).map fun i => read (branch i state)).Nodup) :
    ∃ h steps, (((observe read : Experiment F σ χ α).histogram space replicates).run
        state extras).result =
          .ok (F.conclude (.ok ⟨⟨spine replicates.toNat state, extras, h⟩, steps⟩)) ∧
      ∀ count ∈ h.counts, count.toNat ≤ 1 := by
  let samples : List (Counted α) :=
    (List.range replicates.toNat).map fun i => ⟨read (branch i state), 0⟩
  have hyields : (observe read : Experiment F σ χ α).Yields state samples := by
    intro i hi
    rw [observe_sample]
    simp [samples]
  have hvalues : samples.map Counted.value =
      (List.range replicates.toNat).map fun i => read (branch i state) := by
    simp [samples, Function.comp_def]
  have hsteps : sequencedSteps samples = replicates.toNat := by
    simp [samples, sequencedSteps, Function.comp_def]
  have hlength : samples.length = replicates.toNat := by simp [samples]
  obtain ⟨h, steps, table, -, hrun⟩ :=
    histogram_run_of_ok space hyields hlength (fun _ => by rwa [hsteps]) extras
  rw [hvalues] at table
  exact ⟨h, steps, congrArg Traced.result hrun, table.count_le_one hread⟩

end Experiment

namespace Generator

variable {σ : Type} [Generator σ]

/-- The trials that are split off a state have seeds of their own, and so has every state that is
split, as far as `2 ^ 63` splits go; after that all of them come back. -/
structure TrialsApart (seed : σ → UInt64) (s : σ) : Prop where
  /-- A split goes on two draws later. -/
  spine_eq : ∀ i, spine i s = advance (2 * i) s
  seed_eq_iff : ∀ i j, seed (branch i s) = seed (branch j s) ↔ i ≡ j [MOD 2 ^ 63]
  spine_eq_iff : ∀ i j, spine i s = spine j s ↔ i ≡ j [MOD 2 ^ 63]
  nodup_seeds : ∀ n ≤ 2 ^ 63, ((List.range n).map fun i => seed (branch i s)).Nodup
  nodup_trials : ∀ n ≤ 2 ^ 63, ((List.range n).map fun i => branch i s).Nodup
  nodup_spine : ∀ n < 2 ^ 63, ((List.range (n + 1)).map fun i => spine i s).Nodup
  /-- The histogram of the seeds of its own trials counts none of them twice. -/
  histogram_seeds : ∀ {F : Mode} {χ ρ : Type} [EmptyCollection χ] [Elementary ρ]
    (space : SampleSpace UInt64 ρ) (replicates : UInt64) (extras : χ),
    replicates.toNat ≤ 2 ^ 63 →
      ∃ h steps, (((.observe seed : Experiment F σ χ UInt64).histogram space replicates).run
          s extras).result =
            .ok (F.conclude (.ok ⟨⟨advance (2 * replicates.toNat) s, extras, h⟩, steps⟩)) ∧
        ∀ count ∈ h.counts, count.toNat ≤ 1

theorem nodup_map_range {α : Type} {f : ℕ → α} {period n : ℕ}
    (hf : ∀ i j, f i = f j → i ≡ j [MOD period]) (hn : n ≤ period) :
    ((List.range n).map f).Nodup := by
  apply List.Nodup.map_on _ List.nodup_range
  intro i hi j hj h
  have hlt_i : i < period := (List.mem_range.mp hi).trans_le hn
  have hlt_j : j < period := (List.mem_range.mp hj).trans_le hn
  exact (hf i j h).eq_of_lt_of_lt hlt_i hlt_j

/-- Only the seeds and the states that are split need to be told apart. -/
theorem TrialsApart.of_iffs {seed : σ → UInt64} {s : σ}
    (hspine : ∀ i, spine i s = advance (2 * i) s)
    (hseed : ∀ i j, seed (branch i s) = seed (branch j s) ↔ i ≡ j [MOD 2 ^ 63])
    (hstate : ∀ i j, spine i s = spine j s ↔ i ≡ j [MOD 2 ^ 63]) : TrialsApart seed s := by
  have hseeds (n : ℕ) (hn : n ≤ 2 ^ 63) :
      ((List.range n).map fun i => seed (branch i s)).Nodup :=
    nodup_map_range (fun i j => (hseed i j).mp) hn
  refine ⟨hspine, hseed, hstate, hseeds, ?_, ?_, ?_⟩
  · intro n hn
    exact nodup_map_range (fun i j h => (hseed i j).mp (congrArg seed h)) hn
  · intro n hn
    exact nodup_map_range (fun i j => (hstate i j).mp) hn
  · intro F χ ρ _ _ space replicates extras hfew
    have hfit : replicates.toNat + 1 < UInt64.size := by
      have hsize : UInt64.size = 2 * 2 ^ 63 := rfl
      omega
    obtain ⟨h, steps, hrun, hcounts⟩ :=
      Experiment.histogram_observe_run (F := F) seed space replicates s extras hfit
        (hseeds _ hfew)
    rw [hspine] at hrun
    exact ⟨h, steps, hrun, hcounts⟩

end Generator

namespace SplitMix

open Generator

theorem spine_eq_advance (n : ℕ) (s : SplitMix) : spine n s = advance (2 * n) s := by
  induction n generalizing s with
  | zero => rfl
  | succ n ih => exact ih s.step.step

/-- The seed that a split hands out is the word that would have been drawn instead. -/
theorem seed_branch (n : ℕ) (s : SplitMix) : (branch n s).seed = nthWord (2 * n) s := by
  rw [branch, spine_eq_advance]
  rfl

theorem double_modEq_iff (i j : ℕ) :
    2 * i ≡ 2 * j [MOD UInt64.size] ↔ i ≡ j [MOD 2 ^ 63] := by
  have hsize : UInt64.size = 2 * 2 ^ 63 := rfl
  rw [hsize]
  exact Nat.ModEq.mul_left_cancel_iff' two_ne_zero

theorem advance_eq_iff {s : SplitMix} (hs : s.gamma.toNat % 2 = 1) (i j : ℕ) :
    advance i s = advance j s ↔ i ≡ j [MOD UInt64.size] := by
  have hmul : i.toUInt64 * s.gamma = j.toUInt64 * s.gamma ↔ i ≡ j [MOD UInt64.size] :=
    (mul_injective hs).eq_iff.trans toUInt64_eq_iff
  rw [advance_eq, advance_eq, ← hmul, mk.injEq, UInt64.add_right_inj]
  exact and_iff_left rfl

theorem trialsApart {s : SplitMix} (hs : s.gamma.toNat % 2 = 1) : TrialsApart seed s := by
  apply TrialsApart.of_iffs (fun i => spine_eq_advance i s)
  · intro i j
    rw [seed_branch, seed_branch, nthWord_eq_iff hs]
    exact double_modEq_iff i j
  · intro i j
    rw [spine_eq_advance, spine_eq_advance, advance_eq_iff hs]
    exact double_modEq_iff i j

namespace Numbered

theorem advance_eq (n : ℕ) (s : Numbered) : advance n s = ⟨advance n s.inner⟩ := by
  induction n generalizing s with
  | zero => rfl
  | succ n ih => exact ih (word s).2

theorem spine_eq (n : ℕ) (s : Numbered) : spine n s = ⟨spine n s.inner⟩ := by
  induction n generalizing s with
  | zero => rfl
  | succ n ih => exact ih (split s).1

theorem branch_eq (n : ℕ) (s : Numbered) : branch n s = ⟨branch n s.inner⟩ := by
  rw [branch, spine_eq]
  rfl

/-- The trials of a numbered state are those of the state inside. -/
theorem trialsApart {s : Numbered} (hs : s.inner.gamma.toNat % 2 = 1) :
    TrialsApart (fun t => t.inner.seed) s := by
  have inner := SplitMix.trialsApart hs
  apply TrialsApart.of_iffs
  · intro i
    rw [spine_eq, advance_eq, inner.spine_eq]
  · intro i j
    rw [branch_eq, branch_eq]
    exact inner.seed_eq_iff i j
  · intro i j
    rw [spine_eq, spine_eq, mk.injEq]
    exact inner.spine_eq_iff i j

end Numbered

/-- The trials of one histogram never share a state. -/
theorem trials_never_share :
    (∀ s : SplitMix, s.Reachable → TrialsApart seed s) ∧
    ∀ s : Numbered, s.Reachable → TrialsApart (fun t => t.inner.seed) s :=
  ⟨fun _ hs => trialsApart hs.gamma_odd, fun _ hs => Numbered.trialsApart hs.inner.gamma_odd⟩

/-- The half that is handed out can be split `2 ^ 63` times, and then hands out its first seed
again. -/
theorem trials_never_share_child :
    (ofSeed 6).child.Reachable ∧
      ((List.range (2 ^ 63)).map fun i => (branch i (ofSeed 6).child).seed).Nodup ∧
      (branch (2 ^ 63) (ofSeed 6).child).seed = (branch 0 (ofSeed 6).child).seed ∧
      (⟨ofSeed 0⟩ : Numbered).Reachable ∧
      ((List.range (2 ^ 63)).map fun i => branch i (⟨ofSeed 0⟩ : Numbered)).Nodup := by
  have hchild : (ofSeed 6).child.Reachable := .handed (.ofSeed 6)
  have hnumbered : (⟨ofSeed 0⟩ : Numbered).Reachable := .listed (n := 1) (by decide)
  have apart := trials_never_share.1 _ hchild
  exact ⟨hchild, apart.nodup_seeds _ le_rfl, (apart.seed_eq_iff _ _).mpr (Nat.mod_self _),
    hnumbered, (trials_never_share.2 _ hnumbered).nodup_trials _ le_rfl⟩

end SplitMix

end Aleatory
