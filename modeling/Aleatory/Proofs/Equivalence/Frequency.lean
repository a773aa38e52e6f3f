import Aleatory.Equivalence.Histogram
import Mathlib.Algebra.BigOperators.Group.List.Basic
import Mathlib.Algebra.GroupWithZero.Nat

/-!
# Histograms as frequency tables

`h.IsTableOf space values` says that `h` counts, for every outcome of a sample space, how many of
the values have its index, and separately how many have none. The empty histogram is the table of
no values, and counting one more value extends the table by it (`IsTableOf.count_value`), with no
overflow as long as the number of values fits in 64 bits. Every value has at most one index, so the
counts and the number of dropped values add up to the number of values
(`IsTableOf.sum_add_dropped`).
-/

namespace Aleatory

theorem foldlM_addCounts (counts : List UInt64) (first : UInt64) :
    counts.foldlM (addCounts .countOverflow) first =
      if first.toNat + (counts.map UInt64.toNat).sum < UInt64.size then
        .ok (first + .ofNat (counts.map UInt64.toNat).sum)
      else .error .countOverflow := by
  induction counts generalizing first with
  | nil => simp [first.toNat_lt_size, pure, Except.pure]
  | cons c rest ih =>
      rw [List.foldlM_cons, List.map_cons, List.sum_cons]
      by_cases hlt : first.toNat + c.toNat < UInt64.size
      · have hadd := addCounts_of_lt .countOverflow hlt
        rw [hadd]
        show rest.foldlM (addCounts .countOverflow) (first + c) = _
        rw [ih, toNat_of_addCounts hadd, UInt64.ofNat_add, UInt64.ofNat_toNat, Nat.add_assoc,
          UInt64.add_assoc]
      · have hover : ¬first.toNat + (c.toNat + (rest.map UInt64.toNat).sum) < UInt64.size := by
          omega
        rw [addCounts_of_le _ (Nat.le_of_not_lt hlt), if_neg hover]
        rfl

/-- A sum of counts is that of the natural numbers, as far as it fits in 64 bits. -/
theorem sumCounts_eq (counts : List UInt64) :
    sumCounts counts =
      if (counts.map UInt64.toNat).sum < UInt64.size then
        .ok (.ofNat (counts.map UInt64.toNat).sum)
      else .error .countOverflow := by
  simpa [sumCounts] using foldlM_addCounts counts 0

/-- A sum that fits in 64 bits is reported, and it is the sum of the natural numbers. -/
theorem exists_sumCounts_of_lt (counts : List UInt64)
    (h : (counts.map UInt64.toNat).sum < UInt64.size) :
    ∃ sum, sumCounts counts = .ok sum ∧ sum.toNat = (counts.map UInt64.toNat).sum :=
  ⟨_, by rw [sumCounts_eq, if_pos h], UInt64.toNat_ofNat_of_lt' h⟩

/-- A sum that is reported fits in 64 bits. -/
theorem sum_lt_of_sumCounts {counts : List UInt64} {n : UInt64} (h : sumCounts counts = .ok n) :
    (counts.map UInt64.toNat).sum < UInt64.size := by
  by_contra hover
  rw [sumCounts_eq, if_neg hover] at h
  cases h

theorem sum_range_ite (j n : Nat) :
    ((List.range n).map fun i => if j = i then 1 else 0).sum = if j < n then 1 else 0 := by
  induction n with
  | zero => simp
  | succ n ih =>
      rw [List.range_succ, List.map_append, List.sum_append, ih]
      by_cases hj : j = n
      · simp [hj]
      · have hlt : j < n + 1 ↔ j < n := by omega
        simp [hj, hlt]

/-- Counting by index loses no value, if no index is too large. -/
theorem sum_countP_add_countP_none {β : Type} {f : β → Option Nat} {n : Nat}
    (hf : ∀ value i, f value = some i → i < n) (values : List β) :
    ((List.range n).map fun i => values.countP fun value => f value = some i).sum +
      values.countP (fun value => f value = none) = values.length := by
  induction values with
  | nil => simp
  | cons value rest ih =>
      simp only [List.countP_cons, List.length_cons, decide_eq_true_eq]
      rw [List.sum_map_add]
      cases hvalue : f value with
      | none => simp; omega
      | some j =>
          have hj : j < n := hf value j hvalue
          have hone := sum_range_ite j n
          rw [if_pos hj] at hone
          simp only [Option.some.injEq, reduceCtorEq, if_false, hone]
          omega

variable {α ρ : Type} [BEq α] [Elementary ρ]

theorem SampleSpace.indexOf?_lt {space : SampleSpace α ρ} {value : α} {i : Nat}
    (h : space.indexOf? value = some i) : i < space.size :=
  (List.findIdx?_eq_some_iff_findIdx_eq.mp h).1

namespace Histogram

/-- The histogram counts how often each index of the sample space occurs among the values, and
how many values have no index. -/
structure IsTableOf (h : Histogram) (space : SampleSpace α ρ) (values : List α) : Prop where
  size_eq : h.counts.size = space.size
  count_eq : ∀ i (hi : i < h.counts.size),
    h.counts[i].toNat = values.countP fun value => space.indexOf? value = some i
  dropped_eq : h.dropped.toNat = values.countP fun value => space.indexOf? value = none

theorem isTableOf_empty (space : SampleSpace α ρ) : (empty space.size).IsTableOf space [] where
  size_eq := by simp [empty]
  count_eq := by simp [empty]
  dropped_eq := by simp [empty]

theorem addCounts_one {c : UInt64} {n : Nat} (hc : c.toNat ≤ n) (hn : n + 1 < UInt64.size) :
    addCounts .countOverflow c 1 = .ok (c + 1) ∧ (c + 1).toNat = c.toNat + 1 := by
  have hadd : addCounts .countOverflow c 1 = .ok (c + 1) :=
    addCounts_of_lt _ (by rw [UInt64.toNat_one]; omega)
  exact ⟨hadd, toNat_of_addCounts hadd⟩

/-- Counting a value extends the table by it. -/
theorem IsTableOf.count_value {h : Histogram} {space : SampleSpace α ρ} {values : List α}
    (table : h.IsTableOf space values) (hfit : values.length + 1 < UInt64.size) (value : α) :
    ∃ h', h.count (space.indexOf? value) = .ok h' ∧ h'.IsTableOf space (values ++ [value]) := by
  cases hindex : space.indexOf? value with
  | none =>
      have hle : h.dropped.toNat ≤ values.length := by
        rw [table.dropped_eq]
        exact List.countP_le_length
      obtain ⟨hadd, hone⟩ := addCounts_one hle hfit
      refine ⟨{ h with dropped := h.dropped + 1 }, by simp [count, count.outside, hadd], ?_⟩
      refine ⟨table.size_eq, ?_, ?_⟩
      · intro i hi
        simp [table.count_eq i hi, hindex]
      · simp [hone, table.dropped_eq, hindex]
  | some k =>
      have hk : k < h.counts.size := by
        rw [table.size_eq]
        exact SampleSpace.indexOf?_lt hindex
      have hle : h.counts[k].toNat ≤ values.length := by
        rw [table.count_eq k hk]
        exact List.countP_le_length
      obtain ⟨hadd, hone⟩ := addCounts_one hle hfit
      refine ⟨{ h with counts := h.counts.set k (h.counts[k] + 1) }, by simp [count, hk, hadd], ?_⟩
      refine ⟨by simp [table.size_eq], ?_, ?_⟩
      · intro i hi
        rw [Array.size_set] at hi
        rw [List.countP_append, ← table.count_eq i hi]
        by_cases hki : k = i
        · subst hki
          simp [hone, hindex]
        · simp [Array.getElem_set, hki, hindex]
      · simp [table.dropped_eq, hindex]

/-- The table of a list of values, made at once. -/
def tabulate (space : SampleSpace α ρ) (values : List α) : Histogram where
  counts := Array.ofFn fun i : Fin space.size =>
    (values.countP fun value => space.indexOf? value = some i.val).toUInt64
  dropped := (values.countP fun value => space.indexOf? value = none).toUInt64

theorem isTableOf_tabulate (space : SampleSpace α ρ) (values : List α)
    (hfit : values.length < UInt64.size) : (tabulate space values).IsTableOf space values where
  size_eq := by simp [tabulate]
  count_eq i hi := by
    have hle := List.countP_le_length (p := fun value => space.indexOf? value = some i)
      (l := values)
    simp only [tabulate, Array.getElem_ofFn]
    exact UInt64.toNat_ofNat_of_lt (Nat.lt_of_le_of_lt hle hfit)
  dropped_eq := by
    have hle := List.countP_le_length (p := fun value => space.indexOf? value = none)
      (l := values)
    exact UInt64.toNat_ofNat_of_lt (Nat.lt_of_le_of_lt hle hfit)

/-- There is only one table of a list of values. -/
theorem IsTableOf.eq_tabulate {h : Histogram} {space : SampleSpace α ρ} {values : List α}
    (table : h.IsTableOf space values) : h = tabulate space values := by
  have hcounts : h.counts = (tabulate space values).counts := by
    apply Array.ext
    · simp [tabulate, table.size_eq]
    · intro i hi hi'
      have hentry : (tabulate space values).counts[i] =
          (values.countP fun value => space.indexOf? value = some i).toUInt64 := by simp [tabulate]
      rw [hentry, ← table.count_eq i hi]
      exact UInt64.ofNat_toNat.symm
  have hdropped : h.dropped = (tabulate space values).dropped := by
    rw [tabulate, ← table.dropped_eq]
    exact UInt64.ofNat_toNat.symm
  obtain ⟨counts, dropped⟩ := h
  cases hcounts
  cases hdropped
  rfl

/-- The counts and the number of dropped values add up to the number of values. -/
theorem IsTableOf.sum_add_dropped {h : Histogram} {space : SampleSpace α ρ} {values : List α}
    (table : h.IsTableOf space values) :
    (h.counts.toList.map UInt64.toNat).sum + h.dropped.toNat = values.length := by
  have hcounts : h.counts.toList.map UInt64.toNat =
      (List.range space.size).map fun i =>
        values.countP fun value => space.indexOf? value = some i := by
    apply List.ext_getElem (by simp [table.size_eq])
    intro i hi hi'
    have hlt : i < h.counts.size := by simpa using hi
    simp [table.count_eq i hlt]
  rw [hcounts, table.dropped_eq]
  exact sum_countP_add_countP_none (fun _ _ => SampleSpace.indexOf?_lt) values

/-- The total of the counts is reported, and no value is missing from it but the dropped ones. -/
theorem IsTableOf.exists_total {h : Histogram} {space : SampleSpace α ρ} {values : List α}
    (table : h.IsTableOf space values) (hfit : values.length < UInt64.size) :
    ∃ total, h.total = .ok total ∧ total.toNat + h.dropped.toNat = values.length := by
  have hsum := table.sum_add_dropped
  obtain ⟨total, htotal, htoNat⟩ := exists_sumCounts_of_lt h.counts.toList (by omega)
  exact ⟨total, htotal, by omega⟩

end Histogram

end Aleatory
