import Aleatory.Proofs.Generator.Mixing
import Mathlib.Data.List.Perm.Basic
import Mathlib.Data.Nat.ModEq

/-!
# The period of a SplitMix state

A reachable state has an odd step, so its walk meets every position once before it comes back to
where it started, which is after `2 ^ 64` words. Mixing gives every position an output word of its
own, so the words that are drawn on the way are all the 64-bit words, each of them once
(`words_of_period`).
-/

namespace Aleatory

namespace Generator

variable {σ : Type} [Generator σ]

/-- The word that is drawn after `n` words before it. -/
def nthWord (n : Nat) (state : σ) : UInt64 := (word (advance n state)).1

theorem toList_takeOnto (taken : Array UInt64) (n : Nat) (state : σ) :
    (takeOnto taken n state).1.toList =
      taken.toList ++ (List.range n).map fun i => nthWord i state := by
  induction n generalizing taken state with
  | zero => simp [takeOnto]
  | succ n ih =>
      have hnext : (fun i => nthWord i (word state).2) = fun i => nthWord (i + 1) state := rfl
      have hfirst : (word state).1 = nthWord 0 state := rfl
      rw [takeOnto, ih, Array.toList_push, List.range_succ_eq_map, hnext, hfirst]
      simp [Function.comp_def]

/-- Taking words takes the first ones in order. -/
theorem toList_take (n : Nat) (state : σ) :
    (take n state).1.toList = (List.range n).map fun i => nthWord i state := by
  simp [take, toList_takeOnto]

end Generator

namespace SplitMix

open Generator

theorem nthWord_eq (n : Nat) (s : SplitMix) :
    nthWord n s = mix (s.seed + (n + 1).toUInt64 * s.gamma) := by
  have hsucc : (n + 1).toUInt64 = n.toUInt64 + 1 := UInt64.ofNat_add n 1
  rw [nthWord, advance_eq, hsucc]
  show mix (s.seed + n.toUInt64 * s.gamma + s.gamma) = _
  congr 1
  grind

theorem toUInt64_eq_iff {n m : Nat} : n.toUInt64 = m.toUInt64 ↔ n ≡ m [MOD UInt64.size] := by
  rw [← UInt64.toNat_inj]
  exact Iff.rfl

section Walk

variable {s : SplitMix} (hs : s.gamma.toNat % 2 = 1)

include hs

/-- Two of the words are equal just if a multiple of `2 ^ 64` words lies between them. -/
theorem nthWord_eq_iff (i j : Nat) : nthWord i s = nthWord j s ↔ i ≡ j [MOD UInt64.size] := by
  have hsucc : (i + 1).toUInt64 = (j + 1).toUInt64 ↔ i ≡ j [MOD UInt64.size] := by
    rw [toUInt64_eq_iff]
    exact Nat.ModEq.add_iff_right (Nat.ModEq.refl 1)
  rw [nthWord_eq, nthWord_eq, mix_injective.eq_iff, UInt64.add_right_inj, ← hsucc]
  exact (mul_injective hs).eq_iff

theorem existsUnique_nthWord (w : UInt64) : ∃! i, i < UInt64.size ∧ nthWord i s = w := by
  obtain ⟨z, hz⟩ := mix_bijective.surjective w
  obtain ⟨n, hn⟩ := exists_mul_eq hs (z - s.seed - s.gamma)
  have hlt : n % UInt64.size < UInt64.size := Nat.mod_lt _ (by decide)
  have hword : nthWord (n % UInt64.size) s = w := by
    have hsucc : (n + 1).toUInt64 = n.toUInt64 + 1 := UInt64.ofNat_add n 1
    have hposition : s.seed + (n + 1).toUInt64 * s.gamma = z := by
      rw [hsucc]
      grind
    rw [(nthWord_eq_iff hs _ n).mpr (Nat.mod_modEq n _), nthWord_eq, hposition, hz]
  refine ⟨n % UInt64.size, ⟨hlt, hword⟩, ?_⟩
  rintro i ⟨hi, hi_word⟩
  have hmod := (nthWord_eq_iff hs i _).mp (hi_word.trans hword.symm)
  exact hmod.eq_of_lt_of_lt hi hlt

theorem advance_eq_self_iff (n : Nat) : advance n s = s ↔ UInt64.size ∣ n := by
  have hmul : n.toUInt64 * s.gamma = (0 : Nat).toUInt64 * s.gamma ↔ n ≡ 0 [MOD UInt64.size] :=
    (mul_injective hs).eq_iff.trans toUInt64_eq_iff
  have hzero : (0 : Nat).toUInt64 * s.gamma = 0 := UInt64.zero_mul
  rw [← Nat.modEq_zero_iff_dvd, ← hmul, hzero, advance_eq]
  constructor
  · intro h
    exact UInt64.add_eq_left.mp (mk.inj h).1
  · intro h
    rw [h, UInt64.add_zero]

/-- A stretch of words that is one period long has every word once. -/
theorem perm_take :
    (take UInt64.size s).1.toList.Perm ((List.range UInt64.size).map Nat.toUInt64) := by
  rw [toList_take]
  apply (List.perm_ext_iff_of_nodup ?_ ?_).mpr
  · intro w
    obtain ⟨i, hi, -⟩ := existsUnique_nthWord hs w
    simp only [List.mem_map, List.mem_range]
    exact ⟨fun _ => ⟨w.toNat, w.toNat_lt_size, UInt64.ofNat_toNat⟩, fun _ => ⟨i, hi⟩⟩
  · apply List.Nodup.map_on ?_ List.nodup_range
    intro i hi j hj h
    have hmod := (nthWord_eq_iff hs i j).mp h
    exact hmod.eq_of_lt_of_lt (List.mem_range.mp hi) (List.mem_range.mp hj)
  · apply List.Nodup.map_on ?_ List.nodup_range
    intro i hi j hj h
    have hmod := toUInt64_eq_iff.mp h
    exact hmod.eq_of_lt_of_lt (List.mem_range.mp hi) (List.mem_range.mp hj)

end Walk

/-- The words drawn from a reachable state are all the 64-bit words in some order, and then the
same words again. -/
theorem words_of_period {s : SplitMix} (hs : s.Reachable) :
    (take UInt64.size s).1.toList.Perm ((List.range UInt64.size).map Nat.toUInt64) ∧
    (∀ w, ∃! i, i < UInt64.size ∧ nthWord i s = w) ∧
    (∀ i j, nthWord i s = nthWord j s ↔ i ≡ j [MOD UInt64.size]) ∧
    ∀ n, advance n s = s ↔ UInt64.size ∣ n :=
  have hodd := hs.gamma_odd
  ⟨perm_take hodd, existsUnique_nthWord hodd, nthWord_eq_iff hodd, advance_eq_self_iff hodd⟩

/-- The period of the half that is handed out is as long as that of a state made from a bare
seed. -/
theorem words_of_period_child :
    (ofSeed 6).child.Reachable ∧
      (∃! i, i < UInt64.size ∧ nthWord i (ofSeed 6).child = 0) ∧
      advance UInt64.size (ofSeed 6).child = (ofSeed 6).child :=
  have hs : (ofSeed 6).child.Reachable := .handed (.ofSeed 6)
  ⟨hs, (words_of_period hs).2.1 0, ((words_of_period hs).2.2.2 _).mpr (Nat.dvd_refl _)⟩

end SplitMix

end Aleatory
