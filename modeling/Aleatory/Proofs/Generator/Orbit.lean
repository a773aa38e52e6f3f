import Aleatory.Generator.SplitMix
import Mathlib.Data.Int.GCD
import Mathlib.Data.Nat.Bitwise
import Mathlib.Data.Nat.Prime.Basic

/-!
# Where a SplitMix state walks

Draws keep the step of a state and move its position by one step each (`advance_eq`). Every state
that is reached from a bare seed has an odd step (`Reachable.gamma_odd`), and an odd step meets
every position, so two states with one step are on one walk (`exists_advance_eq`), while states
with different steps never meet.

So the halves of a split have nothing in common just if the step that the split derives for the
new half is not the step of the state that was split (`split_streams_disjoint_iff`). Nothing in
the derivation excludes that it is, and there are two bare seeds for which it is.
-/

namespace Aleatory

namespace Generator

variable {σ : Type} [Generator σ]

theorem advance_add (n m : Nat) (state : σ) :
    advance (n + m) state = advance m (advance n state) := by
  induction n generalizing state with
  | zero => rw [Nat.zero_add, advance]
  | succ n ih =>
      rw [Nat.add_right_comm]
      exact ih (word state).2

end Generator

namespace SplitMix

open Generator

/-- The states that draws and splits lead to from a bare seed. -/
inductive Reachable : SplitMix → Prop
  | ofSeed (seed : UInt64) : Reachable (ofSeed seed)
  | word {s : SplitMix} (hs : Reachable s) : Reachable (word s).2
  | kept {s : SplitMix} (hs : Reachable s) : Reachable (split s).1
  | handed {s : SplitMix} (hs : Reachable s) : Reachable (split s).2

/-- A derived step is odd, whether or not its bits had to be alternated: alternating leaves the
lowest bit as it is. -/
theorem mixGamma_odd (z : UInt64) : (mixGamma z).toNat % 2 = 1 := by
  have hxor (y : UInt64) : (y ^^^ 0xaaaaaaaaaaaaaaaa).toNat % 2 = y.toNat % 2 := by
    rw [UInt64.toNat_xor, Nat.xor_mod_two_eq]
    exact Nat.add_mul_mod_self_right y.toNat 6148914691236517205 2
  have hor (y : UInt64) : (y ||| 1).toNat % 2 = 1 := by simp
  unfold mixGamma
  extract_lets z₁ z₂ z₃
  split
  · rw [hxor]
    exact hor _
  · exact hor _

theorem Reachable.gamma_odd {s : SplitMix} (hs : s.Reachable) : s.gamma.toNat % 2 = 1 := by
  induction hs with
  | ofSeed seed => exact (by decide : goldenGamma.toNat % 2 = 1)
  | word hs ih => exact ih
  | kept hs ih => exact ih
  | handed hs ih => exact mixGamma_odd _

theorem advance_eq (n : Nat) (s : SplitMix) :
    advance n s = ⟨s.seed + n.toUInt64 * s.gamma, s.gamma⟩ := by
  induction n generalizing s with
  | zero => simp [advance]
  | succ n ih =>
      have hseed : s.seed + s.gamma + n.toUInt64 * s.gamma =
          s.seed + (n + 1).toUInt64 * s.gamma := by
        have hsucc : (n + 1).toUInt64 = n.toUInt64 + 1 := UInt64.ofNat_add n 1
        rw [hsucc]
        grind
      rw [advance, ih, ← hseed]
      rfl

theorem gamma_eq_of_advance_eq {s t : SplitMix} {n m : Nat} (h : advance n s = advance m t) :
    s.gamma = t.gamma := by
  rw [advance_eq, advance_eq] at h
  exact (mk.inj h).2

/-- An odd word divides every word. -/
theorem exists_mul_eq {g : UInt64} (hg : g.toNat % 2 = 1) (d : UInt64) :
    ∃ n : Nat, n.toUInt64 * g = d := by
  have hcoprime : Nat.Coprime g.toNat (2 ^ 64) :=
    (Nat.coprime_two_right.mpr (Nat.odd_iff.mpr hg)).pow_right 64
  obtain ⟨m, -, hm⟩ := Nat.exists_mul_mod_eq_one_of_coprime hcoprime (by decide)
  have hinverse : g * m.toUInt64 = 1 := by
    apply UInt64.toNat_inj.mp
    rw [UInt64.toNat_mul, UInt64.toNat_ofNat', Nat.mul_mod_mod, hm]
    rfl
  refine ⟨(d * m.toUInt64).toNat, ?_⟩
  have hword : (d * m.toUInt64).toNat.toUInt64 = d * m.toUInt64 := UInt64.ofNat_toNat
  calc (d * m.toUInt64).toNat.toUInt64 * g
      = d * (g * m.toUInt64) := by rw [hword]; grind
    _ = d := by rw [hinverse, UInt64.mul_one]

/-- Two states with one odd step are on one walk. -/
theorem exists_advance_eq {s t : SplitMix} (hs : s.gamma.toNat % 2 = 1) (h : s.gamma = t.gamma) :
    ∃ n, advance n s = t := by
  obtain ⟨n, hn⟩ := exists_mul_eq hs (t.seed - s.seed)
  refine ⟨n, ?_⟩
  have hseed : s.seed + (t.seed - s.seed) = t.seed := by grind
  rw [advance_eq, hn, hseed, h]

/-- The halves of a split have no later state in common just if the step that is derived for the
second half is not the step of the first. If it is, the second half walks where the first one
walks, a number of draws ahead. -/
theorem split_streams_disjoint_iff {s : SplitMix} (hs : s.Reachable) :
    ((∀ n m, advance n (split s).1 ≠ advance m (split s).2) ↔
      mixGamma s.step.step.seed ≠ s.gamma) ∧
    (mixGamma s.step.step.seed = s.gamma →
      ∃ n, ∀ m, advance (n + m) (split s).1 = advance m (split s).2) := by
  have hahead (h : mixGamma s.step.step.seed = s.gamma) :
      ∃ n, ∀ m, advance (n + m) (split s).1 = advance m (split s).2 := by
    obtain ⟨n, hn⟩ := exists_advance_eq (Reachable.kept hs).gamma_odd
      (show (split s).1.gamma = (split s).2.gamma from h.symm)
    refine ⟨n, fun m => ?_⟩
    rw [advance_add, hn]
  refine ⟨⟨?_, ?_⟩, hahead⟩
  · intro hdisjoint h
    obtain ⟨n, hn⟩ := hahead h
    exact hdisjoint (n + 0) 0 (hn 0)
  · intro hne n m h
    exact hne (gamma_eq_of_advance_eq h).symm

theorem split_streams_disjoint_ofSeed_zero :
    (ofSeed 0).Reachable ∧
      ∀ n m, advance n (split (ofSeed 0)).1 ≠ advance m (split (ofSeed 0)).2 :=
  ⟨.ofSeed 0, ((split_streams_disjoint_iff (.ofSeed 0)).1).mpr (by decide +kernel)⟩

/-- A bare seed whose split derives the standard step again: the second half is where the first
one is after this many draws. -/
theorem split_streams_overlap :
    (ofSeed 9617024434584473312).Reachable ∧
      advance 15550318581460373096 (split (ofSeed 9617024434584473312)).1 =
        advance 0 (split (ofSeed 9617024434584473312)).2 := by
  refine ⟨.ofSeed _, ?_⟩
  rw [advance_eq, advance_eq]
  decide +kernel

end SplitMix

end Aleatory
