import Aleatory.Proofs.Generator.Orbit
import Mathlib.Data.Fintype.EquivFin

/-!
# What mixing keeps

`mix` scrambles positions to output words one to one: it is a composition of foldings, which lose
nothing because shifting makes a word smaller, and of multiplications by odd words. So every word
is the output at exactly one position (`mix_bijective`).

`mixGamma` makes sure of two things that a step has to have (`SoundStep`): it is odd, and its bits
alternate in at least 24 places. If a word alternates too seldom, it is flipped at every second
place, the lowest one left out. That keeps it odd and turns every place where neighbouring bits
agree into one where they differ (`alternations_flip`).
-/

namespace Aleatory

namespace SplitMix

open Generator

/-! ## Positions and output words -/

theorem eq_of_xor_shiftRight_eq {k x y : Nat} (hk : 0 < k)
    (h : x ^^^ (x >>> k) = y ^^^ (y >>> k)) : x = y := by
  have hshift : (x ^^^ y) >>> k = x ^^^ y := by
    calc (x ^^^ y) >>> k
        = x ^^^ (x ^^^ (x >>> k)) ^^^ (y >>> k) := by
          rw [Nat.shiftRight_xor_distrib, ← Nat.xor_assoc, Nat.xor_self, Nat.zero_xor]
      _ = x ^^^ y := by rw [h, Nat.xor_assoc, Nat.xor_assoc, Nat.xor_self, Nat.xor_zero]
  have hzero : x ^^^ y = 0 := by
    by_contra hne
    have hlt : (x ^^^ y) >>> k < x ^^^ y := by
      rw [Nat.shiftRight_eq_div_pow]
      exact Nat.div_lt_self (Nat.pos_of_ne_zero hne) (Nat.one_lt_two_pow hk.ne')
    exact absurd hshift hlt.ne
  exact Nat.xor_eq_zero_iff.mp hzero

/-- Folding a word onto itself loses nothing. -/
theorem fold_injective {k : UInt64} (hk : 0 < k.toNat % 64) :
    Function.Injective fun z : UInt64 => z ^^^ (z >>> k) := by
  intro x y h
  apply UInt64.toNat_inj.mp
  apply eq_of_xor_shiftRight_eq hk
  simpa using congrArg UInt64.toNat h

theorem mul_injective {g : UInt64} (hg : g.toNat % 2 = 1) :
    Function.Injective fun z : UInt64 => z * g := by
  obtain ⟨n, hn⟩ := exists_mul_eq hg 1
  have hinverse (z : UInt64) : z * g * n.toUInt64 = z := by grind
  intro x y h
  rw [← hinverse x, ← hinverse y]
  exact congrArg (· * n.toUInt64) h

theorem mix_injective : Function.Injective mix := by
  have h₁ := fold_injective (k := 30) (by decide)
  have h₂ := mul_injective (g := 0xbf58476d1ce4e5b9) (by decide)
  have h₃ := fold_injective (k := 27) (by decide)
  have h₄ := mul_injective (g := 0x94d049bb133111eb) (by decide)
  have h₅ := fold_injective (k := 31) (by decide)
  exact h₅.comp (h₄.comp (h₃.comp (h₂.comp h₁)))

/-- Every word is the output at exactly one position. -/
theorem mix_bijective : Function.Bijective mix := by
  have : Finite UInt64 := Finite.of_injective UInt64.toFin fun _ _ h => UInt64.toFin_inj.mp h
  exact ⟨mix_injective, Finite.injective_iff_surjective.mp mix_injective⟩

/-! ## Steps -/

/-- The number of places where neighbouring bits differ; above the highest bit there is a zero. -/
def alternations (z : UInt64) : Nat := countOnes (z ^^^ (z >>> 1)) 64

/-- What a step has to have, so that the walk meets every word and neighbouring words differ in
many places. -/
structure SoundStep (gamma : UInt64) : Prop where
  odd : gamma.toNat % 2 = 1
  alternates : 24 ≤ alternations gamma

theorem countOnes_complement (z : UInt64) :
    countOnes (z ^^^ 0xffffffffffffffff) 64 + countOnes z 64 = 64 := by
  have hbit (place : Nat) (hplace : place < 64) :
      (z ^^^ 0xffffffffffffffff).toNat.testBit place = !z.toNat.testBit place := by
    have hones : (2 ^ 64 - 1).testBit place = true := by
      rw [Nat.testBit_two_pow_sub_one, decide_eq_true hplace]
    have htoNat : (0xffffffffffffffff : UInt64).toNat = 2 ^ 64 - 1 := rfl
    rw [UInt64.toNat_xor, Nat.testBit_xor, htoNat, hones, Bool.xor_true]
  have hcount : countOnes (z ^^^ 0xffffffffffffffff) 64 =
      (List.range 64).countP fun place => !z.toNat.testBit place := by
    apply List.countP_congr
    intro place hplace
    rw [hbit place (List.mem_range.mp hplace)]
  have hall := List.length_eq_countP_add_countP
    (fun place => z.toNat.testBit place) (l := List.range 64)
  rw [hcount, countOnes]
  simp at hall ⊢
  omega

/-- Flipping every second place turns the places where neighbouring bits agree into those where
they differ. -/
theorem alternations_flip (z : UInt64) :
    alternations (z ^^^ 0xaaaaaaaaaaaaaaaa) + alternations z = 64 := by
  have hxor (m : UInt64) :
      (z ^^^ m) ^^^ ((z ^^^ m) >>> 1) = (z ^^^ (z >>> 1)) ^^^ (m ^^^ (m >>> 1)) := by
    rw [UInt64.shiftRight_xor]
    ac_rfl
  rw [alternations, alternations, hxor]
  exact countOnes_complement _

theorem mixGamma_sound (z : UInt64) : SoundStep (mixGamma z) := by
  refine ⟨mixGamma_odd z, ?_⟩
  unfold mixGamma
  extract_lets z₁ z₂ z₃
  split
  · next hseldom =>
      have hflip := alternations_flip z₃
      have hfew : alternations z₃ < 24 := hseldom
      omega
  · next hoften => exact Nat.le_of_not_lt hoften

theorem goldenGamma_sound : SoundStep goldenGamma := ⟨by decide, by decide⟩

theorem Reachable.gamma_sound {s : SplitMix} (hs : s.Reachable) : SoundStep s.gamma := by
  induction hs with
  | ofSeed seed => exact goldenGamma_sound
  | word hs ih => exact ih
  | kept hs ih => exact ih
  | handed hs ih => exact mixGamma_sound _

/-- The states that draws and splits lead to from a state of a numbered list. -/
inductive Numbered.Reachable : Numbered → Prop
  | listed {n : UInt64} {s : Numbered} (hs : s ∈ numbered n) : Reachable s
  | word {s : Numbered} (hs : Reachable s) : Reachable (word s).2
  | kept {s : Numbered} (hs : Reachable s) : Reachable (split s).1
  | handed {s : Numbered} (hs : Reachable s) : Reachable (split s).2

/-- A numbered list starts from bare seeds, and its states draw and split as their inner ones. -/
theorem Numbered.Reachable.inner {s : Numbered} (hs : s.Reachable) : s.inner.Reachable := by
  induction hs with
  | listed hs =>
      obtain ⟨seed, -, rfl⟩ := List.mem_map.mp hs
      exact .ofSeed _
  | word hs ih => exact .word ih
  | kept hs ih => exact .kept ih
  | handed hs ih => exact .handed ih

/-- Every step that is derived or reached is sound, in whichever way it was derived. -/
theorem steps_sound :
    (∀ z, SoundStep (mixGamma z)) ∧
    (∀ s : SplitMix, s.Reachable → SoundStep s.gamma) ∧
    ∀ s : Numbered, s.Reachable → SoundStep s.inner.gamma :=
  ⟨mixGamma_sound, fun _ hs => hs.gamma_sound, fun _ hs => hs.inner.gamma_sound⟩

/-- A state that hands out a step whose bits had to be flipped. -/
theorem steps_sound_flipped :
    (ofSeed 0xc3910c8d016b07d6).child.Reachable ∧
      (ofSeed 0xc3910c8d016b07d6).child.gamma = 0xaaaaaaaaaaaaaaab ∧
      SoundStep (ofSeed 0xc3910c8d016b07d6).child.gamma :=
  ⟨.handed (.ofSeed _), by decide +kernel, steps_sound.2.1 _ (.handed (.ofSeed _))⟩

end SplitMix

end Aleatory
