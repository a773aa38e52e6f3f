import Aleatory.Generator

/-!
# SplitMix

A SplitMix state walks the 64-bit words in steps of `gamma` and scrambles each word that it lands
on. The first half of a split is the state two steps on; the second half starts from the two words
landed on, one scrambled to a seed and the other to a gamma.  A gamma is odd, so that the walk
meets every word, and alternates its bits often enough, so that neighbouring words differ in many
places.
-/

namespace Aleatory

/-- A position among the 64-bit words and the step between two positions. -/
structure SplitMix where
  /-- The position. -/
  seed : UInt64
  /-- The step. -/
  gamma : UInt64
  deriving DecidableEq, Repr

namespace SplitMix

/-- The step of a state made from a bare seed: the odd word nearest to `2 ^ 64` over the golden
ratio. -/
def goldenGamma : UInt64 := 0x9e3779b97f4a7c15

/-- The state at a given position with the standard step. -/
def ofSeed (seed : UInt64) : SplitMix := ⟨seed, goldenGamma⟩

/-- Scrambles a position to an output word. -/
def mix (z : UInt64) : UInt64 :=
  let z := (z ^^^ (z >>> 30)) * 0xbf58476d1ce4e5b9
  let z := (z ^^^ (z >>> 27)) * 0x94d049bb133111eb
  z ^^^ (z >>> 31)

/-- The number of one bits among the lowest `width` bits. -/
def countOnes (z : UInt64) (width : Nat) : Nat :=
  (List.range width).countP fun place => z.toNat.testBit place

/-- Scrambles a position to a step: odd, and with at least 24 places where neighbouring bits
differ. -/
def mixGamma (z : UInt64) : UInt64 :=
  let z := (z ^^^ (z >>> 33)) * 0xff51afd7ed558ccd
  let z := (z ^^^ (z >>> 33)) * 0xc4ceb9fe1a85ec53
  let z := (z ^^^ (z >>> 33)) ||| 1
  if countOnes (z ^^^ (z >>> 1)) 64 < 24 then z ^^^ 0xaaaaaaaaaaaaaaaa else z

/-- The state one step on. -/
def step (s : SplitMix) : SplitMix := { s with seed := s.seed + s.gamma }

/-- The state that a split hands out. -/
def child (s : SplitMix) : SplitMix := ⟨mix s.step.seed, mixGamma s.step.step.seed⟩

instance : Generator SplitMix where
  word s := (mix s.step.seed, s.step)
  split s := (s.step.step, s.child)

def render (s : SplitMix) : String :=
  "SplitMix64 \x7b seed: " ++ toString s.seed.toNat ++ ", gamma: " ++ toString s.gamma.toNat
    ++ " \x7d"

/-- A state of a numbered list: `numbered n` starts one state at each seed below `n`. -/
structure Numbered where
  inner : SplitMix
  deriving DecidableEq, Repr

namespace Numbered

instance : Generator Numbered where
  word s :=
    let (bits, next) := Generator.word s.inner
    (bits, ⟨next⟩)
  split s :=
    let (kept, handed) := Generator.split s.inner
    (⟨kept⟩, ⟨handed⟩)

def render (s : Numbered) : String := "EnumerableSplitMix(" ++ s.inner.render ++ ")"

end Numbered

/-- The states at the seeds below `n`, in order. -/
def numbered (n : UInt64) : List Numbered :=
  (List.range n.toNat).map fun seed => ⟨ofSeed seed.toUInt64⟩

end SplitMix

end Aleatory
