import Aleatory.Proofs.Experiment.Course
import Aleatory.Proofs.Generator.Period
import Aleatory.Sampler.Inverse
import Aleatory.Store
import Mathlib.Data.Stream.Init

/-!
# Recipes and how they are read

A recipe is an experiment written down without a generator: from a word, a unit number, a program
that calls a generator, a sampler by inversion, a lookup, a store, a lifted value, and the ways of
going on from another recipe. It becomes an experiment over any type of generator states
(`Recipe.experiment`), and it can also be read off a stream of words, with no state at all
(`Recipe.read`). How many words a reading takes may depend on the words themselves.

A reading depends on nothing but the words that it takes (`Recipe.read_congr`).
-/

namespace Aleatory

namespace Generator

variable {σ : Type} [Generator σ]

/-- The words that are drawn from a state, one after the other. -/
def words (state : σ) : Stream' UInt64 := fun n => nthWord n state

theorem drop_words (n : ℕ) (state : σ) : (words state).drop n = words (advance n state) := by
  funext i
  show nthWord (i + n) state = nthWord i (advance n state)
  rw [nthWord, Nat.add_comm, advance_add, nthWord]

theorem toList_take_eq (n : ℕ) (state : σ) : (take n state).1.toList = (words state).take n := by
  rw [toList_take]
  apply List.ext_getElem?
  intro i
  by_cases hi : i < n
  · rw [Stream'.getElem?_take hi, List.getElem?_map, List.getElem?_range hi]
    rfl
  · have hleft : ((List.range n).map fun i => nthWord i state).length ≤ i := by simpa using hi
    have hright : ((words state).take n).length ≤ i := by simpa using hi
    rw [List.getElem?_eq_none hleft, List.getElem?_eq_none hright]

end Generator

/-- Two streams agree on their first words just if they do so on a part of them and then on the
rest. -/
theorem take_add_eq_iff {a b : Stream' UInt64} (m n : ℕ) :
    a.take (m + n) = b.take (m + n) ↔
      a.take m = b.take m ∧ (a.drop m).take n = (b.drop m).take n := by
  induction m generalizing a b with
  | zero => simp
  | succ m ih =>
      rw [Nat.add_right_comm, Stream'.take_succ, Stream'.take_succ, Stream'.take_succ,
        Stream'.take_succ, List.cons.injEq, List.cons.injEq, ih, and_assoc]
      rfl

theorem head_eq_of_take {a b : Stream' UInt64} (h : a.take 1 = b.take 1) : a.head = b.head := by
  simpa [Stream'.take_succ] using h

/-- A program that calls a generator for words, for halves of words and for bytes, where what it
calls next may depend on what it was given. -/
inductive Calls (α : Type) : Type where
  | done (value : α)
  | word (k : UInt64 → Calls α)
  | half (k : UInt32 → Calls α)
  | bytes (count : ℕ) (k : List UInt8 → Calls α)

namespace Calls

variable {σ α : Type} [Generator σ]

/-- The calls made on a state. -/
def draws : Calls α → Draws σ α
  | done value => pure value
  | word k => Draws.word >>= fun bits => (k bits).draws
  | half k => Draws.half >>= fun bits => (k bits).draws
  | bytes count k => Draws.bytes count >>= fun taken => (k taken).draws

/-- The number of words that the calls take from a stream, and the value that they lead to. A half
is taken from a word of its own, and so are bytes, whatever is left of the last word. -/
def read : Calls α → Stream' UInt64 → ℕ × α
  | done value, _ => (0, value)
  | word k, s =>
    let rest := (k s.head).read (s.drop 1)
    (1 + rest.1, rest.2)
  | half k, s =>
    let rest := (k (s.head >>> 32).toUInt32).read (s.drop 1)
    (1 + rest.1, rest.2)
  | bytes count k, s =>
    let whole := (count + 7) / 8
    let rest := (k (((s.take whole).flatMap wordBytes).take count)).read (s.drop whole)
    (whole + rest.1, rest.2)

theorem read_congr (c : Calls α) {a b : Stream' UInt64}
    (h : a.take (c.read a).1 = b.take (c.read a).1) : c.read b = c.read a := by
  induction c generalizing a b with
  | done value => rfl
  | word k ih =>
      obtain ⟨hfirst, hrest⟩ := (take_add_eq_iff _ _).mp h
      simp only [read, ← head_eq_of_take hfirst]
      rw [ih _ hrest]
  | half k ih =>
      obtain ⟨hfirst, hrest⟩ := (take_add_eq_iff _ _).mp h
      simp only [read, ← head_eq_of_take hfirst]
      rw [ih _ hrest]
  | bytes count k ih =>
      obtain ⟨hwhole, hrest⟩ := (take_add_eq_iff _ _).mp h
      simp only [read, ← hwhole]
      rw [ih _ hrest]

end Calls

/-- The samplers by inversion and their parameters. -/
inductive Inversion : Type → Type 1 where
  | uniform (low high : Float) : Inversion Float
  | bernoulli (p : Float) : Inversion Bool
  | categorical (weights : List Float) : Inversion ℕ
  | exponential (rate : Float) : Inversion Float
  | gumbel (location scale : Float) : Inversion Float

namespace Inversion

variable {F : Mode} {σ χ α : Type} [Generator σ]

def build {α : Type} : Inversion α → Except ParameterError (Experiment F σ χ α)
  | uniform low high => Inverse.uniform low high
  | bernoulli p => Inverse.bernoulli p
  | categorical weights => Inverse.categorical weights
  | exponential rate => Inverse.exponential rate
  | gumbel location scale => Inverse.gumbel location scale

/-- What a sampler makes of a word. -/
def value {α : Type} : Inversion α → UInt64 → α
  | uniform low high, bits => Inverse.uniformAt low high (unitOfWord bits)
  | bernoulli p, bits => unitOfWord bits < p
  | categorical weights, bits =>
    Inverse.indexAt (Inverse.runningSums weights) (Inverse.lastPositive weights) (unitOfWord bits)
  | exponential rate, bits => -(Inverse.openUnitOfWord bits).log / rate
  | gumbel location scale, bits =>
    location - scale * (-(Inverse.openUnitOfWord bits).log).log

end Inversion

/-- Experiments written down without a generator, in a mode `F`, with a store for extras. -/
inductive Recipe (F : Mode) (κ : Type) [DecidableEq κ] [Kind κ] : Type → Type 1 where
  | certain {α : Type} (value : α) : Recipe F κ α
  | word : Recipe F κ UInt64
  | unit : Recipe F κ Float
  | calls {α : Type} (program : Calls α) : Recipe F κ α
  /-- A sampler whose parameters were accepted, and what was built for them. -/
  | sampler {α : Type} (s : Inversion α)
      (built : ∀ (σ : Type) [Generator σ], Experiment F σ (Store κ) α)
      (accepted : ∀ (σ : Type) [Generator σ], s.build = .ok (built σ)) : Recipe F κ α
  | lookup {kind : κ} (key : Key kind) : Recipe F κ (Option (Kind.Value kind))
  | store {kind : κ} (key : Key kind) (value : Kind.Value kind) : Recipe F κ Unit
  /-- A lifted value that is not a failure. Only the symbolic mode knows of its steps. -/
  | lift {α : Type} (t : Counted α) : Recipe F κ α
  | map {α β : Type} (source : Recipe F κ α) (f : α → β) : Recipe F κ β
  | bind {α β : Type} (source : Recipe F κ α) (k : α → Recipe F κ β) : Recipe F κ β
  | zip {α β : Type} (first : Recipe F κ α) (second : Recipe F κ β) : Recipe F κ (α × β)

/-- What a recipe leads to: how many words it takes, how many steps it counts, and the extras and
the value at its end. -/
structure Upshot (χ α : Type) where
  words : ℕ
  steps : ℕ
  extras : χ
  value : α

/-- The upshot behind words already taken and steps already counted. -/
def Upshot.behind {χ α : Type} (words steps : ℕ) (R : Upshot χ α) : Upshot χ α :=
  { R with words := words + R.words, steps := steps + R.steps }

/-- The steps that a lifted value adds to the count of a run. -/
def Mode.cost : Mode → UInt64 → ℕ
  | .symbolic, steps => steps.toNat + 1
  | _, _ => 0

namespace Recipe

variable {F : Mode} {κ : Type} [DecidableEq κ] [Kind κ]

/-- The experiment over a type of generator states. -/
def experiment (σ : Type) [Generator σ] {α : Type} : Recipe F κ α → Experiment F σ (Store κ) α
  | certain value => .certain value
  | word => .word
  | unit => .unit
  | calls program => .ofDraws program.draws
  | sampler _ built _ => built σ
  | lookup key => .lookup key
  | store key value => .store key value
  | lift t => .lift (F.conclude (.ok t))
  | map source f => .map (source.experiment σ) f
  | bind source k => .bind (source.experiment σ) fun a => (k a).experiment σ
  | zip first second => .zip (first.experiment σ) (second.experiment σ)

/-- What a recipe leads to from a stream of words and extras. -/
def read {α : Type} : Recipe F κ α → Stream' UInt64 → Store κ → Upshot (Store κ) α
  | certain value, _, extras => { words := 0, steps := 0, extras, value }
  | word, s, extras => { words := 1, steps := 0, extras, value := s.head }
  | unit, s, extras => { words := 1, steps := 0, extras, value := unitOfWord s.head }
  | calls program, s, extras =>
    { words := (program.read s).1, steps := 0, extras, value := (program.read s).2 }
  | sampler inversion _ _, s, extras =>
    { words := 1, steps := 0, extras, value := inversion.value s.head }
  | lookup key, _, extras => { words := 0, steps := 0, extras, value := extras.get? key }
  | store key value, _, extras =>
    { words := 0, steps := 0, extras := extras.insert key value, value := () }
  | lift t, _, extras => { words := 0, steps := F.cost t.steps, extras, value := t.value }
  | map source f, s, extras =>
    let R := source.read s extras
    { R with value := f R.value }
  | bind source k, s, extras =>
    let R := source.read s extras
    ((k R.value).read (s.drop R.words) R.extras).behind R.words R.steps
  | zip first second, s, extras =>
    let R := first.read s extras
    let R' := second.read (s.drop R.words) R.extras
    { R' with value := (R.value, R'.value) }.behind R.words R.steps

/-- A recipe that is read off two streams takes the same words from them if the one has the words
that are taken from the other. -/
theorem read_congr {α : Type} (r : Recipe F κ α) {a b : Stream' UInt64} {extras : Store κ}
    (h : a.take (r.read a extras).words = b.take (r.read a extras).words) :
    r.read b extras = r.read a extras := by
  induction r generalizing a b extras with
  | certain value => rfl
  | word => rw [read, read, head_eq_of_take h]
  | unit => rw [read, read, head_eq_of_take h]
  | calls program => rw [read, read, program.read_congr h]
  | sampler s built accepted => rw [read, read, head_eq_of_take h]
  | lookup key => rfl
  | store key value => rfl
  | lift t => rfl
  | map source f ih => rw [read, read, ih h]
  | bind source k ihSource ihRest =>
      obtain ⟨hfirst, hrest⟩ := (take_add_eq_iff _ _).mp h
      rw [read, read, ihSource hfirst, ihRest _ hrest]
  | zip first second ihFirst ihSecond =>
      obtain ⟨hfirst, hrest⟩ := (take_add_eq_iff _ _).mp h
      rw [read, read, ihFirst hfirst, ihSecond hrest]

end Recipe

end Aleatory
