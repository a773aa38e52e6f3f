import Aleatory.Mark

/-!
# Generators

A generator is a state that yields 64-bit words one after the other and that can be split into two
states.  `Draws σ α` is a program that takes words from a generator state and leaves the advanced
state behind; each word and each split that it takes is marked in its log.
-/

namespace Aleatory

/-- States that yield words and split in two. -/
class Generator (σ : Type) where
  /-- The next word, and the state after it. -/
  word : σ → UInt64 × σ
  /-- The two halves of a state: the one that goes on, and the one that is handed out. -/
  split : σ → σ × σ

namespace Generator

variable {σ : Type} [Generator σ]

/-- The next 32 bits: the upper half of one word. -/
def half (state : σ) : UInt32 × σ :=
  let (bits, next) := word state
  ((bits >>> 32).toUInt32, next)

/-- The state after `n` words. -/
def advance : Nat → σ → σ
  | 0, state => state
  | n + 1, state => advance n (word state).2

/-- The next `n` words and the state after them, behind words already taken. -/
def takeOnto (taken : Array UInt64) : Nat → σ → Array UInt64 × σ
  | 0, state => (taken, state)
  | n + 1, state =>
    let (bits, next) := word state
    takeOnto (taken.push bits) n next

/-- The next `n` words and the state after them. -/
def take (n : Nat) (state : σ) : Array UInt64 × σ := takeOnto #[] n state

theorem takeOnto_snd (taken : Array UInt64) (n : Nat) (state : σ) :
    (takeOnto taken n state).2 = advance n state := by
  induction n generalizing taken state with
  | zero => rfl
  | succ n ih => exact ih _ _

theorem take_snd (n : Nat) (state : σ) : (take n state).2 = advance n state :=
  takeOnto_snd #[] n state

theorem size_takeOnto (taken : Array UInt64) (n : Nat) (state : σ) :
    (takeOnto taken n state).1.size = taken.size + n := by
  induction n generalizing taken state with
  | zero => rfl
  | succ n ih =>
    show (takeOnto (taken.push (word state).1) n (word state).2).1.size = _
    rw [ih, Array.size_push]
    omega

theorem size_take (n : Nat) (state : σ) : (take n state).1.size = n := by
  simp [take, size_takeOnto]

end Generator

/-- The eight bytes of a word, the least significant first. -/
def wordBytes (bits : UInt64) : List UInt8 :=
  (List.range 8).map fun place => (bits >>> (8 * place).toUInt64).toUInt8

@[simp]
theorem length_wordBytes (bits : UInt64) : (wordBytes bits).length = 8 := by
  simp [wordBytes]

/-- The number `k / 2 ^ 53` for the number `k` made of the upper 53 bits of a word. -/
def unitOfWord (bits : UInt64) : Float := (bits >>> 11).toFloat * (1.0 / 9007199254740992.0)

/-- Programs that take words from a generator and mark each one. -/
abbrev Draws (σ α : Type) := StateT σ (Traced Mark) α

namespace Draws

variable {σ : Type} [Generator σ]

def word : Draws σ UInt64 := fun state => ⟨#[.draw], .ok (Generator.word state)⟩

def half : Draws σ UInt32 := fun state => ⟨#[.draw], .ok (Generator.half state)⟩

/-- A multiple of `2 ^ -53` in `[0, 1)`. -/
def unit : Draws σ Float := fun state =>
  let (bits, next) := Generator.word state
  ⟨#[.draw], .ok (unitOfWord bits, next)⟩

/-- Splits the state, goes on with the first half and hands out the second. -/
def split : Draws σ σ := fun state =>
  let (kept, handed) := Generator.split state
  ⟨#[.split], .ok (handed, kept)⟩

/-- Writes `count` bytes behind those already written, in chunks of at most eight. A chunk takes a
word of its own, and what it leaves of the word is discarded. -/
def fillOnto (log : Array Mark) (written : Array UInt8) (count : Nat) (state : σ) :
    Traced Mark (List UInt8 × σ) :=
  if count = 0 then ⟨log, .ok (written.toList, state)⟩
  else
    let (bits, next) := Generator.word state
    fillOnto (log.push .draw) (written ++ (wordBytes bits).take count) (count - 8) next
termination_by count

/-- Bytes from whole words in order. -/
def bytes (count : Nat) : Draws σ (List UInt8) := fillOnto #[] #[] count

/-- The request for bytes that may be refused; it never is. -/
def tryBytes (ε : Type) (count : Nat) : Draws σ (Except ε (List UInt8)) :=
  return .ok (← bytes count)

end Draws

end Aleatory
