import Aleatory.Decimal.Binary

/-!
# Decimal numbers with a given number of digits

`Decimal.scientific` keeps a given number of digits behind the first one, `Decimal.fixed` a given
number of decimals.  Both round the exact binary value once, to nearest, and a tie goes to the
even neighbour.
-/

namespace Aleatory

/-- A number `coefficient * 10 ^ exponent`. -/
structure Decimal where
  coefficient : Nat
  exponent : Int
  deriving DecidableEq, Repr

/-- The nearest natural number to `num / den`; a tie goes to the even one. -/
def roundHalfEven (num den : Nat) : Nat :=
  let floor := num / den
  let rest := 2 * (num % den)
  if den < rest then floor + 1
  else if rest = den then floor + floor % 2
  else floor

/-- A rounded quotient lies within half a unit. -/
theorem roundHalfEven_within (num : Nat) {den : Nat} (h : 0 < den) :
    2 * num ≤ (2 * roundHalfEven num den + 1) * den ∧
      2 * (roundHalfEven num den * den) ≤ 2 * num + den := by
  have hdiv := Nat.div_add_mod num den
  have hlt := Nat.mod_lt num h
  have hcomm : den * (num / den) = num / den * den := Nat.mul_comm _ _
  have hparity : num / den % 2 = 0 ∨ num / den % 2 = 1 := by omega
  unfold roundHalfEven
  generalize num / den = q at *
  generalize num % den = r at *
  dsimp only
  have hstep : (q + 1) * den = q * den + den := by rw [Nat.add_mul, Nat.one_mul]
  split
  · rw [Nat.add_mul, Nat.mul_assoc, hstep]
    omega
  · split
    · rcases hparity with hp | hp <;> rw [hp, Nat.add_mul, Nat.mul_assoc]
      · rw [Nat.add_zero]
        omega
      · rw [hstep]
        omega
    · rw [Nat.add_mul, Nat.mul_assoc]
      omega

namespace Binary

/-- The value over `10 ^ place`, as a numerator and a denominator. -/
def quotientBy (b : Binary) (place : Int) : Nat × Nat :=
  (b.num * Nat.pow 10 (-place).toNat, b.den * Nat.pow 10 place.toNat)

/-- The place of the first decimal digit of a positive number: the largest `e` for which the
number is at least `10 ^ e`. -/
def leadingPlace (b : Binary) : Int :=
  let guess : Int := (Nat.toDigits 10 b.num).length - (Nat.toDigits 10 b.den).length
  let (num, den) := b.quotientBy guess
  if den ≤ num then guess else guess - 1

/-- The multiple of `10 ^ place` nearest to a number. -/
def roundAt (b : Binary) (place : Int) : Decimal :=
  let (num, den) := b.quotientBy place
  ⟨roundHalfEven num den, place⟩

end Binary

namespace Decimal

def digits (n : Nat) : List Char := Nat.toDigits 10 n

/-- Digits with zeros in front up to a given width. -/
def padded (width n : Nat) : List Char :=
  let ds := digits n
  List.replicate (width - ds.length) '0' ++ ds

/-- One digit, a point, the given number of digits and a power of ten. -/
def scientific (places : Nat) (b : Binary) : String :=
  let lead := b.leadingPlace
  let rounded := (b.roundAt (lead - places)).coefficient
  let (rounded, lead) :=
    if Nat.pow 10 (places + 1) ≤ rounded then (rounded / 10, lead + 1) else (rounded, lead)
  let ds := padded (places + 1) rounded
  let mantissa := if places = 0 then ds else ds.take 1 ++ '.' :: ds.drop 1
  String.ofList mantissa ++ "e" ++ toString lead

/-- The digits before the point, a point and the given number of decimals. -/
def fixed (places : Nat) (b : Binary) : String :=
  let ds := padded (places + 1) (b.roundAt (-places)).coefficient
  let split := ds.length - places
  String.ofList (if places = 0 then ds else ds.take split ++ '.' :: ds.drop split)

end Decimal

end Aleatory
