import Aleatory.Decimal.Rounded

/-!
# The fewest digits that read back

Every real number nearer to a double than to its neighbours reads back as that double; so do the
two ends of this interval when the significand is even.  The shortest decimal of a double lies on
the coarsest decimal grid that meets the interval, and is the nearest point of the double on that
grid. Only the two neighbours of the double on a grid need to be looked at: if any point of the
grid lies in the interval, one of them does.
-/

namespace Aleatory

/-- Which of two equally near decimals is taken. -/
inductive Tie where
  | up
  | even
  deriving DecidableEq, Repr

namespace Binary

/-- The distance to the next smaller double is half of the distance to the next larger one where a
power of two begins a new binade. -/
def narrowBelow (b : Binary) : Bool := b.significand == leadingBit && -1074 < b.exponent

/-- Whether `coefficient * 10 ^ place` reads back as the double `b`. -/
def readsBack (b : Binary) (place : Int) (coefficient : Nat) : Bool :=
  let unit := Nat.pow 2 b.exponent.toNat * Nat.pow 10 (-place).toNat
  let point := 4 * coefficient * (b.den * Nat.pow 10 place.toNat)
  let low := (4 * b.significand - if b.narrowBelow then 1 else 2) * unit
  let high := (4 * b.significand + 2) * unit
  if b.significand % 2 = 0 then low ≤ point && point ≤ high else low < point && point < high

/-- The point of the grid of multiples of `10 ^ place` that reads back as `b`, if there is one. -/
def onGrid? (tie : Tie) (b : Binary) (place : Int) : Option Nat :=
  let (num, den) := b.quotientBy place
  let below := num / den
  let rest := 2 * (num % den)
  let preferUpper : Bool := match tie with
    | .up => den ≤ rest
    | .even => den < rest || (rest == den && below % 2 == 1)
  match b.readsBack place below, b.readsBack place (below + 1) with
  | true, true => some (if preferUpper then below + 1 else below)
  | true, false => some below
  | false, true => some (below + 1)
  | false, false => none

/-- The first hit on the grids below a place, coarsest first; at the last grid the nearest point
is taken. -/
def coarsest (tie : Tie) (b : Binary) : Nat → Int → Decimal
  | 0, place => b.roundAt place
  | grids + 1, place =>
    match b.onGrid? tie place with
    | some coefficient => ⟨coefficient, place⟩
    | none => coarsest tie b grids (place - 1)

end Binary

namespace Decimal

/-- Drops the zeros at the end of the coefficient. -/
def trim : Nat → Decimal → Decimal
  | 0, d => d
  | fuel + 1, d =>
    if d.coefficient ≠ 0 ∧ d.coefficient % 10 = 0 then
      trim fuel ⟨d.coefficient / 10, d.exponent + 1⟩
    else d

/-- The shortest decimal of a positive double: at most 17 digits tell all doubles apart. -/
def shortest (tie : Tie) (b : Binary) : Decimal :=
  trim 17 (b.coarsest tie 17 b.leadingPlace)

/-- All digits in place, with zeros up to the point but no point behind an integer. -/
def positional (d : Decimal) : String :=
  let ds := digits d.coefficient
  String.ofList <|
    if 0 ≤ d.exponent then ds ++ List.replicate d.exponent.toNat '0'
    else
      let places := (-d.exponent).toNat
      let ds := padded (places + 1) d.coefficient
      ds.take (ds.length - places) ++ '.' :: ds.drop (ds.length - places)

end Decimal

namespace Reading

/-- The text of a double in a message: its shortest digits, all of them in place. -/
def plain : Reading → String
  | nan => "NaN"
  | infinite negative => if negative then "-inf" else "inf"
  | finite negative b =>
    let text := if b.significand = 0 then "0" else (Decimal.shortest .up b).positional
    if negative then "-" ++ text else text

end Reading

/-- The text of a double in a message. -/
def plainText (x : Float) : String := (Reading.ofFloat x).plain

end Aleatory
