import Aleatory.Decimal.Shortest

/-!
# Numerals

A numeral is a number as it is written in a document: digits before the point, digits behind it,
and a power of ten.  It is read as a count when it is written without a point and without a power
of ten, and as a double by scaling: digits are gathered into a 64-bit significand as long as they
fit, and the significand is multiplied or divided by one power of ten after the other.

Both readings are those of `serde_json` 1.0 without its feature `float_roundtrip`, which reads in
one pass and does not look for the nearest double.  Its exponent has 32 bits and overflows at its
ends to a number too large or to zero; the exponent here has no bounds, which tells the same unless
more than `2 ^ 31` digits stand in one numeral.
-/

namespace Aleatory

/-- A number as it is written. -/
structure Numeral where
  negative : Bool := false
  /-- The digits before the point, at least one. -/
  whole : List Char
  /-- The digits behind the point; none if there is no point. -/
  decimals : List Char := []
  /-- The power of ten, if one is written. -/
  power : Option Int := none
  deriving DecidableEq, Repr

namespace Numeral

def ofNat (n : Nat) : Numeral := { whole := Decimal.digits n }

/-- The numeral of a decimal.  It is positional, with at least one digit behind the point, while
the point stands at most 16 places behind the first digit and at most four zeros stand between the
two; otherwise it has one digit before the point and a power of ten. -/
def ofDecimal (negative : Bool) (d : Decimal) : Numeral :=
  let ds := Decimal.digits d.coefficient
  let point : Int := ds.length + d.exponent
  if 0 < point ∧ point ≤ 16 then
    if 0 ≤ d.exponent then
      { negative, whole := ds ++ List.replicate d.exponent.toNat '0', decimals := ['0'] }
    else { negative, whole := ds.take point.toNat, decimals := ds.drop point.toNat }
  else if -5 < point ∧ point ≤ 0 then
    { negative, whole := ['0'], decimals := List.replicate (-point).toNat '0' ++ ds }
  else { negative, whole := ds.take 1, decimals := ds.drop 1, power := some (point - 1) }

/-- The numeral of a finite double: as in `serde_json` 1.0, the fewest digits that read back. -/
def ofFloat? (x : Float) : Option Numeral :=
  match Reading.ofFloat x with
  | .finite negative b =>
    some <| if b.significand = 0 then { negative, whole := ['0'], decimals := ['0'] }
      else ofDecimal negative (Decimal.shortest .even b)
  | _ => none

def render (n : Numeral) : String :=
  let sign := if n.negative then "-" else ""
  let decimals := if n.decimals.isEmpty then "" else "." ++ String.ofList n.decimals
  let power := match n.power with
    | some e => "e" ++ toString e
    | none => ""
  sign ++ String.ofList n.whole ++ decimals ++ power

def digitValue (c : Char) : Nat := c.toNat - '0'.toNat

/-- Gathers digits behind a significand while it stays below `2 ^ 64`; the second component counts
the digits that were left over. -/
def gather : Nat → List Char → Nat × Nat
  | significand, [] => (significand, 0)
  | significand, c :: rest =>
    let longer := 10 * significand + digitValue c
    if longer < UInt64.size then gather longer rest else (significand, rest.length + 1)

/-- The count that a numeral without sign, point and power of ten stands for, if it fits in a
word. -/
def count? (n : Numeral) : Option UInt64 :=
  match n.negative, n.decimals, n.power, gather 0 n.whole with
  | false, [], none, (value, 0) => some value.toUInt64
  | _, _, _, _ => none

/-- The double nearest to a power of ten. -/
def tenTo (e : Nat) : Float := Float.ofScientific 1 false e

/-- Divides by a power of ten, at most `10 ^ 308` at a time, as `serde_json` 1.0 does. -/
def scaleDown (f : Float) (e : Nat) : Float :=
  if e ≤ 308 then f / tenTo e
  else if f == 0.0 then f
  else scaleDown (f / tenTo 308) (e - 308)
termination_by e

/-- A significand times a power of ten, unless that is too large for a double. -/
def scale? (f : Float) (e : Int) : Option Float :=
  if e < 0 then some (scaleDown f (-e).toNat)
  else if e ≤ 308 then
    let scaled := f * tenTo e.toNat
    if scaled.isInf then none else some scaled
  else if f == 0.0 then some f
  else none

/-- The double that a numeral is read as, unless it is too large.  As in `serde_json` 1.0 the digits
that no longer fit are dropped, and the sign is put in front at the end. -/
def double? (n : Numeral) : Option Float := do
  let (significand, dropped) := gather 0 n.whole
  let (significand, left) := gather significand n.decimals
  let exponent : Int := dropped - (n.decimals.length - left : Nat) + n.power.getD 0
  let magnitude ← scale? significand.toUInt64.toFloat exponent
  return if n.negative then -magnitude else magnitude

end Numeral

end Aleatory
