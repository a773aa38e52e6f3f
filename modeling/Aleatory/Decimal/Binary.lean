/-!
# Doubles as exact numbers

A finite double is a sign and a number `significand * 2 ^ exponent`.  Everything that is said
about the decimal text of a double is computed from this pair in exact arithmetic.
-/

namespace Aleatory

/-- A number `significand * 2 ^ exponent`. -/
structure Binary where
  significand : Nat
  exponent : Int
  deriving DecidableEq, Repr

/-- The bit that a normal double has in front of its 52 fraction bits. -/
def leadingBit : Nat := 0x10000000000000

/-- What the bits of a double stand for. -/
inductive Reading where
  | nan
  | infinite (negative : Bool)
  | finite (negative : Bool) (magnitude : Binary)
  deriving DecidableEq, Repr

namespace Reading

/-- The reading of 64 bits: one sign bit, 11 exponent bits and 52 fraction bits. -/
def ofBits (bits : UInt64) : Reading :=
  let negative := bits.toNat.testBit 63
  let exponent := ((bits >>> 52) &&& 0x7ff).toNat
  let fraction := (bits &&& 0x000fffffffffffff).toNat
  if exponent = 2047 then
    if fraction = 0 then infinite negative else nan
  else if exponent = 0 then finite negative ⟨fraction, -1074⟩
  else finite negative ⟨leadingBit + fraction, (exponent : Int) - 1075⟩

def ofFloat (x : Float) : Reading := ofBits x.toBits

end Reading

namespace Binary

/-- The numerator of the number as a fraction. -/
def num (b : Binary) : Nat := b.significand * Nat.pow 2 b.exponent.toNat

/-- The denominator of the number as a fraction. -/
def den (b : Binary) : Nat := Nat.pow 2 (-b.exponent).toNat

theorem den_pos (b : Binary) : 0 < b.den := Nat.two_pow_pos _

end Binary

end Aleatory
