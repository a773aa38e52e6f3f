import Aleatory.Numeric.Logarithm

/-!
# Elementary arithmetic

The formulas of this library are written once, over any type of numbers with the four operations,
Boolean comparisons and five transcendental functions.  The doubles and the single-precision
numbers are such types.  The transcendental functions of the doubles are a parameter,
`Transcendental`, so that what is said about a formula can name what it needs from them.
-/

namespace Aleatory

/-- The transcendental functions that the formulas use. -/
structure Transcendental (ρ : Type) where
  exp : ρ → ρ
  ln : ρ → ρ
  sin : ρ → ρ
  /-- `exp x - 1`. -/
  expLessOne : ρ → ρ
  /-- `ln (1 + x)`. -/
  lnOnePlus : ρ → ρ

/-- Numbers with the operations that the formulas use. -/
class Elementary (ρ : Type) extends Add ρ, Sub ρ, Mul ρ, Div ρ, Neg ρ, OfScientific ρ where
  transcendental : Transcendental ρ
  eq : ρ → ρ → Bool
  lt : ρ → ρ → Bool
  le : ρ → ρ → Bool
  abs : ρ → ρ
  isFinite : ρ → Bool
  pi : ρ
  lnTwo : ρ
  ofCount : UInt64 → ρ

namespace Elementary

variable {ρ : Type} [Elementary ρ]

def exp (x : ρ) : ρ := transcendental.exp x
def ln (x : ρ) : ρ := transcendental.ln x
def sin (x : ρ) : ρ := transcendental.sin x
def expLessOne (x : ρ) : ρ := transcendental.expLessOne x
def lnOnePlus (x : ρ) : ρ := transcendental.lnOnePlus x

/-- The larger of two numbers; what is unequal to itself loses against any number. -/
def max (a b : ρ) : ρ :=
  if !eq a a then b else if !eq b b then a else if lt a b then b else a

/-- The nearest number between two bounds; what is unequal to itself stays as it is. -/
def clamp (low high x : ρ) : ρ :=
  let x := if lt x low then low else x
  if lt high x then high else x

/-- The sum of a list, taken from the left and started at minus zero, which changes no number. -/
def sum (xs : List ρ) : ρ := xs.foldl (· + ·) (-0.0)

end Elementary

/-- The doubles, with given transcendental functions. -/
@[reducible]
def Elementary.double (functions : Transcendental Float) : Elementary Float where
  transcendental := functions
  eq a b := a == b
  lt a b := a < b
  le a b := a ≤ b
  abs := Float.abs
  isFinite := Float.isFinite
  pi := 3.141592653589793
  lnTwo := 0.6931471805599453
  ofCount := UInt64.toFloat

/-- The transcendental functions of the doubles. -/
def Transcendental.double : Transcendental Float where
  exp := Float.exp
  ln := Float.log
  sin := Float.sin
  expLessOne := Numeric.expLessOne
  lnOnePlus := Numeric.lnOnePlus

instance : Elementary Float := .double .double

/-- The transcendental functions in single precision; the two that lose digits in single precision
are computed as doubles. -/
def Transcendental.single : Transcendental Float32 where
  exp := Float32.exp
  ln := Float32.log
  sin := Float32.sin
  expLessOne x := (Numeric.expLessOne x.toFloat).toFloat32
  lnOnePlus x := (Numeric.lnOnePlus x.toFloat).toFloat32

instance : Elementary Float32 where
  transcendental := .single
  eq a b := a == b
  lt a b := a < b
  le a b := a ≤ b
  abs := Float32.abs
  isFinite := Float32.isFinite
  pi := 3.141592653589793
  lnTwo := 0.6931471805599453
  ofCount := UInt64.toFloat32

end Aleatory
