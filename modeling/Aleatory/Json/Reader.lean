import Aleatory.Json

/-!
# Reading documents

Each reader takes the characters that are left and gives back what it read together with the
characters behind it.  A value is never deeper than its text is long, so the length of the text
bounds the nesting.

Texts are accepted and refused as `serde_json` 1.0 does it: only the four blanks of the grammar
stand between tokens, no zero stands in front of other digits, no comma closes a list, no bare
control character stands in quotes, and the two halves of a surrogate pair belong together
wherever a text is decoded.  What is only skipped, as the values of fields that nobody asks for
are, is not decoded: there a surrogate may stand alone (`Surrogates.replaced`).
-/

namespace Aleatory.Json

/-- A reader gives back what it read and the characters behind it. -/
abbrev Reader (α : Type) := List Char → Option (α × List Char)

/-- What is made of a surrogate in quotes. -/
inductive Surrogates where
  /-- Two that belong together are one character; any other one is refused. -/
  | paired
  /-- Each of them is passed over and becomes the replacement character. -/
  | replaced

variable {α : Type}

/-- The four characters that may stand between two tokens. -/
def isBlank (c : Char) : Bool := c = ' ' || c = '\t' || c = '\n' || c = '\r'

def skipBlanks (cs : List Char) : List Char := cs.dropWhile isBlank

/-! ## Numerals -/

/-- The digits in front, and what follows them. -/
def readDigits (cs : List Char) : List Char × List Char :=
  (cs.takeWhile Char.isDigit, cs.dropWhile Char.isDigit)

/-- Whether there is a minus in front, and what follows it. -/
def readMinus : List Char → Bool × List Char
  | '-' :: cs => (true, cs)
  | cs => (false, cs)

/-- Digits before the point: zero stands alone. -/
def readWhole (cs : List Char) : Option (List Char × List Char) :=
  match readDigits cs with
  | ([], _) => none
  | ('0' :: _ :: _, _) => none
  | found => some found

/-- A point and at least one digit, or nothing. -/
def readDecimals : List Char → Option (List Char × List Char)
  | '.' :: cs =>
    match readDigits cs with
    | ([], _) => none
    | found => some found
  | cs => some ([], cs)

/-- The number that digits stand for. -/
def digitsValue (ds : List Char) : Nat := ds.foldl (fun n c => 10 * n + Numeral.digitValue c) 0

/-- A sign in front of a power of ten: whether it is a minus, and what follows. -/
def readSign : List Char → Bool × List Char
  | '+' :: cs => (false, cs)
  | cs => readMinus cs

/-- A power of ten, or nothing. -/
def readPower : List Char → Option (Option Int × List Char)
  | c :: cs =>
    if c = 'e' ∨ c = 'E' then
      let (negative, cs) := readSign cs
      match readDigits cs with
      | ([], _) => none
      | (ds, rest) =>
        let value : Int := digitsValue ds
        some (some (if negative then -value else value), rest)
    else some (none, c :: cs)
  | [] => some (none, [])

def readNumeral (cs : List Char) : Option (Numeral × List Char) := do
  let (negative, cs) := readMinus cs
  let (whole, cs) ← readWhole cs
  let (decimals, cs) ← readDecimals cs
  let (power, cs) ← readPower cs
  return ({ negative, whole, decimals, power }, cs)

/-! ## Texts in quotes -/

def hexValue? (c : Char) : Option Nat :=
  if c.isDigit then some (c.toNat - '0'.toNat)
  else if 'a' ≤ c ∧ c ≤ 'f' then some (c.toNat - 'a'.toNat + 10)
  else if 'A' ≤ c ∧ c ≤ 'F' then some (c.toNat - 'A'.toNat + 10)
  else none

def readHexQuad : List Char → Option (Nat × List Char)
  | a :: b :: c :: d :: rest => do
    let a ← hexValue? a
    let b ← hexValue? b
    let c ← hexValue? c
    let d ← hexValue? d
    return (4096 * a + 256 * b + 16 * c + d, rest)
  | _ => none

/-- Whether a unit stands for no character of its own. -/
def isSurrogate (unit : Nat) : Bool := 0xD800 ≤ unit && unit ≤ 0xDFFF

/-- The character of two surrogates, if they belong together. -/
def pairOf? (high low : Nat) : Option Char :=
  if high < 0xDC00 ∧ 0xDC00 ≤ low ∧ low ≤ 0xDFFF then
    some (Char.ofNat (0x10000 + (high - 0xD800) * 0x400 + (low - 0xDC00)))
  else none

/-- The character of a surrogate and of the one that has to follow it. -/
def readPartner (high : Nat) : List Char → Option (Char × List Char)
  | '\\' :: 'u' :: cs => do
    let (low, cs) ← readHexQuad cs
    let c ← pairOf? high low
    return (c, cs)
  | _ => none

/-- The character behind a backslash and a `u`. -/
def readUnit (u : Surrogates) (cs : List Char) : Option (Char × List Char) := do
  let (unit, cs) ← readHexQuad cs
  if isSurrogate unit then
    match u with
    | .paired => readPartner unit cs
    | .replaced => return ('\uFFFD', cs)
  else return (Char.ofNat unit, cs)

/-- The character that a letter stands for behind a backslash. -/
def letter? : Char → Option Char
  | '"' => some '"'
  | '\\' => some '\\'
  | '/' => some '/'
  | 'b' => some '\x08'
  | 'f' => some '\x0c'
  | 'n' => some '\n'
  | 'r' => some '\r'
  | 't' => some '\t'
  | _ => none

/-- The character behind a backslash. -/
def readEscape (u : Surrogates) : List Char → Option (Char × List Char)
  | 'u' :: cs => readUnit u cs
  | l :: cs => (letter? l).map fun c => (c, cs)
  | [] => none

/-- One character in quotes, with or without an escape. -/
def readChar (u : Surrogates) : List Char → Option (Char × List Char)
  | '\\' :: cs => readEscape u cs
  | c :: cs => if c = '"' ∨ c.toNat < 32 then none else some (c, cs)
  | [] => none

/-- Characters up to the closing quote, behind those already read in reverse.  The bound counts
characters, of which every round consumes one. -/
def readText (u : Surrogates) : Nat → List Char → List Char → Option (String × List Char)
  | 0, _, _ => none
  | _ + 1, taken, '"' :: cs => some (String.ofList taken.reverse, cs)
  | bound + 1, taken, cs =>
    match readChar u cs with
    | some (c, cs) => readText u bound (c :: taken) cs
    | none => none

def readQuoted (u : Surrogates) : List Char → Option (String × List Char)
  | '"' :: cs => readText u (cs.length + 1) [] cs
  | _ => none

/-! ## Documents -/

/-- Items up to a closing bracket, each but the first behind a comma. -/
def readItems (item : Reader α) (close : Char) : Nat → Reader (List α)
  | 0, _ => none
  | bound + 1, cs => do
    let (first, cs) ← item cs
    match skipBlanks cs with
    | c :: cs =>
      if c = close then return ([first], cs)
      else if c = ',' then do
        let (rest, cs) ← readItems item close bound cs
        return (first :: rest, cs)
      else none
    | [] => none

/-- Items up to a closing bracket, or the closing bracket alone. -/
def readSequence (item : Reader α) (close : Char) (cs : List Char) :
    Option (List α × List Char) :=
  match skipBlanks cs with
  | c :: rest => if c = close then some ([], rest) else readItems item close (cs.length + 1) cs
  | [] => none

/-- A name, a colon and a value. -/
def readField (u : Surrogates) (value : Reader Json) (cs : List Char) :
    Option ((String × Json) × List Char) := do
  let (name, cs) ← readQuoted u (skipBlanks cs)
  match skipBlanks cs with
  | ':' :: cs =>
    let (found, cs) ← value cs
    return ((name, found), cs)
  | _ => none

/-- The characters behind a given word. -/
def readWord (word : List Char) (found : Json) (cs : List Char) : Option (Json × List Char) :=
  if word.isPrefixOf cs then some (found, cs.drop word.length) else none

/-- A document whose items and values another reader reads. -/
def readNode (u : Surrogates) (value : Reader Json) (cs : List Char) :
    Option (Json × List Char) :=
  match skipBlanks cs with
  | '"' :: cs => (readQuoted u ('"' :: cs)).map fun (s, cs) => (string s, cs)
  | '[' :: cs => (readSequence value ']' cs).map fun (items, cs) => (array items, cs)
  | '\x7b' :: cs =>
    (readSequence (readField u value) '\x7d' cs).map fun (fields, cs) => (object fields, cs)
  | 'n' :: cs => readWord ['u', 'l', 'l'] null cs
  | 't' :: cs => readWord ['r', 'u', 'e'] (bool true) cs
  | 'f' :: cs => readWord ['a', 'l', 's', 'e'] (bool false) cs
  | cs => (readNumeral cs).map fun (n, cs) => (number n, cs)

/-- A document of at most the given depth. -/
def readValue (u : Surrogates) : Nat → List Char → Option (Json × List Char)
  | 0, _ => none
  | depth + 1, cs => readNode u (readValue u depth) cs

/-- A document of which only the numbers and the names of the outermost fields are decoded, and
what follows it. -/
def readOutline (cs : List Char) : Option (Json × List Char) :=
  readNode .paired (readValue .replaced cs.length) cs

/-- The document that a whole text stands for, decoded throughout. -/
def parse? (text : String) : Option Json :=
  let cs := text.toList
  match readValue .paired (cs.length + 1) cs with
  | some (found, rest) => if (skipBlanks rest).isEmpty then some found else none
  | none => none

end Aleatory.Json
