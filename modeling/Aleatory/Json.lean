import Aleatory.Json.Numeral

/-!
# Documents

A document is a value of one of six shapes.  `Json.render` writes it without blanks, the fields of
an object in their order.
-/

namespace Aleatory

inductive Json where
  | null
  | bool (b : Bool)
  | number (n : Numeral)
  | string (s : String)
  | array (items : List Json)
  | object (fields : List (String × Json))
  deriving Inhabited

namespace Json

def ofNat (n : Nat) : Json := number (.ofNat n)

/-- A double; what is not finite has no numeral and becomes null. -/
def ofFloat (x : Float) : Json :=
  match Numeral.ofFloat? x with
  | some n => number n
  | none => null

/-- The value of the only field of a given name; nothing if two fields have that name. -/
def field? : Json → String → Option Json
  | object fields, name =>
    match fields.filter fun field => field.1 = name with
    | [field] => some field.2
    | _ => none
  | _, _ => none

/-- The count that a document is read as, if it is the numeral of one. -/
def count? : Json → Option UInt64
  | number n => n.count?
  | _ => none

/-- The double that a document is read as, if it is the numeral of one. -/
def double? : Json → Option Float
  | number n => n.double?
  | _ => none

/-- The four hexadecimal digits of a number below `2 ^ 16`. -/
def hexQuad (n : Nat) : List Char :=
  [n / 4096 % 16, n / 256 % 16, n / 16 % 16, n % 16].map Nat.digitChar

/-- The characters that stand for `c` inside quotes. -/
def escaped (c : Char) : List Char :=
  if c = '"' then ['\\', '"']
  else if c = '\\' then ['\\', '\\']
  else if c = '\n' then ['\\', 'n']
  else if c = '\r' then ['\\', 'r']
  else if c = '\t' then ['\\', 't']
  else if c = '\x08' then ['\\', 'b']
  else if c = '\x0c' then ['\\', 'f']
  else if c.toNat < 32 then '\\' :: 'u' :: hexQuad c.toNat
  else [c]

/-- A text in quotes. -/
def quoted (s : String) : String := "\"" ++ String.ofList (s.toList.flatMap escaped) ++ "\""

mutual

def render : Json → String
  | null => "null"
  | bool b => if b then "true" else "false"
  | number n => n.render
  | string s => quoted s
  | array items => "[" ++ ",".intercalate (renderItems items) ++ "]"
  | object fields => "\x7b" ++ ",".intercalate (renderFields fields) ++ "\x7d"

def renderItems : List Json → List String
  | [] => []
  | item :: rest => item.render :: renderItems rest

def renderFields : List (String × Json) → List String
  | [] => []
  | (name, value) :: rest => (quoted name ++ ":" ++ value.render) :: renderFields rest

end

end Json

end Aleatory
