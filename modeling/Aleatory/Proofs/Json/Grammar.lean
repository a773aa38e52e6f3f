import Aleatory.Json.Reader
import Aleatory.Proofs.Json.Numeral

/-!
# The grammar of documents

The grammar says which characters stand for a document, without saying how they are read. Each
relation is between what is spelled, the characters from which it is spelled, and those that are
left behind it.

A document is a word, a numeral, a text in quotes, or a list of documents or of named documents
(`Json.Shape`). `Json.Spells` closes this under nesting. The outline of a document treats the two
layers differently (`Json.Outline`): surrogates have to be paired in the names of its own fields,
and in whatever stands in the values they need not.
-/

namespace Aleatory

namespace Json

/-- Characters of which nothing but blanks stands in front of the others. -/
inductive Blanks : List Char → List Char → Prop
  | none (cs : List Char) : Blanks cs cs
  | blank {c : Char} {cs rest : List Char} (hc : isBlank c = true) (h : Blanks cs rest) :
      Blanks (c :: cs) rest

/-! ## Numerals -/

/-- The sign of a power of ten; a plus need not be written. -/
inductive Sign : Bool → List Char → List Char → Prop
  | absent (rest : List Char) : Sign false rest rest
  | plus (rest : List Char) : Sign false ('+' :: rest) rest
  | minus (rest : List Char) : Sign true ('-' :: rest) rest

/-- A power of ten behind either letter, or nothing. -/
inductive Power : Option ℤ → List Char → List Char → Prop
  | absent (rest : List Char) : Power none rest rest
  | given {mark : Char} {negative : Bool} {ds cs rest : List Char}
      (hmark : mark = 'e' ∨ mark = 'E') (hsign : Sign negative cs (ds ++ rest)) (hne : ds ≠ [])
      (hds : ∀ c ∈ ds, c.isDigit = true) :
      Power (some (if negative then -(digitsValue ds : ℤ) else digitsValue ds)) (mark :: cs) rest

/-- A numeral is its sign, its digits with a point between them, and its power of ten. -/
inductive Number : Numeral → List Char → List Char → Prop
  | mk {n : Numeral} {cs rest : List Char} (formed : n.WellFormed) (power : Power n.power cs rest) :
      Number n
        ((if n.negative then ['-'] else []) ++
          (n.whole ++ ((if n.decimals.isEmpty then [] else '.' :: n.decimals) ++ cs)))
        rest

/-! ## Texts in quotes -/

/-- Four hexadecimal digits. -/
inductive Quad : ℕ → List Char → List Char → Prop
  | mk {a b c d : Char} {x y z w : ℕ} (ha : hexValue? a = some x) (hb : hexValue? b = some y)
      (hc : hexValue? c = some z) (hd : hexValue? d = some w) (rest : List Char) :
      Quad (4096 * x + 256 * y + 16 * z + w) (a :: b :: c :: d :: rest) rest

/-- One character in quotes. -/
inductive Written : Surrogates → Char → List Char → List Char → Prop
  | plain {u : Surrogates} {c : Char} (hquote : c ≠ '"') (hescape : c ≠ '\\')
      (hcontrol : 32 ≤ c.toNat) (rest : List Char) : Written u c (c :: rest) rest
  | letter {u : Surrogates} {l c : Char} (hl : letter? l = some c) (rest : List Char) :
      Written u c ('\\' :: l :: rest) rest
  | unit {u : Surrogates} {n : ℕ} {cs rest : List Char} (hn : Quad n cs rest)
      (hplain : isSurrogate n = false) : Written u (Char.ofNat n) ('\\' :: 'u' :: cs) rest
  | pair {high low : ℕ} {c : Char} {cs cs' rest : List Char}
      (hhigh : Quad high cs ('\\' :: 'u' :: cs')) (hsurrogate : isSurrogate high = true)
      (hlow : Quad low cs' rest) (hpair : pairOf? high low = some c) :
      Written .paired c ('\\' :: 'u' :: cs) rest
  | lone {n : ℕ} {cs rest : List Char} (hn : Quad n cs rest) (hsurrogate : isSurrogate n = true) :
      Written .replaced '\uFFFD' ('\\' :: 'u' :: cs) rest

/-- Characters up to the closing quote. -/
inductive Body (u : Surrogates) : List Char → List Char → List Char → Prop
  | close (rest : List Char) : Body u [] ('"' :: rest) rest
  | char {c : Char} {s cs cs' rest : List Char} (hc : Written u c cs cs') (h : Body u s cs' rest) :
      Body u (c :: s) cs rest

inductive Quotes (u : Surrogates) : String → List Char → List Char → Prop
  | mk {s cs rest : List Char} (h : Body u s cs rest) :
      Quotes u (String.ofList s) ('"' :: cs) rest

/-! ## Lists -/

section

variable {α : Type} (P : α → List Char → List Char → Prop) (close : Char)

/-- Items with commas between them, at least one, up to a closing bracket. -/
inductive Separated : List α → List Char → List Char → Prop
  | last {x : α} {cs cs' rest : List Char} (hx : P x cs cs')
      (hclose : Blanks cs' (close :: rest)) : Separated [x] cs rest
  | more {x : α} {xs : List α} {cs cs' cs'' rest : List Char} (hx : P x cs cs')
      (hcomma : Blanks cs' (',' :: cs'')) (h : Separated xs cs'' rest) :
      Separated (x :: xs) cs rest

/-- Items with commas between them up to a closing bracket. -/
inductive Listed : List α → List Char → List Char → Prop
  | empty {cs rest : List Char} (hclose : Blanks cs (close :: rest)) : Listed [] cs rest
  | items {xs : List α} {cs rest : List Char} (h : Separated P close xs cs rest) :
      Listed xs cs rest

end

/-- A name, a colon and a value. -/
inductive Field (u : Surrogates) (P : Json → List Char → List Char → Prop) :
    String × Json → List Char → List Char → Prop
  | mk {name : String} {value : Json} {cs cs₁ cs₂ cs₃ rest : List Char} (hblanks : Blanks cs cs₁)
      (hname : Quotes u name cs₁ cs₂) (hcolon : Blanks cs₂ (':' :: cs₃))
      (hvalue : P value cs₃ rest) : Field u P (name, value) cs rest

/-! ## Documents -/

section

variable (u : Surrogates) (P : Json → List Char → List Char → Prop)

/-- The shapes of a document whose items and values are spelled in a given way. -/
inductive Shape : Json → List Char → List Char → Prop
  | null (rest : List Char) : Shape null ('n' :: 'u' :: 'l' :: 'l' :: rest) rest
  | yes (rest : List Char) : Shape (bool true) ('t' :: 'r' :: 'u' :: 'e' :: rest) rest
  | no (rest : List Char) : Shape (bool false) ('f' :: 'a' :: 'l' :: 's' :: 'e' :: rest) rest
  | number {n : Numeral} {cs rest : List Char} (h : Number n cs rest) : Shape (number n) cs rest
  | string {s : String} {cs rest : List Char} (h : Quotes u s cs rest) : Shape (string s) cs rest
  | array {items : List Json} {cs rest : List Char} (h : Listed P ']' items cs rest) :
      Shape (array items) ('[' :: cs) rest
  | object {fields : List (String × Json)} {cs rest : List Char}
      (h : Listed (Field u P) '\x7d' fields cs rest) : Shape (object fields) ('\x7b' :: cs) rest

/-- One of these shapes, with any number of blanks in front of it. -/
def Node (document : Json) (cs rest : List Char) : Prop :=
  ∃ cs', Blanks cs cs' ∧ Shape u P document cs' rest

end

/-- Documents of any depth, with any number of blanks in front of them. -/
inductive Spells (u : Surrogates) : Json → List Char → List Char → Prop
  | mk {document : Json} {cs cs' rest : List Char} (hblanks : Blanks cs cs')
      (h : Shape u (Spells u) document cs' rest) : Spells u document cs rest

/-- Documents of which only the outermost names and the numbers are decoded. -/
def Outline : Json → List Char → List Char → Prop := Node .paired (Spells .replaced)

/-- A whole text that is the outline of a document. -/
def OutlinedBy (document : Json) (text : String) : Prop :=
  ∃ rest, Outline document text.toList rest ∧ Blanks rest []

end Json

end Aleatory
