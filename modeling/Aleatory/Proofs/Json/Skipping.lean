import Aleatory.Proofs.Json.Reading
import Mathlib.Data.List.Forall2

/-!
# Decoding and skipping

Where surrogates are paired they can also be passed over one by one. A text that is decoded
throughout is therefore the outline of a document too, and the two documents differ in nothing but
the texts inside of them (`Json.exists_outlinedBy`): they have the same shape (`Json.Alike`), and
what is a number in one of them is the same number in the other.
-/

namespace Aleatory

namespace Json

/-- What is spelled in the one way is spelled in the other, as something related. -/
def Covers {α : Type} (R : α → α → Prop) (P P' : α → List Char → List Char → Prop) : Prop :=
  ∀ ⦃x : α⦄ ⦃cs rest : List Char⦄, P x cs rest → ∃ x', P' x' cs rest ∧ R x x'

/-- The same number, or none in either of them. -/
def SameNumber (document document' : Json) : Prop :=
  document.count? = document'.count? ∧ document.double? = document'.double?

/-- Documents of the same shape, whose texts and whose parts are related. -/
inductive Alike (N : String → String → Prop) (R : Json → Json → Prop) : Json → Json → Prop
  | null : Alike N R null null
  | bool (b : Bool) : Alike N R (bool b) (bool b)
  | number (n : Numeral) : Alike N R (number n) (number n)
  | string {s s' : String} (h : N s s') : Alike N R (string s) (string s')
  | array {items items' : List Json} (h : List.Forall₂ R items items') :
      Alike N R (array items) (array items')
  | object {fields fields' : List (String × Json)}
      (h : List.Forall₂ (fun field field' => N field.1 field'.1 ∧ R field.2 field'.2)
        fields fields') : Alike N R (object fields) (object fields')

theorem Alike.sameNumber {N : String → String → Prop} {R : Json → Json → Prop}
    {document document' : Json} (h : Alike N R document document') :
    SameNumber document document' := by
  cases h <;> exact ⟨rfl, rfl⟩

section

variable {α : Type} {R : α → α → Prop} {P P' : α → List Char → List Char → Prop} {close : Char}

theorem Covers.separated (hitem : Covers R P P') :
    Covers (List.Forall₂ R) (Separated P close) (Separated P' close) := by
  intro xs cs rest h
  induction h with
  | last hx hclose =>
      obtain ⟨x', hx', hrel⟩ := hitem hx
      exact ⟨[x'], .last hx' hclose, .cons hrel .nil⟩
  | more hx hcomma _ ih =>
      obtain ⟨x', hx', hrel⟩ := hitem hx
      obtain ⟨xs', hxs', hrels⟩ := ih
      exact ⟨x' :: xs', .more hx' hcomma hxs', .cons hrel hrels⟩

theorem Covers.listed (hitem : Covers R P P') :
    Covers (List.Forall₂ R) (Listed P close) (Listed P' close) := by
  intro xs cs rest h
  cases h with
  | empty hclose => exact ⟨[], .empty hclose, .nil⟩
  | items h =>
      obtain ⟨xs', hxs', hrels⟩ := hitem.separated h
      exact ⟨xs', .items hxs', hrels⟩

end

section

variable {N : String → String → Prop} {R : Json → Json → Prop} {u u' : Surrogates}
  {P P' : Json → List Char → List Char → Prop}

theorem Covers.field (hquotes : Covers N (Quotes u) (Quotes u')) (hvalue : Covers R P P') :
    Covers (fun field field' => N field.1 field'.1 ∧ R field.2 field'.2)
      (Field u P) (Field u' P') := by
  rintro _ cs rest ⟨hblanks, hname, hcolon, hspelled⟩
  obtain ⟨name', hname', hnames⟩ := hquotes hname
  obtain ⟨value', hspelled', hvalues⟩ := hvalue hspelled
  exact ⟨(name', value'), .mk hblanks hname' hcolon hspelled', hnames, hvalues⟩

theorem Covers.node (hquotes : Covers N (Quotes u) (Quotes u')) (hvalue : Covers R P P') :
    Covers (Alike N R) (Node u P) (Node u' P') := by
  rintro document cs rest ⟨cs', hblanks, hshape⟩
  cases hshape with
  | null => exact ⟨null, ⟨_, hblanks, .null rest⟩, .null⟩
  | yes => exact ⟨bool true, ⟨_, hblanks, .yes rest⟩, .bool true⟩
  | no => exact ⟨bool false, ⟨_, hblanks, .no rest⟩, .bool false⟩
  | @number n _ _ h => exact ⟨number n, ⟨_, hblanks, .number h⟩, .number n⟩
  | string h =>
      obtain ⟨s', hs', hrel⟩ := hquotes h
      exact ⟨string s', ⟨_, hblanks, .string hs'⟩, .string hrel⟩
  | array h =>
      obtain ⟨items', hitems', hrels⟩ := hvalue.listed h
      exact ⟨array items', ⟨_, hblanks, .array hitems'⟩, .array hrels⟩
  | object h =>
      obtain ⟨fields', hfields', hrels⟩ := (Covers.field hquotes hvalue).listed h
      exact ⟨object fields', ⟨_, hblanks, .object hfields'⟩, .object hrels⟩

end

/-- Two surrogates that belong together are passed over as two. -/
theorem Body.replaced {s cs rest : List Char} (h : Body .paired s cs rest) :
    ∃ s', Body .replaced s' cs rest := by
  induction h with
  | close rest => exact ⟨[], .close rest⟩
  | char hc _ ih =>
      obtain ⟨s', hs'⟩ := ih
      cases hc with
      | plain hquote hescape hcontrol =>
          exact ⟨_ :: s', .char (.plain hquote hescape hcontrol _) hs'⟩
      | letter hl => exact ⟨_ :: s', .char (.letter hl _) hs'⟩
      | unit hn hplain => exact ⟨_ :: s', .char (.unit hn hplain) hs'⟩
      | @pair high low _ _ _ _ hhigh hsurrogate hlow hpair =>
          have hlow_surrogate : isSurrogate low = true := by
            unfold pairOf? at hpair
            split_ifs at hpair with hrange
            simp only [isSurrogate, Bool.and_eq_true, decide_eq_true_eq]
            omega
          exact ⟨_ :: _ :: s', .char (.lone hhigh hsurrogate)
            (.char (.lone hlow hlow_surrogate) hs')⟩

theorem covers_quotes : Covers (fun _ _ => True) (Quotes .paired) (Quotes .replaced) := by
  rintro _ cs rest ⟨hbody⟩
  obtain ⟨s', hs'⟩ := hbody.replaced
  exact ⟨_, .mk hs', trivial⟩

/-- What is found by decoding is spelled for skipping as well. The induction is on the depth, and
what the reader of the values finds stands for what is spelled below. -/
theorem covers_readValue (depth : ℕ) :
    Covers SameNumber (fun document cs rest => readValue .paired depth cs = some (document, rest))
      (Spells .replaced) := by
  induction depth with
  | zero => exact nofun
  | succ depth ih =>
      intro document cs rest h
      obtain ⟨document', ⟨cs', hblanks, hshape⟩, halike⟩ :=
        Covers.node covers_quotes ih (node_of_readNode (fun _ _ _ => id) h)
      exact ⟨document', .mk hblanks hshape, halike.sameNumber⟩

/-- The document of a text that is decoded throughout, and the one of its outline. -/
theorem exists_outlinedBy {text : String} {document : Json} (h : parse? text = some document) :
    ∃ document' : Json, document'.OutlinedBy text ∧
      Alike (· = ·) SameNumber document document' := by
  have hnames : Covers (· = ·) (Quotes .paired) (Quotes .paired) :=
    fun _ _ _ hname => ⟨_, hname, rfl⟩
  obtain ⟨rest, hspells, hblanks⟩ := parse?_eq_some_iff.mp h
  have hread := (finds_readValue .paired (text.toList.length + 1)).reads hspells
    (Nat.lt_succ_self _) (hblanks.ends nofun)
  have hnode := node_of_readNode (fun _ _ _ => id) hread
  obtain ⟨document', houtline, halike⟩ :=
    Covers.node hnames (covers_readValue text.toList.length) hnode
  exact ⟨document', ⟨rest, houtline, hblanks⟩, halike⟩

end Json

end Aleatory
