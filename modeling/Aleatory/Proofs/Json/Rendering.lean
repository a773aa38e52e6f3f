import Aleatory.Proofs.Json.Reading

/-!
# What is written is spelled

A numeral of digits, without zeros in front, is written as the grammar wants it. So is a text in
quotes, with or without escapes, and so is every document whose numerals are of that kind
(`Json.spells_render`). It is therefore read back from what was written (`Json.parse?_render`).
-/

namespace Aleatory

open Decimal

namespace Numeral

/-- The sign of a power of ten and its digits. -/
def powerChars (e : ℤ) : List Char := (if e < 0 then ['-'] else []) ++ digits e.natAbs

/-- The characters of a numeral. -/
def chars (n : Numeral) : List Char :=
  (if n.negative then ['-'] else []) ++ (n.whole ++
    ((if n.decimals.isEmpty then [] else '.' :: n.decimals) ++
      n.power.elim [] fun e => 'e' :: powerChars e))

theorem toList_repr (e : ℤ) : e.repr.toList = powerChars e := by
  have hdigits (n : ℕ) : n.repr.toList = digits n := by
    rw [Nat.repr_eq_ofList_toDigits, String.toList_ofList, digits]
  cases e with
  | ofNat n =>
      show n.repr.toList = _
      simp [powerChars, hdigits]
  | negSucc n =>
      show ("-" ++ n.succ.repr).toList = _
      simp [powerChars, hdigits]

theorem toList_render (n : Numeral) : n.render.toList = n.chars := by
  obtain ⟨negative, whole, decimals, power⟩ := n
  cases negative <;> cases decimals <;> cases power <;> simp [render, chars, toList_repr]

end Numeral

namespace Json

/-! ## Numerals -/

theorem digitsValue_digits (n : ℕ) : digitsValue (digits n) = n := Nat.ofDigitChars_ten_toDigits

theorem power_chars (power : Option ℤ) (rest : List Char) :
    Power power ((power.elim [] fun e => 'e' :: Numeral.powerChars e) ++ rest) rest := by
  cases power with
  | none => exact .absent rest
  | some e =>
      have hsign : Sign (decide (e < 0)) (Numeral.powerChars e ++ rest)
          (digits e.natAbs ++ rest) := by
        rw [Numeral.powerChars, List.append_assoc]
        by_cases hneg : e < 0
        · rw [if_pos hneg, decide_eq_true hneg]
          exact .minus _
        · rw [if_neg hneg, decide_eq_false hneg]
          exact .absent _
      have hvalue : (if decide (e < 0) = true then -(digitsValue (digits e.natAbs) : ℤ)
          else digitsValue (digits e.natAbs)) = e := by
        rw [digitsValue_digits]
        split_ifs with hneg
        · have := of_decide_eq_true hneg
          omega
        · have := of_decide_eq_false (Bool.eq_false_of_not_eq_true hneg)
          omega
      rw [Option.elim_some, List.cons_append, ← congrArg some hvalue]
      exact .given (.inl rfl) hsign (digits_ne_nil _) fun c => isDigit_of_mem_digits

theorem number_chars {n : Numeral} (h : n.WellFormed) (rest : List Char) :
    Number n (n.chars ++ rest) rest := by
  have hnumber := Number.mk h (power_chars n.power rest)
  rw [Numeral.chars]
  simpa only [List.append_assoc] using hnumber

/-! ## Texts -/

theorem hexValue?_digitChar {n : ℕ} (hn : n < 16) : hexValue? n.digitChar = some n := by
  revert n
  decide

theorem quad_hexQuad {n : ℕ} (hn : n < 2 ^ 16) (rest : List Char) :
    Quad n (hexQuad n ++ rest) rest := by
  have hdigit (k : ℕ) : hexValue? (k % 16).digitChar = some (k % 16) :=
    hexValue?_digitChar (Nat.mod_lt _ (by norm_num))
  have hsum : 4096 * (n / 4096 % 16) + 256 * (n / 256 % 16) + 16 * (n / 16 % 16) + n % 16 = n := by
    omega
  have hquad := Quad.mk (hdigit (n / 4096)) (hdigit (n / 256)) (hdigit (n / 16)) (hdigit n) rest
  rw [hsum] at hquad
  exact hquad

variable (u : Surrogates)

theorem written_escaped (c : Char) (rest : List Char) : Written u c (escaped c ++ rest) rest := by
  unfold escaped
  split_ifs with hquote hbackslash hnewline hreturn htab hbackspace hfeed hcontrol
  · subst hquote
    exact .letter rfl rest
  · subst hbackslash
    exact .letter rfl rest
  · subst hnewline
    exact .letter rfl rest
  · subst hreturn
    exact .letter rfl rest
  · subst htab
    exact .letter rfl rest
  · subst hbackspace
    exact .letter rfl rest
  · subst hfeed
    exact .letter rfl rest
  · have hunit : isSurrogate c.toNat = false := by
      rw [isSurrogate, Bool.and_eq_false_imp]
      intro h
      have := of_decide_eq_true h
      omega
    have hwritten := Written.unit (u := u) (quad_hexQuad (by omega) rest) hunit
    rwa [Char.ofNat_toNat] at hwritten
  · exact .plain hquote hbackslash (Nat.le_of_not_lt hcontrol) rest

theorem body_flatMap (s rest : List Char) : Body u s (s.flatMap escaped ++ '"' :: rest) rest := by
  induction s with
  | nil => exact .close rest
  | cons c s ih =>
      rw [List.flatMap_cons, List.append_assoc]
      exact .char (written_escaped u c _) ih

theorem toList_quoted (s : String) :
    (quoted s).toList = '"' :: (s.toList.flatMap escaped ++ ['"']) := by
  simp [quoted]

theorem quotes_quoted (s : String) (rest : List Char) :
    Quotes u s ((quoted s).toList ++ rest) rest := by
  have hquotes := Quotes.mk (body_flatMap u s.toList rest)
  rw [String.ofList_toList] at hquotes
  rw [toList_quoted]
  simpa using hquotes

/-! ## Lists -/

theorem intercalate_cons_cons (x y : List Char) (xs : List (List Char)) :
    [','].intercalate (x :: y :: xs) = x ++ ',' :: [','].intercalate (y :: xs) := by
  simp [List.intercalate, List.intersperse]

/-- Items that are spelled one by one are spelled with commas between them. -/
theorem listed_intercalate {α : Type} {P : α → List Char → List Char → Prop} {close : Char}
    {text : α → List Char} {xs : List α} (hitem : ∀ x ∈ xs, ∀ rest, P x (text x ++ rest) rest)
    (rest : List Char) :
    Listed P close xs ([','].intercalate (xs.map text) ++ close :: rest) rest := by
  cases xs with
  | nil => exact .empty (.none _)
  | cons x xs =>
      refine .items ?_
      induction xs generalizing x with
      | nil =>
          have hx := hitem x List.mem_cons_self (close :: rest)
          have htext : [','].intercalate ([x].map text) = text x := by simp [List.intercalate]
          rw [htext]
          exact .last hx (.none _)
      | cons y ys ih =>
          have hx := hitem x List.mem_cons_self
            (',' :: ([','].intercalate ((y :: ys).map text) ++ close :: rest))
          have hrest := ih y fun z hz => hitem z (List.mem_cons_of_mem _ hz)
          rw [List.map_cons, List.map_cons, intercalate_cons_cons, List.append_assoc,
            List.cons_append, ← List.map_cons]
          exact .more hx (.none _) hrest

/-! ## Documents -/

/-- A document whose numerals are made of digits. -/
inductive WellFormed : Json → Prop
  | null : WellFormed null
  | bool (b : Bool) : WellFormed (bool b)
  | number {n : Numeral} (h : n.WellFormed) : WellFormed (number n)
  | string (s : String) : WellFormed (string s)
  | array {items : List Json} (h : ∀ item ∈ items, WellFormed item) : WellFormed (array items)
  | object {fields : List (String × Json)} (h : ∀ field ∈ fields, WellFormed field.2) :
      WellFormed (object fields)

/-- The characters of a field. -/
def fieldChars (field : String × Json) : List Char :=
  (quoted field.1).toList ++ ':' :: field.2.render.toList

theorem toList_render_array (items : List Json) : (array items).render.toList =
    '[' :: ([','].intercalate (items.map fun item => item.render.toList) ++ [']']) := by
  have hitems (items : List Json) : renderItems items = items.map render := by
    induction items with
    | nil => rfl
    | cons item items ih => rw [renderItems, ih, List.map_cons]
  simp [render, hitems, Function.comp_def]

theorem toList_render_object (fields : List (String × Json)) : (object fields).render.toList =
    '\x7b' :: ([','].intercalate (fields.map fieldChars) ++ ['\x7d']) := by
  have hfields (fields : List (String × Json)) : (renderFields fields).map String.toList =
      fields.map fieldChars := by
    induction fields with
    | nil => rfl
    | cons field fields ih => simp [renderFields, ih, fieldChars]
  simp [render, hfields]

theorem shape_object {P : Json → List Char → List Char → Prop} {fields : List (String × Json)}
    (h : ∀ field ∈ fields, ∀ rest, P field.2 (field.2.render.toList ++ rest) rest)
    (rest : List Char) :
    Shape u P (object fields) ((object fields).render.toList ++ rest) rest := by
  have hfield (field : String × Json) (hmem : field ∈ fields) (rest : List Char) :
      Field u P field (fieldChars field ++ rest) rest := by
    rw [fieldChars, List.append_assoc]
    exact .mk (.none _) (quotes_quoted u field.1 _) (.none _) (h field hmem rest)
  rw [toList_render_object, List.cons_append, List.append_assoc]
  exact .object (listed_intercalate hfield rest)

/-- What is written of a document spells it, whatever follows. -/
theorem spells_render {document : Json} (h : document.WellFormed) (rest : List Char) :
    Spells u document (document.render.toList ++ rest) rest := by
  refine .mk (.none _) ?_
  induction h generalizing rest with
  | null => exact .null rest
  | bool b =>
      cases b with
      | false => exact .no rest
      | true => exact .yes rest
  | @number n h =>
      have htext : (number n).render.toList = n.chars := Numeral.toList_render n
      rw [htext]
      exact .number (number_chars h rest)
  | string s => exact .string (quotes_quoted u s rest)
  | @array items h ih =>
      rw [toList_render_array, List.cons_append, List.append_assoc]
      exact .array (listed_intercalate (fun item hitem rest => .mk (.none _) (ih item hitem rest))
        rest)
  | @object fields h ih =>
      exact shape_object u (fun field hfield rest => .mk (.none _) (ih field hfield rest)) rest

/-- A document is the one that its text is read as. -/
theorem parse?_render {document : Json} (h : document.WellFormed) :
    parse? document.render = some document := by
  have hspells := spells_render .paired h []
  rw [List.append_nil] at hspells
  exact parse?_eq_some_iff.mpr ⟨[], hspells, .none []⟩

/-- An object is outlined by what is written of it. -/
theorem outlinedBy_render {fields : List (String × Json)} (h : (object fields).WellFormed) :
    (object fields).OutlinedBy (object fields).render := by
  cases h with
  | object h =>
      have hshape := shape_object .paired
        (fun field hfield rest => spells_render .replaced (h field hfield) rest) []
      rw [List.append_nil] at hshape
      exact ⟨[], ⟨_, .none _, hshape⟩, .none []⟩

end Json

end Aleatory
