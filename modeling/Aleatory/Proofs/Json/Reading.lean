import Aleatory.Proofs.Json.Tokens

/-!
# Documents are read as the grammar says

What a reader finds stands in front of the characters that it was given, and what stands there is
found. Both are proved for one layer of a document (`Json.node_of_readNode`, `Json.Finds.node`) and
then for all of them, by induction on the depth. What follows an item of a list does not go on with
a numeral, so every item is found in its place.
-/

namespace Aleatory

namespace Json

/-! ## Lists -/

theorem not_isBlank_of_isToken {c : Char} (hc : c = ',' ∨ c = ']' ∨ c = '\x7d') :
    isBlank c = false := by
  rcases hc with rfl | rfl | rfl <;> rfl

theorem ends_of_isToken {c : Char} (hc : c = ',' ∨ c = ']' ∨ c = '\x7d') (rest : List Char) :
    Ends (c :: rest) := by
  intro d hd
  obtain rfl := Option.some.inj hd
  rcases hc with rfl | rfl | rfl <;> decide

theorem Blanks.ends {cs rest : List Char} (h : Blanks cs rest) (hrest : Ends rest) : Ends cs := by
  cases h with
  | none => exact hrest
  | blank hblank =>
      intro d hd
      obtain rfl := Option.some.inj hd
      simp only [isBlank, Bool.or_eq_true, decide_eq_true_eq] at hblank
      rcases hblank with ((rfl | rfl) | rfl) | rfl <;> decide

section

variable {α : Type} {P : α → List Char → List Char → Prop} {item : Reader α} {close : Char}

/-- What the reader finds is spelled. -/
def Sound (P : α → List Char → List Char → Prop) (item : Reader α) : Prop :=
  ∀ ⦃x : α⦄ ⦃cs rest : List Char⦄, item cs = some (x, rest) → P x cs rest

/-- Among fewer characters than a given number, the reader finds what is spelled. -/
structure Finds (P : α → List Char → List Char → Prop) (item : Reader α) (size : ℕ) : Prop where
  /-- What is spelled is not taken for the end of a list. -/
  opens : ∀ {x : α} {cs rest : List Char}, P x cs rest →
    ∃ c cs', skipBlanks cs = c :: cs' ∧ c ≠ ']' ∧ c ≠ '\x7d'
  shorter : ∀ {x : α} {cs rest : List Char}, P x cs rest → cs.length < size →
    rest.length < cs.length
  reads : ∀ {x : α} {cs rest : List Char}, P x cs rest → cs.length < size → Ends rest →
    item cs = some (x, rest)

theorem separated_of_readItems (hsound : Sound P item) {bound : ℕ} {xs : List α}
    {cs rest : List Char} (h : readItems item close bound cs = some (xs, rest)) :
    Separated P close xs cs rest := by
  induction bound generalizing xs cs rest with
  | zero => cases h
  | succ bound ih =>
      simp only [readItems, Option.bind_eq_bind, Option.bind_eq_some_iff] at h
      obtain ⟨⟨x, cs'⟩, hx, h⟩ := h
      have hblanks := blanks_skipBlanks cs'
      split at h
      · rename_i c cs'' hskip
        simp only at hskip
        rw [hskip] at hblanks
        by_cases hclose : c = close
        · rw [if_pos hclose] at h
          cases h
          exact .last (hsound hx) (hclose ▸ hblanks)
        · rw [if_neg hclose] at h
          by_cases hcomma : c = ','
          · simp only [if_pos hcomma, Option.bind_eq_some_iff] at h
            obtain ⟨⟨xs, rest⟩, hxs, h⟩ := h
            cases h
            exact .more (hsound hx) (hcomma ▸ hblanks) (ih hxs)
          · rw [if_neg hcomma] at h
            cases h
      · cases h

theorem listed_of_readSequence (hsound : Sound P item) :
    Sound (Listed P close) (readSequence item close) := by
  intro xs cs rest h
  have hblanks := blanks_skipBlanks cs
  unfold readSequence at h
  split at h
  · rename_i c cs' hskip
    rw [hskip] at hblanks
    by_cases hclose : c = close
    · rw [if_pos hclose] at h
      cases h
      exact .empty (hclose ▸ hblanks)
    · rw [if_neg hclose] at h
      exact .items (separated_of_readItems hsound h)
  · cases h

variable {size : ℕ}

/-- Items are found one after the other, each in fewer characters than the one before. -/
theorem Separated.found (hitem : Finds P item size) (hclose : close = ']' ∨ close = '\x7d')
    {xs : List α} {cs rest : List Char} (h : Separated P close xs cs rest)
    (hsize : cs.length < size) :
    xs.length + rest.length < cs.length ∧
      ∀ bound, xs.length ≤ bound → readItems item close bound cs = some (xs, rest) := by
  have hblank : isBlank close = false := not_isBlank_of_isToken (.inr hclose)
  have hcomma_ne : ',' ≠ close := by rcases hclose with rfl | rfl <;> decide
  induction h with
  | @last x cs cs' rest hx hlast =>
      have hshorter := hitem.shorter hx hsize
      have hbehind := hlast.length_le
      have hread := hitem.reads hx hsize (hlast.ends (ends_of_isToken (.inr hclose) rest))
      refine ⟨?_, fun bound hbound => ?_⟩
      · simp only [List.length_cons, List.length_nil] at hbehind ⊢
        omega
      · obtain ⟨bound, rfl⟩ := Nat.exists_eq_add_one_of_ne_zero (Nat.ne_of_gt hbound)
        simp [readItems, hread, hlast.skipBlanks_eq, skipBlanks_cons hblank]
  | @more x xs cs cs' cs'' rest hx hcomma hxs ih =>
      have hshorter := hitem.shorter hx hsize
      have hbehind := hcomma.length_le
      rw [List.length_cons] at hbehind
      obtain ⟨hrest, hreads⟩ := ih (by omega)
      have hread := hitem.reads hx hsize (hcomma.ends (ends_of_isToken (.inl rfl) cs''))
      refine ⟨?_, fun bound hbound => ?_⟩
      · rw [List.length_cons]
        omega
      · obtain ⟨bound, rfl⟩ := Nat.exists_eq_add_one_of_ne_zero (Nat.ne_of_gt
          (Nat.zero_lt_of_lt hbound))
        have hreads := hreads bound (Nat.le_of_succ_le_succ hbound)
        simp [readItems, hread, hcomma.skipBlanks_eq, skipBlanks_cons (c := ',') rfl, hcomma_ne,
          hreads]

theorem Listed.found (hitem : Finds P item size) (hclose : close = ']' ∨ close = '\x7d')
    {xs : List α} {cs rest : List Char} (h : Listed P close xs cs rest)
    (hsize : cs.length < size) :
    rest.length < cs.length ∧ readSequence item close cs = some (xs, rest) := by
  cases h with
  | empty hempty =>
      have hbehind := hempty.length_le
      have hblank : isBlank close = false := not_isBlank_of_isToken (.inr hclose)
      refine ⟨hbehind, ?_⟩
      simp [readSequence, hempty.skipBlanks_eq, skipBlanks_cons hblank]
  | items h =>
      obtain ⟨hlength, hreads⟩ := h.found hitem hclose hsize
      refine ⟨by omega, ?_⟩
      obtain ⟨c, cs', hskip, hopens⟩ :
          ∃ c cs', skipBlanks cs = c :: cs' ∧ c ≠ ']' ∧ c ≠ '\x7d' := by
        cases h with
        | last hx => exact hitem.opens hx
        | more hx => exact hitem.opens hx
      have hne : c ≠ close := by
        rcases hclose with rfl | rfl
        · exact hopens.1
        · exact hopens.2
      simp only [readSequence, hskip, if_neg hne]
      exact hreads _ (by omega)

end

/-! ## Documents -/

section

variable {u : Surrogates} {P : Json → List Char → List Char → Prop} {value : Reader Json}
  {size : ℕ}

theorem field_of_readField (hsound : Sound P value) : Sound (Field u P) (readField u value) := by
  intro field cs rest h
  simp only [readField, Option.bind_eq_bind, Option.bind_eq_some_iff] at h
  obtain ⟨⟨name, cs'⟩, hname, h⟩ := h
  have hcolon := blanks_skipBlanks cs'
  split at h
  · rename_i cs'' hskip
    simp only at hskip
    rw [hskip] at hcolon
    simp only [Option.bind_eq_some_iff] at h
    obtain ⟨⟨found, rest⟩, hfound, h⟩ := h
    cases h
    exact .mk (blanks_skipBlanks cs) (readQuoted_eq_some_iff.mp hname) hcolon (hsound hfound)
  · cases h

theorem Quotes.skipBlanks_eq {s : String} {cs rest : List Char} (h : Quotes u s cs rest) :
    skipBlanks cs = cs := by
  cases h
  exact skipBlanks_cons (by rfl) _

theorem length_lt_of_name {name : String} {cs cs₁ cs₂ cs₃ : List Char} (hblanks : Blanks cs cs₁)
    (hname : Quotes u name cs₁ cs₂) (hcolon : Blanks cs₂ (':' :: cs₃)) :
    cs₃.length < cs.length := by
  have hfront := hblanks.length_le
  have hquotes := hname.length_lt
  have hbehind := hcolon.length_le
  rw [List.length_cons] at hbehind
  omega

theorem Finds.field (hvalue : Finds P value size) :
    Finds (Field u P) (readField u value) size where
  opens := by
    rintro _ cs rest ⟨hblanks, hname, -, -⟩
    rw [hblanks.skipBlanks_eq, hname.skipBlanks_eq]
    cases hname
    exact ⟨'"', _, rfl, by decide⟩
  shorter := by
    rintro _ cs rest ⟨hblanks, hname, hcolon, hspelled⟩ hsize
    have hlength := length_lt_of_name hblanks hname hcolon
    exact (hvalue.shorter hspelled (hlength.trans hsize)).trans hlength
  reads := by
    rintro _ cs rest ⟨hblanks, hname, hcolon, hspelled⟩ hsize hrest
    have hlength := length_lt_of_name hblanks hname hcolon
    have hread := hvalue.reads hspelled (hlength.trans hsize) hrest
    have hread_name := readQuoted_eq_some_iff.mpr hname
    rw [← hname.skipBlanks_eq, ← hblanks.skipBlanks_eq] at hread_name
    simp [readField, hread_name, hcolon.skipBlanks_eq, skipBlanks_cons (c := ':') rfl, hread]

theorem of_readWord {word : List Char} {document found : Json} {cs rest : List Char}
    (h : readWord word document cs = some (found, rest)) :
    found = document ∧ cs = word ++ rest := by
  unfold readWord at h
  split_ifs at h with hprefix
  cases h
  exact ⟨rfl, (List.prefix_iff_eq_append.mp (List.isPrefixOf_iff_prefix.mp hprefix)).symm⟩

/-- One layer of a document is spelled where it is found. -/
theorem node_of_readNode (hsound : Sound P value) : Sound (Node u P) (readNode u value) := by
  intro document cs rest h
  refine ⟨skipBlanks cs, blanks_skipBlanks cs, ?_⟩
  unfold readNode at h
  split at h
  · rename_i cs' hskip
    obtain ⟨⟨s, rest⟩, hs, h⟩ := Option.map_eq_some_iff.mp h
    cases h
    rw [hskip]
    exact .string (readQuoted_eq_some_iff.mp hs)
  · rename_i cs' hskip
    obtain ⟨⟨items, rest⟩, hitems, h⟩ := Option.map_eq_some_iff.mp h
    cases h
    rw [hskip]
    exact .array (listed_of_readSequence hsound hitems)
  · rename_i cs' hskip
    obtain ⟨⟨fields, rest⟩, hfields, h⟩ := Option.map_eq_some_iff.mp h
    cases h
    rw [hskip]
    exact .object (listed_of_readSequence (field_of_readField hsound) hfields)
  · rename_i cs' hskip
    obtain ⟨rfl, rfl⟩ := of_readWord h
    rw [hskip]
    exact .null rest
  · rename_i cs' hskip
    obtain ⟨rfl, rfl⟩ := of_readWord h
    rw [hskip]
    exact .yes rest
  · rename_i cs' hskip
    obtain ⟨rfl, rfl⟩ := of_readWord h
    rw [hskip]
    exact .no rest
  · obtain ⟨⟨n, rest⟩, hn, h⟩ := Option.map_eq_some_iff.mp h
    cases h
    exact .number (number_of_readNumeral hn)

theorem sound_readValue (u : Surrogates) (depth : ℕ) : Sound (Spells u) (readValue u depth) := by
  induction depth with
  | zero => exact nofun
  | succ depth ih =>
      intro document cs rest h
      obtain ⟨cs', hblanks, hshape⟩ := node_of_readNode ih h
      exact .mk hblanks hshape

/-- A document starts with a character that is no blank and closes nothing. -/
theorem Shape.exists_cons {document : Json} {cs rest : List Char}
    (h : Shape u P document cs rest) :
    ∃ c cs', cs = c :: cs' ∧ isBlank c = false ∧ c ≠ ']' ∧ c ≠ '\x7d' := by
  cases h with
  | number h =>
      obtain ⟨c, cs', rfl, hc⟩ := h.exists_cons
      exact ⟨c, cs', rfl, isBlank_of_isDigit hc, ne_of_isDigit hc (by decide),
        ne_of_isDigit hc (by decide)⟩
  | string h =>
      obtain ⟨-⟩ := h
      exact ⟨'"', _, rfl, by decide⟩
  | _ => exact ⟨_, _, rfl, by decide⟩

theorem Shape.length_lt (hvalue : Finds P value size) {document : Json} {cs rest : List Char}
    (h : Shape u P document cs rest) (hsize : cs.length < size + 1) :
    rest.length < cs.length := by
  cases h with
  | number h => exact h.length_lt
  | string h => exact h.length_lt
  | array h =>
      exact (h.found hvalue (.inl rfl) (Nat.lt_of_succ_lt_succ hsize)).1.trans (Nat.lt_succ_self _)
  | object h =>
      exact (h.found hvalue.field (.inr rfl) (Nat.lt_of_succ_lt_succ hsize)).1.trans
        (Nat.lt_succ_self _)
  | _ =>
      simp only [List.length_cons]
      omega

/-- What starts with a digit or a minus is read as a numeral. -/
theorem readNode_of_isDigit {c : Char} (hc : c = '-' ∨ c.isDigit = true) (cs : List Char) :
    readNode u value (c :: cs) = (readNumeral (c :: cs)).map fun (n, cs) => (number n, cs) := by
  rw [readNode, skipBlanks_cons (isBlank_of_isDigit hc)]
  split
  all_goals first
    | rfl
    | (rename_i heq
       exact absurd (List.cons.inj heq).1 (ne_of_isDigit hc (by decide)))

/-- One layer of a document is found where it is spelled. -/
theorem Node.readNode_eq (hvalue : Finds P value size) {document : Json} {cs rest : List Char}
    (h : Node u P document cs rest) (hsize : cs.length < size + 1)
    (hrest : Ends rest) : readNode u value cs = some (document, rest) := by
  obtain ⟨cs', hblanks, hshape⟩ := h
  have hfront := hblanks.length_le
  have hskip : readNode u value cs = readNode u value cs' := by
    unfold readNode
    rw [hblanks.skipBlanks_eq]
  rw [hskip]
  cases hshape with
  | null => rfl
  | yes => rfl
  | no => rfl
  | number h =>
      obtain ⟨c, cs', rfl, hc⟩ := h.exists_cons
      rw [readNode_of_isDigit hc, h.readNumeral_eq hrest]
      rfl
  | string h =>
      have hread := readQuoted_eq_some_iff.mpr h
      obtain ⟨-⟩ := h
      rw [readNode, skipBlanks_cons (by rfl)]
      simp [hread]
  | array h =>
      rw [List.length_cons] at hfront
      have hread := (h.found hvalue (.inl rfl) (by omega)).2
      rw [readNode, skipBlanks_cons (by rfl)]
      simp [hread]
  | object h =>
      rw [List.length_cons] at hfront
      have hread := (h.found hvalue.field (.inr rfl) (by omega)).2
      rw [readNode, skipBlanks_cons (by rfl)]
      simp [hread]

theorem Node.exists_cons {document : Json} {cs rest : List Char} (h : Node u P document cs rest) :
    ∃ c cs', skipBlanks cs = c :: cs' ∧ c ≠ ']' ∧ c ≠ '\x7d' := by
  obtain ⟨cs', hblanks, hshape⟩ := h
  obtain ⟨c, cs', rfl, hblank, hc⟩ := hshape.exists_cons
  rw [hblanks.skipBlanks_eq, skipBlanks_cons hblank]
  exact ⟨c, cs', rfl, hc⟩

theorem Finds.node (hvalue : Finds P value size) :
    Finds (Node u P) (readNode u value) (size + 1) where
  opens h := h.exists_cons
  shorter := by
    rintro document cs rest ⟨cs', hblanks, hshape⟩ hsize
    have hfront := hblanks.length_le
    exact (hshape.length_lt hvalue (by omega)).trans_le hfront
  reads h hsize hrest := h.readNode_eq hvalue hsize hrest

end

theorem spells_eq_node (u : Surrogates) : Spells u = Node u (Spells u) := by
  funext document cs rest
  refine propext ⟨?_, ?_⟩
  · rintro ⟨hblanks, hshape⟩
    exact ⟨_, hblanks, hshape⟩
  · rintro ⟨cs', hblanks, hshape⟩
    exact .mk hblanks hshape

/-- Every document is found that is no longer than the bound on its depth. -/
theorem finds_readValue (u : Surrogates) (depth : ℕ) :
    Finds (Spells u) (readValue u depth) depth := by
  induction depth with
  | zero =>
      rw [spells_eq_node]
      exact ⟨fun h => h.exists_cons, fun _ hsize => absurd hsize (Nat.not_lt_zero _),
        fun _ hsize => absurd hsize (Nat.not_lt_zero _)⟩
  | succ depth ih =>
      rw [spells_eq_node]
      exact ih.node

/-- A text is read as a document just if it spells the document, with blanks around it. -/
theorem parse?_eq_some_iff {text : String} {document : Json} :
    parse? text = some document ↔
      ∃ rest, Spells .paired document text.toList rest ∧ Blanks rest [] := by
  simp only [parse?]
  constructor
  · intro h
    split at h
    · rename_i found rest hread
      split_ifs at h with hblank
      cases h
      exact ⟨rest, sound_readValue .paired _ hread, isEmpty_skipBlanks.mp hblank⟩
    · cases h
  · rintro ⟨rest, hspells, hblanks⟩
    have hread := (finds_readValue .paired (text.toList.length + 1)).reads hspells
      (Nat.lt_succ_self _) (hblanks.ends nofun)
    simp only [hread, if_pos (isEmpty_skipBlanks.mpr hblanks)]

theorem outline_of_readOutline {document : Json} {cs rest : List Char}
    (h : readOutline cs = some (document, rest)) : Outline document cs rest :=
  node_of_readNode (sound_readValue .replaced cs.length) h

theorem readOutline_of_outline {document : Json} {cs rest : List Char}
    (h : Outline document cs rest) (hrest : Ends rest) : readOutline cs = some (document, rest) :=
  Node.readNode_eq (finds_readValue .replaced cs.length) h (Nat.lt_succ_self _) hrest

/-- A text is the outline of one document at most. -/
theorem OutlinedBy.unique {text : String} {document document' : Json}
    (h : document.OutlinedBy text) (h' : document'.OutlinedBy text) : document = document' := by
  obtain ⟨rest, houtline, hblanks⟩ := h
  obtain ⟨rest', houtline', hblanks'⟩ := h'
  have hread := readOutline_of_outline houtline (hblanks.ends nofun)
  have hread' := readOutline_of_outline houtline' (hblanks'.ends nofun)
  rw [hread] at hread'
  exact congrArg Prod.fst (Option.some_inj.mp hread')

end Json

end Aleatory
