import Aleatory.Proofs.Json.Grammar
import Mathlib.Data.List.TakeWhile

/-!
# Tokens are read as the grammar says

A text in quotes is read just if it stands there (`Json.readQuoted_eq_some_iff`). So is a numeral,
but it is only found if what follows does not go on with it (`Json.Ends`).
-/

namespace Aleatory

namespace Json

/-! ## Blanks -/

theorem skipBlanks_cons {c : Char} (hc : isBlank c = false) (cs : List Char) :
    skipBlanks (c :: cs) = c :: cs := by
  simp [skipBlanks, hc]

theorem blanks_skipBlanks (cs : List Char) : Blanks cs (skipBlanks cs) := by
  induction cs with
  | nil => exact .none []
  | cons c cs ih =>
      cases hc : isBlank c with
      | false =>
          rw [skipBlanks_cons hc]
          exact .none _
      | true =>
          have hskip : skipBlanks (c :: cs) = skipBlanks cs := by simp [skipBlanks, hc]
          rw [hskip]
          exact .blank hc ih

theorem Blanks.skipBlanks_eq {cs rest : List Char} (h : Blanks cs rest) :
    skipBlanks cs = skipBlanks rest := by
  induction h with
  | none => rfl
  | blank hc _ ih => rw [← ih, skipBlanks, List.dropWhile_cons_of_pos hc, skipBlanks]

theorem Blanks.length_le {cs rest : List Char} (h : Blanks cs rest) : rest.length ≤ cs.length := by
  induction h with
  | none => exact le_rfl
  | blank _ _ ih => exact ih.trans (Nat.le_succ _)

theorem isEmpty_skipBlanks {cs : List Char} : (skipBlanks cs).isEmpty = true ↔ Blanks cs [] := by
  constructor
  · intro h
    have hblanks := blanks_skipBlanks cs
    rwa [List.isEmpty_iff.mp h] at hblanks
  · intro h
    rw [h.skipBlanks_eq]
    rfl

/-! ## Numerals -/

/-- What may follow a numeral. -/
def Ends (rest : List Char) : Prop :=
  ∀ c ∈ rest.head?, c.isDigit = false ∧ c ≠ '.' ∧ c ≠ 'e' ∧ c ≠ 'E'

theorem readDigits_append {ds rest : List Char} (hds : ∀ c ∈ ds, c.isDigit = true)
    (hrest : ∀ c ∈ rest.head?, c.isDigit = false) : readDigits (ds ++ rest) = (ds, rest) := by
  have hstop : rest.takeWhile Char.isDigit = [] ∧ rest.dropWhile Char.isDigit = rest := by
    cases rest with
    | nil => exact ⟨rfl, rfl⟩
    | cons c rest => simp [hrest c rfl]
  rw [readDigits, List.takeWhile_append_of_pos hds, List.dropWhile_append_of_pos hds, hstop.1,
    hstop.2, List.append_nil]

theorem of_readDigits {cs ds rest : List Char} (h : readDigits cs = (ds, rest)) :
    cs = ds ++ rest ∧ ∀ c ∈ ds, c.isDigit = true := by
  obtain ⟨rfl, rfl⟩ := Prod.mk.inj h
  exact ⟨List.takeWhile_append_dropWhile.symm, fun c hc => List.mem_takeWhile_imp hc⟩

theorem readMinus_append (negative : Bool) {cs : List Char} (hcs : cs.head? ≠ some '-') :
    readMinus ((if negative then ['-'] else []) ++ cs) = (negative, cs) := by
  cases negative with
  | true => rfl
  | false =>
      show readMinus cs = _
      unfold readMinus
      split
      · exact absurd rfl hcs
      · rfl

theorem of_readMinus (cs : List Char) :
    cs = (if (readMinus cs).1 then ['-'] else []) ++ (readMinus cs).2 := by
  unfold readMinus
  split <;> rfl

theorem Sign.readSign_eq {negative : Bool} {cs rest : List Char} (h : Sign negative cs rest)
    (hrest : rest.head? ≠ some '+' ∧ rest.head? ≠ some '-') : readSign cs = (negative, rest) := by
  cases h with
  | absent =>
      unfold readSign
      split
      · exact absurd rfl hrest.1
      · exact readMinus_append false hrest.2
  | plus => rfl
  | minus => rfl

theorem sign_readSign (cs : List Char) : Sign (readSign cs).1 cs (readSign cs).2 := by
  unfold readSign
  split
  · exact .plus _
  · unfold readMinus
    split
    · exact .minus _
    · exact .absent _

theorem Power.readPower_eq {power : Option ℤ} {cs rest : List Char} (h : Power power cs rest)
    (hrest : Ends rest) : readPower cs = some (power, rest) := by
  cases h with
  | absent =>
      cases cs with
      | nil => rfl
      | cons c rest =>
          obtain ⟨-, -, hlower, hupper⟩ := hrest c rfl
          simp [readPower, hlower, hupper]
  | @given mark negative ds cs _ hmark hsign hne hds =>
      obtain ⟨d, ds, rfl⟩ := List.exists_cons_of_ne_nil hne
      have hd := hds d List.mem_cons_self
      have hsign_eq := hsign.readSign_eq (by
        constructor <;> (rintro ⟨⟩; exact absurd hd (by decide)))
      have hdigits := readDigits_append hds fun c hc => (hrest c hc).1
      simp only [readPower, if_pos hmark, hsign_eq, hdigits]

theorem power_of_readPower {power : Option ℤ} {cs rest : List Char}
    (h : readPower cs = some (power, rest)) : Power power cs rest := by
  unfold readPower at h
  split at h
  · rename_i c cs
    by_cases hmark : c = 'e' ∨ c = 'E'
    · rw [if_pos hmark] at h
      have hsign := sign_readSign cs
      rcases hread : readDigits (readSign cs).2 with ⟨ds, rest'⟩
      obtain ⟨hcs, hds⟩ := of_readDigits hread
      rw [hcs] at hsign
      simp only [hread] at h
      cases ds with
      | nil => cases h
      | cons d ds =>
          cases h
          exact .given hmark hsign (List.cons_ne_nil d ds) hds
    · rw [if_neg hmark] at h
      cases h
      exact .absent _
  · cases h
    exact .absent _

theorem readDecimals_append {ds rest : List Char} (hds : ∀ c ∈ ds, c.isDigit = true)
    (hrest : ∀ c ∈ rest.head?, c.isDigit = false ∧ c ≠ '.') :
    readDecimals ((if ds.isEmpty then [] else '.' :: ds) ++ rest) = some (ds, rest) := by
  cases ds with
  | nil =>
      simp only [List.isEmpty_nil, if_true, List.nil_append]
      unfold readDecimals
      split
      · exact absurd rfl (hrest '.' rfl).2
      · rfl
  | cons c ds =>
      have hdigits := readDigits_append hds fun c hc => (hrest c hc).1
      simp only [List.isEmpty_cons, Bool.false_eq_true, if_false, List.cons_append] at hdigits ⊢
      simp [readDecimals, hdigits]

theorem of_readDecimals {cs ds rest : List Char} (h : readDecimals cs = some (ds, rest)) :
    cs = (if ds.isEmpty then [] else '.' :: ds) ++ rest ∧ ∀ c ∈ ds, c.isDigit = true := by
  unfold readDecimals at h
  split at h
  · rename_i cs
    rcases hread : readDigits cs with ⟨ds', rest'⟩
    obtain ⟨rfl, hds⟩ := of_readDigits hread
    simp only [hread] at h
    cases ds' with
    | nil => cases h
    | cons d ds' =>
        cases h
        exact ⟨rfl, hds⟩
  · cases h
    exact ⟨rfl, nofun⟩

theorem readWhole_append {ds rest : List Char} (hds : ∀ c ∈ ds, c.isDigit = true) (hne : ds ≠ [])
    (hzero : ∀ c cs, ds ≠ '0' :: c :: cs) (hrest : ∀ c ∈ rest.head?, c.isDigit = false) :
    readWhole (ds ++ rest) = some (ds, rest) := by
  rw [readWhole, readDigits_append hds hrest]
  split
  · rename_i heq
    exact absurd (Prod.mk.inj heq).1 hne
  · rename_i heq
    exact absurd (Prod.mk.inj heq).1 (hzero _ _)
  · rfl

theorem of_readWhole {cs ds rest : List Char} (h : readWhole cs = some (ds, rest)) :
    cs = ds ++ rest ∧ (∀ c ∈ ds, c.isDigit = true) ∧ ds ≠ [] ∧ ∀ c cs, ds ≠ '0' :: c :: cs := by
  unfold readWhole at h
  split at h
  · cases h
  · cases h
  · rename_i found hnil hzero
    have hread := Option.some.inj h
    obtain ⟨hcs, hds⟩ := of_readDigits hread
    refine ⟨hcs, hds, ?_, ?_⟩
    · rintro rfl
      exact hnil _ hread
    · rintro c cs rfl
      exact hzero _ _ _ hread

/-- What stands behind the digits of a numeral does not go on with them. -/
theorem Power.head {power : Option ℤ} {cs rest : List Char} (h : Power power cs rest)
    (hrest : Ends rest) : ∀ c ∈ cs.head?, c.isDigit = false ∧ c ≠ '.' := by
  intro c hc
  cases h with
  | absent => exact ⟨(hrest c hc).1, (hrest c hc).2.1⟩
  | given hmark =>
      obtain rfl := Option.some.inj hc
      rcases hmark with rfl | rfl <;> decide

theorem Number.readNumeral_eq {n : Numeral} {cs rest : List Char} (h : Number n cs rest)
    (hrest : Ends rest) : readNumeral cs = some (n, rest) := by
  obtain @⟨cs, rest, formed, power⟩ := h
  -- What stands behind each part is not taken for a piece of it.
  have hpower := power.head hrest
  have hdecimals : ∀ c ∈ ((if n.decimals.isEmpty then [] else '.' :: n.decimals) ++ cs).head?,
      c.isDigit = false := by
    cases n.decimals with
    | nil => exact fun c hc => (hpower c hc).1
    | cons d ds =>
        rintro c hc
        obtain rfl := Option.some.inj hc
        decide
  have hwhole : (n.whole ++
      ((if n.decimals.isEmpty then [] else '.' :: n.decimals) ++ cs)).head? ≠ some '-' := by
    obtain ⟨d, ds, hds, hd⟩ := formed.exists_digit
    rw [hds]
    rintro ⟨⟩
    exact absurd hd (by decide)
  have hread_whole :=
    readWhole_append formed.whole_digits formed.whole_ne_nil formed.no_zero_in_front hdecimals
  have hread_decimals := readDecimals_append formed.decimals_digits hpower
  simp only [readNumeral, readMinus_append n.negative hwhole, hread_whole, hread_decimals,
    power.readPower_eq hrest, Option.bind_eq_bind, Option.bind_some, Option.pure_def]

theorem number_of_readNumeral {n : Numeral} {cs rest : List Char}
    (h : readNumeral cs = some (n, rest)) : Number n cs rest := by
  simp only [readNumeral, Option.bind_eq_bind, Option.bind_eq_some_iff] at h
  obtain ⟨⟨whole, cs₁⟩, hwhole, ⟨decimals, cs₂⟩, hdecimals, ⟨power, cs₃⟩, hpower, h⟩ := h
  have hread_power : Power power cs₂ cs₃ := power_of_readPower hpower
  cases h
  obtain ⟨hcs, hdigits, hne, hzero⟩ := of_readWhole hwhole
  obtain ⟨rfl, hplaces⟩ := of_readDecimals hdecimals
  have hminus := of_readMinus cs
  rw [hcs] at hminus
  have hformed : Numeral.WellFormed { negative := (readMinus cs).1, whole, decimals, power } :=
    ⟨hdigits, hne, hzero, hplaces⟩
  have hnumber := Number.mk hformed hread_power
  rw [← hminus] at hnumber
  exact hnumber

theorem Power.length_le {power : Option ℤ} {cs rest : List Char} (h : Power power cs rest) :
    rest.length ≤ cs.length := by
  cases h with
  | absent => exact le_rfl
  | given _ hsign =>
      cases hsign <;>
        simp only [List.length_cons, List.length_append] <;> omega

theorem Number.length_lt {n : Numeral} {cs rest : List Char} (h : Number n cs rest) :
    rest.length < cs.length := by
  obtain ⟨formed, power⟩ := h
  have hpower := power.length_le
  have hwhole := List.length_pos_iff.mpr formed.whole_ne_nil
  simp only [List.length_append]
  omega

theorem Number.exists_cons {n : Numeral} {cs rest : List Char} (h : Number n cs rest) :
    ∃ c cs', cs = c :: cs' ∧ (c = '-' ∨ c.isDigit = true) := by
  obtain ⟨formed, -⟩ := h
  obtain ⟨d, ds, hds, hd⟩ := formed.exists_digit
  rw [hds]
  cases n.negative with
  | true => exact ⟨'-', _, rfl, .inl rfl⟩
  | false => exact ⟨d, _, rfl, .inr hd⟩

/-- What no numeral starts with. -/
theorem ne_of_isDigit {c d : Char} (hc : c = '-' ∨ c.isDigit = true)
    (hd : d ≠ '-' ∧ d.isDigit = false) : c ≠ d := by
  rintro rfl
  rcases hc with rfl | hc
  · exact hd.1 rfl
  · rw [hc] at hd
    cases hd.2

theorem isBlank_of_isDigit {c : Char} (hc : c = '-' ∨ c.isDigit = true) : isBlank c = false := by
  have hspace : c ≠ ' ' := ne_of_isDigit hc (by decide)
  have htab : c ≠ '\t' := ne_of_isDigit hc (by decide)
  have hnewline : c ≠ '\n' := ne_of_isDigit hc (by decide)
  have hreturn : c ≠ '\r' := ne_of_isDigit hc (by decide)
  simp [isBlank, hspace, htab, hnewline, hreturn]

/-! ## Texts in quotes -/

theorem readHexQuad_eq_some_iff {n : ℕ} {cs rest : List Char} :
    readHexQuad cs = some (n, rest) ↔ Quad n cs rest := by
  constructor
  · intro h
    unfold readHexQuad at h
    split at h
    · simp only [Option.bind_eq_bind, Option.bind_eq_some_iff] at h
      obtain ⟨x, hx, y, hy, z, hz, w, hw, h⟩ := h
      cases h
      exact .mk hx hy hz hw _
    · cases h
  · rintro ⟨ha, hb, hc, hd⟩
    simp [readHexQuad, ha, hb, hc, hd]

theorem written_of_readUnit {u : Surrogates} {c : Char} {cs rest : List Char}
    (h : readUnit u cs = some (c, rest)) : Written u c ('\\' :: 'u' :: cs) rest := by
  simp only [readUnit, Option.bind_eq_bind, Option.bind_eq_some_iff] at h
  obtain ⟨⟨n, cs'⟩, hn, h⟩ := h
  have hquad := readHexQuad_eq_some_iff.mp hn
  cases hsurrogate : isSurrogate n with
  | false =>
      rw [hsurrogate] at h
      cases h
      exact .unit hquad hsurrogate
  | true =>
      rw [if_pos hsurrogate] at h
      cases u with
      | replaced =>
          cases h
          exact .lone hquad hsurrogate
      | paired =>
          simp only [readPartner] at h
          split at h
          · simp only [Option.bind_eq_bind, Option.bind_eq_some_iff] at h
            obtain ⟨⟨low, cs⟩, hlow, d, hpair, h⟩ := h
            cases h
            exact .pair hquad hsurrogate (readHexQuad_eq_some_iff.mp hlow) hpair
          · cases h

theorem Written.readUnit_eq {u : Surrogates} {c : Char} {cs rest : List Char}
    (h : Written u c ('\\' :: 'u' :: cs) rest) : readUnit u cs = some (c, rest) := by
  cases h with
  | plain _ hescape => exact absurd rfl hescape
  | letter hl => cases hl
  | unit hn hplain => simp [readUnit, readHexQuad_eq_some_iff.mpr hn, hplain]
  | pair hhigh hsurrogate hlow hpair =>
      simp [readUnit, readHexQuad_eq_some_iff.mpr hhigh, hsurrogate, readPartner,
        readHexQuad_eq_some_iff.mpr hlow, hpair]
  | lone hn hsurrogate => simp [readUnit, readHexQuad_eq_some_iff.mpr hn, hsurrogate]

/-- One character is read just if it is written, whatever follows it. -/
theorem readChar_eq_some_iff {u : Surrogates} {c : Char} {cs rest : List Char} :
    readChar u cs = some (c, rest) ↔ Written u c cs rest := by
  constructor
  · intro h
    unfold readChar at h
    split at h
    · unfold readEscape at h
      split at h
      · exact written_of_readUnit h
      · obtain ⟨d, hl, h⟩ := Option.map_eq_some_iff.mp h
        cases h
        exact .letter hl _
      · cases h
    · rename_i d cs hescape
      by_cases hbad : d = '"' ∨ d.toNat < 32
      · rw [if_pos hbad] at h
        cases h
      · rw [if_neg hbad] at h
        cases h
        exact .plain (fun hquote => hbad (.inl hquote)) hescape
          (Nat.le_of_not_lt fun hcontrol => hbad (.inr hcontrol)) _
    · cases h
  · intro h
    cases h with
    | plain hquote hescape hcontrol =>
        simp [readChar, hquote, Nat.not_lt.mpr hcontrol]
    | @letter _ l _ hl =>
        have hunit : l ≠ 'u' := by
          rintro rfl
          cases hl
        simp [readChar, readEscape, hl]
    | unit hn hplain => exact (Written.unit hn hplain).readUnit_eq
    | pair hhigh hsurrogate hlow hpair =>
        exact (Written.pair hhigh hsurrogate hlow hpair).readUnit_eq
    | lone hn hsurrogate => exact (Written.lone hn hsurrogate).readUnit_eq

theorem Written.exists_cons {u : Surrogates} {c : Char} {cs rest : List Char}
    (h : Written u c cs rest) : ∃ d ds, cs = d :: ds ∧ d ≠ '"' := by
  cases h with
  | plain hquote => exact ⟨_, _, rfl, hquote⟩
  | _ => exact ⟨_, _, rfl, by decide⟩

theorem body_of_readText {u : Surrogates} {bound : ℕ} {taken cs rest : List Char} {s : String}
    (h : readText u bound taken cs = some (s, rest)) :
    ∃ body, Body u body cs rest ∧ s = String.ofList (taken.reverse ++ body) := by
  fun_induction readText u bound taken cs with
  | case1 => cases h
  | case2 bound taken cs =>
      cases h
      exact ⟨[], .close _, by rw [List.append_nil]⟩
  | case3 bound taken cs hquote c cs' hc ih =>
      obtain ⟨body, hbody, rfl⟩ := ih h
      exact ⟨c :: body, .char (readChar_eq_some_iff.mp hc) hbody, by simp⟩
  | case4 => cases h

theorem Body.readText_eq {u : Surrogates} {body cs rest : List Char} (h : Body u body cs rest)
    {bound : ℕ} (hbound : body.length < bound) (taken : List Char) :
    readText u bound taken cs = some (String.ofList (taken.reverse ++ body), rest) := by
  induction h generalizing bound taken with
  | close rest =>
      obtain ⟨bound, rfl⟩ := Nat.exists_eq_add_one_of_ne_zero (Nat.ne_of_gt hbound)
      rw [List.append_nil]
      rfl
  | @char c body cs cs' rest hc hbody ih =>
      obtain ⟨bound, rfl⟩ := Nat.exists_eq_add_one_of_ne_zero (Nat.ne_of_gt
        (Nat.zero_lt_of_lt hbound))
      obtain ⟨d, ds, rfl, hd⟩ := hc.exists_cons
      have hread := ih (Nat.lt_of_succ_lt_succ hbound) (c :: taken)
      simp [readText, hd, readChar_eq_some_iff.mpr hc, hread]

theorem Quad.length_eq {n : ℕ} {cs rest : List Char} (h : Quad n cs rest) :
    cs.length = rest.length + 4 := by
  cases h
  rfl

theorem Written.length_lt {u : Surrogates} {c : Char} {cs rest : List Char}
    (h : Written u c cs rest) : rest.length < cs.length := by
  cases h with
  | plain => exact Nat.lt_succ_self _
  | letter => exact Nat.lt_succ_of_lt (Nat.lt_succ_self _)
  | unit hn =>
      have hlength := hn.length_eq
      simp only [List.length_cons]
      omega
  | pair hhigh _ hlow =>
      have hlength := hhigh.length_eq
      have hlength' := hlow.length_eq
      simp only [List.length_cons] at hlength ⊢
      omega
  | lone hn =>
      have hlength := hn.length_eq
      simp only [List.length_cons]
      omega

theorem Body.length_lt {u : Surrogates} {body cs rest : List Char} (h : Body u body cs rest) :
    body.length + rest.length < cs.length := by
  induction h with
  | close => simp
  | char hc _ ih =>
      have hlength := hc.length_lt
      rw [List.length_cons]
      omega

theorem Quotes.length_lt {u : Surrogates} {s : String} {cs rest : List Char}
    (h : Quotes u s cs rest) : rest.length < cs.length := by
  obtain ⟨hbody⟩ := h
  have hlength := hbody.length_lt
  rw [List.length_cons]
  omega

theorem readQuoted_eq_some_iff {u : Surrogates} {s : String} {cs rest : List Char} :
    readQuoted u cs = some (s, rest) ↔ Quotes u s cs rest := by
  constructor
  · intro h
    unfold readQuoted at h
    split at h
    · obtain ⟨body, hbody, rfl⟩ := body_of_readText h
      exact .mk hbody
    · cases h
  · rintro ⟨hbody⟩
    have hbound := hbody.length_lt
    exact hbody.readText_eq (by omega) []

end Json

end Aleatory
