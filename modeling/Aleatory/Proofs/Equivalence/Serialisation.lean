import Aleatory.Equivalence.Criterion
import Aleatory.Proofs.Json.Rendering
import Aleatory.Proofs.Json.Reread
import Aleatory.Proofs.Json.Skipping
import Aleatory.Proofs.Numeric.Special

/-!
# Texts of criteria

The text of a criterion is read as the document that was written, with the same count and with what
its threshold is read as. That need not be the threshold, and the text of one threshold is refused.

Which documents are taken is said of the document alone (`Criterion.Decodes`): fields are taken one
by one, but it comes to the same as looking up the only field of either name
(`Criterion.foldlM_take_iff`). Whatever is read is checked once more, so that no text gives a
criterion that could not be built (`Criterion.texts_are_checked`).
-/

namespace Aleatory

open Double

namespace Criterion

/-- A threshold is inside just if it stands for a number between zero and one. -/
theorem inside_iff {t : Float} :
    (Elementary.lt 0.0 t && Elementary.lt t 1.0) = true ↔ 0 < real t ∧ real t < 1 := by
  show (decide (0.0 < t) && decide (t < 1.0)) = true ↔ _
  rw [Bool.and_eq_true, decide_eq_true_iff, decide_eq_true_iff]
  constructor
  · rintro ⟨hlow, hhigh⟩
    have hfinite : t.isFinite = true := isFinite_of_le_of_le rfl rfl
      (le_iff_lt_or_beq.mpr (.inl hlow)) (le_iff_lt_or_beq.mpr (.inl hhigh))
    rw [lt_iff_real rfl hfinite, real_zero] at hlow
    rw [lt_iff_real hfinite rfl, real_one] at hhigh
    exact ⟨hlow, hhigh⟩
  · rintro ⟨hlow, hhigh⟩
    obtain ⟨m, e, hm, hview⟩ := view_of_pos hlow
    have hfinite : t.isFinite = true := by rw [isFinite_eq, hview]; rfl
    rw [lt_iff_real rfl hfinite, lt_iff_real hfinite rfl, real_zero, real_one]
    exact ⟨hlow, hhigh⟩

/-- Two numbers make a criterion just if the count is positive and the threshold is inside. -/
structure Checked (replicates : UInt64) (threshold : Float)
    (answer : Except (SetupError Float) (Criterion Float)) : Prop where
  accepted : 0 < replicates → 0 < real threshold → real threshold < 1 →
    ∃ c, answer = .ok c ∧ c.replicates = replicates ∧ c.threshold = threshold
  refused : 0 < replicates → ¬(0 < real threshold ∧ real threshold < 1) →
    answer = .error (.badThreshold threshold)
  empty : replicates = 0 → answer = .error .noReplicates

theorem checked_ofParts (replicates : UInt64) (threshold : Float) :
    Checked replicates threshold (ofParts replicates threshold) where
  accepted hreplicates hlow hhigh := by
    rw [ofParts, dif_pos hreplicates, dif_pos (inside_iff.mpr ⟨hlow, hhigh⟩)]
    exact ⟨_, rfl, rfl, rfl⟩
  refused hreplicates houtside := by
    rw [ofParts, dif_pos hreplicates, dif_neg (inside_iff.not.mpr houtside)]
  empty hzero := by
    have hnone : ¬0 < replicates := by rw [hzero]; decide
    rw [ofParts, dif_neg hnone]

theorem ofParts_self (c : Criterion Float) : ofParts c.replicates c.threshold = .ok c := by
  rw [ofParts, dif_pos c.replicates_pos, dif_pos c.threshold_inside]

theorem parts_of_ofParts {replicates : UInt64} {threshold : Float} {c : Criterion Float}
    (h : ofParts replicates threshold = .ok c) :
    c.replicates = replicates ∧ c.threshold = threshold := by
  rw [ofParts] at h
  split_ifs at h
  cases h
  exact ⟨rfl, rfl⟩

/-! ## Documents of criteria -/

/-- The numerals that a document holds for the two parts, as the two items of an array or as the
only fields of their names. -/
inductive Holds : Json → Numeral → Numeral → Prop
  | array (m n : Numeral) : Holds (.array [.number m, .number n]) m n
  | object {fields : List (String × Json)} {m n : Numeral}
      (hreplicates : (Json.object fields).field? "replicates" = some (.number m))
      (hthreshold : (Json.object fields).field? "threshold" = some (.number n)) :
      Holds (.object fields) m n

/-- The two numbers of a document that has the shape of a criterion. -/
def Decodes (document : Json) (replicates : UInt64) (threshold : Float) : Prop :=
  ∃ m n, Holds document m n ∧ m.count? = some replicates ∧ n.double? = some threshold

section

variable {β : Type}

/-- What a part holds after some fields: what it held before if none of them has its name, and
the content of the only one that has it. -/
def Taken (name : String) (content? : Json → Option β) (held : Option β)
    (fields : List (String × Json)) (found : Option β) : Prop :=
  match fields.filter fun field => field.1 = name with
  | [] => found = held
  | [field] => held = none ∧ found.isSome ∧ found = content? field.2
  | _ => False

variable {name : String} {content? : Json → Option β} {held found : Option β}
  {fields : List (String × Json)}

theorem taken_cons_of_ne {field : String × Json} (h : field.1 ≠ name) :
    Taken name content? held (field :: fields) found ↔
      Taken name content? held fields found := by
  simp [Taken, h]

theorem taken_cons_self (value : Json) :
    Taken name content? held ((name, value) :: fields) found ↔
      ∃ b, once held (content? value) = some b ∧ Taken name content? (some b) fields found := by
  simp only [Taken, List.filter_cons, decide_true, if_true]
  cases fields.filter fun field => field.1 = name with
  | nil =>
      cases held with
      | none =>
          simp only [once, true_and]
          constructor
          · rintro ⟨hsome, rfl⟩
            obtain ⟨b, hb⟩ := Option.isSome_iff_exists.mp hsome
            exact ⟨b, hb, hb⟩
          · rintro ⟨b, hb, rfl⟩
            exact ⟨rfl, hb.symm⟩
      | some b => simp [once]
  | cons field rest => cases rest <;> simp

/-- A part that was not held is the content of the only field of its name. -/
theorem taken_none_iff {b : β} : Taken name content? none fields (some b) ↔
    ∃ value, (Json.object fields).field? name = some value ∧ content? value = some b := by
  simp only [Taken, Json.field?]
  cases fields.filter fun field => field.1 = name with
  | nil => simp
  | cons field rest =>
      cases rest with
      | nil => simp [eq_comm]
      | cons field' rest => simp

end

/-- Fields are taken one after the other, but for each part it is as if only its own counted. -/
theorem foldlM_take_iff {fields : List (String × Json)} {draft result : Draft Float} :
    fields.foldlM Draft.take draft = some result ↔
      Taken "replicates" Json.count? draft.replicates fields result.replicates ∧
      Taken "threshold" Json.double? draft.threshold fields result.threshold := by
  induction fields generalizing draft with
  | nil =>
      obtain ⟨replicates, threshold⟩ := draft
      obtain ⟨replicates', threshold'⟩ := result
      simp [Taken, eq_comm]
  | cons field fields ih =>
      obtain ⟨name, value⟩ := field
      rw [List.foldlM_cons]
      by_cases hreplicates : name = "replicates"
      · subst hreplicates
        have hother : ("replicates", value).1 ≠ "threshold" := by simp
        rw [taken_cons_self, taken_cons_of_ne hother]
        simp [Draft.take, Option.bind_eq_some_iff, ih, ← exists_and_right, and_assoc]
      · by_cases hthreshold : name = "threshold"
        · subst hthreshold
          have hother : ("threshold", value).1 ≠ "replicates" := by simp
          rw [taken_cons_self, taken_cons_of_ne hother]
          simp [Draft.take, Option.bind_eq_some_iff, ih, ← exists_and_left, and_left_comm]
        · rw [taken_cons_of_ne hreplicates, taken_cons_of_ne hthreshold, ← ih]
          simp [Draft.take, hreplicates, hthreshold]

theorem count?_eq_some_iff {document : Json} {replicates : UInt64} :
    document.count? = some replicates ↔
      ∃ m, document = .number m ∧ m.count? = some replicates := by
  cases document <;> simp [Json.count?]

theorem double?_eq_some_iff {document : Json} {threshold : Float} :
    document.double? = some threshold ↔
      ∃ n, document = .number n ∧ n.double? = some threshold := by
  cases document <;> simp [Json.double?]

theorem ofJson?_eq_some_iff {document : Json}
    {answer : Except (SetupError Float) (Criterion Float)} :
    ofJson? document = some answer ↔
      ∃ replicates threshold, Decodes document replicates threshold ∧
        answer = ofParts replicates threshold := by
  constructor
  · intro h
    unfold ofJson? at h
    split at h
    · simp only [Option.bind_eq_bind, Option.bind_eq_some_iff] at h
      obtain ⟨replicates, hcount, threshold, hdouble, h⟩ := h
      obtain ⟨m, rfl, hm⟩ := count?_eq_some_iff.mp hcount
      obtain ⟨n, rfl, hn⟩ := double?_eq_some_iff.mp hdouble
      exact ⟨replicates, threshold, ⟨m, n, .array m n, hm, hn⟩, (Option.some_inj.mp h).symm⟩
    · simp only [Option.bind_eq_bind, Option.bind_eq_some_iff] at h
      obtain ⟨draft, hdraft, replicates, hreplicates, threshold, hthreshold, h⟩ := h
      obtain ⟨htaken, htaken'⟩ := foldlM_take_iff.mp hdraft
      rw [hreplicates] at htaken
      rw [hthreshold] at htaken'
      obtain ⟨value, hvalue, hcount⟩ := taken_none_iff.mp htaken
      obtain ⟨value', hvalue', hdouble⟩ := taken_none_iff.mp htaken'
      obtain ⟨m, rfl, hm⟩ := count?_eq_some_iff.mp hcount
      obtain ⟨n, rfl, hn⟩ := double?_eq_some_iff.mp hdouble
      exact ⟨replicates, threshold, ⟨m, n, .object hvalue hvalue', hm, hn⟩,
        (Option.some_inj.mp h).symm⟩
    · cases h
  · rintro ⟨replicates, threshold, ⟨m, n, hholds, hm, hn⟩, rfl⟩
    cases hholds with
    | array => simp [ofJson?, Json.count?, Json.double?, hm, hn]
    | @object fields _ _ hreplicates hthreshold =>
        have hdraft : fields.foldlM Draft.take {} = some ⟨some replicates, some threshold⟩ :=
          foldlM_take_iff.mpr ⟨taken_none_iff.mpr ⟨_, hreplicates, hm⟩,
            taken_none_iff.mpr ⟨_, hthreshold, hn⟩⟩
        simp [ofJson?, hdraft]

/-- Only numbers and the names of fields matter to a criterion. -/
theorem ofJson?_eq_of_alike {document document' : Json}
    (h : document.Alike (· = ·) Json.SameNumber document') :
    ofJson? document = ofJson? document' := by
  cases h with
  | array h =>
      -- The items of both are two, or not two.
      rcases h with - | ⟨hfirst, - | ⟨hsecond, - | -⟩⟩
      · rfl
      · rfl
      · simp only [ofJson?, hfirst.1, hsecond.2]
      · rfl
  | @object fields fields' h =>
      have hfields (draft : Draft Float) :
          fields.foldlM Draft.take draft = fields'.foldlM Draft.take draft := by
        induction h generalizing draft with
        | nil => rfl
        | @cons field field' _ _ hfield _ ih =>
            obtain ⟨name, value⟩ := field
            obtain ⟨name', value'⟩ := field'
            obtain ⟨rfl, hcount, hdouble⟩ := hfield
            have htake : draft.take (name, value) = draft.take (name, value') := by
              simp only [Draft.take, hcount, hdouble]
            rw [List.foldlM_cons, List.foldlM_cons, htake]
            exact congrArg _ (funext ih)
      simp only [ofJson?, hfields]
  | _ => rfl

/-! ## Texts of criteria -/

/-- What follows a document does not matter if it is blank. -/
theorem ofText?_eq_ofJson? {document : Json} {text : String} (h : document.OutlinedBy text) :
    ofText? text = ofJson? document := by
  obtain ⟨rest, houtline, hblanks⟩ := h
  have hread := Json.readOutline_of_outline houtline (hblanks.ends nofun)
  simp only [ofText?, hread, if_pos (Json.isEmpty_skipBlanks.mpr hblanks)]
  split
  · rename_i c hc
    exact hc.symm
  · rfl

/-- Decoding a text throughout before its document is looked at makes no difference. -/
theorem ofText?_eq_of_parse? {text : String} {document : Json}
    (h : Json.parse? text = some document) : ofText? text = ofJson? document := by
  obtain ⟨document', houtlined, halike⟩ := Json.exists_outlinedBy h
  rw [ofText?_eq_ofJson? houtlined, ofJson?_eq_of_alike halike]

/-- Only documents are accepted. -/
theorem exists_document {text : String} {c : Criterion Float} (h : ofText? text = some (.ok c)) :
    ∃ document : Json, document.OutlinedBy text ∧ ofJson? document = some (.ok c) := by
  unfold ofText? at h
  split at h
  · rename_i document rest hread
    have houtline := Json.outline_of_readOutline hread
    split at h
    · rename_i c' hc
      split_ifs at h with hblank
      cases h
      exact ⟨document, ⟨rest, houtline, Json.isEmpty_skipBlanks.mp hblank⟩, hc⟩
    · rename_i hrefused
      exact absurd h (hrefused c)
  · cases h

theorem wellFormed_toJson (c : Criterion Float) : c.toJson.WellFormed := by
  obtain ⟨hpos, hone⟩ := inside_iff.mp c.threshold_inside
  obtain ⟨n, hnumeral, hformed, -⟩ := exists_numeral hpos hone
  rw [toJson, Json.ofNat, Json.ofFloat, hnumeral]
  refine .object fun field hfield => ?_
  rcases List.mem_pair.mp hfield with rfl | rfl
  · exact .number (Numeral.wellFormed_ofNat _)
  · exact .number hformed

/-- The document of a criterion holds its own count and what its threshold is read as. -/
theorem decodes_toJson (c : Criterion Float) :
    Decodes c.toJson c.replicates (reread c.threshold) := by
  obtain ⟨hpos, hone⟩ := inside_iff.mp c.threshold_inside
  obtain ⟨n, hnumeral, -, hdouble⟩ := exists_numeral hpos hone
  have hholds : Holds c.toJson (.ofNat c.replicates.toNat) n := by
    rw [toJson, Json.ofNat, Json.ofFloat, hnumeral]
    exact .object rfl rfl
  have hcount : (Numeral.ofNat c.replicates.toNat).count? = some c.replicates := by
    rw [Numeral.count?_ofNat c.replicates.toNat_lt]
    exact congrArg some UInt64.ofNat_toNat
  exact ⟨_, _, hholds, hcount, hdouble⟩

theorem ofText?_toJson (c : Criterion Float) :
    ofText? c.toJson.render = some (ofParts c.replicates (reread c.threshold)) := by
  have houtlined : c.toJson.OutlinedBy c.toJson.render :=
    Json.outlinedBy_render c.wellFormed_toJson
  rw [ofText?_eq_ofJson? houtlined]
  exact ofJson?_eq_some_iff.mpr ⟨_, _, c.decodes_toJson, rfl⟩

/-- What the text of a criterion is read as. -/
structure ReadBack (c : Criterion Float) : Prop where
  drift : |real (reread c.threshold) - real c.threshold| ≤
    2 ^ (-49 : ℤ) * real c.threshold + 2 ^ (-1073 : ℤ)
  accepted : c.threshold ≠ lastBeforeOne → ∃ c', ofText? c.toJson.render = some (.ok c') ∧
    c'.replicates = c.replicates ∧ c'.threshold = reread c.threshold
  refused : c.threshold = lastBeforeOne →
    ofText? c.toJson.render = some (.error (.badThreshold 1.0))
  same_iff : ofText? c.toJson.render = some (.ok c) ↔ reread c.threshold = c.threshold
  same_of_decimals : (∃ n : ℕ, real c.threshold = nearest (n / 10 ^ 15)) →
    ofText? c.toJson.render = some (.ok c)

theorem readBack (c : Criterion Float) : c.ReadBack := by
  obtain ⟨hpos, hone⟩ := inside_iff.mp c.threshold_inside
  have htext := c.ofText?_toJson
  have hchecked := checked_ofParts c.replicates (reread c.threshold)
  have hsame : ofText? c.toJson.render = some (.ok c) ↔ reread c.threshold = c.threshold := by
    rw [htext, Option.some_inj]
    exact ⟨fun h => (parts_of_ofParts h).2.symm, fun h => by rw [h, ofParts_self]⟩
  refine ⟨abs_reread_sub_le hpos hone, fun hlast => ?_, fun hlast => ?_, hsame,
    fun hdecimals => hsame.mpr (reread_of_decimals hpos hone hdecimals)⟩
  · obtain ⟨hpos', hone'⟩ := reread_inside hpos hone hlast
    obtain ⟨c', hok, hparts⟩ := hchecked.accepted c.replicates_pos hpos' hone'
    exact ⟨c', htext.trans (congrArg some hok), hparts⟩
  · have houtside : ¬(0 < real 1.0 ∧ real 1.0 < 1) := fun h => h.2.ne real_one
    rw [hlast, reread_lastBeforeOne] at htext hchecked
    rw [htext, hchecked.refused c.replicates_pos houtside]

/-- The text of a criterion is accepted again unless the threshold is the last double before one,
with the same count and with a threshold that is hardly another one; it gives the very same
criterion just if dividing the digits leads back to the threshold, as it does if fifteen decimals
are enough to tell it. A document is accepted just if it has the shape of a criterion and the two
numbers in it make a criterion, and refused with the error of these two numbers. No other text is
accepted. -/
theorem texts_are_checked (c : Criterion Float) (text : String) :
    (Draft.build ⟨some c.replicates, some c.threshold⟩ = .ok c ∧ c.ReadBack) ∧
    (∀ replicates threshold,
      Draft.build ⟨some replicates, some threshold⟩ = ofParts replicates threshold ∧
      Checked replicates threshold (ofParts replicates threshold)) ∧
    (∀ document : Json, document.OutlinedBy text → ∀ answer, ofText? text = some answer ↔
      ∃ replicates threshold, Decodes document replicates threshold ∧
        answer = ofParts replicates threshold) ∧
    ∀ c', ofText? text = some (.ok c') →
      0 < c'.replicates ∧ 0 < real c'.threshold ∧ real c'.threshold < 1 ∧
      ∃ document : Json, document.OutlinedBy text ∧
        Decodes document c'.replicates c'.threshold := by
  refine ⟨⟨c.ofParts_self, c.readBack⟩,
    fun replicates threshold => ⟨rfl, checked_ofParts replicates threshold⟩,
    fun document houtlined answer => ?_, fun c' htext => ?_⟩
  · rw [ofText?_eq_ofJson? houtlined]
    exact ofJson?_eq_some_iff
  · obtain ⟨hlow, hhigh⟩ := inside_iff.mp c'.threshold_inside
    obtain ⟨document, houtlined, hjson⟩ := exists_document htext
    obtain ⟨replicates, threshold, hdecodes, hok⟩ := ofJson?_eq_some_iff.mp hjson
    obtain ⟨rfl, rfl⟩ := parts_of_ofParts hok.symm
    exact ⟨c'.replicates_pos, hlow, hhigh, document, houtlined, hdecodes⟩

/-- A criterion of few decimals. -/
def quarter : Criterion Float := ⟨2000, 0.25, by decide, by rfl⟩

/-- The criterion comes back from its own text, and from one with blanks, another order and a field
that is passed over. A list of the two parts is refused with the error of the count, and a field
given twice is refused without one. -/
theorem texts_are_checked_quarter :
    ofText? quarter.toJson.render = some (.ok quarter) ∧
      ofText? " \x7b\"threshold\": 25e-2, \"note\": [\"\\ud800\"], \"replicates\" :2000\x7d\n" =
        some (.ok quarter) ∧
      ofText? "[0,1]" = some (.error .noReplicates) ∧
      ∀ answer, ofText? "\x7b\"replicates\":1,\"replicates\":1,\"threshold\":0.25\x7d" ≠
        some answer := by
  obtain ⟨⟨-, hquarter⟩, hparts, htexts, -⟩ := texts_are_checked quarter "[0,1]"
  have hdecimals : real quarter.threshold = nearest ((250000000000000 : ℕ) / 10 ^ 15) := by
    have hfraction : ((250000000000000 : ℕ) : ℝ) / 10 ^ 15 = 2 ^ (-2 : ℤ) := by norm_num
    have hview : view quarter.threshold = .finite .positive (2 ^ 52) (-54) (by decide) := rfl
    rw [hfraction, nearest_two_zpow (by norm_num), ← real_binary hview, Binary.real]
    norm_num
  refine ⟨hquarter.same_of_decimals ⟨_, hdecimals⟩, ?_, ?_, ?_⟩
  · obtain ⟨-, -, hspaced, -⟩ := texts_are_checked quarter
      " \x7b\"threshold\": 25e-2, \"note\": [\"\\ud800\"], \"replicates\" :2000\x7d\n"
    exact (hspaced _ ⟨['\n'], Json.outline_of_readOutline (by rfl), .blank rfl (.none [])⟩ _).mpr
      ⟨2000, 0.25, ⟨_, _, .object (by rfl) (by rfl), by decide +kernel, by decide +kernel⟩,
        quarter.ofParts_self.symm⟩
  · have hdecodes : Decodes (.array [.ofNat 0, .ofNat 1]) 0 1.0 :=
      ⟨_, _, .array _ _, by decide +kernel, by decide +kernel⟩
    have hrefused := (hparts 0 1.0).2.empty rfl
    exact (htexts _ ⟨_, Json.outline_of_readOutline (by rfl), .none []⟩ _).mpr
      ⟨0, 1.0, hdecodes, hrefused.symm⟩
  · intro answer htwice
    obtain ⟨-, -, hrepeated, -⟩ := texts_are_checked quarter
      "\x7b\"replicates\":1,\"replicates\":1,\"threshold\":0.25\x7d"
    obtain ⟨replicates, threshold, ⟨m, n, hholds, -⟩, -⟩ :=
      (hrepeated _ ⟨[], Json.outline_of_readOutline (by rfl), .none []⟩ answer).mp htwice
    cases hholds with
    | object hreplicates => cases hreplicates

theorem one_replicate : (0 : UInt64) < 1 := by decide

/-- The criterion of one trial and the last double before one. -/
def edge : Criterion Float := ⟨1, lastBeforeOne, one_replicate, by rfl⟩

theorem edge_is_refused :
    ofParts 1 lastBeforeOne = .ok edge ∧
      edge.toJson.render = "\x7b\"replicates\":1,\"threshold\":0.9999999999999999\x7d" ∧
      ofText? edge.toJson.render = some (.error (.badThreshold 1.0)) :=
  ⟨edge.ofParts_self, by decide +kernel, edge.readBack.refused rfl⟩

end Criterion

end Aleatory
