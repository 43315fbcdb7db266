import Harbormaster.Foundation.Ranking
import Harbormaster.Inspector.Formats
import Harbormaster.Inspector.SubBatches

/-! # What decides the format

The parsers score a file on its contents and add something for its name. Which
contents are recognised alike under every name is said by comparing the scores on
each kind of contents: mark-up, workbooks, messages with headers, and prose.
-/

namespace Harbormaster.Inspector

open Rounding Utf8

variable {runtime : Runtime} {inspector : FileInspector} {content : Content} {name : String}

/-! ## Choosing -/

/-- What the parsers see of a file. -/
abbrev headOf (content : Content) : Content := content.take FileInspector.sniffBytes

/-- The parser with the first of the best scores is chosen. -/
theorem sniff_of_first {before after : List Parser} {best : Parser}
    (hparsers : inspector.parsers = before ++ best :: after)
    (hbefore : ∀ p ∈ before, p.sniff (headOf content) name < best.sniff (headOf content) name)
    (hafter : ∀ p ∈ after, p.sniff (headOf content) name ≤ best.sniff (headOf content) name)
    (hpos : 0 < best.sniff (headOf content) name) :
    (inspector.sniff runtime content name).toOption = some best := by
  unfold FileInspector.sniff
  rw [hparsers, List.argmax_of_first hbefore hafter]
  exact congrArg Except.toOption (if_neg (not_le.mpr hpos))

/-- No parser is chosen when none recognises the contents. -/
theorem sniff_of_none
    (hnone : ∀ p ∈ inspector.parsers, p.sniff (headOf content) name ≤ 0) :
    (inspector.sniff runtime content name).toOption = none := by
  unfold FileInspector.sniff
  cases hbest : inspector.parsers.argmax fun p => p.sniff (headOf content) name with
  | none => rfl
  | some best =>
      exact congrArg Except.toOption (if_pos (hnone best (List.argmax_mem hbest)))

/-! ## Delimited text -/

namespace DelimitedParser

variable {set : SetOrder} {head : Content}

/-- The share of at most 20 lines, as a double. -/
def Share (value : ℚ) : Prop := ∃ n k : Nat, n < 21 ∧ k < n + 1 ∧ 0 < k ∧ value = double (k / n)

/-- The best delimiter so far has lines that agree. -/
structure Best.Sound (best : Best) : Prop where
  score : 0 ≤ best.score
  agreement : best.delim.isSome → Share best.agreement

theorem sound_weigh {best : Best} (h : best.Sound) {lines : List (List Char)}
    (hlines : lines.length ≤ 20) (delim : Char) : (weigh set lines best delim).Sound := by
  have hcounts : (occurrences delim lines).length ≤ lines.length :=
    (List.length_filter_le _ _).trans_eq (List.length_map _)
  unfold weigh
  dsimp only
  split
  next => exact h
  next =>
    split
    next => exact h
    next modal _ =>
      split
      next hscore =>
        have hbetter := h.score.trans_lt hscore
        have hle : (occurrences delim lines).count modal ≤ (occurrences delim lines).length :=
          List.count_le_length
        refine ⟨hbetter.le, fun _ =>
          ⟨_, _, by omega, by omega, Nat.pos_of_ne_zero fun hnone => ?_, rfl⟩⟩
        -- where no line agrees, there is no score
        rw [hnone, Nat.cast_zero, zero_div, double_zero, zero_mul, double_zero] at hbetter
        exact lt_irrefl _ hbetter
      next => exact h

theorem sound_bestDelimiter {lines : List (List Char)} (hlines : lines.length ≤ 20) :
    (bestDelimiter set lines).Sound := by
  have hstart : Best.Sound {} := ⟨le_rfl, fun hnone => absurd hnone Bool.false_ne_true⟩
  exact List.foldlRecOn _ _ hstart fun _ h delim _ => sound_weigh h hlines delim

-- equal shares of equal widths may differ as doubles
example : double (double 1 * min 1 (double (1 / 6))) <
    double (double (1 / 5) * min 1 (double (5 / 6))) := by
  decide +kernel

theorem consistency_share {consistency : ℚ} (h : consistency? set head = some consistency) :
    Share consistency := by
  obtain ⟨text, _, h⟩ := Option.bind_eq_some_iff.mp h
  obtain ⟨c, _, h⟩ := Option.bind_eq_some_iff.mp h
  split at h
  next => cases h
  next =>
    split at h
    next => cases h
    next =>
      obtain ⟨delim, hdelim, rfl⟩ := Option.map_eq_some_iff.mp h
      exact (sound_bestDelimiter (List.length_take_le _ _)).agreement (Option.isSome_of_eq_some hdelim)

/-- Where the score of delimited text lies among the scores of the other parsers. -/
structure Placed (consistency : ℚ) : Prop where
  pos : 0 < score consistency false
  bonus : score consistency false ≤ score consistency true
  plain : score consistency false ≤ double (85 / 100)
  named : score consistency true ≤ double (97 / 100)
  workbook : consistency < 9 / 10 ↔ score consistency true < double (9 / 10)
  message : consistency < 24 / 25 ↔ score consistency true < double (93 / 100)
  prose : 1 / 2 ≤ consistency ↔ double (6 / 10) ≤ score consistency false

instance (consistency : ℚ) : Decidable (Placed consistency) :=
  decidable_of_iff
    ((0 < score consistency false ∧ score consistency false ≤ score consistency true ∧
      score consistency false ≤ double (85 / 100) ∧ score consistency true ≤ double (97 / 100)) ∧
      (consistency < 9 / 10 ↔ score consistency true < double (9 / 10)) ∧
      (consistency < 24 / 25 ↔ score consistency true < double (93 / 100)) ∧
      (1 / 2 ≤ consistency ↔ double (6 / 10) ≤ score consistency false))
    ⟨fun h => ⟨h.1.1, h.1.2.1, h.1.2.2.1, h.1.2.2.2, h.2.1, h.2.2.1, h.2.2.2⟩,
      fun h => ⟨⟨h.pos, h.bonus, h.plain, h.named⟩, h.workbook, h.message, h.prose⟩⟩

/-- The doubles keep the places that the exact numbers have. -/
theorem Share.placed {value : ℚ} (h : Share value) : Placed value := by
  have hall : ∀ n : Nat, n < 21 → ∀ k : Nat, k < n + 1 → 0 < k → Placed (double (k / n)) := by
    decide +kernel
  obtain ⟨n, k, hn, hk, hpos, rfl⟩ := h
  exact hall n hn k hk hpos

theorem consistency_placed {consistency : ℚ} (h : consistency? set head = some consistency) :
    Placed consistency :=
  (consistency_share h).placed

/-- Only contents that begin like neither XML nor JSON are delimited text. -/
theorem opening_of_consistency {consistency : ℚ} (h : consistency? set head = some consistency) :
    ∃ c, opening head = some c ∧ c ∉ structural := by
  obtain ⟨text, htext, h⟩ := Option.bind_eq_some_iff.mp h
  obtain ⟨c, hc, h⟩ := Option.bind_eq_some_iff.mp h
  refine ⟨c, ?_, fun hstructural => ?_⟩
  · rw [opening, decodeIgnore_of_strict htext, hc]
  · rw [if_pos hstructural] at h
    cases h

theorem sniff_none (h : consistency? set head = none) : sniff runtime set head name = 0 := by
  rw [sniff, h]

theorem sniff_plain {consistency : ℚ} (h : consistency? set head = some consistency)
    (hname : namedLike runtime name [".csv", ".tsv", ".txt", ".psv"] = false) :
    sniff runtime set head name = score consistency false := by
  have hplaced := consistency_placed h
  simp only [sniff, h, hname]
  exact min_eq_left (hplaced.bonus.trans hplaced.named)

theorem sniff_named {consistency : ℚ} (h : consistency? set head = some consistency)
    (hname : namedLike runtime name [".csv", ".tsv", ".txt", ".psv"] = true) :
    sniff runtime set head name = score consistency true := by
  simp only [sniff, h, hname]
  exact min_eq_left (consistency_placed h).named

/-- A name adds to the score. -/
theorem sniff_bounds {consistency : ℚ} (h : consistency? set head = some consistency) :
    score consistency false ≤ sniff runtime set head name ∧
      sniff runtime set head name ≤ score consistency true := by
  have hbonus := (consistency_placed h).bonus
  cases hname : namedLike runtime name [".csv", ".tsv", ".txt", ".psv"] with
  | false =>
      rw [sniff_plain h hname]
      exact ⟨le_rfl, hbonus⟩
  | true =>
      rw [sniff_named h hname]
      exact ⟨hbonus, le_rfl⟩

end DelimitedParser

/-! ## How contents begin -/

section Openings

variable {head : Content}

/-- The contents begin like neither XML nor JSON. -/
def Plain (head : Content) : Prop := ∃ c, opening head = some c ∧ c ∉ structural

theorem Plain.ne (h : Plain head) {c : Char} (hc : c ∈ structural) : opening head ≠ some c := by
  obtain ⟨c', hopening, hplain⟩ := h
  intro hsame
  rw [hopening] at hsame
  exact hplain (Option.some.inj hsame ▸ hc)

/-- A workbook begins with a letter. -/
theorem opening_of_magic (h : ExcelParser.magic <+: head) : opening head = some 'P' := by
  obtain ⟨rest, rfl⟩ := h
  have hfirst := @decodeIgnore_cons 0x50 ([0x4B, 0x03, 0x04] ++ rest) (by decide)
  obtain ⟨text, htext⟩ := List.head?_eq_some_iff.mp hfirst
  change (lstrip (decodeIgnore (0x50 :: ([0x4B, 0x03, 0x04] ++ rest)))).head? = _
  rw [htext, lstrip, List.dropWhile_cons_of_neg (by decide)]
  rfl

theorem plain_of_magic (h : ExcelParser.magic <+: head) : Plain head :=
  ⟨'P', opening_of_magic h, by decide⟩

end Openings

/-! ## The scores -/

/-- The scores of the parsers in their order. -/
theorem scores_lt :
    0 < double (3 / 10) ∧ double (3 / 10) < double (6 / 10) ∧
      double (6 / 10) < double (85 / 100) ∧ double (85 / 100) < double (9 / 10) ∧
      double (9 / 10) < double (92 / 100) ∧ double (92 / 100) < double (93 / 100) ∧
      double (93 / 100) < double (95 / 100) ∧ double (95 / 100) < double (97 / 100) ∧
      double (97 / 100) < double (98 / 100) := by
  decide +kernel

section Scores

variable {set : DelimitedParser.SetOrder} {head : Content}

theorem delimited_of_not_plain (h : ¬ Plain head) :
    DelimitedParser.sniff runtime set head name = 0 := by
  apply DelimitedParser.sniff_none
  by_contra hsome
  obtain ⟨consistency, hconsistency⟩ := Option.ne_none_iff_exists'.mp hsome
  exact h (DelimitedParser.opening_of_consistency hconsistency)

theorem excel_of_not_plain (h : ¬ Plain head) : ExcelParser.sniff runtime head name = 0 :=
  if_pos fun hmagic => h (plain_of_magic hmagic)

theorem xml_of_ne (h : opening head ≠ some '<') : XMLParser.sniff runtime head name = 0 := if_pos h

theorem fixml_of_ne (h : opening head ≠ some '<') : FIXMLParser.sniff runtime head name = 0 :=
  if_pos h

theorem json_of_ne (h : opening head ≠ some '{' ∧ opening head ≠ some '[') :
    JSONParser.sniff runtime head name = 0 := if_pos h

theorem email_of_not_plain (h : ¬ Plain head) : EmailTextParser.sniff runtime head name = 0 := by
  unfold EmailTextParser.sniff
  dsimp only
  split
  next => rfl
  next c hopening =>
    exact if_pos (by_contra fun hplain => h ⟨c, hopening, hplain⟩)

/-- The parsers of XML and JSON do not recognise plain text. -/
theorem structured_of_plain (h : Plain head) :
    XMLParser.sniff runtime head name = 0 ∧ FIXMLParser.sniff runtime head name = 0 ∧
      JSONParser.sniff runtime head name = 0 :=
  ⟨xml_of_ne (h.ne (by decide)), fixml_of_ne (h.ne (by decide)),
    json_of_ne ⟨h.ne (by decide), h.ne (by decide)⟩⟩

/-- The parsers of plain text recognise nothing else. -/
theorem unstructured_of_not_plain (h : ¬ Plain head) :
    DelimitedParser.sniff runtime set head name = 0 ∧ ExcelParser.sniff runtime head name = 0 ∧
      EmailTextParser.sniff runtime head name = 0 :=
  ⟨delimited_of_not_plain h, excel_of_not_plain h, email_of_not_plain h⟩

theorem email_of_plain (h : Plain head) :
    EmailTextParser.sniff runtime head name =
      if 2 ≤ EmailTextParser.headerHits runtime (decodeIgnore head) then double (93 / 100)
      else if EmailTextParser.readsAsProse runtime (decodeIgnore head) &&
        namedLike runtime name [".txt", ".eml", ".msg"] then double (6 / 10)
      else 0 := by
  obtain ⟨c, hopening, hplain⟩ := h
  unfold EmailTextParser.sniff
  dsimp only
  rw [← opening, hopening]
  exact if_neg hplain

/-- Without the headers of a message, prose about money is recognised, under a name
that says so. -/
theorem email_le {head : Content} (h : Plain head)
    (hhits : EmailTextParser.headerHits runtime (decodeIgnore head) < 2) :
    EmailTextParser.sniff runtime head name ≤ double (6 / 10) := by
  obtain ⟨h3, h6, h85, h9, h92, h93, h95, h97, h98⟩ := scores_lt
  rw [email_of_plain h, if_neg (not_le.mpr hhits)]
  split_ifs <;> linarith

theorem email_of_not_prose {head : Content} (h : Plain head)
    (hhits : EmailTextParser.headerHits runtime (decodeIgnore head) < 2)
    (hprose : (EmailTextParser.readsAsProse runtime (decodeIgnore head) &&
      namedLike runtime name [".txt", ".eml", ".msg"]) = false) :
    EmailTextParser.sniff runtime head name = 0 := by
  rw [email_of_plain h, if_neg (not_le.mpr hhits), hprose]
  rfl

theorem email_of_prose {head : Content} (h : Plain head)
    (hhits : EmailTextParser.headerHits runtime (decodeIgnore head) < 2)
    (hprose : EmailTextParser.readsAsProse runtime (decodeIgnore head) = true)
    (hname : namedLike runtime name [".txt", ".eml", ".msg"] = true) :
    EmailTextParser.sniff runtime head name = double (6 / 10) := by
  rw [email_of_plain h, if_neg (not_le.mpr hhits), hprose, hname]
  rfl

theorem excel_of_magic {head : Content} (h : ExcelParser.magic <+: head) :
    ExcelParser.sniff runtime head name =
      if namedLike runtime name [".xlsx", ".xlsm"] then double (97 / 100) else double (9 / 10) :=
  if_neg (not_not.mpr h)

theorem xml_of_markup (h : opening head = some '<') :
    XMLParser.sniff runtime head name =
      if XMLParser.defers runtime (lstrip (decodeIgnore head)) then double (3 / 10)
      else if namedLike runtime name [".xml"] then double (92 / 100) else double (85 / 100) :=
  if_neg (not_not.mpr h)

theorem fixml_of_markup (h : opening head = some '<') :
    FIXMLParser.sniff runtime head name =
      if FIXMLParser.hasEnvelope runtime (lstrip (decodeIgnore head)) then double (98 / 100)
      else if FIXMLParser.hasRecord runtime (lstrip (decodeIgnore head)) then double (9 / 10) else 0 :=
  if_neg (not_not.mpr h)

end Scores

/-! ## The parser that is chosen -/

section Chosen

variable {set : DelimitedParser.SetOrder} {readers : Readers}
variable (hparsers : inspector.parsers = defaultParsers runtime set readers)

include hparsers

/-- Blank contents are recognised by no parser. -/
theorem chosen_blank (h : opening (headOf content) = none) :
    (inspector.sniff runtime content name).toOption = none := by
  have hplain : ¬ Plain (headOf content) := by
    rintro ⟨c, hopening, _⟩
    rw [h] at hopening
    cases hopening
  have hne : ∀ c, opening (headOf content) ≠ some c := by simp [h]
  obtain ⟨hdelimited, hexcel, hemail⟩ := @unstructured_of_not_plain runtime name set _ hplain
  apply sniff_of_none
  simp [hparsers, defaultParsers, delimitedParser, excelParser, xmlParser, fixmlParser, jsonParser,
    emailTextParser, hdelimited, hexcel, xml_of_ne (hne _), fixml_of_ne (hne _),
    json_of_ne ⟨hne _, hne _⟩, hemail]

/-- Mark-up is XML unless the FIXML parser scores higher. -/
theorem chosen_markup (h : opening (headOf content) = some '<') :
    (inspector.sniff runtime content name).toOption =
      if XMLParser.sniff runtime (headOf content) name <
          FIXMLParser.sniff runtime (headOf content) name then
        some (fixmlParser runtime readers)
      else some (xmlParser runtime readers) := by
  have hplain : ¬ Plain (headOf content) := fun hplain => hplain.ne (by decide) h
  have hjson : opening (headOf content) ≠ some '{' ∧ opening (headOf content) ≠ some '[' := by
    simp [h]
  obtain ⟨hdelimited, hexcel, hemail⟩ := @unstructured_of_not_plain runtime name set _ hplain
  have hpos : 0 < XMLParser.sniff runtime (headOf content) name := by
    obtain ⟨h3, h6, h85, h9, h92, h93, h95, h97, h98⟩ := scores_lt
    rw [xml_of_markup h]
    split_ifs <;> linarith
  split
  next hless =>
    have hsplit : inspector.parsers = [delimitedParser runtime set readers,
        excelParser runtime readers, xmlParser runtime readers] ++ fixmlParser runtime readers ::
          [jsonParser runtime readers, emailTextParser runtime readers] := hparsers
    apply sniff_of_first hsplit
    · simp [delimitedParser, excelParser, xmlParser, fixmlParser, hdelimited, hexcel, hless,
        hpos.trans hless]
    · simp [fixmlParser, jsonParser, emailTextParser, json_of_ne hjson, hemail,
        (hpos.trans hless).le]
    · exact hpos.trans hless
  next hless =>
    have hsplit : inspector.parsers = [delimitedParser runtime set readers,
        excelParser runtime readers] ++ xmlParser runtime readers ::
          [fixmlParser runtime readers, jsonParser runtime readers,
            emailTextParser runtime readers] := hparsers
    apply sniff_of_first hsplit
    · simp [delimitedParser, excelParser, xmlParser, hdelimited, hexcel, hpos]
    · simp [xmlParser, fixmlParser, jsonParser, emailTextParser, json_of_ne hjson, hemail,
        not_lt.mp hless, hpos.le]
    · exact hpos

/-- An object or a list is JSON. -/
theorem chosen_object {c : Char} (h : opening (headOf content) = some c) (hc : c = '{' ∨ c = '[') :
    (inspector.sniff runtime content name).toOption = some (jsonParser runtime readers) := by
  have hstructural : c ∈ structural := by
    rcases hc with rfl | rfl <;> decide
  have hplain : ¬ Plain (headOf content) := fun hplain => hplain.ne hstructural h
  have hmarkup : opening (headOf content) ≠ some '<' := by
    rw [h]
    rcases hc with rfl | rfl <;> decide
  obtain ⟨hdelimited, hexcel, hemail⟩ := @unstructured_of_not_plain runtime name set _ hplain
  have hpos : 0 < JSONParser.sniff runtime (headOf content) name := by
    unfold JSONParser.sniff
    dsimp only
    obtain ⟨h3, h6, h85, h9, h92, h93, h95, h97, h98⟩ := scores_lt
    rw [← opening, if_neg (by rw [h]; rcases hc with rfl | rfl <;> decide)]
    split_ifs <;> linarith
  have hsplit : inspector.parsers = [delimitedParser runtime set readers,
      excelParser runtime readers, xmlParser runtime readers, fixmlParser runtime readers] ++
        jsonParser runtime readers :: [emailTextParser runtime readers] := hparsers
  apply sniff_of_first hsplit
  · simp [delimitedParser, excelParser, xmlParser, fixmlParser, jsonParser, hdelimited, hexcel,
      xml_of_ne hmarkup, fixml_of_ne hmarkup, hpos]
  · simp [jsonParser, emailTextParser, hemail, hpos.le]
  · exact hpos

/-! ### Plain text -/

theorem chosen_delimited (h : Plain (headOf content))
    (hpos : 0 < DelimitedParser.sniff runtime set (headOf content) name)
    (hexcel : ExcelParser.sniff runtime (headOf content) name ≤
      DelimitedParser.sniff runtime set (headOf content) name)
    (hemail : EmailTextParser.sniff runtime (headOf content) name ≤
      DelimitedParser.sniff runtime set (headOf content) name) :
    (inspector.sniff runtime content name).toOption =
      some (delimitedParser runtime set readers) := by
  have hsplit : inspector.parsers = [] ++ delimitedParser runtime set readers ::
      [excelParser runtime readers, xmlParser runtime readers, fixmlParser runtime readers,
        jsonParser runtime readers, emailTextParser runtime readers] := hparsers
  obtain ⟨hxml, hfixml, hjson⟩ := @structured_of_plain runtime name _ h
  apply sniff_of_first hsplit
  · simp
  · simp [delimitedParser, excelParser, xmlParser, fixmlParser, jsonParser, emailTextParser, hxml,
      hfixml, hjson, hpos.le, hexcel, hemail]
  · exact hpos

theorem chosen_excel (h : Plain (headOf content))
    (hpos : 0 < ExcelParser.sniff runtime (headOf content) name)
    (hdelimited : DelimitedParser.sniff runtime set (headOf content) name <
      ExcelParser.sniff runtime (headOf content) name)
    (hemail : EmailTextParser.sniff runtime (headOf content) name ≤
      ExcelParser.sniff runtime (headOf content) name) :
    (inspector.sniff runtime content name).toOption = some (excelParser runtime readers) := by
  have hsplit : inspector.parsers = [delimitedParser runtime set readers] ++
      excelParser runtime readers :: [xmlParser runtime readers, fixmlParser runtime readers,
        jsonParser runtime readers, emailTextParser runtime readers] := hparsers
  obtain ⟨hxml, hfixml, hjson⟩ := @structured_of_plain runtime name _ h
  apply sniff_of_first hsplit
  · simp [delimitedParser, excelParser, hdelimited]
  · simp [excelParser, xmlParser, fixmlParser, jsonParser, emailTextParser, hxml, hfixml, hjson,
      hpos.le, hemail]
  · exact hpos

theorem chosen_email (h : Plain (headOf content))
    (hpos : 0 < EmailTextParser.sniff runtime (headOf content) name)
    (hdelimited : DelimitedParser.sniff runtime set (headOf content) name <
      EmailTextParser.sniff runtime (headOf content) name)
    (hexcel : ExcelParser.sniff runtime (headOf content) name <
      EmailTextParser.sniff runtime (headOf content) name) :
    (inspector.sniff runtime content name).toOption = some (emailTextParser runtime readers) := by
  have hsplit : inspector.parsers = [delimitedParser runtime set readers,
      excelParser runtime readers, xmlParser runtime readers, fixmlParser runtime readers,
        jsonParser runtime readers] ++ emailTextParser runtime readers :: [] := hparsers
  obtain ⟨hxml, hfixml, hjson⟩ := @structured_of_plain runtime name _ h
  apply sniff_of_first hsplit
  · simp [delimitedParser, excelParser, xmlParser, fixmlParser, jsonParser, emailTextParser, hxml,
      hfixml, hjson, hpos, hdelimited, hexcel]
  · simp
  · exact hpos

theorem chosen_none (h : Plain (headOf content))
    (hdelimited : DelimitedParser.sniff runtime set (headOf content) name ≤ 0)
    (hexcel : ExcelParser.sniff runtime (headOf content) name ≤ 0)
    (hemail : EmailTextParser.sniff runtime (headOf content) name ≤ 0) :
    (inspector.sniff runtime content name).toOption = none := by
  obtain ⟨hxml, hfixml, hjson⟩ := @structured_of_plain runtime name _ h
  apply sniff_of_none
  simp [hparsers, defaultParsers, delimitedParser, excelParser, xmlParser, fixmlParser, jsonParser,
    emailTextParser, hxml, hfixml, hjson, hdelimited, hexcel, hemail]

/-! ## Contents that no name decides -/

end Chosen

/-- What of the contents decides alone: mark-up with a FIXML record has its envelope
or is deferred, a workbook neither reads as a message nor has lines that agree like
delimited text, a message has no such lines, and half the lines of prose about money
agree. -/
structure ClearCut (runtime : Runtime) (set : DelimitedParser.SetOrder) (head : Content) :
    Prop where
  markup : opening head = some '<' →
    FIXMLParser.hasRecord runtime (lstrip (decodeIgnore head)) = true →
    FIXMLParser.hasEnvelope runtime (lstrip (decodeIgnore head)) = true ∨
      XMLParser.defers runtime (lstrip (decodeIgnore head)) = true
  workbook : ExcelParser.magic <+: head →
    EmailTextParser.headerHits runtime (decodeIgnore head) < 2 ∧
      ∀ consistency ∈ DelimitedParser.consistency? set head, consistency < 9 / 10
  message : ¬ ExcelParser.magic <+: head →
    2 ≤ EmailTextParser.headerHits runtime (decodeIgnore head) →
    ∀ consistency ∈ DelimitedParser.consistency? set head, consistency < 24 / 25
  prose : Plain head → ¬ ExcelParser.magic <+: head →
    EmailTextParser.headerHits runtime (decodeIgnore head) < 2 →
    EmailTextParser.readsAsProse runtime (decodeIgnore head) = true →
    ∃ consistency ∈ DelimitedParser.consistency? set head, 1 / 2 ≤ consistency

section Same

variable {set : DelimitedParser.SetOrder} {readers : Readers}

/-- Below its threshold, delimited text scores less under every name. -/
theorem delimited_lt {head : Content} {bound : ℚ} (hbound : 0 < bound)
    (h : ∀ consistency ∈ DelimitedParser.consistency? set head,
      DelimitedParser.score consistency true < bound) :
    DelimitedParser.sniff runtime set head name < bound := by
  cases hconsistency : DelimitedParser.consistency? set head with
  | none =>
      rw [DelimitedParser.sniff_none hconsistency]
      exact hbound
  | some consistency =>
      exact (DelimitedParser.sniff_bounds hconsistency).2.trans_lt (h consistency hconsistency)

/-- Under a name that adds nothing, delimited text scores at most 0.85. -/
theorem delimited_le {head : Content}
    (hname : namedLike runtime name [".csv", ".tsv", ".txt", ".psv"] = false) :
    DelimitedParser.sniff runtime set head name ≤ double (85 / 100) := by
  cases hconsistency : DelimitedParser.consistency? set head with
  | none =>
      rw [DelimitedParser.sniff_none hconsistency]
      exact double_nonneg (by norm_num)
  | some consistency =>
      rw [DelimitedParser.sniff_plain hconsistency hname]
      exact (DelimitedParser.consistency_placed hconsistency).plain

section ClearCut

variable (hparsers : inspector.parsers = defaultParsers runtime set readers)
variable (hclear : ClearCut runtime set (headOf content))

include hparsers hclear

theorem same_markup (h : opening (headOf content) = some '<') :
    ∃ chosen, ∀ name, (inspector.sniff runtime content name).toOption = chosen := by
  have hmarkup := hclear.markup h
  have hchosen := fun name => @chosen_markup runtime inspector content name set readers hparsers h
  simp only [xml_of_markup h, fixml_of_markup h] at hchosen
  obtain ⟨h3, h6, h85, h9, h92, h93, h95, h97, h98⟩ := scores_lt
  cases henvelope : FIXMLParser.hasEnvelope runtime (lstrip (decodeIgnore (headOf content))) with
  | true =>
      refine ⟨_, fun name => (hchosen name).trans (if_pos ?_)⟩
      rw [henvelope, if_pos rfl]
      split_ifs <;> linarith
  | false =>
      cases hrecord : FIXMLParser.hasRecord runtime (lstrip (decodeIgnore (headOf content))) with
      | true =>
          have hdefers := (hmarkup hrecord).resolve_left (by simp [henvelope])
          refine ⟨_, fun name => (hchosen name).trans (if_pos ?_)⟩
          rw [henvelope, hrecord, hdefers, if_pos rfl, if_neg Bool.false_ne_true, if_pos rfl]
          linarith
      | false =>
          refine ⟨_, fun name => (hchosen name).trans (if_neg ?_)⟩
          simp only [henvelope, hrecord, Bool.false_eq_true, if_false]
          split_ifs <;> linarith

theorem same_workbook (h : ExcelParser.magic <+: headOf content) :
    ∃ chosen, ∀ name, (inspector.sniff runtime content name).toOption = chosen := by
  have hplain := plain_of_magic h
  obtain ⟨hhits, hconsistency⟩ := hclear.workbook h
  refine ⟨some (excelParser runtime readers), fun name => ?_⟩
  obtain ⟨h3, h6, h85, h9, h92, h93, h95, h97, h98⟩ := scores_lt
  have hexcel : double (9 / 10) ≤ ExcelParser.sniff runtime (headOf content) name := by
    rw [excel_of_magic h]
    split_ifs <;> linarith
  have hdelimited : DelimitedParser.sniff runtime set (headOf content) name < double (9 / 10) :=
    delimited_lt (by linarith) fun consistency hsome =>
      (DelimitedParser.consistency_placed hsome).workbook.mp (hconsistency consistency hsome)
  have hemail : EmailTextParser.sniff runtime (headOf content) name ≤ double (9 / 10) :=
    (email_le hplain hhits).trans (by linarith)
  apply chosen_excel hparsers hplain
  · linarith
  · exact hdelimited.trans_le hexcel
  · exact hemail.trans hexcel

theorem same_message (h : Plain (headOf content)) (hmagic : ¬ ExcelParser.magic <+: headOf content)
    (hhits : 2 ≤ EmailTextParser.headerHits runtime (decodeIgnore (headOf content))) :
    ∃ chosen, ∀ name, (inspector.sniff runtime content name).toOption = chosen := by
  refine ⟨some (emailTextParser runtime readers), fun name => ?_⟩
  have hemail : EmailTextParser.sniff runtime (headOf content) name = double (93 / 100) := by
    rw [email_of_plain h, if_pos hhits]
  have hexcel : ExcelParser.sniff runtime (headOf content) name = 0 := if_pos hmagic
  obtain ⟨h3, h6, h85, h9, h92, h93, h95, h97, h98⟩ := scores_lt
  have hpos : 0 < double (93 / 100) := by linarith
  apply chosen_email hparsers h
  · rw [hemail]
    exact hpos
  · rw [hemail]
    exact delimited_lt hpos fun consistency hsome =>
      (DelimitedParser.consistency_placed hsome).message.mp
        (hclear.message hmagic hhits consistency hsome)
  · rw [hemail, hexcel]
    exact hpos

theorem same_prose (h : Plain (headOf content)) (hmagic : ¬ ExcelParser.magic <+: headOf content)
    (hhits : EmailTextParser.headerHits runtime (decodeIgnore (headOf content)) < 2) :
    ∃ chosen, ∀ name, (inspector.sniff runtime content name).toOption = chosen := by
  have hexcel : ∀ name, ExcelParser.sniff runtime (headOf content) name = 0 :=
    fun name => if_pos hmagic
  have hemail : EmailTextParser.readsAsProse runtime (decodeIgnore (headOf content)) = false →
      ∀ name, EmailTextParser.sniff runtime (headOf content) name = 0 :=
    fun hprose name => email_of_not_prose h hhits (by rw [hprose, Bool.false_and])
  cases hconsistency : DelimitedParser.consistency? set (headOf content) with
  | none =>
      -- without delimited text there is no prose either
      have hprose : EmailTextParser.readsAsProse runtime (decodeIgnore (headOf content)) =
          false := by
        by_contra hprose
        obtain ⟨_, hsome, _⟩ := hclear.prose h hmagic hhits (eq_true_of_ne_false hprose)
        rw [hconsistency] at hsome
        cases hsome
      refine ⟨_, fun name => chosen_none hparsers h ?_ (hexcel name).le (hemail hprose name).le⟩
      exact (DelimitedParser.sniff_none hconsistency).le
  | some consistency =>
      refine ⟨some (delimitedParser runtime set readers), fun name => ?_⟩
      have hplaced := DelimitedParser.consistency_placed hconsistency
      have hpos := hplaced.pos
      obtain ⟨hlow, _⟩ := @DelimitedParser.sniff_bounds runtime name set _ _ hconsistency
      apply chosen_delimited hparsers h
      · linarith
      · rw [hexcel]
        linarith
      · cases hprose : EmailTextParser.readsAsProse runtime (decodeIgnore (headOf content)) with
        | false =>
            rw [hemail hprose name]
            linarith
        | true =>
            obtain ⟨other, hsome, hhalf⟩ := hclear.prose h hmagic hhits hprose
            obtain rfl := Option.some.inj (hconsistency.symm.trans hsome)
            exact ((email_le h hhits).trans (hplaced.prose.mp hhalf)).trans hlow

/-- Clear-cut contents are recognised alike under every name. -/
theorem same_of_clearCut :
    ∃ chosen, ∀ name, (inspector.sniff runtime content name).toOption = chosen := by
  cases hopening : opening (headOf content) with
  | none => exact ⟨_, fun name => chosen_blank hparsers hopening⟩
  | some c =>
      by_cases hmarkup : c = '<'
      · exact same_markup hparsers hclear (hmarkup ▸ hopening)
      by_cases hobject : c = '{' ∨ c = '['
      · exact ⟨_, fun name => chosen_object hparsers hopening hobject⟩
      have hplain : Plain (headOf content) := by
        refine ⟨c, hopening, ?_⟩
        simp [structural, hmarkup, not_or.mp hobject]
      by_cases hmagic : ExcelParser.magic <+: headOf content
      · exact same_workbook hparsers hclear hmagic
      by_cases hhits : 2 ≤ EmailTextParser.headerHits runtime (decodeIgnore (headOf content))
      · exact same_message hparsers hclear hplain hmagic hhits
      · exact same_prose hparsers hclear hplain hmagic (not_le.mp hhits)

end ClearCut

/-! ### Names that make a difference -/

/-- `str.lower` on ASCII text. -/
def LowersAscii (runtime : Runtime) : Prop :=
  ∀ text : List Char, (∀ c ∈ text, c.toNat < 128) → runtime.lower text = text.map Char.toLower

theorem namedLike_eq (hlower : LowersAscii runtime) {extensions : List String} {expected : Bool}
    (hascii : (name.toList.all fun c => c.toNat < 128) = true)
    (h : (extensions.any fun extension => extension.toList <:+ name.toList.map Char.toLower) =
      expected) : namedLike runtime name extensions = expected := by
  unfold namedLike
  rw [hlower _ fun c hc => of_decide_eq_true (List.all_eq_true.mp hascii c hc), h]

/-- Parsers that differ in their format are not chosen alike. -/
theorem not_same {first second : String} {p q : Parser}
    (hsame : ∀ name other, (inspector.sniff runtime content name).toOption =
      (inspector.sniff runtime content other).toOption)
    (hfirst : (inspector.sniff runtime content first).toOption = some p)
    (hsecond : (inspector.sniff runtime content second).toOption = some q) :
    p.formatName = q.formatName := by
  have hchosen := hsame first second
  rw [hfirst, hsecond] at hchosen
  exact congrArg Parser.formatName (Option.some.inj hchosen)

section Names

variable (hlower : LowersAscii runtime)
variable (hparsers : inspector.parsers = defaultParsers runtime set readers)
variable (hsame : ∀ name other, (inspector.sniff runtime content name).toOption =
  (inspector.sniff runtime content other).toOption)

include hlower hparsers hsame

theorem markup_of_same (h : opening (headOf content) = some '<')
    (hrecord : FIXMLParser.hasRecord runtime (lstrip (decodeIgnore (headOf content))) = true) :
    FIXMLParser.hasEnvelope runtime (lstrip (decodeIgnore (headOf content))) = true ∨
      XMLParser.defers runtime (lstrip (decodeIgnore (headOf content))) = true := by
  by_contra hneither
  obtain ⟨henvelope, hdefers⟩ := not_or.mp hneither
  have hxml : namedLike runtime "a.xml" [".xml"] = true :=
    namedLike_eq hlower (by decide) (by decide)
  have hdat : namedLike runtime "a.dat" [".xml"] = false :=
    namedLike_eq hlower (by decide) (by decide)
  have hfirst := @chosen_markup runtime inspector content "a.xml" set readers hparsers h
  have hsecond := @chosen_markup runtime inspector content "a.dat" set readers hparsers h
  obtain ⟨h3, h6, h85, h9, h92, h93, h95, h97, h98⟩ := scores_lt
  rw [xml_of_markup h, fixml_of_markup h, if_neg hdefers, if_neg henvelope, if_pos hrecord, hxml,
    if_pos rfl, if_neg (by linarith)] at hfirst
  rw [xml_of_markup h, fixml_of_markup h, if_neg hdefers, if_neg henvelope, if_pos hrecord, hdat,
    if_neg Bool.false_ne_true, if_pos (by linarith)] at hsecond
  exact absurd (not_same hsame hfirst hsecond) (by simp [xmlParser, fixmlParser])

theorem workbook_of_same (h : ExcelParser.magic <+: headOf content) :
    EmailTextParser.headerHits runtime (decodeIgnore (headOf content)) < 2 ∧
      ∀ consistency ∈ DelimitedParser.consistency? set (headOf content), consistency < 9 / 10 := by
  obtain ⟨h3, h6, h85, h9, h92, h93, h95, h97, h98⟩ := scores_lt
  have hplain := plain_of_magic h
  have hnamed : namedLike runtime "a.xlsx" [".xlsx", ".xlsm"] = true ∧
      namedLike runtime "a.csv" [".xlsx", ".xlsm"] = false ∧
      namedLike runtime "a.dat" [".xlsx", ".xlsm"] = false :=
    ⟨namedLike_eq hlower (by decide) (by decide), namedLike_eq hlower (by decide) (by decide),
      namedLike_eq hlower (by decide) (by decide)⟩
  have hexcel : ExcelParser.sniff runtime (headOf content) "a.dat" = double (9 / 10) := by
    rw [excel_of_magic h, hnamed.2.2, if_neg Bool.false_ne_true]
  have hdelimited : DelimitedParser.sniff runtime set (headOf content) "a.dat" ≤ double (85 / 100) :=
    delimited_le (namedLike_eq hlower (by decide) (by decide))
  have hhits : EmailTextParser.headerHits runtime (decodeIgnore (headOf content)) < 2 := by
    by_contra hhits
    have hemail : ∀ name, EmailTextParser.sniff runtime (headOf content) name = double (93 / 100) := by
      intro name
      rw [email_of_plain hplain, if_pos (not_lt.mp hhits)]
    have hworkbook : ExcelParser.sniff runtime (headOf content) "a.xlsx" = double (97 / 100) := by
      rw [excel_of_magic h, hnamed.1, if_pos rfl]
    have hless : DelimitedParser.sniff runtime set (headOf content) "a.xlsx" ≤ double (85 / 100) :=
      delimited_le (namedLike_eq hlower (by decide) (by decide))
    have hfirst := @chosen_excel runtime inspector content "a.xlsx" set readers hparsers hplain
      (by linarith) (by linarith) (by linarith [hemail "a.xlsx"])
    have hsecond := @chosen_email runtime inspector content "a.dat" set readers hparsers hplain
      (by linarith [hemail "a.dat"]) (by linarith [hemail "a.dat"]) (by linarith [hemail "a.dat"])
    exact absurd (not_same hsame hfirst hsecond) (by simp [excelParser, emailTextParser])
  refine ⟨hhits, fun consistency hconsistency => ?_⟩
  by_contra hhigh
  have hreached := not_lt.mp
    ((DelimitedParser.consistency_placed hconsistency).workbook.not.mp hhigh)
  have hemail : ∀ name, EmailTextParser.sniff runtime (headOf content) name ≤ double (6 / 10) :=
    fun name => email_le hplain hhits
  have hcsv : DelimitedParser.sniff runtime set (headOf content) "a.csv" =
      DelimitedParser.score consistency true :=
    DelimitedParser.sniff_named hconsistency (namedLike_eq hlower (by decide) (by decide))
  have hother : ExcelParser.sniff runtime (headOf content) "a.csv" = double (9 / 10) := by
    rw [excel_of_magic h, hnamed.2.1, if_neg Bool.false_ne_true]
  have hfirst := @chosen_delimited runtime inspector content "a.csv" set readers hparsers hplain
    (by linarith) (by linarith) (by linarith [hemail "a.csv"])
  have hsecond := @chosen_excel runtime inspector content "a.dat" set readers hparsers hplain
    (by linarith) (by linarith) (by linarith [hemail "a.dat"])
  exact absurd (not_same hsame hfirst hsecond) (by simp [excelParser, delimitedParser])

theorem message_of_same (hmagic : ¬ ExcelParser.magic <+: headOf content)
    (hhits : 2 ≤ EmailTextParser.headerHits runtime (decodeIgnore (headOf content))) :
    ∀ consistency ∈ DelimitedParser.consistency? set (headOf content), consistency < 24 / 25 := by
  intro consistency hconsistency
  by_contra hhigh
  obtain ⟨h3, h6, h85, h9, h92, h93, h95, h97, h98⟩ := scores_lt
  have hreached := not_lt.mp
    ((DelimitedParser.consistency_placed hconsistency).message.not.mp hhigh)
  have hplain : Plain (headOf content) := DelimitedParser.opening_of_consistency hconsistency
  have hexcel : ∀ name, ExcelParser.sniff runtime (headOf content) name = 0 :=
    fun name => if_pos hmagic
  have hemail : ∀ name, EmailTextParser.sniff runtime (headOf content) name = double (93 / 100) := by
    intro name
    rw [email_of_plain hplain, if_pos hhits]
  have hcsv : DelimitedParser.sniff runtime set (headOf content) "a.csv" =
      DelimitedParser.score consistency true :=
    DelimitedParser.sniff_named hconsistency (namedLike_eq hlower (by decide) (by decide))
  have hdelimited : DelimitedParser.sniff runtime set (headOf content) "a.dat" ≤ double (85 / 100) :=
    delimited_le (namedLike_eq hlower (by decide) (by decide))
  have hfirst := @chosen_delimited runtime inspector content "a.csv" set readers hparsers hplain
    (by linarith) (by linarith [hexcel "a.csv"]) (by linarith [hemail "a.csv"])
  have hsecond := @chosen_email runtime inspector content "a.dat" set readers hparsers hplain
    (by linarith [hemail "a.dat"]) (by linarith [hemail "a.dat"])
    (by linarith [hemail "a.dat", hexcel "a.dat"])
  exact absurd (not_same hsame hfirst hsecond) (by simp [emailTextParser, delimitedParser])

theorem prose_of_same (hplain : Plain (headOf content))
    (hmagic : ¬ ExcelParser.magic <+: headOf content)
    (hhits : EmailTextParser.headerHits runtime (decodeIgnore (headOf content)) < 2)
    (hprose : EmailTextParser.readsAsProse runtime (decodeIgnore (headOf content)) = true) :
    ∃ consistency ∈ DelimitedParser.consistency? set (headOf content), 1 / 2 ≤ consistency := by
  obtain ⟨h3, h6, h85, h9, h92, h93, h95, h97, h98⟩ := scores_lt
  have hexcel : ∀ name, ExcelParser.sniff runtime (headOf content) name = 0 :=
    fun name => if_pos hmagic
  have hmessage : EmailTextParser.sniff runtime (headOf content) "a.eml" = double (6 / 10) :=
    email_of_prose hplain hhits hprose (namedLike_eq hlower (by decide) (by decide))
  have hsilent : EmailTextParser.sniff runtime (headOf content) "a.dat" = 0 := by
    have hname : namedLike runtime "a.dat" [".txt", ".eml", ".msg"] = false :=
      namedLike_eq hlower (by decide) (by decide)
    exact email_of_not_prose hplain hhits (by rw [hname, Bool.and_false])
  cases hconsistency : DelimitedParser.consistency? set (headOf content) with
  | none =>
      -- recognised as a message under one name and not at all under the other
      have hdelimited : ∀ name, DelimitedParser.sniff runtime set (headOf content) name = 0 :=
        fun name => DelimitedParser.sniff_none hconsistency
      have hfirst := @chosen_email runtime inspector content "a.eml" set readers hparsers hplain
        (by linarith) (by linarith [hdelimited "a.eml"]) (by linarith [hexcel "a.eml"])
      have hsecond := @chosen_none runtime inspector content "a.dat" set readers hparsers hplain
        (hdelimited _).le (hexcel _).le hsilent.le
      rw [hsame "a.eml" "a.dat", hsecond] at hfirst
      cases hfirst
  | some consistency =>
      refine ⟨consistency, rfl, ?_⟩
      by_contra hlow
      have hplaced := DelimitedParser.consistency_placed hconsistency
      have hpos := hplaced.pos
      have hshort := not_le.mp (hplaced.prose.not.mp hlow)
      have hplainly : ∀ name, namedLike runtime name [".csv", ".tsv", ".txt", ".psv"] = false →
          DelimitedParser.sniff runtime set (headOf content) name =
            DelimitedParser.score consistency false :=
        fun name hname => DelimitedParser.sniff_plain hconsistency hname
      have heml := hplainly "a.eml" (namedLike_eq hlower (by decide) (by decide))
      have hdat := hplainly "a.dat" (namedLike_eq hlower (by decide) (by decide))
      have hfirst := @chosen_email runtime inspector content "a.eml" set readers hparsers hplain
        (by linarith) (by linarith) (by linarith [hexcel "a.eml"])
      have hsecond := @chosen_delimited runtime inspector content "a.dat" set readers hparsers
        hplain (by linarith) (by linarith [hexcel "a.dat"]) (by linarith)
      exact absurd (not_same hsame hfirst hsecond) (by simp [emailTextParser, delimitedParser])

end Names

/-- The name of a file makes no difference exactly for clear-cut contents. -/
theorem sniff_same_iff (hlower : LowersAscii runtime)
    (hparsers : inspector.parsers = defaultParsers runtime set readers) (content : Content) :
    (∀ name other, (inspector.sniff runtime content name).toOption =
        (inspector.sniff runtime content other).toOption) ↔
      ClearCut runtime set (headOf content) := by
  constructor
  · intro hsame
    exact {
      markup := markup_of_same hlower hparsers hsame
      workbook := workbook_of_same hlower hparsers hsame
      message := message_of_same hlower hparsers hsame
      prose := prose_of_same hlower hparsers hsame }
  · intro hclear name other
    obtain ⟨chosen, hchosen⟩ := same_of_clearCut hparsers hclear
    rw [hchosen name, hchosen other]

end Same

/-! ## A file without its envelope -/

/-- Sets of numbers in the order of the list. -/
def sampleOrder : DelimitedParser.SetOrder := ⟨List.dedup, fun _ => .refl _⟩

def silentReaders : Readers :=
  ⟨fun _ => .error .valueError, fun _ => .error .valueError, fun _ => .error .valueError,
    fun _ => .error .valueError, fun _ => .error .valueError, fun _ => .error .valueError⟩

/-- An inspector with the parsers of the formats. -/
def formatInspector : FileInspector where
  registry := sampleRegistry
  parsers := defaultParsers .ascii sampleOrder silentReaders
  scorer := sampleScorer
  crossCheckAmount _ _ := .ok (none, "insufficient columns for an arithmetic cross-check")

/-- Two lines of a table. -/
def sampleTableText : Content := Bytes.utf8 "Account,Amount\n1,2\n"

theorem clearCut_table : ClearCut .ascii sampleOrder (headOf sampleTableText) := by
  have hopening : opening (headOf sampleTableText) = some 'A' := by decide
  have hmagic : ¬ ExcelParser.magic <+: headOf sampleTableText := by decide
  have hhits : EmailTextParser.headerHits .ascii (decodeIgnore (headOf sampleTableText)) = 0 := by
    decide
  have hprose : EmailTextParser.readsAsProse .ascii (decodeIgnore (headOf sampleTableText)) =
      false := by decide +kernel
  constructor
  · intro hmarkup
    rw [hopening] at hmarkup
    cases hmarkup
  · exact fun hworkbook => absurd hworkbook hmagic
  · intro _ hmessage
    rw [hhits] at hmessage
    cases hmessage
  · intro _ _ _ hreads
    rw [hprose] at hreads
    cases hreads

theorem sniff_same_table :
    (formatInspector.sniff .ascii sampleTableText "statement.csv").toOption =
      (formatInspector.sniff .ascii sampleTableText "statement.xml").toOption :=
  (sniff_same_iff (fun _ _ => rfl) rfl sampleTableText).mpr clearCut_table _ _

/-- A trade capture report without the FIXML envelope. -/
def sampleFragment : Content := Bytes.utf8 "<TrdCaptRpt/>"

theorem fragment_by_name :
    (formatInspector.sniff .ascii sampleFragment "a.xml").toOption.map Parser.formatName =
        some "XML" ∧
      (formatInspector.sniff .ascii sampleFragment "a.dat").toOption.map Parser.formatName =
        some "FIXML" ∧
      ¬ ∀ name other, (formatInspector.sniff .ascii sampleFragment name).toOption =
        (formatInspector.sniff .ascii sampleFragment other).toOption := by
  have hxml : (formatInspector.sniff .ascii sampleFragment "a.xml").toOption.map
      Parser.formatName = some "XML" := by decide +kernel
  have hfixml : (formatInspector.sniff .ascii sampleFragment "a.dat").toOption.map
      Parser.formatName = some "FIXML" := by decide +kernel
  refine ⟨hxml, hfixml, fun hsame => ?_⟩
  rw [hsame "a.xml" "a.dat", hfixml] at hxml
  exact absurd hxml (by decide)

end Harbormaster.Inspector
