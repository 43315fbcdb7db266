import Harbormaster.Inspector.HeaderRow
import Harbormaster.Inspector.Sniff

/-! # Reading delimited text

`DelimitedParser.parse`: a file that is not UTF-8 is read as Latin-1, and the delimiter
is determined on its first lines. Sniffing reads the beginning of the file as UTF-8
only, so it misses what is read in the other way, and what is cut within a character.
-/

namespace Harbormaster.Inspector

open Ordered Utf8

/-! ## Text -/

def latin1 (raw : Content) : List Char := raw.map fun byte => Char.ofNat byte.toNat

/-- Counterparty files from older systems are frequently Latin-1. -/
def decodeText (raw : Content) : List Char := (decodeStrict raw).getD (latin1 raw)

/-! ## Comma-separated records -/

namespace Csv

/-- Where a reader stands in a record. -/
inductive State where
  | startRecord | startField | inField | inQuotedField | quoteInQuotedField | eatNewline
deriving DecidableEq

/-- A record that is being read; the field has its last character first. -/
structure Reader where
  state : State := .startRecord
  field : List Char := []
  fields : List String := []

inductive ReadError where
  | fieldTooLarge
  | newlineInField
deriving DecidableEq

def ReadError.text : ReadError → String
  | fieldTooLarge => "field larger than field limit (131072)"
  | newlineInField =>
      "new-line character seen in unquoted field - do you need to open the file with newline=''?"

def fieldLimit : Nat := 131072

namespace Reader

def save (reader : Reader) (state : State) : Reader where
  state := state
  fields := reader.fields ++ [String.ofList reader.field.reverse]

def add (reader : Reader) (state : State) (c : Char) : Except ReadError Reader :=
  if fieldLimit ≤ reader.field.length then .error .fieldTooLarge
  else .ok { reader with state := state, field := c :: reader.field }

def isNewline (c : Char) : Bool := c = '\n' || c = '\r'

/-- One character of a line. -/
def read (delimiter : Char) (reader : Reader) (c : Char) : Except ReadError Reader :=
  let startField (reader : Reader) : Except ReadError Reader :=
    if isNewline c then .ok (reader.save .eatNewline)
    else if c = '"' then .ok { reader with state := .inQuotedField }
    else if c = delimiter then .ok (reader.save .startField)
    else reader.add .inField c
  match reader.state with
  | .startRecord =>
      if isNewline c then .ok { reader with state := .eatNewline } else startField reader
  | .startField => startField reader
  | .inField =>
      if isNewline c then .ok (reader.save .eatNewline)
      else if c = delimiter then .ok (reader.save .startField)
      else reader.add .inField c
  | .inQuotedField =>
      if c = '"' then .ok { reader with state := .quoteInQuotedField }
      else reader.add .inQuotedField c
  | .quoteInQuotedField =>
      if c = '"' then reader.add .inQuotedField c
      else if c = delimiter then .ok (reader.save .startField)
      else if isNewline c then .ok (reader.save .eatNewline)
      else reader.add .inField c
  | .eatNewline => if isNewline c then .ok reader else .error .newlineInField

/-- The end of a line. -/
def endLine (reader : Reader) : Reader :=
  match reader.state with
  | .startRecord | .inQuotedField => reader
  | .startField | .inField | .quoteInQuotedField => reader.save .startRecord
  | .eatNewline => { reader with state := .startRecord }

end Reader

/-- The lines of a text with their line feeds. -/
def physicalLines (line : List Char) : List Char → List (List Char)
  | [] => if line = [] then [] else [line.reverse]
  | '\n' :: rest => ('\n' :: line).reverse :: physicalLines [] rest
  | c :: rest => physicalLines (c :: line) rest

/-- A record ends with its line, unless a quoted field goes on. -/
def readLines (delimiter : Char) : Reader → List (List Char) → Except ReadError (List (List String))
  | reader, [] =>
      .ok (if reader.field ≠ [] ∨ reader.state = .inQuotedField then
        [(reader.save .startRecord).fields] else [])
  | reader, line :: rest => do
      let reader := (← line.foldlM (Reader.read delimiter) reader).endLine
      if reader.state = .startRecord then
        return reader.fields :: (← readLines delimiter {} rest)
      else readLines delimiter reader rest

/-- `csv.reader(io.StringIO(text), delimiter=delimiter)`. -/
def records (delimiter : Char) (text : List Char) : Except ReadError (List (List String)) :=
  readLines delimiter {} (physicalLines [] text)

example : records ',' "A,\"b \"\"c\"\"\"\n1,\n".toList = .ok [["A", "b \"c\""], ["1", ""]] := by
  decide

end Csv

/-! ## Tables -/

namespace DelimitedParser

inductive Failed where
  | parseError (message : String)
  | csvError (error : Csv.ReadError)

variable (runtime : Runtime) (set : SetOrder)

def totalMarkers : List String :=
  ["total", "totals", "grandtotal", "subtotal", "sum", "count", "endofreport", "eof", "end"]

/-- A trailing summary line is not a record. -/
def isTotalRow (row : List String) : Bool :=
  totalMarkers.contains (normalizeHeader runtime ((row.find? fun cell => !isBlank cell).getD ""))

def delimiterName (delim : Char) : String :=
  if delim = ',' then "comma" else if delim = '\t' then "tab"
  else if delim = '|' then "pipe" else "semicolon"

/-- What has been read below the header. -/
structure Body where
  rows : List Row := []
  warnings : List String
  droppedTotals : Nat := 0

def Body.add (headers : List String) (body : Body) (rawRow : List String) : Body :=
  if isTotalRow runtime rawRow then { body with droppedTotals := body.droppedTotals + 1 }
  else
    { body with
      rows := body.rows ++ [.ofPairs (headers.zipIdx.map fun (header, index) =>
        (header, (rawRow[index]?.map strip).getD ""))]
      warnings :=
        if headers.length < rawRow.length then
          body.warnings ++ ["row had more cells than headers; extra cells ignored"]
        else body.warnings }

/-- The table below the header row of a grid. -/
def tableOf (raw : Content) (delim : Char) (grid : List (List String)) :
    Except Failed ParsedTable :=
  let headerIndex := findHeaderRow runtime grid
  let headers := dedupe (grid[headerIndex]?.getD [])
  let skipped := if 0 < headerIndex then
    ["skipped " ++ toString headerIndex ++ " preamble row(s) above the header"] else []
  let body := (grid.drop (headerIndex + 1)).foldl (Body.add runtime headers)
    { warnings := skipped }
  let warnings := if 0 < body.droppedTotals then
    body.warnings ++ ["excluded " ++ toString body.droppedTotals ++ " summary row(s)"]
    else body.warnings
  let evidence := Dict.ofPairs [("delimiter", delimiterName delim),
    ("header_row_index", toString headerIndex),
    ("encoding", if raw.take 3 ≠ byteOrderMark then "utf-8" else "utf-8-bom")]
  (ParsedTable.new headers body.rows evidence warnings).mapError fun error =>
    .parseError (error.text runtime)

/-- `DelimitedParser.parse`. -/
def parse (raw : Content) : Except Failed ParsedTable := do
  let text := decodeText raw
  let sample := sampleLines text
  if sample = [] then throw (.parseError "file is empty")
  let some delim := (bestDelimiter set sample).delim
    | throw (.parseError "no delimiter could be determined")
  let records ← (Csv.records delim text).mapError .csvError
  let grid := records.filter fun row => row.any fun cell => !isBlank cell
  if grid = [] then throw (.parseError "file contains no non-empty rows")
  tableOf runtime raw delim grid

end DelimitedParser

/-! ## First lines -/

theorem isspace_of_lineBreak {c : Char} (h : isLineBreak c = true) : isspace c = true := by
  unfold isLineBreak at h
  rw [List.contains_iff_mem] at h
  simp only [List.mem_cons, List.not_mem_nil, or_false] at h
  unfold isspace
  rcases h with h | h | h | h | h | h | h | h | h | h <;> rw [h] <;> rfl

theorem lstrip_append_of_blank {blank : List Char} (h : blank.all isspace = true)
    (rest : List Char) : lstrip (blank ++ rest) = lstrip rest :=
  List.dropWhile_append_of_pos (List.all_eq_true.mp h)

theorem lstrip_append_head? {line : List Char} (h : line.all isspace = false) (rest : List Char) :
    (lstrip (line ++ rest)).head? = (lstrip line).head? := by
  have hleft : (line.dropWhile isspace).isEmpty = false := by
    rw [List.isEmpty_eq_false_iff, Ne, List.dropWhile_eq_nil_iff]
    intro hall
    rw [List.all_eq_true.mpr hall] at h
    cases h
  rw [lstrip, List.dropWhile_append, hleft, if_neg Bool.false_ne_true, lstrip, List.head?_append]
  cases hcases : line.dropWhile isspace with
  | nil =>
      rw [hcases] at hleft
      cases hleft
  | cons c rest => rfl

/-- A line that has been read hides what follows, unless it is blank. -/
theorem lstrip_head?_line (line ending : List Char) {rest : List Char} {lines : List (List Char)}
    (hending : ending.all isspace = true)
    (hrest : (lstrip rest).head? =
      (lines.filter fun line => !line.all isspace).head?.bind fun first => (lstrip first).head?) :
    (lstrip (line ++ (ending ++ rest))).head? =
      ((line :: lines).filter fun line => !line.all isspace).head?.bind fun first =>
        (lstrip first).head? := by
  cases hblank : line.all isspace with
  | true =>
      rw [lstrip_append_of_blank hblank, lstrip_append_of_blank hending, hrest,
        List.filter_cons_of_neg (by simp [hblank])]
  | false =>
      rw [lstrip_append_head? hblank, List.filter_cons_of_pos (by simp [hblank])]
      rfl

/-- The first character of a text stands in its first line that is not blank. -/
theorem lstrip_head?_splitlines (line text : List Char) :
    (lstrip (line.reverse ++ text)).head? =
      ((splitlines line text).filter fun line => !line.all isspace).head?.bind fun first =>
        (lstrip first).head? := by
  induction line, text using splitlines.induct with
  | case1 => rfl
  | case2 line hline =>
      rw [splitlines, if_neg hline]
      exact @lstrip_head?_line line.reverse [] [] [] rfl rfl
  | case3 line rest ih =>
      rw [splitlines]
      exact lstrip_head?_line line.reverse ['\r', '\n'] rfl ih
  | case4 line c rest hother hbreak ih =>
      rw [splitlines.eq_3, if_pos hbreak]
      · have hending : [c].all isspace = true := by simp [isspace_of_lineBreak hbreak]
        exact lstrip_head?_line line.reverse [c] hending ih
      · exact hother
  | case5 line c rest hother hbreak ih =>
      rw [splitlines.eq_3, if_neg hbreak]
      · rw [List.reverse_cons, List.append_assoc] at ih
        exact ih
      · exact hother

theorem lstrip_head?_sampleLines (text : List Char) :
    (lstrip text).head? = (sampleLines text).head?.bind fun first => (lstrip first).head? := by
  have h := lstrip_head?_splitlines [] text
  rw [List.reverse_nil, List.nil_append] at h
  rw [h, sampleLines, List.head?_take, if_neg (by decide)]

/-! ## What is sniffed -/

namespace DelimitedParser

variable {runtime : Runtime} {set : SetOrder} {content : Content}

/-- The beginning of the file in the encoding that the parser settles on. -/
def headText (content : Content) : List Char :=
  if (decodeStrict content).isSome then decodeIgnore (headOf content) else latin1 (headOf content)

/-- Two lines that a delimiter splits, and no mark-up. -/
structure Tabular (set : SetOrder) (text : List Char) : Prop where
  opening : ∃ c, (lstrip text).head? = some c ∧ c ∉ structural
  lines : 2 ≤ (sampleLines text).length
  delimiter : (bestDelimiter set (sampleLines text)).delim.isSome

theorem consistency_isSome_iff {head : Content} :
    (consistency? set head).isSome ↔ ∃ text, decodeStrict head = some text ∧ Tabular set text := by
  unfold consistency?
  constructor
  · intro h
    obtain ⟨consistency, h⟩ := Option.isSome_iff_exists.mp h
    obtain ⟨text, htext, h⟩ := Option.bind_eq_some_iff.mp h
    obtain ⟨c, hc, h⟩ := Option.bind_eq_some_iff.mp h
    split at h
    next => cases h
    next hplain =>
      split at h
      next => cases h
      next hlines =>
        obtain ⟨delim, hdelim, -⟩ := Option.map_eq_some_iff.mp h
        exact ⟨text, htext, ⟨c, hc, hplain⟩, not_lt.mp hlines, Option.isSome_of_eq_some hdelim⟩
  · rintro ⟨text, htext, ⟨c, hc, hplain⟩, hlines, hdelimiter⟩
    rw [htext, Option.bind_eq_bind, Option.bind_some, hc]
    simp only [Option.bind_eq_bind, Option.bind_some, hplain, if_false, not_lt.mpr hlines,
      Option.isSome_map, hdelimiter]

theorem sniff_pos_iff {head : Content} {name : String} :
    0 < sniff runtime set head name ↔ (consistency? set head).isSome := by
  cases h : consistency? set head with
  | none => simp [sniff_none h]
  | some consistency =>
      have hle := (@sniff_bounds runtime name set head consistency h).1
      exact iff_of_true ((consistency_placed h).pos.trans_le hle) rfl

/-- A file that the parser reads has a delimiter on its first lines. -/
theorem delimiter_of_parse {table : ParsedTable} (h : parse runtime set content = .ok table) :
    (bestDelimiter set (sampleLines (decodeText content))).delim.isSome := by
  unfold parse at h
  dsimp only at h
  split at h
  next => cases h
  next =>
    cases hdelim : (bestDelimiter set (sampleLines (decodeText content))).delim with
    | some delim => rfl
    | none =>
        rw [hdelim] at h
        cases h

/-- The file begins like no mark-up, and its first 64 KiB hold its first lines. -/
structure OpensWithLines (content : Content) : Prop where
  opening : ∃ c, (lstrip (decodeText content)).head? = some c ∧ c ∉ structural
  held : sampleLines (headText content) = sampleLines (decodeText content)
  lines : 2 ≤ (sampleLines (decodeText content)).length

/-- What the parser reads is sniffed exactly when its beginning is UTF-8, and so is the file or
the beginning is tabular by itself. -/
theorem sniff_covers_iff {table : ParsedTable} (haccept : parse runtime set content = .ok table)
    (hlines : OpensWithLines content) :
    (∀ name, 0 < sniff runtime set (headOf content) name) ↔
      ∃ text, decodeStrict (headOf content) = some text ∧
        ((decodeStrict content).isSome ∨ Tabular set text) := by
  simp only [sniff_pos_iff, forall_const, consistency_isSome_iff]
  constructor
  · rintro ⟨text, htext, htabular⟩
    exact ⟨text, htext, Or.inr htabular⟩
  · rintro ⟨text, htext, hwhole | htabular⟩
    · have hsame : sampleLines text = sampleLines (decodeText content) := by
        rw [← hlines.held, headText, if_pos hwhole, decodeIgnore_of_strict htext]
      refine ⟨text, htext, ?_, ?_, ?_⟩
      · rw [lstrip_head?_sampleLines, hsame, ← lstrip_head?_sampleLines]
        exact hlines.opening
      · rw [hsame]
        exact hlines.lines
      · rw [hsame]
        exact delimiter_of_parse haccept
    · exact ⟨text, htext, htabular⟩

/-- Two columns and one row, with an accent in the encoding given. -/
def creditAgricole (accent : Content) : Content :=
  Bytes.utf8 "Account,Name\n8842,Cr" ++ accent ++ Bytes.utf8 "dit Agricole\n"

theorem parse_creditAgricole {accent : Content}
    (h : (parse .ascii sampleOrder (creditAgricole accent)).toOption.isSome = true) :
    ∃ table, parse .ascii sampleOrder (creditAgricole accent) = .ok table := by
  cases hparse : parse .ascii sampleOrder (creditAgricole accent) with
  | ok table => exact ⟨table, rfl⟩
  | error failed =>
      rw [hparse] at h
      cases h

theorem opensWithLines_creditAgricole {accent : Content}
    (hopening : (lstrip (decodeText (creditAgricole accent))).head? = some 'A')
    (hheld : sampleLines (headText (creditAgricole accent)) =
      sampleLines (decodeText (creditAgricole accent)))
    (hlines : 2 ≤ (sampleLines (decodeText (creditAgricole accent))).length) :
    OpensWithLines (creditAgricole accent) :=
  ⟨⟨'A', hopening, by decide⟩, hheld, hlines⟩

theorem sniff_covers_utf8 :
    0 < sniff .ascii sampleOrder (headOf (creditAgricole [0xC3, 0xA9])) "accounts.csv" := by
  obtain ⟨table, htable⟩ := @parse_creditAgricole [0xC3, 0xA9] (by decide +kernel)
  have hopens := @opensWithLines_creditAgricole [0xC3, 0xA9] (by decide) (by decide) (by decide)
  exact (sniff_covers_iff htable hopens).mpr
    ⟨decodeIgnore (headOf (creditAgricole [0xC3, 0xA9])), by decide, Or.inl (by decide)⟩ _

/-- What older systems send is read, and not recognised. -/
theorem latin1_not_sniffed :
    ((∃ table, parse .ascii sampleOrder (creditAgricole [0xE9]) = .ok table) ∧
        OpensWithLines (creditAgricole [0xE9])) ∧
      ∀ name, sniff .ascii sampleOrder (headOf (creditAgricole [0xE9])) name = 0 :=
  ⟨⟨parse_creditAgricole (by decide +kernel),
      opensWithLines_creditAgricole (by decide) (by decide) (by decide)⟩,
    fun _ => sniff_none (by decide)⟩

end DelimitedParser

end Harbormaster.Inspector
