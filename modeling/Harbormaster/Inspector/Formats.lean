import Harbormaster.Foundation.Utf8
import Harbormaster.Inspector.Classify

/-! # How the formats are recognised

The `sniff` of each parser of `inspector/parsers`: a score, in doubles, for the first
bytes of a file and its name. What a parser makes of the file is left to a reader.
-/

namespace Harbormaster.Inspector

open Matching Matcher Rounding Utf8

variable (runtime : Runtime)

/-- `name.lower().endswith(extensions)`. -/
def namedLike (name : String) (extensions : List String) : Bool :=
  extensions.any fun extension => extension.toList <:+ runtime.lower name.toList

/-! ## Text -/

/-- `text.lstrip()`. -/
def lstrip (text : List Char) : List Char := text.dropWhile isspace

def isLineBreak (c : Char) : Bool :=
  [0x0A, 0x0B, 0x0C, 0x0D, 0x1C, 0x1D, 0x1E, 0x85, 0x2028, 0x2029].contains c.toNat

/-- `text.splitlines()`, of which `line` has been read, last character first. -/
def splitlines (line : List Char) : List Char → List (List Char)
  | [] => if line = [] then [] else [line.reverse]
  | '\r' :: '\n' :: rest => line.reverse :: splitlines [] rest
  | c :: rest =>
      if isLineBreak c then line.reverse :: splitlines [] rest
      else splitlines (c :: line) rest

/-- The first lines that are not blank. -/
def sampleLines (text : List Char) : List (List Char) :=
  ((splitlines [] text).filter fun line => !line.all isspace).take 20

/-- The first character of the text that is no white space. -/
def opening (head : Content) : Option Char := (lstrip (decodeIgnore head)).head?

/-- What XML and JSON begin with. -/
def structural : List Char := ['<', '{', '[']

/-! ## Delimited text -/

namespace DelimitedParser

/-- The order in which a set of numbers is gone through, by the list it was made of. -/
structure SetOrder where
  order : List Nat → List Nat
  perm : ∀ counts, (order counts).Perm counts.dedup

/-- The delimiter found so far. -/
structure Best where
  delim : Option Char := none
  score : ℚ := 0
  agreement : ℚ := 0

variable (set : SetOrder)

/-- How often the delimiter occurs, in the lines in which it does. -/
def occurrences (delim : Char) (lines : List (List Char)) : List Nat :=
  (lines.map (List.count delim)).filter fun count => 0 < count

/-- Compare a delimiter with the best one so far. -/
def weigh (lines : List (List Char)) (best : Best) (delim : Char) : Best :=
  let counts := occurrences delim lines
  if counts.length < max 2 (lines.length / 3) then best
  else match (set.order counts).argmax fun count => counts.count count with
    | none => best
    | some modal =>
        let agreement := double (counts.count modal / counts.length)
        let score := double (agreement * min 1 (double (modal / 6)))
        if best.score < score then { delim := some delim, score, agreement } else best

/-- Pick the delimiter that splits lines into the most consistent shape. -/
def bestDelimiter (lines : List (List Char)) : Best :=
  [',', '\t', '|', ';'].foldl (weigh set lines) {}

/-- How many of the lines agree, if the contents are delimited text. -/
def consistency? (head : Content) : Option ℚ := do
  let text ← decodeStrict head
  let c ← (lstrip text).head?
  if c ∈ structural then none
  else if (sampleLines text).length < 2 then none
  else
    let best := bestDelimiter set (sampleLines text)
    best.delim.map fun _ => best.agreement

/-- The score of the lines that agree, and of a name that speaks for them. -/
def score (consistency : ℚ) (named : Bool) : ℚ :=
  let score := double (double (35 / 100) + double (1 / 2 * consistency))
  if named then double (score + double (1 / 10)) else score

def sniff (head : Content) (name : String) : ℚ :=
  match consistency? set head with
  | none => 0
  | some consistency =>
      min (score consistency (namedLike runtime name [".csv", ".tsv", ".txt", ".psv"]))
        (double (97 / 100))

end DelimitedParser

/-! ## Excel -/

namespace ExcelParser

def magic : Content := [0x50, 0x4B, 0x03, 0x04]

def sniff (head : Content) (name : String) : ℚ :=
  if ¬ magic <+: head then 0
  else if namedLike runtime name [".xlsx", ".xlsm"] then double (97 / 100)
  else double (9 / 10)

end ExcelParser

/-! ## XML and FIXML -/

/-- `text[:count].upper()` contains the tag. -/
def containsTag (count : Nat) (text : List Char) (tag : String) : Bool :=
  tag.toList <:+: runtime.upper (text.take count)

namespace XMLParser

/-- FIXML has a parser of its own. -/
def defers (text : List Char) : Bool :=
  containsTag runtime 2000 text "<FIXML" || containsTag runtime 2000 text "<EXECRPT"

def sniff (head : Content) (name : String) : ℚ :=
  let text := lstrip (decodeIgnore head)
  if text.head? ≠ some '<' then 0
  else if defers runtime text then double (3 / 10)
  else if namedLike runtime name [".xml"] then double (92 / 100)
  else double (85 / 100)

end XMLParser

namespace FIXMLParser

def recordTags : List String := ["<EXECRPT", "<TRDCAPTRPT", "<POSITION", "<POSRPT", "<ALLOC"]

def hasEnvelope (text : List Char) : Bool := containsTag runtime 4000 text "<FIXML"

/-- A fragment without its envelope. -/
def hasRecord (text : List Char) : Bool := recordTags.any (containsTag runtime 4000 text)

def sniff (head : Content) (_name : String) : ℚ :=
  let text := lstrip (decodeIgnore head)
  if text.head? ≠ some '<' then 0
  else if hasEnvelope runtime text then double (98 / 100)
  else if hasRecord runtime text then double (9 / 10)
  else 0

end FIXMLParser

/-! ## JSON -/

namespace JSONParser

def sniff (head : Content) (name : String) : ℚ :=
  let text := lstrip (decodeIgnore head)
  if text.head? ≠ some '{' ∧ text.head? ≠ some '[' then 0
  else if namedLike runtime name [".json"] then double (95 / 100)
  else double (85 / 100)

end JSONParser

/-! ## Email text -/

namespace EmailTextParser

def emailMarkers : List String := ["from:", "to:", "subject:", "sent:", "cc:", "date:"]

/-- How many of the headers of a message occur. -/
def headerHits (text : List Char) : Nat :=
  (emailMarkers.filter fun marker => marker.toList <:+: runtime.lower (text.take 4000)).length

def currencies : List String :=
  ["USD", "EUR", "GBP", "JPY", "CHF", "HKD", "AUD", "CAD", "SEK", "SGD"]

def currencyCode : Matcher Unit := do
  boundary fun c => runtime.isalnum c || c = '_'
  oneOf (currencies.map fun code => code.toList.forM literal)
  boundary fun c => runtime.isalnum c || c = '_'

def currencySymbols : List Char := ['$', '€', '£', '¥']

def namesMoney (line : List Char) : Bool :=
  ((currencyCode runtime).search line).isSome || currencySymbols.any fun c => c ∈ line

/-- Prose about money: not tabular, and two lines name a currency. -/
def readsAsProse (text : List Char) : Bool :=
  let lines := sampleLines text
  let delimited := lines.countP fun line => 3 ≤ line.count ',' || 3 ≤ line.count '|'
  2 ≤ lines.length && delimited * 2 ≤ lines.length && 2 ≤ lines.countP (namesMoney runtime)

def sniff (head : Content) (name : String) : ℚ :=
  let text := decodeIgnore head
  match (lstrip text).head? with
  | none => 0
  | some c =>
      if c ∈ structural then 0
      else if 2 ≤ headerHits runtime text then double (93 / 100)
      else if readsAsProse runtime text && namedLike runtime name [".txt", ".eml", ".msg"] then
        double (6 / 10)
      else 0

end EmailTextParser

/-! ## The parsers -/

/-- What each parser makes of a file. -/
structure Readers where
  delimited : Content → Except Failure ParsedTable
  excel : Content → Except Failure ParsedTable
  xml : Content → Except Failure ParsedTable
  fixml : Content → Except Failure ParsedTable
  json : Content → Except Failure ParsedTable
  emailText : Content → Except Failure ParsedTable

section Parsers

variable (set : DelimitedParser.SetOrder) (readers : Readers)

def delimitedParser : Parser := ⟨"CSV", DelimitedParser.sniff runtime set, readers.delimited⟩
def excelParser : Parser := ⟨"EXCEL", ExcelParser.sniff runtime, readers.excel⟩
def xmlParser : Parser := ⟨"XML", XMLParser.sniff runtime, readers.xml⟩
def fixmlParser : Parser := ⟨"FIXML", FIXMLParser.sniff runtime, readers.fixml⟩
def jsonParser : Parser := ⟨"JSON", JSONParser.sniff runtime, readers.json⟩
def emailTextParser : Parser := ⟨"EMAIL_TEXT", EmailTextParser.sniff runtime, readers.emailText⟩

/-- `DEFAULT_PARSERS`. -/
def defaultParsers : List Parser :=
  [delimitedParser runtime set readers, excelParser runtime readers, xmlParser runtime readers,
    fixmlParser runtime readers, jsonParser runtime readers, emailTextParser runtime readers]

end Parsers

end Harbormaster.Inspector
