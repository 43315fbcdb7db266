import Harbormaster.Contract
import Harbormaster.Inspector.Confidence
import Harbormaster.Inspector.Emit
import Harbormaster.Inspector.Resolver

/-! # The inspector

`Inspector.classify` of `inspector/main.py`: a file is sniffed, parsed, attributed
to a client, its columns are mapped, and its rows are split by value date. Each
part becomes one classification, which is written out and sent.
-/

namespace Harbormaster.Inspector

open Ordered Rounding

variable (runtime : Runtime)

/-- An exception that leaves the pipeline. -/
inductive Failure where
  | parseError (message : String)
  | configError (message : String)
  | valueError
  | arithmetic (signal : Signal)
deriving DecidableEq, Repr

abbrev Content := List UInt8

/-- One format's reader. -/
structure Parser where
  formatName : String
  sniff : Content → String → ℚ
  parse : Content → Except Failure ParsedTable

/-- Classifies raw arrivals. -/
structure FileInspector where
  registry : Registry
  parsers : List Parser
  scorer : Scorer
  adjudicator : Option Adjudicator := none
  cache : TemplateCache := .empty
  thresholds : Thresholds := {}
  /-- The numbers that the scores are computed in. -/
  arithmetic : Arithmetic := .double
  /-- `cross_check_amount`, whose result is only reported. -/
  crossCheckAmount : ParsedTable → List Mapping → Except Signal (Option Bool × String)

/-- Everything the inspector concluded about one arrival. -/
structure Classification where
  arrivalId : String
  sourceFormat : String
  clientId : Option String
  attribution : Attribution
  valueDate : Resolution
  domain : Domain
  mappings : List Mapping
  score : Score
  table : ParsedTable
  templateFingerprint : String
  canonicalUri : String := ""
  rowCount : Int := 0
  subBatchIndex : Nat := 0
  subBatchTotal : Nat := 1
  crossCheck : String := ""

/-- Stable identity for a file layout. -/
def templateFingerprint (clientId : Option String) (headers : List String) : String :=
  "tf_" ++ runtime.blake2b (join "|" ((truthy clientId).getD "?" ::
    headers.map (normalizeHeader runtime)))

namespace FileInspector

variable (inspector : FileInspector)

def sniffBytes : Nat := 64 * 1024

/-- Choose a parser by content: the best score, of several the first. -/
def sniff (content : Content) (name : String) : Except Failure Parser :=
  match inspector.parsers.argmax fun p => p.sniff (content.take sniffBytes) name with
  | some parser =>
      if parser.sniff (content.take sniffBytes) name ≤ 0 then
        .error (.parseError ("no parser recognised " ++ quoted runtime name))
      else .ok parser
  | none => .error (.parseError ("no parser recognised " ++ quoted runtime name))

def attribution (table : ParsedTable) (name : String) : Attribution :=
  attributeFile runtime name table.headers table.rows inspector.registry

/-- The client a table is attributed to. -/
def client (attribution : Attribution) : Option Client :=
  (truthy attribution.clientId).bind inspector.registry.client

/-- The calendar of the client, or the default one. -/
def calendar (attribution : Attribution) : Option Calendar :=
  match truthy attribution.clientId with
  | some clientId => inspector.registry.calendarFor clientId
  | none => inspector.registry.calendar "US_EQUITY"

def hints (attribution : Attribution) : List String :=
  ((inspector.client attribution).map Client.valueDateHints).getD []

/-- What all parts of one file share. -/
structure Shared where
  arrivalId : String
  name : String
  sourceFormat : String
  attribution : Attribution
  calendar : Calendar
  hints : List String
  domain : Domain
  mappings : List Mapping
  templateFingerprint : String
  crossCheck : String

/-- The stages before the split. -/
def prepare (arrivalId : String) (parser : Parser) (table : ParsedTable) (name : String) :
    Except Failure Shared := do
  let attribution := inspector.attribution runtime table name
  let client := inspector.client attribution
  let some calendar := inspector.calendar attribution
    | .error (.configError "no calendar available for value-date resolution")
  let fingerprint := templateFingerprint runtime attribution.clientId table.headers
  let resolver : TieredResolver :=
    { fieldOverrides := (client.map Client.fieldOverrides).getD []
      scorer := inspector.scorer
      adjudicator := inspector.adjudicator
      cache := inspector.cache }
  let context : TableContext :=
    { clientId := attribution.clientId.getD ""
      clientName := (client.map Client.clientName).getD ""
      sourceHint := attribution.sourceHint
      domain := orElseText attribution.domain domainUnknown
      templateFingerprint := fingerprint }
  let outcome ← (resolver.resolve runtime table context).mapError .arithmetic
  let (agrees, note) ← (inspector.crossCheckAmount table outcome.mappings).mapError .arithmetic
  let some domain := Domain.ofText? (orElseText attribution.domain domainUnknown)
    | .error .valueError
  return {
    arrivalId := arrivalId
    name := name
    sourceFormat := parser.formatName
    attribution := attribution
    calendar := calendar
    hints := inspector.hints attribution
    domain := domain
    mappings := outcome.mappings
    templateFingerprint := fingerprint
    crossCheck := if agrees = some false then "arithmetic cross-check FAILED: " ++ note else note }

/-- Classify one part. `remark` is put before the notes on its value date. -/
def classifyPart (shared : Shared) (table : ParsedTable) (today : Day) (remark : String)
    (index total : Nat) : Classification :=
  let resolution := resolve runtime table.headers table.rows shared.name today shared.calendar
    shared.hints
  let resolution := { resolution with notes := remark ++ resolution.notes }
  { arrivalId := shared.arrivalId
    sourceFormat := shared.sourceFormat
    clientId := shared.attribution.clientId
    attribution := shared.attribution
    valueDate := resolution
    domain := shared.domain
    mappings := shared.mappings
    score := compose runtime inspector.arithmetic inspector.thresholds shared.attribution
      resolution shared.mappings shared.domain
    table := table
    templateFingerprint := shared.templateFingerprint
    rowCount := table.rowCount
    subBatchIndex := index
    subBatchTotal := total
    crossCheck := shared.crossCheck }

/-- Classify the rows of one value date. -/
def classifyGroup (shared : Shared) (table : ParsedTable) (clock : Nat → Day) (total : Nat)
    (rows : List Row) (index : Nat) : Classification :=
  inspector.classifyPart runtime shared (table.subset rows) (clock index)
    ("sub-batch " ++ toString (index + 1) ++ " of " ++ toString total ++ "; file spans " ++
      toString total ++ " value dates. ") index total

/-- The parts of a table, by the text of their value dates; a table that is not
split is one part. `clock` gives the day of each reading. -/
def classifyParts (shared : Shared) (table : ParsedTable) (clock : Nat → Day) :
    List Classification :=
  let groups := splitByValueDate runtime table.rows table.headers shared.hints
  if groups = [] then [inspector.classifyPart runtime shared table (clock 0) "" 0 1]
  else
    (groups.insertionSort fun a b => a.1 ≤ b.1).zipIdx.map fun (group, index) =>
      inspector.classifyGroup runtime shared table clock groups.length group.2 index

/-- Run the full pipeline: one classification per value date. -/
def classify (arrivalId : String) (content : Content) (name : String) (clock : Nat → Day) :
    Except Failure (List Classification) := do
  let parser ← inspector.sniff runtime content name
  let table ← parser.parse content
  let shared ← inspector.prepare runtime arrivalId parser table name
  return inspector.classifyParts runtime shared table clock

/-- The records written for one classification. -/
def canonicalRecords (classification : Classification) : Except Signal (List CanonicalRecord) :=
  let client := inspector.client classification.attribution
  buildRecords runtime classification.table classification.mappings
    { arrivalId := classification.arrivalId
      clientId := classification.clientId.getD ""
      valueDate := classification.valueDate.resolvedIso
      domain := classification.domain.text
      sourceSystem := classification.attribution.sourceHint }
    ((client.map fun c => c.accounts.map fun a => (a.id, a.name)).getD [])

end FileInspector

/-! ## The wire -/

def domainProto : Domain → ProductDomain
  | .trade => .trade
  | .position => .position
  | .cash => .cash
  | .collateral => .collateral
  | .unknown => .unspecified

def dispositionProto : Disposition → ArrivalDisposition
  | .dispatched => .dispatched
  | .quarantined => .quarantined
  | .rejected => .rejected

/-- Build the wire message for a classification. -/
def toProto (classification : Classification) : ArrivalClassified where
  arrivalId := classification.arrivalId
  clientId := classification.clientId.getD ""
  domain := domainProto classification.domain
  reconSide := .externalClient
  valueDate := {
    resolved := classification.valueDate.resolvedIso
    fromFilename := (classification.valueDate.fromFilename.map isoformat).getD ""
    fromContent := classification.valueDate.fromContent.map isoformat
    fromArrival := (classification.valueDate.fromArrival.map isoformat).getD ""
    method := classification.valueDate.method
    confidence := classification.valueDate.confidence
    mismatchFlagged := classification.valueDate.mismatchFlagged
    calendarId := classification.valueDate.calendarId
    notes := classification.valueDate.notes }
  rowCount := classification.rowCount
  canonicalUri := classification.canonicalUri
  overallConfidence := classification.score.overall
  disposition := dispositionProto classification.score.disposition

end Harbormaster.Inspector
