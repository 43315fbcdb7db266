import Harbormaster.Arrival.Dedupe
import Harbormaster.Arrival.Scanner
import Harbormaster.Contract
import Harbormaster.Foundation.Program

/-! # From a stable candidate to a published arrival

`Processor` of `go/internal/arrival`, over the calls it makes: the clock, fresh
names, the file system, the object store, the arrival table, the bus, the audit
log and the scanner.
-/

namespace Harbormaster.Arrival

open Effect Program

abbrev Content := List UInt8

/-- What `Put` answers about the object it has written. -/
structure StoredObject where
  uri : String
  size : Int
  sha256 : String
deriving DecidableEq, Repr

/-- The object store: where a key is kept, and the digest computed while the
content is written. -/
structure ObjectStore where
  uriOf : String → String
  digest : Content → String

def ObjectStore.stored (objects : ObjectStore) (key : String) (content : Content) :
    StoredObject where
  uri := objects.uriOf key
  size := content.length
  sha256 := objects.digest content

inductive Failure where
  | openFile (name : String)
  | store (name : String)
  | dedupe
  | record
  | encode
  | publish
  | audit
deriving DecidableEq, Repr

inductive Call where
  | now
  | newId
  | openFile (path : String)
  | put (key : String) (content : Content)
  | select (sha256 : String)
  | insert (row : Record)
  | encode (raw : ArrivalRaw)
  | publish (message : Message)
  | append (entry : AuditEntry)
  | forget (path : String)
deriving DecidableEq

/-- The reply to each call; `none` is a failure of the component asked. -/
abbrev Reply : Call → Type
  | .now => Instant
  | .newId => Ulid
  | .openFile _ => Option Content
  | .put _ _ => Option StoredObject
  | .select _ => Option (List Record)
  | .insert _ => Option Nat
  | .encode _ => Option Unit
  | .publish _ => Option Unit
  | .append _ => Option Unit
  | .forget _ => Unit

abbrev Handling := Program Call Reply Failure

def now : Handling Instant := ask Call.now
def newId : Handling Ulid := ask Call.newId
def openFile (c : Candidate) : Handling Content :=
  ask (Call.openFile c.path) >>= orFail (.openFile c.name)
def put (key : String) (c : Candidate) (content : Content) : Handling StoredObject :=
  ask (Call.put key content) >>= orFail (.store c.name)
def encode (raw : ArrivalRaw) : Handling Unit := ask (Call.encode raw) >>= orFail .encode
def publish (message : Message) : Handling Unit :=
  ask (Call.publish message) >>= orFail .publish
def append (entry : AuditEntry) : Handling Unit := ask (Call.append entry) >>= orFail .audit
def forget (path : String) : Handling Unit := ask (Call.forget path)

/-- `SQLDeduper.Check`. -/
def check (sha256 originalName : String) : Handling Decision := do
  return classify originalName (← ask (Call.select sha256) >>= orFail .dedupe)

/-- `SQLDeduper.Record`; `false` is `ErrAlreadyRecorded`. -/
def record (row : Record) : Handling Bool := do
  return (← ask (Call.insert row) >>= orFail .record) ≠ 0

def ingressFtp : String := "FTP"
def ingressQueue : String := "QUEUE"

/-- A date as the layout `2006/01/02` writes it. -/
def datePath (date : Civil.Date) : String :=
  String.ofList (Civil.fourDigits date.year ++ '/' :: Civil.twoDigits date.month ++
    '/' :: Civil.twoDigits date.day)

/-- Where a payload is stored. The clock reads a time whose year has four digits. -/
def objectKey (time : Instant) (arrivalId : String) (c : Candidate) : String :=
  "raw/" ++ ((Civil.ofOrdinal? time.truncate).map datePath).getD "" ++ "/" ++
    arrivalId ++ "_" ++ c.name

def auditSuppression (arrivalId : String) (c : Candidate) (sum : String) (d : Decision) :
    Handling Unit :=
  append {
    arrivalId := d.priorArrivalId
    component := "portwatch"
    decisionType := "ARRIVAL_SUPPRESSED"
    inputs := [("file", .text c.name), ("sha256", .text sum),
      ("candidate_arrival_id", .text arrivalId)]
    outcome := [("verdict", .text d.verdict.text), ("prior_arrival_id", .text d.priorArrivalId),
      ("prior_name", .text d.priorName), ("seen_count", .number d.seenCount)] }

def recordOf (arrivalId : String) (c : Candidate) (ingress : String) (object : StoredObject)
    (detectedAt : Instant) : Record where
  arrivalId := arrivalId
  sha256 := object.sha256
  originalName := c.name
  ingress := ingress
  uri := object.uri
  size := object.size
  detectedAt := detectedAt

def arrivalRaw (landingDir : String) (c : Candidate) (row : Record) : ArrivalRaw where
  arrivalId := row.arrivalId
  detectedAt := row.detectedAt
  ingress := row.ingress
  uri := row.uri
  originalName := c.name
  sizeBytes := row.size
  contentSha256 := row.sha256
  landingDir := landingDir
  stabilityMs := c.stabilityMs

/-- An arrival on the bus, keyed by its content. -/
def rawMessage (raw : ArrivalRaw) : Message where
  topic := .arrivalsRaw
  key := raw.contentSha256
  value := .arrivalRaw raw

def auditDetection (c : Candidate) (row : Record) : Handling Unit :=
  append {
    arrivalId := row.arrivalId
    component := "portwatch"
    decisionType := "ARRIVAL_DETECTED"
    inputs := [("file", .text c.name), ("size_bytes", .number row.size),
      ("stability_ms", .number c.stabilityMs)]
    outcome := [("arrival_id", .text row.arrivalId), ("sha256", .text row.sha256),
      ("uri", .text row.uri)] }

/-- The part of `handle` after the row was recorded. -/
def announce (landingDir : String) (c : Candidate) (row : Record) : Handling Unit := do
  encode (arrivalRaw landingDir c row)
  publish (rawMessage (arrivalRaw landingDir c row))
  auditDetection c row
  forget c.path

/-- Process one candidate end to end: store, check, record, publish. -/
def handle (landingDir : String) (c : Candidate) (ingress : String) : Handling Unit := do
  let arrivalId := (← newId).text
  let f ← openFile c
  let key := objectKey (← now) arrivalId c
  let object ← put key c f
  let decision ← check object.sha256 c.name
  if decision.suppress then auditSuppression arrivalId c object.sha256 decision
  else
    let row := recordOf arrivalId c ingress object (← now)
    if ← record row then announce landingDir c row
    else return ()

end Harbormaster.Arrival
