import Harbormaster.Contract
import Harbormaster.Foundation.Delivery
import Harbormaster.Foundation.Table
import Mathlib.Data.List.Sort

/-! # The board projections

The read models of `go/internal/web` and the projector of `go/cmd/controlplane`
that fills them from the topics. How the database casts a text to a date is a
parameter. A row is written in one statement; the saved offsets and the events
for the browser are left out.
-/

namespace Harbormaster.ControlPlane

open Keyed

/-! ## Rows -/

structure ArrivalRow where
  contentSha256 : String
  originalName : String
  ingress : String
  uri : String
  sizeBytes : Int
  detectedAt : Instant
  clientId : Option String := none
  domain : Option String := none
  valueDate : Option Day := none
  disposition : Option String := none
  overallConfidence : Option Rat := none
  mismatchFlagged : Bool := false
  classifiedAt : Option Instant := none
  classification : Option String := none
deriving DecidableEq

structure AssignmentRow where
  clientId : String
  domain : String
  valueDate : Day
  side1Arrival : Option String
  side2Arrival : Option String
  expectationId : String
  confidence : Rat
  supersedes : Option String
  notes : String
  emittedAt : Instant
  voidedAt : Option Instant := none
  voidedBy : Option String := none
deriving DecidableEq

structure AlertRow where
  clientId : String
  domain : String
  valueDate : Day
  expectationId : String
  missingSide : String
  deadline : Instant
  emittedAt : Instant
  acknowledgedAt : Option Instant := none
  acknowledgedBy : Option String := none
deriving DecidableEq

structure Review where
  reviewer : String
  decision : String
deriving DecidableEq

/-- The tables of the board. -/
structure Board where
  arrivals : Table String ArrivalRow := ∅
  assignments : Table String AssignmentRow := ∅
  alerts : Table String AlertRow := ∅
  reviews : Table String Review := ∅

/-! ## Messages -/

/-- A classified arrival, with the parts of the message that only the board reads:
its time, and the message as JSON. -/
structure ClassifiedMessage where
  classified : ArrivalClassified
  classifiedAt : Instant
  json : String
deriving DecidableEq

def topicArrivalsClassified : String := "hm.arrivals.classified"
def topicArrivalsQuarantine : String := "hm.arrivals.quarantined"
def topicBerthAssigned : String := "hm.berth.assigned"
def topicBerthSuperseded : String := "hm.berth.superseded"
def topicAlertsMissing : String := "hm.alerts.missing"

/-- A message of the projector's topics; `none` is one that cannot be decoded. -/
inductive BoardMessage where
  | arrivalsClassified (message : Option ClassifiedMessage)
  | arrivalsQuarantine (message : Option ClassifiedMessage)
  | berthAssigned (message : Option BerthAssigned)
  | berthSuperseded (message : Option BerthSuperseded)
  | alertsMissing (message : Option MissingFileAlert)
deriving DecidableEq

def BoardMessage.topic : BoardMessage → String
  | .arrivalsClassified _ => topicArrivalsClassified
  | .arrivalsQuarantine _ => topicArrivalsQuarantine
  | .berthAssigned _ => topicBerthAssigned
  | .berthSuperseded _ => topicBerthSuperseded
  | .alertsMissing _ => topicAlertsMissing

/-- A message with the partition it was published to. -/
structure Delivered where
  message : BoardMessage
  partition : Nat
deriving DecidableEq

/-- The topic and partition of a message. -/
def Delivered.place (delivered : Delivered) : String × Nat :=
  (delivered.message.topic, delivered.partition)

/-! ## Projections -/

/-- `ARRIVAL_DISPOSITION_` trimmed from the enumeration name. -/
def dispositionName : ArrivalDisposition → String
  | .unspecified => "UNSPECIFIED"
  | .dispatched => "DISPATCHED"
  | .quarantined => "QUARANTINED"
  | .rejected => "REJECTED"
  | .suppressedDuplicate => "SUPPRESSED_DUPLICATE"
  | .unrecognized number => toString number

def nullIfEmpty (text : String) : Option String := if text = "" then none else some text

/-- Why a projection fails. -/
inductive ProjectionError where
  | notFound
  | invalidDate
deriving DecidableEq

variable (castDate : String → Option Day)

/-- A text cast to a date. -/
def toDate (text : String) : Except ProjectionError Day :=
  match castDate text with
  | some day => .ok day
  | none => .error .invalidDate

/-- The same for a text that may be empty, which is no date. -/
def toDateOrNull (text : String) : Except ProjectionError (Option Day) :=
  if text = "" then .ok none else some <$> toDate castDate text

/-- The classification columns of an arrival. -/
def classify (message : ClassifiedMessage) (valueDate : Option Day) (row : ArrivalRow) :
    ArrivalRow :=
  { row with
    clientId := nullIfEmpty message.classified.clientId
    domain := nullIfEmpty (domainName message.classified.domain)
    valueDate := valueDate
    disposition := some (dispositionName message.classified.disposition)
    overallConfidence := some message.classified.overallConfidence
    mismatchFlagged := message.classified.valueDate.mismatchFlagged
    classifiedAt := some message.classifiedAt
    classification := some message.json }

/-- Write a classified arrival into the row of its arrival. -/
def projectClassified (board : Board) (message : ClassifiedMessage) :
    Except ProjectionError Board := do
  let valueDate ← toDateOrNull castDate message.classified.valueDate.resolved
  -- no row is affected: the message has outrun the raw arrival
  if (board.arrivals.lookup message.classified.arrivalId).isNone then .error .notFound
  else
    return { board with
      arrivals := board.arrivals.modify message.classified.arrivalId
        (classify message valueDate) }

def assignmentRow (message : BerthAssigned) (valueDate : Day) : AssignmentRow where
  clientId := message.clientId
  domain := domainName message.domain
  valueDate := valueDate
  side1Arrival := nullIfEmpty message.side1.arrivalId
  side2Arrival := nullIfEmpty message.side2.arrivalId
  expectationId := message.expectationId
  confidence := message.confidence
  supersedes := nullIfEmpty message.supersedes
  notes := message.notes
  emittedAt := message.emittedAt

/-- Record an issued berth assignment; a stored one stays. -/
def projectAssignment (board : Board) (message : BerthAssigned) :
    Except ProjectionError Board := do
  let valueDate ← toDate castDate message.valueDate
  return { board with
    assignments := board.assignments.upsert (fun stored _ => stored) message.assignmentId
      (assignmentRow message valueDate) }

/-- Mark an assignment as withdrawn, once. -/
def AssignmentRow.void (message : BerthSuperseded) (row : AssignmentRow) : AssignmentRow :=
  -- the update asks for `voided_at IS NULL`
  if row.voidedAt = none then
    { row with voidedAt := some message.emittedAt, voidedBy := some message.supersededBy }
  else row

def projectSuperseded (board : Board) (message : BerthSuperseded) : Board :=
  { board with
    assignments := board.assignments.modify message.assignmentId (AssignmentRow.void message) }

/-- One alert per slot and side. -/
def alertId (message : MissingFileAlert) : String :=
  message.clientId ++ ":" ++ domainName message.domain ++ ":" ++ message.valueDate ++ ":" ++
    sideName message.missingSide

def alertRow (message : MissingFileAlert) (valueDate : Day) : AlertRow where
  clientId := message.clientId
  domain := domainName message.domain
  valueDate := valueDate
  expectationId := message.expectationId
  missingSide := sideName message.missingSide
  deadline := message.deadline
  emittedAt := message.emittedAt

/-- Record a missing-file alert; a stored one stays. -/
def projectAlert (board : Board) (message : MissingFileAlert) : Except ProjectionError Board := do
  let valueDate ← toDate castDate message.valueDate
  return { board with
    alerts := board.alerts.upsert (fun stored _ => stored) (alertId message)
      (alertRow message valueDate) }

/-! ## The projector -/

/-- A failed projection is logged and skipped. -/
def orSkip (board : Board) : Except ProjectionError Board → Board
  | .ok next => next
  | .error _ => board

/-- Project a message, where the database executes the statement. -/
def handle (board : Board) (delivered : Delivered) : Board :=
  match delivered.message with
  | .arrivalsClassified (some message) | .arrivalsQuarantine (some message) =>
      orSkip board (projectClassified castDate board message)
  | .berthAssigned (some message) => orSkip board (projectAssignment castDate board message)
  | .berthSuperseded (some message) => projectSuperseded board message
  | .alertsMissing (some message) => orSkip board (projectAlert castDate board message)
  -- a message that cannot be decoded is skipped
  | _ => board

/-- Project a run of messages. -/
def project (board : Board) (deliveries : List Delivered) : Board :=
  deliveries.foldl (handle castDate) board

/-- Project a message whose statement the database executes or refuses. A refused one is
skipped, too, and its offset is committed: the message is lost until it is read again. -/
def attempt (board : Board) (reading : Delivered × Bool) : Board :=
  if reading.2 then handle castDate board reading.1 else board

def projectAttempts (board : Board) (readings : List (Delivered × Bool)) : Board :=
  readings.foldl (attempt castDate) board

/-- Refused statements leave the board as if their messages were not there. -/
theorem projectAttempts_eq (board : Board) (readings : List (Delivered × Bool)) :
    projectAttempts castDate board readings =
      project castDate board ((readings.filter Prod.snd).map Prod.fst) := by
  induction readings generalizing board with
  | nil => rfl
  | cons reading rest ih =>
      obtain ⟨delivered, executed⟩ := reading
      cases executed with
      | true => exact ih (handle castDate board delivered)
      | false => exact ih board

/-! ## The review queue -/

/-- A row awaits a review. -/
def ArrivalRow.isHeld (row : ArrivalRow) : Bool :=
  row.disposition = some "QUARANTINED" || row.disposition = some "REJECTED"

/-- Arrivals awaiting a review decision, by the time of their classification. -/
def Board.quarantine (board : Board) : List (String × ArrivalRow) :=
  (board.arrivals.select fun arrivalId row =>
    row.isHeld && (board.reviews.lookup arrivalId).isNone).insertionSort
      fun a b => a.2.classifiedAt.getD 0 ≤ b.2.classifiedAt.getD 0

end Harbormaster.ControlPlane
