import Harbormaster.Berthmaster.Machine

/-! # The berthmaster service

The handler of classified arrivals and the overdue sweep of
`go/cmd/berthmaster`. Log lines are left out.
-/

namespace Harbormaster.Berthmaster

open Effect Program

/-- The input of the state machine that a classified arrival stands for. -/
def arrivalOf (classified : ArrivalClassified) : Arrival where
  arrivalId := classified.arrivalId
  clientId := classified.clientId
  domain := domainName classified.domain
  valueDate := classified.valueDate.resolved
  side := sideName classified.reconSide

/-! ## What the service writes -/

def slotRejected (arrival : Arrival) (cause : SlotError) : AuditEntry where
  arrivalId := arrival.arrivalId
  component := "berthmaster"
  decisionType := "SLOT_REJECTED"
  inputs := [("value_date", .text arrival.valueDate), ("client_id", .text arrival.clientId)]
  outcome := [("reason", .text cause.text)]

def slotUpdated (arrival : Arrival) (outcome : Outcome) : AuditEntry where
  arrivalId := arrival.arrivalId
  component := "berthmaster"
  decisionType := "SLOT_UPDATED"
  inputs := [("slot", .text outcome.slot.key.text), ("side", .text arrival.side)]
  outcome := [("state", .text outcome.slot.state.text), ("reason", .text outcome.reason),
    ("ready", .flag outcome.assign), ("deadline", .instant outcome.slot.deadline)]

def berthAssignedEntry (classified : ArrivalClassified) (outcome : Outcome)
    (assignmentId : String) : AuditEntry where
  arrivalId := classified.arrivalId
  component := "berthmaster"
  decisionType := "BERTH_ASSIGNED"
  inputs := [("slot", .text outcome.slot.key.text),
    ("expectation_id", .text outcome.slot.expectationId)]
  outcome := [("assignment_id", .text assignmentId), ("supersedes", .text outcome.supersedes),
    ("side_1", .text outcome.slot.side1Arrival), ("side_2", .text outcome.slot.side2Arrival)]

/-- The void of the assignment an outcome supersedes. -/
def voidMessage (classified : ArrivalClassified) (outcome : Outcome) (emittedAt : Instant) :
    Message where
  topic := .berthSuperseded
  key := outcome.slot.key.text
  value := .berthSuperseded {
    assignmentId := outcome.supersedes
    supersededBy := classified.arrivalId
    reason := outcome.reason
    emittedAt }

/-- The assignment of a completed slot. Its sides carry the arrival ids only. -/
def berthAssignedOf (classified : ArrivalClassified) (outcome : Outcome)
    (assignmentId : String) (emittedAt : Instant) : BerthAssigned where
  assignmentId := assignmentId
  emittedAt := emittedAt
  clientId := outcome.slot.key.clientId
  domain := domainEnum outcome.slot.key.domain
  valueDate := outcome.slot.key.valueDate
  side1 := { arrivalId := outcome.slot.side1Arrival }
  side2 := { arrivalId := outcome.slot.side2Arrival }
  expectationId := outcome.slot.expectationId
  confidence := classified.overallConfidence
  supersedes := outcome.supersedes
  notes := outcome.reason

def assignedMessage (classified : ArrivalClassified) (outcome : Outcome)
    (assignmentId : String) (emittedAt : Instant) : Message where
  topic := .berthAssigned
  key := outcome.slot.key.text
  value := .berthAssigned (berthAssignedOf classified outcome assignmentId emittedAt)

def alertMessage (slot : Slot) (emittedAt : Instant) : Message where
  topic := .alertsMissing
  key := slot.key.text
  value := .missingFileAlert {
    clientId := slot.key.clientId
    domain := domainEnum slot.key.domain
    valueDate := slot.key.valueDate
    expectationId := slot.expectationId
    missingSide := sideEnum slot.missingSide
    deadline := slot.deadline
    emittedAt }

/-! ## Handling an arrival -/

/-- Publish the void of the prior assignment, if there is one. -/
def voidPrior (classified : ArrivalClassified) (outcome : Outcome) : Service Unit :=
  if outcome.supersedes ≠ "" then do publish (voidMessage classified outcome (← now))
  else return ()

/-- Publish the void, if any, and then the assignment. -/
def assign (classified : ArrivalClassified) (outcome : Outcome) : Service Unit := do
  voidPrior classified outcome
  let assignmentId := (← newId).text
  publish (assignedMessage classified outcome assignmentId (← now))
  Machine.recordAssignment outcome.slot.key assignmentId
  append (berthAssignedEntry classified outcome assignmentId)

/-- What follows an arrival that was routed to its slot. -/
def routed (classified : ArrivalClassified) (outcome : Outcome) : Service Unit := do
  append (slotUpdated (arrivalOf classified) outcome)
  if outcome.assign then assign classified outcome

variable (machine : Machine)

/-- Handle one message; `none` is one that cannot be decoded. -/
def handle : Option ArrivalClassified → Service Unit
  | none => .fail .decode
  | some classified =>
      if classified.disposition ≠ .dispatched then return ()
      else do
        match ← (machine.apply (arrivalOf classified)).attempt with
        | .ok outcome => routed classified outcome
        | .error (.slot cause) =>
            -- A date outside the window is an operator decision, not a failure.
            if cause.isOutsideWindow then append (slotRejected (arrivalOf classified) cause)
            else .fail (.slot cause)
        | .error cause => .fail cause

/-! ## The overdue sweep -/

/-- The publish loop of `sweep`. -/
def publishAlerts : List Slot → Service Unit
  | [] => return ()
  | slot :: rest => do
      publish (alertMessage slot (← now))
      publishAlerts rest

def sweep : Service Unit := do
  publishAlerts (← Machine.overdue)

end Harbormaster.Berthmaster
