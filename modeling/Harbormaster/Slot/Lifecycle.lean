import Harbormaster.Contract
import Harbormaster.Registry

/-! # The slot lifecycle

A slot is one reconciliation waiting to happen. This module is the pure part of
`go/internal/slot`: the slot itself and what an arrival does to it.
-/

namespace Harbormaster

inductive SlotState where
  | stateOpen | statePartial | stateAssigned | stateSuperseded | stateMissing
deriving DecidableEq, Repr

def SlotState.text : SlotState → String
  | .stateOpen => "OPEN"
  | .statePartial => "PARTIAL"
  | .stateAssigned => "ASSIGNED"
  | .stateSuperseded => "SUPERSEDED"
  | .stateMissing => "MISSING"

/-- The identity of a slot, which is also the message partition key. -/
structure Key where
  clientId : String
  domain : String
  valueDate : String
deriving DecidableEq, Repr

def Key.text (key : Key) : String := busSlotKey key.clientId key.domain key.valueDate

structure Slot where
  key : Key
  state : SlotState
  expectationId : String
  side1Arrival : String := ""
  side2Arrival : String := ""
  assignmentId : String := ""
  openedAt : Instant
  deadline : Instant
deriving DecidableEq, Repr

namespace Slot

/-- Both sides are present. -/
def complete (slot : Slot) : Bool := slot.side1Arrival ≠ "" && slot.side2Arrival ≠ ""

/-- The side of an incomplete slot that never arrived. -/
def missingSide (slot : Slot) : String :=
  if slot.side1Arrival = "" then sideInternalGl
  else if slot.side2Arrival = "" then sideExternalClient
  else ""

/-- The arrival held on a side. -/
def arrivalOn (slot : Slot) (side : String) : String :=
  if side = sideInternalGl then slot.side1Arrival else slot.side2Arrival

end Slot

/-- The input of the state machine. -/
structure Arrival where
  arrivalId : String
  clientId : String
  domain : String
  valueDate : String
  side : String
deriving DecidableEq, Repr

def Arrival.key (arrival : Arrival) : Key := ⟨arrival.clientId, arrival.domain, arrival.valueDate⟩

/-- What an arrival did to a slot. -/
structure Outcome where
  slot : Slot
  assign : Bool := false
  supersedes : String := ""
  reason : String
deriving DecidableEq, Repr

inductive SlotError where
  | notADate (text : String)
  | noCalendar (clientId : String)
  | outsideWindow (valueDate clientId : String) (windowDays : Int)
  | unknownClient (clientId : String)
  | noExpectation (clientId domain : String)
  | unknownSide (side : String)
  | notFound (key : Key)
deriving DecidableEq, Repr

/-- The error's text. For a malformed date the parser's own message follows. -/
def SlotError.text : SlotError → String
  | .notADate text => "slot: \"" ++ text ++ "\" is not a YYYY-MM-DD value date"
  | .noCalendar clientId => "slot: no calendar for client " ++ clientId
  | .outsideWindow valueDate clientId windowDays =>
      "slot: value date outside the late-arrival window: " ++ valueDate ++ " for " ++ clientId ++
        " (window " ++ toString windowDays ++ " business days)"
  | .unknownClient clientId => "slot: unknown client " ++ clientId
  | .noExpectation clientId domain =>
      "slot: client " ++ clientId ++ " has no expectation for domain " ++ domain
  | .unknownSide side => "slot: unknown side \"" ++ side ++ "\""
  | .notFound key => "slot: " ++ key.text ++ " not found when recording assignment"

/-- `errors.Is(err, ErrOutsideWindow)`. -/
def SlotError.isOutsideWindow : SlotError → Bool
  | .outsideWindow .. => true
  | _ => false

def describeSide (existing label : String) : String :=
  if existing = "" then "first " ++ label ++ " file for this slot"
  else "replacement " ++ label ++ " file for this slot"

namespace Slot

/-- Put the arrival on its side; the text says whether it is the first there. -/
def placeSide (slot : Slot) (arrival : Arrival) : Except SlotError (Slot × String) :=
  if arrival.side = sideInternalGl then
    .ok ({ slot with side1Arrival := arrival.arrivalId },
      describeSide slot.side1Arrival "internal GL")
  else if arrival.side = sideExternalClient then
    .ok ({ slot with side2Arrival := arrival.arrivalId },
      describeSide slot.side2Arrival "external client")
  else .error (.unknownSide arrival.side)

/-- Move to the next state. `replacing` says that the slot had dispatched. -/
def settle (slot : Slot) (replacing : Bool) (reason : String) : Outcome :=
  if slot.complete && replacing then
    -- A correction: the prior assignment must be voided before its replacement.
    { slot := { slot with state := .stateAssigned }, assign := true,
      supersedes := slot.assignmentId,
      reason := "correction supersedes a dispatched assignment" }
  else if slot.complete then
    { slot := { slot with state := .stateAssigned }, assign := true, reason }
  else { slot := { slot with state := .statePartial }, reason }

/-- The two switches of `Apply`. -/
def receive (slot : Slot) (arrival : Arrival) : Except SlotError Outcome := do
  let (placed, reason) ← slot.placeSide arrival
  return placed.settle (slot.state = .stateAssigned) reason

end Slot

/-! ## What an outcome says -/

section Outcomes

variable {slot : Slot} {arrival : Arrival} {outcome : Outcome}

theorem Slot.receive_eq_ok (h : slot.receive arrival = .ok outcome) :
    ∃ placed reason, slot.placeSide arrival = .ok (placed, reason) ∧
      outcome = placed.settle (slot.state = .stateAssigned) reason := by
  unfold Slot.receive at h
  cases hplace : slot.placeSide arrival with
  | error cause => rw [hplace] at h; cases h
  | ok result => rw [hplace] at h; cases h; exact ⟨_, _, rfl, rfl⟩

/-- Placing an arrival fills one side with it and changes nothing else. -/
theorem Slot.placeSide_eq_ok {placed : Slot} {reason : String}
    (h : slot.placeSide arrival = .ok (placed, reason)) :
    (arrival.side = sideInternalGl ∧ placed = { slot with side1Arrival := arrival.arrivalId }) ∨
      (arrival.side = sideExternalClient ∧
        placed = { slot with side2Arrival := arrival.arrivalId }) := by
  unfold Slot.placeSide at h
  split at h
  next hside =>
    cases h
    exact .inl ⟨hside, rfl⟩
  next _ =>
    split at h
    next hside =>
      cases h
      exact .inr ⟨hside, rfl⟩
    next _ => cases h

/-- The outcome's slot is the placed slot in its next state. -/
theorem Slot.settle_slot (slot : Slot) (replacing : Bool) (reason : String) :
    (slot.settle replacing reason).slot =
      { slot with state := if slot.complete then .stateAssigned else .statePartial } := by
  unfold Slot.settle
  cases slot.complete <;> cases replacing <;> rfl

/-- An assignment is due exactly when both sides are present. -/
theorem Slot.settle_assign (slot : Slot) (replacing : Bool) (reason : String) :
    (slot.settle replacing reason).assign = slot.complete := by
  unfold Slot.settle
  cases slot.complete <;> cases replacing <;> rfl

/-- Only a dispatched slot that is complete again supersedes its assignment. -/
theorem Slot.settle_supersedes (slot : Slot) (replacing : Bool) (reason : String) :
    (slot.settle replacing reason).supersedes =
      if slot.complete && replacing then slot.assignmentId else "" := by
  unfold Slot.settle
  cases slot.complete <;> cases replacing <;> rfl

end Outcomes

end Harbormaster
