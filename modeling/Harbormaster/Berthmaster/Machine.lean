import Harbormaster.Berthmaster.Effects

/-! # The slot state machine

`Machine` of `go/internal/slot`: routing an arrival to its slot, stamping a
published assignment onto it, and marking the slots whose deadline has passed.
-/

namespace Harbormaster.Berthmaster

open Effect Program

/-- The configuration of the state machine. -/
structure Machine where
  reg : Registry
  fallback : Int
  fallback_pos : 0 < fallback

def newMachine (reg : Registry) (fallbackWindowDays : Int) : Machine :=
  if h : fallbackWindowDays ≤ 0 then ⟨reg, 2, by decide⟩
  else ⟨reg, fallbackWindowDays, by omega⟩

def parseDate (text : String) : Except SlotError Day :=
  match Civil.parseIso text with
  | some date => .ok date.ordinal
  | none => .error (.notADate text)

namespace Machine

variable (machine : Machine)

/-- The late-arrival window of a client, in business days. -/
def windowDays (clientId : String) : Int :=
  match machine.reg.client clientId with
  | some client => if 0 < client.lateWindowDays then client.lateWindowDays else machine.fallback
  | none => machine.fallback

def calendarFor (clientId : String) : Except SlotError Calendar :=
  match machine.reg.calendarFor clientId with
  | some calendar => .ok calendar
  | none => .error (.noCalendar clientId)

/-- Whether a value date lies within the window around the present day. -/
def inWindow (calendar : Calendar) (clientId : String) (valueDay today : Day) : Bool :=
  calendar.addBusinessDays today (-machine.windowDays clientId) ≤ valueDay &&
    valueDay ≤ calendar.addBusinessDays today (machine.windowDays clientId)

/-- Whether a value date is close enough to now to be routed. -/
def accepts (clientId valueDate : String) : Service Bool := do
  let valueDay ← ofExcept ((parseDate valueDate).mapError .slot)
  let calendar ← ofExcept ((machine.calendarFor clientId).mapError .slot)
  let today := (← now).truncate
  return machine.inWindow calendar clientId valueDay today

/-- The expectation an accepted arrival is routed to. -/
def expectation (arrival : Arrival) : Except SlotError Expectation :=
  match machine.reg.client arrival.clientId with
  | none => .error (.unknownClient arrival.clientId)
  | some client =>
      match client.expectationFor arrival.domain with
      | none => .error (.noExpectation arrival.clientId arrival.domain)
      | some expectation => .ok expectation

/-- The last minute of the late window past the value date. -/
def deadlineFor (clientId valueDate : String) : Except SlotError Instant := do
  let valueDay ← parseDate valueDate
  let calendar ← machine.calendarFor clientId
  return (calendar.addBusinessDays valueDay (machine.windowDays clientId)).midnight +
    (23 * 60 + 59) * microsPerMinute

/-- A slot on its first arrival. -/
def openSlot (arrival : Arrival) (expectation : Expectation) (openedAt deadline : Instant) :
    Slot where
  key := arrival.key
  state := .stateOpen
  expectationId := expectation.id
  openedAt := openedAt
  deadline := deadline

/-- The stored slot of an arrival, or one opened for it. -/
def findOrOpen (arrival : Arrival) (expectation : Expectation) : Service Slot := do
  match ← storeGet arrival.key with
  | some slot => return slot
  | none => do
      let deadline ← ofExcept
        ((machine.deadlineFor arrival.clientId arrival.valueDate).mapError .slot)
      return openSlot arrival expectation (← now) deadline

/-- Route an arrival to its slot and say what should happen next. -/
def apply (arrival : Arrival) : Service Outcome := do
  if !(← machine.accepts arrival.clientId arrival.valueDate) then
    .fail (.slot (.outsideWindow arrival.valueDate arrival.clientId
      (machine.windowDays arrival.clientId)))
  else
    let expectation ← ofExcept ((machine.expectation arrival).mapError .slot)
    let slot ← machine.findOrOpen arrival expectation
    let outcome ← ofExcept ((slot.receive arrival).mapError .slot)
    storeUpsert outcome.slot
    return outcome

/-- Stamp a published assignment onto its slot. -/
def recordAssignment (key : Key) (assignmentId : String) : Service Unit := do
  match ← storeGet key with
  | none => .fail (.slot (.notFound key))
  | some slot => storeUpsert { slot with assignmentId, state := .stateAssigned }

/-- The loop of `Overdue` over the selected slots. -/
def markMissing : List Slot → Service (List Slot)
  | [] => return []
  | slot :: rest =>
      if slot.state = .stateAssigned ∨ slot.state = .stateMissing then markMissing rest
      else do
        let marked := { slot with state := .stateMissing }
        storeUpsert marked
        return marked :: (← markMissing rest)

/-- The slots whose deadline has passed without both sides, now marked missing. -/
def overdue : Service (List Slot) := do
  markMissing (← storeDueBefore (← now))

end Machine

end Harbormaster.Berthmaster
