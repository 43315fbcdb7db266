import Harbormaster.Foundation.Program
import Harbormaster.Foundation.Succession
import Harbormaster.Slot.Store

/-! # The calls of the berthmaster

Everything the service asks of its surroundings: the clock, fresh names, the
slot table, the audit log and the bus. A failed call leaves no effect; an effect
whose acknowledgement is lost is an execution stopped right after it.
-/

namespace Harbormaster.Berthmaster

open Effect Program

/-- Why the service returned an error. -/
inductive Failure where
  | decode
  | slot (cause : SlotError)
  | store
  | audit
  | bus
deriving DecidableEq

inductive Call where
  | now
  | newId
  | get (key : Key)
  | upsert (slot : Slot)
  | dueBefore (now : Instant)
  | append (entry : AuditEntry)
  | publish (message : Message)
deriving DecidableEq

/-- The reply to each call; `none` is a failure of the component asked. -/
abbrev Reply : Call → Type
  | .now => Instant
  | .newId => Ulid
  | .get _ => Option (Option Slot)
  | .upsert _ => Option Unit
  | .dueBefore _ => Option (List Slot)
  | .append _ => Option Unit
  | .publish _ => Option Unit

abbrev Service := Program Call Reply Failure

def now : Service Instant := ask Call.now
def newId : Service Ulid := ask Call.newId
def storeGet (key : Key) : Service (Option Slot) := ask (Call.get key) >>= orFail .store
def storeUpsert (slot : Slot) : Service Unit := ask (Call.upsert slot) >>= orFail .store
def storeDueBefore (time : Instant) : Service (List Slot) :=
  ask (Call.dueBefore time) >>= orFail .store
def append (entry : AuditEntry) : Service Unit := ask (Call.append entry) >>= orFail .audit
def publish (message : Message) : Service Unit := ask (Call.publish message) >>= orFail .bus

/-! ## The surroundings -/

/-- What the surroundings choose at one call: the clock reading, the next fresh
name, whether the component fails, and the order of a selection. -/
structure Choice where
  clock : Instant
  id : Ulid
  fault : Bool := false
  arrange : {f : List Slot → List Slot // ∀ slots, (f slots).Perm slots} :=
    ⟨fun slots => slots, List.Perm.refl⟩

/-- Answer one call. -/
def answer (slots : SlotTable) (choice : Choice) :
    (request : Call) → SlotTable × Reply request
  | .now => (slots, choice.clock)
  | .newId => (slots, choice.id)
  | .get key => (slots, if choice.fault then none else some (slots.get key))
  | .upsert slot => if choice.fault then (slots, none) else (slots.put slot, some ())
  | .dueBefore time =>
      (slots, if choice.fault then none else some (choice.arrange.1 (slots.dueBefore time)))
  | .append _ => (slots, if choice.fault then none else some ())
  | .publish _ => (slots, if choice.fault then none else some ())

/-- The slot table and the calls made so far. -/
abbrev World := Recorded SlotTable Call Reply

def perform : World → Choice → (request : Call) → World × Reply request := record answer

/-- An empty store before any call. -/
def World.initial : World := ⟨∅, []⟩

/-! ## Deeds

The calls that succeeded in changing something outside the service. -/

inductive Deed where
  | stored (slot : Slot)
  | audited (entry : AuditEntry)
  | published (message : Message)
deriving DecidableEq

def deed? : Event Call Reply → Option Deed
  | ⟨.upsert slot, some ()⟩ => some (.stored slot)
  | ⟨.append entry, some ()⟩ => some (.audited entry)
  | ⟨.publish message, some ()⟩ => some (.published message)
  | _ => none

/-- The deeds of a world, oldest first. -/
def World.journal (world : World) : List Deed := world.calls.filterMap deed?

/-- What a deed does to the slot table. -/
def enact (slots : SlotTable) : Deed → SlotTable
  | .stored slot => slots.put slot
  | _ => slots

/-- A deed as an instruction of the succession on one partition of the bus. -/
def Deed.berth? (partition : String) : Deed → Option (Succession.Entry String)
  | .published message =>
      if message.key = partition then
        match message.value with
        | .berthAssigned assigned => some (.issue assigned.assignmentId
            (if assigned.supersedes = "" then none else some assigned.supersedes))
        | .berthSuperseded void => some (.void void.assignmentId)
        | _ => none
      else none
  | _ => none

/-- The berth messages published with one key. -/
def berthLog (partition : String) (journal : List Deed) : List (Succession.Entry String) :=
  journal.filterMap (Deed.berth? partition)

/-- The berth assignments published with one key. -/
def assignments (partition : String) (journal : List Deed) : List BerthAssigned :=
  journal.filterMap fun
    | .published message => match message.value with
        | .berthAssigned assigned => if message.key = partition then some assigned else none
        | _ => none
    | _ => none

end Harbormaster.Berthmaster
