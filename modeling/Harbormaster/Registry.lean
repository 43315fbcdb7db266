import Harbormaster.Calendar
import Harbormaster.Foundation.Dict
import Mathlib.Data.List.Dedup
import Mathlib.Data.List.Sort

/-! # Client configuration

The configuration both languages read from the same files: who the clients are,
which reconciliations they take part in and which calendar they follow.
-/

namespace Harbormaster

/-- What is expected on one side of a reconciliation. -/
structure SideSpec where
  sourceHint : String
  formats : List String := []
deriving DecidableEq, Repr

structure Sides where
  internalGl : SideSpec
  externalClient : SideSpec
deriving DecidableEq, Repr

/-- One recurring reconciliation of a client. -/
structure Expectation where
  id : String
  domain : String
  cadence : String := "DAILY"
  cutsPerDay : Int := 1
  sides : Sides := ⟨⟨"gl", []⟩, ⟨"client", []⟩⟩
  valueDateFieldHints : List String := []
deriving DecidableEq, Repr

structure Account where
  id : String
  name : String := ""
  venues : List String := []
deriving DecidableEq, Repr

/-- A pattern for the names of a client's files. -/
structure FilenameHint where
  pattern : String
  domainMap : List (String × String) := []
  domain : String := ""
  sourceHint : String := ""
deriving DecidableEq, Repr

/-- One counterparty's configuration. -/
structure Client where
  clientId : String
  clientName : String := ""
  calendar : String
  lateWindowDays : Int := 0
  accounts : List Account := []
  expectations : List Expectation := []
  fieldOverrides : List (String × String) := []
  filenameHints : List FilenameHint := []
deriving DecidableEq, Repr

/-- The expectation covering a domain, the first one when several do. -/
def Client.expectationFor (client : Client) (domain : String) : Option Expectation :=
  client.expectations.find? fun e => e.domain = domain

/-- Every value-date column name this client is known to use, each once. -/
def Client.valueDateHints (client : Client) : List String :=
  client.expectations.foldl (fun seen e =>
    e.valueDateFieldHints.foldl (fun seen hint =>
      if hint ∈ seen then seen else seen ++ [hint]) seen) []

/-- The loaded configuration. -/
structure Registry where
  clients : List Client
  calendars : List Calendar
deriving Repr

namespace Registry

variable (reg : Registry)

def client (clientId : String) : Option Client :=
  reg.clients.find? fun c => c.clientId = clientId

def calendar (calendarId : String) : Option Calendar :=
  reg.calendars.find? fun c => c.calendarId = calendarId

/-- The calendar a client uses. -/
def calendarFor (clientId : String) : Option Calendar := do
  reg.calendar (← reg.client clientId).calendar

/-- The clients in the order of their ids. -/
def sortedClients : List Client :=
  ((reg.clients.map Client.clientId).dedup.insertionSort (· ≤ ·)).filterMap reg.client

/-- Account id to client id, across every client. -/
def allAccountIds : Ordered.Dict String String :=
  .ofPairs (reg.sortedClients.flatMap fun c => c.accounts.map fun a => (a.id, c.clientId))

end Registry

end Harbormaster
