import Harbormaster.CalendarParity
import Harbormaster.Configuration

/-! # Loading the configuration

`Load` of `go/internal/registry` and `load` of `inspector/registry.py`, over the same
directory. Each language has its own YAML reader: what one makes of a file need not
be what the other makes of it.
-/

namespace Harbormaster

/-! ## The directory -/

/-- A value that `yaml.safe_load` returns. What has no constructor here (a float, a
date) is kept by its `str`. -/
inductive Yaml where
  | null
  | bool (value : Bool)
  | int (value : Int)
  | str (text : String)
  | other (truth : Bool) (text : String)
  | seq (items : List Yaml)
  | map (entries : List (Yaml × Yaml))

/-- A client file, by what the strict decoder of the one language and `safe_load` of
the other make of it; `none` when they refuse it. -/
structure ClientFile where
  name : String
  strict : Option Client
  safe : Option Yaml

/-- The files of a configuration directory, in the order of their names. -/
structure ConfigDirectory where
  calendars : List CalendarFile
  clients : List ClientFile

/-- Why a directory is refused. An exception that a value of an unforeseen shape
raises is `raised`. -/
inductive RegistryError where
  | unreadable (file : String)
  | notAMapping (file : String)
  | calendar (error : CalendarError)
  | invalid (error : ConfigError)
  | invalidPattern (file : String)
  | alreadyDefined (file clientId owner : String)
  | noClients
  | unknownCalendar (clientId calendar : String)
  | raised
deriving DecidableEq, Repr

/-- The clients in the order of their ids. -/
def clientsById (clients : Ordered.Dict String Client) : List Client :=
  ((clients.entries.map Prod.fst).insertionSort (· ≤ ·)).filterMap clients.get?

def Client.account (client : Client) (accountId : String) : Option Account :=
  client.accounts.find? fun a => a.id = accountId

/-- Every client follows a calendar that is there. -/
def requireCalendars {Cal : Type} (clients : Ordered.Dict String Client)
    (calendars : Ordered.Dict String Cal) : Except RegistryError Unit :=
  clients.entries.forM fun (_, c) =>
    if (calendars.get? c.calendar).isSome then .ok ()
    else .error (.unknownCalendar c.clientId c.calendar)

/-! ## `go/internal/registry` -/

structure GoRegistry where
  clients : Ordered.Dict String Client
  calendars : Ordered.Dict String GoCalendar

namespace GoRegistry

/-- One round of `loadClients`. -/
def addClient (compiles : String → Bool) (clients : Ordered.Dict String Client)
    (file : ClientFile) : Except RegistryError (Ordered.Dict String Client) := do
  let c ← Fallible.require (.unreadable file.name) file.strict
  (validateClient compiles file.name c).mapError .invalid
  match clients.get? c.clientId with
  | some existing => .error (.alreadyDefined file.name c.clientId existing.clientName)
  | none => .ok (clients.set c.clientId c)

/-- `Load`. -/
def load (compiles : String → Bool) (toUpper : Char → Char) (dir : ConfigDirectory) :
    Except RegistryError GoRegistry := do
  let calendars ← dir.calendars.mapM fun file =>
    (GoCalendar.load toUpper file).mapError RegistryError.calendar
  let calendars := Ordered.Dict.ofPairs (calendars.map fun c => (c.calendarId, c))
  let clients ← dir.clients.foldlM (addClient compiles) .empty
  if clients.entries = [] then .error .noClients
  else do
    requireCalendars clients calendars
    return { clients, calendars }

variable (registry : GoRegistry)

/-- `Client`. -/
def client (clientId : String) : Option Client := registry.clients.get? clientId

/-- `AccountOwner`. -/
def accountOwner (accountId : String) : Option (Client × Account) :=
  (clientsById registry.clients).findSome? fun c => (c.account accountId).map fun a => (c, a)

end GoRegistry

/-! ## `inspector/registry.py` -/

/-- The functions of the language on what YAML holds. -/
structure YamlRuntime where
  /-- `str` of a list or a mapping. -/
  str : Yaml → String
  /-- `int` of what is no integer; `none` raises. -/
  int : Yaml → Option Int
  /-- `re.compile`. -/
  compiles : String → Bool

namespace Yaml

variable (runtime : YamlRuntime)

/-- `bool(value)`. -/
def truth : Yaml → Bool
  | .null => false
  | .bool value => value
  | .int value => value ≠ 0
  | .str text => text ≠ ""
  | .other truth _ => truth
  | .seq items => !items.isEmpty
  | .map entries => !entries.isEmpty

/-- `value or default`. -/
def orElse (value default : Yaml) : Yaml := if value.truth then value else default

/-- `str(value)`. -/
def text : Yaml → String
  | .null => "None"
  | .bool value => if value then "True" else "False"
  | .int value => toString value
  | .str text => text
  | .other _ text => text
  | value => runtime.str value

/-- `int(value)`. -/
def toInt : Yaml → Except RegistryError Int
  | .bool value => .ok (if value then 1 else 0)
  | .int value => .ok value
  | value => Fallible.require .raised (runtime.int value)

def isKey (key : String) : Yaml → Bool
  | .str text => text = key
  | _ => false

/-- The value of a key of a mapping. -/
def lookup (entries : List (Yaml × Yaml)) (key : String) : Option Yaml :=
  (entries.find? fun entry => entry.1.isKey key).map Prod.snd

/-- `value.get(key, default)`. -/
def get (value : Yaml) (key : String) (default : Yaml) : Except RegistryError Yaml :=
  match value with
  | .map entries => .ok ((lookup entries key).getD default)
  | _ => .error .raised

/-- `value[key]`. -/
def subscript (key : String) : Yaml → Except RegistryError Yaml
  | .map entries => Fallible.require .raised (lookup entries key)
  | _ => .error .raised

/-- `iter(value)`. -/
def iter : Yaml → Except RegistryError (List Yaml)
  | .seq items => .ok items
  | .map entries => .ok (entries.map Prod.fst)
  | .str text => .ok (text.toList.map fun c => .str (String.ofList [c]))
  | _ => .error .raised

/-- `{str(k): str(v) for k, v in value.items()}`. -/
def texts : Yaml → Except RegistryError (List (String × String))
  | .map entries =>
      .ok (Ordered.Dict.ofPairs (entries.map fun (k, v) => (k.text runtime, v.text runtime))).entries
  | _ => .error .raised

/-- `str(value.get(key, default))`. -/
def textOf (key default : String) (value : Yaml) : Except RegistryError String := do
  return (← value.get key (.str default)).text runtime

/-- `value.get(key) or []`. -/
def listOf (key : String) (value : Yaml) : Except RegistryError (List Yaml) := do
  ((← value.get key .null).orElse (.seq [])).iter

/-- `value.get(key) or {}`. -/
def mapOf (key : String) (value : Yaml) : Except RegistryError Yaml := do
  return (← value.get key .null).orElse (.map [])

/-- One entry of `filename_hints`. -/
def filenameHint (file : String) (h : Yaml) : Except RegistryError FilenameHint := do
  let pattern := (← h.subscript "pattern").text runtime
  if runtime.compiles pattern then
    let domainMap ← (← h.mapOf "domain_map").texts runtime
    let domain ← h.textOf runtime "domain" ""
    let sourceHint ← h.textOf runtime "source_hint" ""
    return { pattern, domainMap, domain, sourceHint }
  else .error (.invalidPattern file)

/-- One entry of `expectations`. -/
def expectation (e : Yaml) : Except RegistryError Expectation := do
  let sides ← e.mapOf "sides"
  let id := (← e.subscript "id").text runtime
  let domain := (← e.subscript "domain").text runtime
  let cadence ← e.textOf runtime "cadence" "DAILY"
  let cutsPerDay ← (← e.get "cuts_per_day" (.int 1)).toInt runtime
  let valueDateFieldHints := (← e.listOf "value_date_field_hints").map fun v => v.text runtime
  let externalClient ← (← sides.mapOf "external_client").textOf runtime "source_hint" ""
  let internalGl ← (← sides.mapOf "internal_gl").textOf runtime "source_hint" ""
  return { id, domain, cadence, cutsPerDay, valueDateFieldHints,
           sides := ⟨⟨internalGl, []⟩, ⟨externalClient, []⟩⟩ }

/-- One entry of `accounts`. -/
def accountEntry (a : Yaml) : Except RegistryError Account := do
  let id := (← a.subscript "id").text runtime
  let name ← a.textOf runtime "name" ""
  let venues := (← a.listOf "venues").map fun v => v.text runtime
  return { id, name, venues }

end Yaml

namespace ClientFile

/-- One round of `_load_clients`. -/
def client (runtime : YamlRuntime) (file : ClientFile) : Except RegistryError Client := do
  let data ← Fallible.require (.unreadable file.name) file.safe
  match data with
  | .map _ =>
      let filenameHints ← (← data.listOf "filename_hints").mapM (Yaml.filenameHint runtime file.name)
      let expectations ← (← data.listOf "expectations").mapM (Yaml.expectation runtime)
      let clientId := (← data.subscript "client_id").text runtime
      let clientName ← data.textOf runtime "client_name" ""
      let calendar := (← data.subscript "calendar").text runtime
      let lateWindowDays ← (← data.get "late_window_days" (.int 2)).toInt runtime
      let accounts ← (← data.listOf "accounts").mapM (Yaml.accountEntry runtime)
      let fieldOverrides ← (← data.mapOf "field_overrides").texts runtime
      return { clientId, clientName, calendar, lateWindowDays, accounts, expectations,
               fieldOverrides, filenameHints }
  | _ => .error (.notAMapping file.name)

end ClientFile

structure PythonRegistry where
  clients : Ordered.Dict String Client
  calendars : Ordered.Dict String PythonCalendar

namespace PythonRegistry

/-- `load`. Of several files with one id the last is kept. -/
def load (runtime : YamlRuntime) (text : Inspector.Runtime) (dir : ConfigDirectory) :
    Except RegistryError PythonRegistry := do
  let calendars ← dir.calendars.mapM fun file =>
    (PythonCalendar.load text file).mapError RegistryError.calendar
  let calendars := Ordered.Dict.ofPairs (calendars.map fun c => (c.calendarId, c))
  let clients ← dir.clients.mapM fun file => file.client runtime
  let clients := Ordered.Dict.ofPairs (clients.map fun c => (c.clientId, c))
  if clients.entries = [] then .error .noClients
  else do
    requireCalendars clients calendars
    return { clients, calendars }

variable (registry : PythonRegistry)

/-- `client`. -/
def client (clientId : String) : Option Client := registry.clients.get? clientId

/-- `account_owner`. -/
def accountOwner (accountId : String) : Option (Client × Account) :=
  (clientsById registry.clients).findSome? fun c => (c.account accountId).map fun a => (c, a)

/-- `all_account_ids`. -/
def allAccountIds : Ordered.Dict String String :=
  .ofPairs ((clientsById registry.clients).flatMap fun c =>
    c.accounts.map fun a => (a.id, c.clientId))

end PythonRegistry

end Harbormaster
