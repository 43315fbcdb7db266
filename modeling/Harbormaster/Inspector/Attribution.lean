import Harbormaster.Inspector.Table
import Harbormaster.Inspector.Text
import Harbormaster.Registry
import Mathlib.Data.List.MinMax

/-! # Which client a file belongs to

`attribution` of the inspector. Account identifiers in the contents and a
configured filename pattern are weighed against each other: agreement raises the
confidence, disagreement lowers it.
-/

namespace Harbormaster.Inspector

open Matching Matcher Ordered

variable (runtime : Runtime)

def domainUnknown : String := "UNKNOWN"

def confAccountMatch : ℚ := 95 / 100
def confFilenameMatch : ℚ := 80 / 100
def confBothAgree : ℚ := 99 / 100
def confConflict : ℚ := 45 / 100
def confNone : ℚ := 0

/-- Which client a file belongs to, and why we think so. -/
structure Attribution where
  clientId : Option String
  confidence : ℚ
  accountIds : List String := []
  domain : String := domainUnknown
  sourceHint : String := ""
  filenameDateText : String := ""
  evidence : List String := []
  conflict : Bool := false
deriving DecidableEq

def Attribution.resolved (attribution : Attribution) : Bool := attribution.clientId.isSome

/-! ## Account identifiers -/

/-- `[A-Z0-9]` in any letter case, with the four letters outside ASCII that fold
onto it. -/
def isAccountChar (c : Char) : Bool :=
  c.isAlphanum || [0x130, 0x131, 0x17F, 0x212A].contains c.toNat

def accountCandidate : Matcher (List Char) :=
  captured do
    boundary fun c => runtime.isalnum c || c = '_'
    let _ ← between (satisfy isAccountChar) 2 6
    let _ ← satisfy fun c => c = '-' || c = '_'
    let _ ← between (satisfy isAccountChar) 3 6
    let _ ← upTo (do
      let _ ← satisfy fun c => c = '-' || c = '_'
      between (satisfy isAccountChar) 2 6) 1
    boundary fun c => runtime.isalnum c || c = '_'

def accountColumnHints : List String :=
  ["accountid", "account", "acctno", "acctnum", "accountnumber", "acctid", "accountno",
    "clientaccount", "custodyaccount", "safekeepingaccount", "portfolioid", "book", "bookid",
    "subaccount", "clearingaccount", "acct"]

/-- Add an identifier that is known and new. -/
def addKnown (known : Dict String String) (found : List String) (candidate : String) :
    List String :=
  if (known.get? candidate).isSome && !found.contains candidate then found ++ [candidate]
  else found

/-- The identifiers in one cell. Outside the obvious columns a cell that is none
itself is searched for some. -/
def scanCell (known : Dict String String) (obvious : Bool) (found : List String)
    (value : String) : List String :=
  if value = "" then found
  else if (known.get? value).isSome && !found.contains value then found ++ [value]
  else if obvious then found
  else ((accountCandidate runtime).findAll value.toList).foldl
    (fun found candidate => addKnown known found (String.ofList candidate)) found

/-- Extract the account identifiers that the registry recognises, each once, in
the order in which they are met. -/
def findAccountIds (headers : List String) (rows : List Row) (known : Dict String String)
    (limit : Nat := 500) : List String :=
  let accountColumns := headers.filter fun h =>
    accountColumnHints.contains (normalizeHeader runtime h)
  let scanColumns := if accountColumns = [] then headers else accountColumns
  (rows.take limit).foldl (fun found row =>
    scanColumns.foldl (fun found header =>
      scanCell runtime known (accountColumns ≠ []) found (strip (row.cell header))) found) []

/-! ## Filename patterns -/

/-- The domain and the date text that a filename gives under a hint. -/
def FilenameHint.matchName (hint : FilenameHint) (name : String) : Option (String × String) := do
  let groups ← runtime.groupdict hint.pattern name
  let group := fun key => ((groups.find? fun entry => entry.1 = key).bind Prod.snd).getD ""
  let mapped := (hint.domainMap.find? fun entry => entry.1 = group "domain").map Prod.snd
  let domain := if group "domain" = "" then hint.domain else mapped.getD hint.domain
  return (domain, group "date")

/-- What a filename says: the client, the domain, the source and the date text. -/
structure FilenameMatch where
  client : Client
  domain : String
  sourceHint : String
  dateText : String

/-- `value or other` of two texts. -/
def orElseText (value other : String) : String := if value = "" then other else value

def matchFilename (filename : String) (registry : Registry) : Option FilenameMatch :=
  registry.sortedClients.findSome? fun client =>
    client.filenameHints.findSome? fun hint =>
      (FilenameHint.matchName runtime hint filename).map fun (domain, dateText) =>
        { client, domain := orElseText domain domainUnknown, sourceHint := hint.sourceHint,
          dateText }

/-! ## The decision -/

/-- `_build`. A filename without a domain leaves the client's sole expectation. -/
def build (clientId : String) (confidence : ℚ) (accountIds : List String)
    (domain sourceHint dateText : String) (evidence : List String) (registry : Registry)
    (conflict : Bool) : Attribution :=
  let sole : Option Expectation := do
    let client ← registry.client clientId
    match client.expectations with
    | [e] => if domain = "" ∨ domain = domainUnknown then some e else none
    | _ => none
  let domain := (sole.map Expectation.domain).getD domain
  { clientId := some clientId
    confidence := confidence
    accountIds := accountIds
    domain := orElseText domain domainUnknown
    sourceHint := sourceHint
    filenameDateText := dateText
    evidence := evidence ++ (match sole with
      | some e => ["client has a single expectation; domain taken as " ++ e.domain]
      | none => [])
    conflict := conflict }

/-- The owner of most identifiers, of several the one met first. -/
def mainOwner (owners : List String) : Option String :=
  owners.argmax fun owner => owners.count owner

/-- Identify the owning client. -/
def attributeFile (filename : String) (headers : List String) (rows : List Row)
    (registry : Registry) : Attribution :=
  let named := matchFilename runtime filename registry
  let domain := (named.map FilenameMatch.domain).getD ""
  let sourceHint := (named.map FilenameMatch.sourceHint).getD ""
  let dateText := (named.map FilenameMatch.dateText).getD ""
  let known := registry.allAccountIds
  let accountIds := findAccountIds runtime headers rows known
  let owners := accountIds.filterMap known.get?
  let evidence :=
    (match named with
      | some m => ["filename matches " ++ m.client.clientId ++ " pattern"]
      | none => []) ++
    (match mainOwner owners with
      | some owner => [toString accountIds.length ++
          " known account identifier(s) resolving to " ++ owner]
      | none => [])
  if 1 < owners.dedup.length then
    { clientId := none
      confidence := confConflict
      accountIds := accountIds
      domain := orElseText domain domainUnknown
      sourceHint := sourceHint
      filenameDateText := dateText
      evidence := evidence ++ ["contents reference " ++ toString owners.dedup.length ++
        " different clients: " ++ join ", " (owners.dedup.insertionSort (· ≤ ·))]
      conflict := true }
  else
    match truthy (mainOwner owners), truthy (named.map fun m => m.client.clientId) with
    | some owner, some filenameClientId =>
        if owner = filenameClientId then
          build owner confBothAgree accountIds domain sourceHint dateText
            (evidence ++ ["filename and contents agree"]) registry false
        else
          build owner confConflict accountIds domain sourceHint dateText
            (evidence ++ ["filename says " ++ filenameClientId ++
              " but account identifiers say " ++ owner]) registry true
    | some owner, none =>
        build owner confAccountMatch accountIds domain sourceHint dateText evidence registry false
    | none, some filenameClientId =>
        build filenameClientId confFilenameMatch accountIds domain sourceHint dateText evidence
          registry false
    | none, none =>
        { clientId := none
          confidence := confNone
          evidence := evidence ++
            ["no filename pattern matched and no known account identifiers were found"] }

/-- An attributed client has a name. -/
theorem clientId_ne_empty {filename : String} {headers : List String} {rows : List Row}
    {registry : Registry} {clientId : String}
    (h : (attributeFile runtime filename headers rows registry).clientId = some clientId) :
    clientId ≠ "" := by
  unfold attributeFile at h
  dsimp only at h
  split at h
  next => cases h
  next =>
    split at h
    next owner _ howner _ =>
      have hne := (truthy_eq_some.mp howner).2
      split at h <;> exact Option.some.inj h ▸ hne
    next howner _ => exact Option.some.inj h ▸ (truthy_eq_some.mp howner).2
    next hnamed => exact Option.some.inj h ▸ (truthy_eq_some.mp hnamed).2
    next => cases h

end Harbormaster.Inspector
