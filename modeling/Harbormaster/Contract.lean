import Harbormaster.Calendar

/-! # Message contracts

The messages of `proto/harbormaster/v1` that the services exchange, and the bus
they travel on. Open enumerations keep numbers they do not know; a text or
number that was never set is empty or zero.
-/

namespace Harbormaster

/-! ## Enumerations -/

inductive ProductDomain where
  | unspecified | trade | position | cash | collateral
  | unrecognized (number : Int)
deriving DecidableEq, Repr

inductive ReconSide where
  | unspecified | internalGl | externalClient
  | unrecognized (number : Int)
deriving DecidableEq, Repr

inductive ArrivalDisposition where
  | unspecified | dispatched | quarantined | rejected | suppressedDuplicate
  | unrecognized (number : Int)
deriving DecidableEq, Repr

/-- The enumeration name without its prefix, as the registry spells domains. -/
def domainName : ProductDomain → String
  | .unspecified => "UNSPECIFIED"
  | .trade => "TRADE"
  | .position => "POSITION"
  | .cash => "CASH"
  | .collateral => "COLLATERAL"
  | .unrecognized number => toString number

/-- The numeral of an unknown value holds digits and a sign only. -/
theorem not_mem_toString {c : Char} (hdigit : c.isDigit = false) (hsign : c ≠ '-') (number : Int) :
    c ∉ (toString number).toList := by
  have hrepr : ∀ n : Nat, c ∉ n.repr.toList := by
    intro n hmem
    rw [Nat.repr, String.toList_ofList] at hmem
    have hdigits := Nat.isDigit_of_mem_toDigits (by decide) (by decide) hmem
    rw [hdigit] at hdigits
    cases hdigits
  change c ∉ (Int.repr number).toList
  cases number with
  | ofNat n => exact hrepr n
  | negSucc n =>
      rw [Int.repr, String.toList_append, List.mem_append, not_or]
      exact ⟨by simpa using hsign, hrepr _⟩

/-- The domain with a given name; an unknown name is the zero value. -/
def domainEnum (name : String) : ProductDomain :=
  if name = "TRADE" then .trade
  else if name = "POSITION" then .position
  else if name = "CASH" then .cash
  else if name = "COLLATERAL" then .collateral
  else .unspecified

def sideInternalGl : String := "INTERNAL_GL"
def sideExternalClient : String := "EXTERNAL_CLIENT"

def sideName : ReconSide → String
  | .unspecified => "UNSPECIFIED"
  | .internalGl => sideInternalGl
  | .externalClient => sideExternalClient
  | .unrecognized number => toString number

def sideEnum (name : String) : ReconSide :=
  if name = sideInternalGl then .internalGl
  else if name = sideExternalClient then .externalClient
  else .unspecified

/-! ## Messages -/

structure ArrivalRaw where
  arrivalId : String
  detectedAt : Instant
  ingress : String
  uri : String
  originalName : String
  sizeBytes : Int
  contentSha256 : String
  landingDir : String
  stabilityMs : Int
deriving DecidableEq, Repr

/-- The part of the value-date resolution that travels on the wire. -/
structure ValueDateResolution where
  resolved : String := ""
  fromFilename : String := ""
  fromContent : List String := []
  fromArrival : String := ""
  method : String := ""
  confidence : Rat := 0
  mismatchFlagged : Bool := false
  calendarId : String := ""
  notes : String := ""
deriving DecidableEq, Repr

structure ArrivalClassified where
  arrivalId : String := ""
  clientId : String := ""
  domain : ProductDomain := .unspecified
  reconSide : ReconSide := .unspecified
  valueDate : ValueDateResolution := {}
  rowCount : Int := 0
  canonicalUri : String := ""
  overallConfidence : Rat := 0
  disposition : ArrivalDisposition := .unspecified
deriving DecidableEq, Repr

structure SideRef where
  arrivalId : String := ""
  canonicalUri : String := ""
  rowCount : Int := 0
deriving DecidableEq, Repr

structure BerthAssigned where
  assignmentId : String
  emittedAt : Instant
  clientId : String
  domain : ProductDomain
  valueDate : String
  side1 : SideRef
  side2 : SideRef
  expectationId : String
  confidence : Rat
  supersedes : String
  notes : String
deriving DecidableEq, Repr

structure BerthSuperseded where
  assignmentId : String
  supersededBy : String
  reason : String
  emittedAt : Instant
deriving DecidableEq, Repr

structure MissingFileAlert where
  clientId : String
  domain : ProductDomain
  valueDate : String
  expectationId : String
  missingSide : ReconSide
  deadline : Instant
  emittedAt : Instant
deriving DecidableEq, Repr

/-! ## The bus -/

inductive Topic where
  | arrivalsRaw | arrivalsClassified | berthAssigned | berthSuperseded | alertsMissing
deriving DecidableEq, Repr

inductive Payload where
  | arrivalRaw (raw : ArrivalRaw)
  | berthAssigned (assigned : BerthAssigned)
  | berthSuperseded (void : BerthSuperseded)
  | missingFileAlert (alert : MissingFileAlert)
deriving DecidableEq, Repr

/-- A published message. Its key determines the partition, and with it the
order in which consumers see it. -/
structure Message where
  topic : Topic
  key : String
  value : Payload
deriving DecidableEq, Repr

/-- The partition key of a reconciliation slot. -/
def busSlotKey (clientId domain valueDate : String) : String :=
  clientId ++ ":" ++ domain ++ ":" ++ valueDate

/-! ## Audit entries -/

/-- The values the services put into the inputs and the outcome of a decision.
An instant is written as its RFC 3339 text. -/
inductive AuditValue where
  | text (value : String)
  | flag (value : Bool)
  | number (value : Int)
  | instant (value : Instant)
deriving DecidableEq, Repr

/-- A decision to be recorded. -/
structure AuditEntry where
  arrivalId : String
  component : String
  decisionType : String
  inputs : List (String × AuditValue)
  outcome : List (String × AuditValue)
  actor : String := ""
deriving DecidableEq, Repr

/-! ## Generated names -/

/-- A generated identifier: 26 characters, and so never empty. -/
structure Ulid where
  text : String
  length_eq : text.length = 26
deriving DecidableEq, Repr

instance : Inhabited Ulid := ⟨⟨"00000000000000000000000000", by decide⟩⟩

theorem Ulid.text_ne_empty (id : Ulid) : id.text ≠ "" := by
  intro h
  have := id.length_eq
  rw [h] at this
  exact absurd this (by decide)

end Harbormaster
