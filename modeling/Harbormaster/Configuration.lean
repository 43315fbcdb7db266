import Harbormaster.Foundation.Fallible
import Harbormaster.Registry

/-! # What the loaders accept

`validateClient` and the checks of `Load` in `go/internal/registry`. The loader
of the inspector reads the same files and makes fewer checks, so both accept what
this one accepts, provided that the patterns compile in both languages.
-/

namespace Harbormaster

/-- What is wrong with a value of the configuration. -/
inductive Problem where
  | required
  | lateWindow (got : Int)
  | noAccounts
  | duplicatesAccount (id : String)
  | notARegularExpression
  | unknownDomain (domain : String)
  | mapsToUnknownDomain (key domain : String)
  | noExpectations
  | duplicatesExpectation (id : String)
  | unknownCadence (cadence : String)
  | cutsPerDay
  | missingSide
  | emptyCanonicalField (raw : String)
deriving DecidableEq, Repr

/-- The refusal of a client file, with the path of the value at fault. -/
structure ConfigError where
  file : String
  path : String
  problem : Problem
deriving DecidableEq, Repr

def validDomains : List String := ["TRADE", "POSITION", "CASH", "COLLATERAL"]

def validCadences : List String := ["DAILY", "WEEKLY", "MONTHLY"]

/-- `unicode.IsSpace`. -/
def unicodeSpace (c : Char) : Bool :=
  (9 ≤ c.toNat && c.toNat ≤ 13) || (8192 ≤ c.toNat && c.toNat ≤ 8202) ||
    [0x20, 0x85, 0xA0, 0x1680, 0x2028, 0x2029, 0x202F, 0x205F, 0x3000].contains c.toNat

/-- The path of an element of a list. -/
def elementPath (list : String) (index : Nat) : String := list ++ "[" ++ toString index ++ "]"

section Client

variable (compiles : String → Bool) (file : String)

/-- Fail unless the check holds. -/
def require (path : String) (holds : Bool) (problem : Problem) : Except ConfigError Unit :=
  if holds then .ok () else .error ⟨file, path, problem⟩

def validateAccount (accounts : List Account) (index : Nat) (account : Account) :
    Except ConfigError Unit := do
  require file (elementPath "accounts" index ++ ".id") (account.id ≠ "") .required
  require file (elementPath "accounts" index)
    (account.id ∉ (accounts.take index).map Account.id) (.duplicatesAccount account.id)

def validateHint (index : Nat) (hint : FilenameHint) : Except ConfigError Unit := do
  require file (elementPath "filename_hints" index ++ ".pattern") (compiles hint.pattern)
    .notARegularExpression
  require file (elementPath "filename_hints" index)
    (hint.domain = "" ∨ hint.domain ∈ validDomains) (.unknownDomain hint.domain)
  hint.domainMap.forM fun (key, domain) =>
    require file (elementPath "filename_hints" index ++ ".domain_map") (domain ∈ validDomains)
      (.mapsToUnknownDomain key domain)

def validateExpectation (expectations : List Expectation) (index : Nat)
    (expectation : Expectation) : Except ConfigError Unit := do
  let path := elementPath "expectations" index
  require file (path ++ ".id") (expectation.id ≠ "") .required
  require file path (expectation.id ∉ (expectations.take index).map Expectation.id)
    (.duplicatesExpectation expectation.id)
  require file (path ++ ".domain") (expectation.domain ∈ validDomains)
    (.unknownDomain expectation.domain)
  require file (path ++ ".cadence") (expectation.cadence ∈ validCadences)
    (.unknownCadence expectation.cadence)
  require file (path ++ ".cuts_per_day") (1 ≤ expectation.cutsPerDay) .cutsPerDay
  require file (path ++ ".sides") (expectation.sides.internalGl.sourceHint ≠ "" ∧
    expectation.sides.externalClient.sourceHint ≠ "") .missingSide

def validateClient (c : Client) : Except ConfigError Unit := do
  require file "client_id" (c.clientId ≠ "") .required
  require file "calendar" (c.calendar ≠ "") .required
  require file "late_window_days" (0 ≤ c.lateWindowDays ∧ c.lateWindowDays ≤ 10)
    (.lateWindow c.lateWindowDays)
  require file "accounts" (c.accounts ≠ []) .noAccounts
  c.accounts.zipIdx.forM fun (account, index) => validateAccount file c.accounts index account
  c.filenameHints.zipIdx.forM fun (hint, index) => validateHint compiles file index hint
  require file "expectations" (c.expectations ≠ []) .noExpectations
  c.expectations.zipIdx.forM fun (expectation, index) =>
    validateExpectation file c.expectations index expectation
  c.fieldOverrides.forM fun (raw, canonical) =>
    require file "field_overrides" (!(canonical.toList.all unicodeSpace))
      (.emptyCanonicalField raw)

end Client

/-- A registry that both loaders have built. -/
structure Registry.Accepted (compiles : String → Bool) (reg : Registry) : Prop where
  clients_ne_nil : reg.clients ≠ []
  valid : ∀ c ∈ reg.clients, ∃ file, validateClient compiles file c = .ok ()
  ids_nodup : (reg.clients.map Client.clientId).Nodup
  calendars : ∀ c ∈ reg.clients, (reg.calendar c.calendar).isSome
  calendars_nodup : (reg.calendars.map Calendar.calendarId).Nodup

variable {compiles : String → Bool} {file : String}

theorem require_eq_ok {path : String} {holds : Bool} {problem : Problem} :
    require file path holds problem = .ok () ↔ holds = true := by
  unfold require
  cases holds <;> simp

theorem domain_of_validateExpectation {expectations : List Expectation} {index : Nat}
    {expectation : Expectation}
    (h : validateExpectation file expectations index expectation = .ok ()) :
    expectation.domain ∈ validDomains := by
  obtain ⟨_, _, h⟩ := Fallible.bind_eq_ok.mp h
  obtain ⟨_, _, h⟩ := Fallible.bind_eq_ok.mp h
  obtain ⟨_, hdomain, _⟩ := Fallible.bind_eq_ok.mp h
  exact of_decide_eq_true (require_eq_ok.mp hdomain)

theorem accounts_of_validateClient {c : Client}
    (h : validateClient compiles file c = .ok ()) : c.accounts ≠ [] := by
  obtain ⟨_, _, h⟩ := Fallible.bind_eq_ok.mp h
  obtain ⟨_, _, h⟩ := Fallible.bind_eq_ok.mp h
  obtain ⟨_, _, h⟩ := Fallible.bind_eq_ok.mp h
  obtain ⟨_, haccounts, _⟩ := Fallible.bind_eq_ok.mp h
  exact of_decide_eq_true (require_eq_ok.mp haccounts)

theorem expectations_of_validateClient {c : Client}
    (h : validateClient compiles file c = .ok ()) :
    ∀ expectation ∈ c.expectations, expectation.domain ∈ validDomains := by
  obtain ⟨_, _, h⟩ := Fallible.bind_eq_ok.mp h
  obtain ⟨_, _, h⟩ := Fallible.bind_eq_ok.mp h
  obtain ⟨_, _, h⟩ := Fallible.bind_eq_ok.mp h
  obtain ⟨_, _, h⟩ := Fallible.bind_eq_ok.mp h
  obtain ⟨_, _, h⟩ := Fallible.bind_eq_ok.mp h
  obtain ⟨_, _, h⟩ := Fallible.bind_eq_ok.mp h
  obtain ⟨_, _, h⟩ := Fallible.bind_eq_ok.mp h
  obtain ⟨_, hexpectations, _⟩ := Fallible.bind_eq_ok.mp h
  intro expectation hmem
  obtain ⟨index, hget⟩ := List.getElem?_of_mem hmem
  have hindexed : (expectation, index) ∈ c.expectations.zipIdx :=
    List.mk_mem_zipIdx_iff_getElem?.mpr hget
  exact domain_of_validateExpectation (Fallible.forM_eq_ok.mp hexpectations _ hindexed)

/-- The domains of an accepted configuration are the four the registry knows. -/
theorem Registry.Accepted.domain {reg : Registry} (h : reg.Accepted compiles) {clientId : String}
    {c : Client} (hclient : reg.client clientId = some c) :
    ∀ expectation ∈ c.expectations, expectation.domain ∈ validDomains := by
  obtain ⟨file, hvalid⟩ := h.valid c (List.mem_of_find?_eq_some hclient)
  exact expectations_of_validateClient hvalid

end Harbormaster
