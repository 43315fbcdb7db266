import Harbormaster.Foundation.Fallible
import Harbormaster.Inspector.Tier1

/-! # Canonical records

`emit.build_records` of the inspector: the rows of a table projected onto the
canonical schema. What the inspector determined itself is stamped on.
-/

namespace Harbormaster.Inspector

open Ordered

variable (runtime : Runtime)

/-- A value of a record. -/
inductive RecordValue where
  | text (value : Option String)
  | amount (value : Option Decimal)
deriving DecidableEq, Repr

def RecordValue.isPresent : RecordValue → Bool
  | .text value => (truthy value).isSome
  | .amount value => value.isSome

abbrev CanonicalRecord := Dict String RecordValue

def decimalFields : List String :=
  ["quantity", "trade_price", "settlement_price", "gross_amount", "net_amount", "market_value"]

/-- Side values normalise to these. -/
def sideNormalisation : List (String × String) :=
  [("b", "BUY"), ("buy", "BUY"), ("bought", "BUY"), ("1", "BUY"), ("l", "LONG"), ("long", "LONG"),
    ("s", "SELL"), ("sell", "SELL"), ("sold", "SELL"), ("2", "SELL"), ("sh", "SHORT"),
    ("short", "SHORT")]

def normaliseSide (raw : String) : Option String :=
  let text := String.ofList (runtime.lower (stripChars raw.toList))
  if text = "" then none
  else some (((sideNormalisation.find? fun entry => entry.1 = text).map Prod.snd).getD
    (String.ofList (runtime.upper (stripChars raw.toList))))

/-- What a record is stamped with. -/
structure Stamp where
  arrivalId : String
  clientId : String
  valueDate : String
  domain : String
  sourceSystem : String

def Stamp.fields (stamp : Stamp) : List (String × String) :=
  [("arrival_id", stamp.arrivalId), ("client_id", stamp.clientId),
    ("value_date", stamp.valueDate), ("domain", stamp.domain),
    ("source_system", stamp.sourceSystem)]

/-- The source column of a field, of several the last one. -/
def sourceOf (mappings : List Mapping) (field : String) : Option String :=
  truthy ((mappings.filter fun m => m.canonicalField = some field).getLast?.map
    Mapping.sourceField)

/-- The value of a field that is read from its column. -/
def fieldValue (field raw : String) : Except Signal RecordValue :=
  if field ∈ decimalFields then .amount <$> toDecimal runtime raw
  else if field = "side" then .ok (.text (normaliseSide runtime raw))
  else .ok (.text (truthy (some raw)))

/-- The name the registry knows for the record's account. -/
def fillAccountName (accountNames : List (String × String)) (record : CanonicalRecord) :
    CanonicalRecord :=
  match record.get? "account_id" with
  | some (.text accountId) =>
      if ((record.get? "account_name").any RecordValue.isPresent) = false ∧
          (truthy accountId).isSome then
        record.set "account_name" (.text ((accountNames.find? fun entry =>
          some entry.1 = accountId).map Prod.snd))
      else record
  | _ => record

/-- One row. -/
def buildRecord (mappings : List Mapping) (stamp : Stamp)
    (accountNames : List (String × String)) (row : Row) : Except Signal CanonicalRecord := do
  let stamped : CanonicalRecord :=
    .ofPairs (stamp.fields.map fun (field, value) => (field, .text (some value)))
  let record ← canonicalFields.foldlM (fun record field =>
    if (record.get? field).isSome then return record
    else do
      let raw := ((sourceOf mappings field).map fun source => strip (row.cell source)).getD ""
      return record.set field (← fieldValue runtime field raw)) stamped
  return fillAccountName accountNames record

/-- Project parsed rows onto the canonical schema. -/
def buildRecords (table : ParsedTable) (mappings : List Mapping)
    (stamp : Stamp) (accountNames : List (String × String)) :
    Except Signal (List CanonicalRecord) :=
  table.rows.mapM (buildRecord runtime mappings stamp accountNames)

/-! ## What is stamped stays -/

variable {runtime} {mappings : List Mapping} {stamp : Stamp}
variable {accountNames : List (String × String)}

/-- A record has what it was stamped with. -/
def CanonicalRecord.Stamped (record : CanonicalRecord) (stamp : Stamp) : Prop :=
  ∀ entry ∈ stamp.fields, record.get? entry.1 = some (.text (some entry.2))

theorem stamped_ofPairs (stamp : Stamp) : CanonicalRecord.Stamped
    (.ofPairs (stamp.fields.map fun (field, value) => (field, .text (some value)))) stamp := by
  intro entry hentry
  simp only [Stamp.fields, List.mem_cons, List.not_mem_nil, or_false] at hentry
  rcases hentry with rfl | rfl | rfl | rfl | rfl <;>
    simp [Stamp.fields, Dict.ofPairs, Dict.get?_set]

theorem Stamped.set {record : CanonicalRecord} {field : String} {value : RecordValue}
    (h : record.Stamped stamp) (hfield : field ∉ stamp.fields.map Prod.fst) :
    CanonicalRecord.Stamped (record.set field value) stamp := by
  intro entry hentry
  rw [Dict.get?_set, if_neg]
  · exact h entry hentry
  · intro hsame
    exact hfield (hsame ▸ List.mem_map_of_mem hentry)

/-- No column of a file replaces what the inspector determined. -/
theorem buildRecord_stamped {row : Row} {record : CanonicalRecord}
    (h : buildRecord runtime mappings stamp accountNames row = .ok record) :
    record.Stamped stamp := by
  obtain ⟨filled, hfold, h⟩ := Fallible.bind_eq_ok.mp h
  obtain rfl := Except.ok.inj h
  have hfilled : CanonicalRecord.Stamped filled stamp := by
    refine Fallible.foldlM_ok (motive := fun record => CanonicalRecord.Stamped record stamp)
      (stamped_ofPairs stamp) ?_ hfold
    intro record field _ next hstamped hnext
    split at hnext
    next =>
      obtain rfl := Except.ok.inj hnext
      exact hstamped
    next hnew =>
      obtain ⟨value, _, hnext⟩ := Fallible.bind_eq_ok.mp hnext
      obtain rfl := Except.ok.inj hnext
      apply Stamped.set hstamped
      intro hfield
      obtain ⟨entry, hentry, rfl⟩ := List.mem_map.mp hfield
      rw [hstamped entry hentry] at hnew
      exact hnew rfl
  unfold fillAccountName
  split
  next =>
    split
    next => exact Stamped.set hfilled (by simp [Stamp.fields])
    next => exact hfilled
  next => exact hfilled

theorem buildRecords_stamped {table : ParsedTable} {records : List CanonicalRecord}
    (h : buildRecords runtime table mappings stamp accountNames = .ok records) :
    ∀ record ∈ records, record.Stamped stamp := by
  intro record hrecord
  obtain ⟨row, _, hrow⟩ := Fallible.mem_mapM h record hrecord
  exact buildRecord_stamped hrow

end Harbormaster.Inspector
