import Harbormaster.Foundation.Filling
import Harbormaster.Inspector.Emit

/-! # What a record projects

Every field of a canonical record has either its stamp or the normalised cell of
its source column. The source system has both, and the stamp stays.
-/

namespace Harbormaster.Inspector

open Ordered

variable {runtime : Runtime} {mappings : List Mapping} {stamp : Stamp}
variable {accountNames : List (String × String)} {row : Row} {record : CanonicalRecord}

/-! ## One record -/

/-- The text that a field is read from. -/
def rawOf (mappings : List Mapping) (row : Row) (field : String) : String :=
  ((sourceOf mappings field).map fun source => strip (row.cell source)).getD ""

/-- The name the registry knows for the row's account. -/
def registeredName (mappings : List Mapping) (accountNames : List (String × String)) (row : Row) :
    Option String :=
  (truthy (some (rawOf mappings row "account_id"))).bind fun accountId =>
    (accountNames.find? fun entry => entry.1 = accountId).map Prod.snd

theorem fieldValue_text {field : String} (hdecimal : field ∉ decimalFields) (hside : field ≠ "side")
    (raw : String) : fieldValue runtime field raw = .ok (.text (truthy (some raw))) := by
  unfold fieldValue
  rw [if_neg hdecimal, if_neg hside]

/-- Nothing is read from an empty text, and nothing is raised. -/
theorem exists_fieldValue_empty (runtime : Runtime) (field : String) :
    ∃ value, fieldValue runtime field "" = .ok value := by
  unfold fieldValue
  split
  next => exact ⟨.amount none, rfl⟩
  next =>
    split
    next => exact ⟨_, rfl⟩
    next => exact ⟨_, rfl⟩

/-- A name that the file omits is taken from the registry, and nothing else. -/
theorem fillAccountName_get? {accountId accountName : Option String}
    (hid : record.get? "account_id" = some (.text (truthy accountId)))
    (hname : record.get? "account_name" = some (.text (truthy accountName))) (field : String) :
    (fillAccountName accountNames record).get? field =
      if field = "account_name" then
        some (.text ((truthy accountName).or ((truthy accountId).bind fun id =>
          (accountNames.find? fun entry => entry.1 = id).map Prod.snd)))
      else record.get? field := by
  have htwice : ∀ text : Option String, truthy (truthy text) = truthy text := by
    intro text
    unfold truthy
    cases text with
    | none => rfl
    | some text => by_cases hempty : text = "" <;> simp [hempty]
  unfold fillAccountName
  rw [hid]
  dsimp only
  rw [hname, htwice]
  simp only [Option.any_some, RecordValue.isPresent, htwice]
  cases hread : truthy accountName with
  | some name =>
      rw [if_neg (by simp)]
      split
      next hfield => rw [hfield, hname, hread, Option.some_or]
      next => rfl
  | none =>
      cases hknown : truthy accountId with
      | none =>
          rw [if_neg (by simp)]
          split
          next hfield => rw [hfield, hname, hread, Option.bind_none, Option.none_or]
          next => rfl
      | some id =>
          rw [if_pos (by simp), Dict.get?_set]
          simp only [Option.some.injEq, Option.bind_some, Option.none_or]

/-- The fields that are read, of which the mapper may assign all. -/
theorem read_of_mappable (stamp : Stamp) : ∀ field ∈ mappableFields, field ≠ "source_system" →
    field ∈ canonicalFields ∧ field ∉ stamp.fields.map Prod.fst := by
  change ∀ field ∈ mappableFields, field ≠ "source_system" → field ∈ canonicalFields ∧
    field ∉ ["arrival_id", "client_id", "value_date", "domain", "source_system"]
  decide

theorem stamped_get?_eq_none {field : String} (hread : field ∉ stamp.fields.map Prod.fst) :
    (Dict.ofPairs (stamp.fields.map fun (field, value) =>
      (field, RecordValue.text (some value)))).get? field = none := by
  rw [Dict.get?_ofPairs, Option.map_eq_none_iff, List.find?_eq_none]
  intro pair hpair hsame
  obtain ⟨entry, hentry, rfl⟩ := List.mem_map.mp (List.mem_reverse.mp hpair)
  exact hread (of_decide_eq_true hsame ▸ List.mem_map_of_mem hentry)

/-- The record of a row, field by field. -/
theorem buildRecord_get? (h : buildRecord runtime mappings stamp accountNames row = .ok record)
    {field : String} (hfield : field ∈ canonicalFields)
    (hread : field ∉ stamp.fields.map Prod.fst) :
    ∃ value, fieldValue runtime field (rawOf mappings row field) = .ok value ∧
      record.get? field = some (if field = "account_name" then
        .text ((truthy (some (rawOf mappings row field))).or
          (registeredName mappings accountNames row)) else value) := by
  obtain ⟨filled, hfold, h⟩ := Fallible.bind_eq_ok.mp h
  obtain rfl := Except.ok.inj h
  have hvalues := (Dict.get?_of_fill (fun field => fieldValue runtime field (rawOf mappings row field))
    hfold).2
  have htext : ∀ field ∈ ["account_id", "account_name"],
      filled.get? field = some (.text (truthy (some (rawOf mappings row field)))) := by
    intro field hmem
    have hmappable : field ∈ mappableFields ∧ field ≠ "source_system" ∧
        field ∉ decimalFields ∧ field ≠ "side" := by
      revert hmem
      revert field
      decide
    obtain ⟨hmappable, hne, hdecimal, hside⟩ := hmappable
    obtain ⟨hcanonical, hfree⟩ := read_of_mappable stamp field hmappable hne
    obtain ⟨value, hvalue, hget⟩ := hvalues field hcanonical (stamped_get?_eq_none hfree)
    rw [fieldValue_text hdecimal hside] at hvalue
    rw [hget, Except.ok.inj hvalue]
  obtain ⟨value, hvalue, hget⟩ := hvalues field hfield (stamped_get?_eq_none hread)
  refine ⟨value, hvalue, ?_⟩
  rw [fillAccountName_get? (htext "account_id" (by decide)) (htext "account_name" (by decide))]
  split
  next hname => rw [hname]; rfl
  next => exact hget

theorem exists_buildRecord (stamp : Stamp) (accountNames : List (String × String))
    (h : ∀ field ∈ canonicalFields, field ∉ stamp.fields.map Prod.fst →
      ∃ value, fieldValue runtime field (rawOf mappings row field) = .ok value) :
    ∃ record, buildRecord runtime mappings stamp accountNames row = .ok record := by
  have hfilled : ∃ filled, canonicalFields.foldlM (Dict.fill fun field =>
      fieldValue runtime field (rawOf mappings row field))
      (Dict.ofPairs (stamp.fields.map fun (field, value) =>
        (field, RecordValue.text (some value)))) = .ok filled := by
    refine Dict.exists_fill fun field hfield hnone => h field hfield fun hmem => ?_
    obtain ⟨entry, hentry, rfl⟩ := List.mem_map.mp hmem
    rw [stamped_ofPairs stamp entry hentry] at hnone
    cases hnone
  obtain ⟨filled, hfilled⟩ := hfilled
  exact ⟨fillAccountName accountNames filled, Fallible.bind_eq_ok.mpr ⟨filled, hfilled, rfl⟩⟩

/-! ## When the record projects the row -/

/-- The record has its stamps, and for every mapped field the normalised cell of the
column; a name that is null may be the one that the registry knows. -/
structure Projects (runtime : Runtime) (mappings : List Mapping) (stamp : Stamp)
    (accountNames : List (String × String)) (row : Row) (record : CanonicalRecord) : Prop where
  arrivalId : record.get? "arrival_id" = some (.text (some stamp.arrivalId))
  clientId : record.get? "client_id" = some (.text (some stamp.clientId))
  valueDate : record.get? "value_date" = some (.text (some stamp.valueDate))
  domain : record.get? "domain" = some (.text (some stamp.domain))
  mapped : ∀ m ∈ mappings, ∀ field, m.canonicalField = some field →
    ∃ value, fieldValue runtime field (strip (row.cell m.sourceField)) = .ok value ∧
      (record.get? field = some value ∨
        (field = "account_name" ∧ value = .text none ∧
          record.get? field = some (.text (registeredName mappings accountNames row))))

/-- A cell that is projected: of the source system, the stamp itself; of another
field, one that is read without a signal. A column without a name is not read. -/
def Projected (runtime : Runtime) (mappings : List Mapping) (stamp : Stamp)
    (accountNames : List (String × String)) (row : Row) (source field : String) : Prop :=
  let cell := strip (row.cell source)
  if field = "source_system" then cell = stamp.sourceSystem ∧ cell ≠ ""
  else if source = "" then
    fieldValue runtime field cell = fieldValue runtime field "" ∨
      (field = "account_name" ∧ registeredName mappings accountNames row = some cell)
  else ∃ value, fieldValue runtime field cell = .ok value

/-- The canonical fields of a mapping list are distinct, and all mappable. -/
structure Assignable (mappings : List Mapping) : Prop where
  distinct : (mappings.filterMap Mapping.canonicalField).Nodup
  mappable : ∀ m ∈ mappings, ∀ field, m.canonicalField = some field → field ∈ mappableFields

theorem Assignable.sourceOf_eq (h : Assignable mappings) {m : Mapping} (hm : m ∈ mappings)
    {field : String} (hfield : m.canonicalField = some field) :
    sourceOf mappings field = truthy (some m.sourceField) := by
  have hdistinct := List.pairwise_filterMap.mp h.distinct
  have hsymm : Std.Symm fun m m' : Mapping => ∀ field, m.canonicalField = some field →
      ∀ field', m'.canonicalField = some field' → field ≠ field' :=
    ⟨fun _ _ hne field hfield field' hfield' hsame => hne field' hfield' field hfield hsame.symm⟩
  have honly : ∀ m' ∈ mappings, m'.canonicalField = some field → m' = m := by
    intro m' hm' hfield'
    by_contra hother
    exact hdistinct.forall hm' hm hother field hfield' field hfield rfl
  unfold sourceOf
  cases hlast : (mappings.filter fun m => m.canonicalField = some field).getLast? with
  | none =>
      have hmem : m ∈ mappings.filter fun m => m.canonicalField = some field :=
        List.mem_filter.mpr ⟨hm, decide_eq_true hfield⟩
      rw [List.getLast?_eq_none_iff.mp hlast] at hmem
      cases hmem
  | some m' =>
      obtain ⟨hm', hsame⟩ := List.mem_filter.mp (List.mem_of_getLast? hlast)
      rw [honly m' hm' (of_decide_eq_true hsame)]
      rfl

/-- A mapped field is read from its cell, if its column has a name. -/
theorem Assignable.rawOf_eq (h : Assignable mappings) {m : Mapping} (hm : m ∈ mappings)
    {field : String} (hfield : m.canonicalField = some field) (row : Row) :
    rawOf mappings row field =
      if m.sourceField = "" then "" else strip (row.cell m.sourceField) := by
  unfold rawOf
  rw [h.sourceOf_eq hm hfield]
  split
  next hempty => rw [hempty]; rfl
  next hne => rw [truthy_of_ne hne]; rfl

theorem rawOf_of_unmapped {field : String} (h : ∀ m ∈ mappings, m.canonicalField ≠ some field)
    (row : Row) : rawOf mappings row field = "" := by
  have hnone : (mappings.filter fun m => m.canonicalField = some field) = [] :=
    List.filter_eq_nil_iff.mpr fun m hm hsame => h m hm (of_decide_eq_true hsame)
  unfold rawOf sourceOf
  rw [hnone]
  rfl

section Row

variable (h : Assignable mappings)
include h

/-- What is projected can be read. -/
theorem exists_buildRecord_of_projected
    (hcells : ∀ m ∈ mappings, ∀ field, m.canonicalField = some field →
      Projected runtime mappings stamp accountNames row m.sourceField field) :
    ∃ record, buildRecord runtime mappings stamp accountNames row = .ok record := by
  refine exists_buildRecord stamp accountNames fun field _ hread => ?_
  by_cases hmapped : ∃ m ∈ mappings, m.canonicalField = some field
  · obtain ⟨m, hm, hfield⟩ := hmapped
    rw [h.rawOf_eq hm hfield]
    split
    next => exact exists_fieldValue_empty runtime field
    next hne =>
      have hcell := hcells m hm field hfield
      have hsource : field ≠ "source_system" := by
        rintro rfl
        exact hread (by simp [Stamp.fields])
      unfold Projected at hcell
      dsimp only at hcell
      rwa [if_neg hsource, if_neg hne] at hcell
  · push Not at hmapped
    rw [rawOf_of_unmapped hmapped]
    exact exists_fieldValue_empty runtime field

/-- The value of a mapped field that is not stamped. -/
theorem get?_of_mapped (hrecord : buildRecord runtime mappings stamp accountNames row = .ok record)
    {m : Mapping} (hm : m ∈ mappings) {field : String} (hfield : m.canonicalField = some field)
    (hsource : field ≠ "source_system") :
    ∃ value, fieldValue runtime field
        (if m.sourceField = "" then "" else strip (row.cell m.sourceField)) = .ok value ∧
      record.get? field = some (if field = "account_name" then
        .text ((truthy (some
          (if m.sourceField = "" then "" else strip (row.cell m.sourceField)))).or
            (registeredName mappings accountNames row)) else value) := by
  obtain ⟨hcanonical, hread⟩ := read_of_mappable stamp field
    (h.mappable m hm field hfield) hsource
  have hget := buildRecord_get? hrecord hcanonical hread
  rwa [h.rawOf_eq hm hfield] at hget

theorem projected_of_projects
    (hrecord : buildRecord runtime mappings stamp accountNames row = .ok record)
    (hprojects : Projects runtime mappings stamp accountNames row record) {m : Mapping}
    (hm : m ∈ mappings) {field : String} (hfield : m.canonicalField = some field) :
    Projected runtime mappings stamp accountNames row m.sourceField field := by
  obtain ⟨value, hvalue, hget⟩ := hprojects.mapped m hm field hfield
  unfold Projected
  dsimp only
  by_cases hsource : field = "source_system"
  · subst hsource
    rw [if_pos rfl]
    have hstamp := buildRecord_stamped hrecord ("source_system", stamp.sourceSystem)
      (by simp [Stamp.fields])
    rw [fieldValue_text (by decide) (by decide)] at hvalue
    rcases hget with hget | ⟨hname, -⟩
    · rw [hget] at hstamp
      obtain rfl := Option.some.inj hstamp
      obtain ⟨hcell, hne⟩ := truthy_eq_some.mp (RecordValue.text.inj (Except.ok.inj hvalue))
      have hsame : strip (row.cell m.sourceField) = stamp.sourceSystem := Option.some.inj hcell
      exact ⟨hsame, hsame ▸ hne⟩
    · exact absurd hname (by decide)
  · rw [if_neg hsource]
    split
    next hempty =>
      obtain ⟨read, hread, hreadGet⟩ := get?_of_mapped h hrecord hm hfield hsource
      rw [if_pos hempty] at hread hreadGet
      by_cases hname : field = "account_name"
      · subst hname
        rw [if_pos rfl] at hreadGet
        rw [fieldValue_text (by decide) (by decide)] at hvalue
        obtain rfl := Except.ok.inj hvalue
        by_cases hcell : strip (row.cell m.sourceField) = ""
        · exact .inl (by rw [hcell])
        · rw [truthy_of_ne hcell] at hget
          rcases hget with hget | ⟨-, hnull, -⟩
          · rw [hreadGet] at hget
            exact .inr ⟨rfl, RecordValue.text.inj (Option.some.inj hget)⟩
          · cases hnull
      · rw [if_neg hname] at hreadGet
        rcases hget with hget | ⟨hother, -⟩
        · rw [hreadGet] at hget
          exact .inl (by rw [hvalue, hread, Option.some.inj hget])
        · exact absurd hother hname
    next => exact ⟨value, hvalue⟩

/-- A field that is projected has the value of its cell. -/
theorem projects_of_projected
    (hrecord : buildRecord runtime mappings stamp accountNames row = .ok record) {m : Mapping}
    (hm : m ∈ mappings) {field : String} (hfield : m.canonicalField = some field)
    (hcell : Projected runtime mappings stamp accountNames row m.sourceField field) :
    ∃ value, fieldValue runtime field (strip (row.cell m.sourceField)) = .ok value ∧
      (record.get? field = some value ∨
        (field = "account_name" ∧ value = .text none ∧
          record.get? field = some (.text (registeredName mappings accountNames row)))) := by
  unfold Projected at hcell
  dsimp only at hcell
  by_cases hsource : field = "source_system"
  · subst hsource
    rw [if_pos rfl] at hcell
    refine ⟨_, fieldValue_text (by decide) (by decide) _, .inl ?_⟩
    rw [truthy_of_ne hcell.2, hcell.1]
    exact buildRecord_stamped hrecord ("source_system", stamp.sourceSystem) (by simp [Stamp.fields])
  rw [if_neg hsource] at hcell
  obtain ⟨read, hread, hget⟩ := get?_of_mapped h hrecord hm hfield hsource
  by_cases hname : field = "account_name"
  · subst hname
    have htext : ∀ raw, fieldValue runtime "account_name" raw = .ok (.text (truthy (some raw))) :=
      fun raw => fieldValue_text (by decide) (by decide) raw
    rw [if_pos rfl] at hget
    refine ⟨_, htext _, ?_⟩
    by_cases hempty : m.sourceField = ""
    · rw [if_pos hempty, htext, htext] at hcell
      rw [if_pos hempty] at hget
      rcases hcell with hnull | ⟨-, hregistered⟩
      · obtain hnull := RecordValue.text.inj (Except.ok.inj hnull)
        exact .inr ⟨rfl, by rw [hnull]; rfl, hget⟩
      · by_cases hblank : strip (row.cell m.sourceField) = ""
        · exact .inr ⟨rfl, by rw [hblank]; rfl, hget⟩
        · refine .inl ?_
          rw [truthy_of_ne hblank, ← hregistered]
          exact hget
    · rw [if_neg hempty] at hget
      cases hcellValue : truthy (some (strip (row.cell m.sourceField))) with
      | none =>
          rw [hcellValue] at hget
          exact .inr ⟨rfl, rfl, hget⟩
      | some name =>
          rw [hcellValue] at hget
          exact .inl hget
  · rw [if_neg hname] at hget
    by_cases hempty : m.sourceField = ""
    · rw [if_pos hempty] at hcell hread
      rcases hcell with hnull | ⟨hother, -⟩
      · exact ⟨read, hnull.trans hread, .inl hget⟩
      · exact absurd hother hname
    · rw [if_neg hempty] at hread
      exact ⟨read, hread, .inl hget⟩

/-- The record of a row projects it exactly when every mapped cell is projected. -/
theorem exists_projects_iff :
    (∃ record, buildRecord runtime mappings stamp accountNames row = .ok record ∧
      Projects runtime mappings stamp accountNames row record) ↔
    ∀ m ∈ mappings, ∀ field, m.canonicalField = some field →
      Projected runtime mappings stamp accountNames row m.sourceField field := by
  constructor
  · rintro ⟨record, hrecord, hprojects⟩ m hm field hfield
    exact projected_of_projects h hrecord hprojects hm hfield
  · intro hcells
    obtain ⟨record, hrecord⟩ := exists_buildRecord_of_projected h hcells
    have hstamped := buildRecord_stamped hrecord
    refine ⟨record, hrecord, ?_⟩
    constructor
    · exact hstamped ("arrival_id", _) (by simp [Stamp.fields])
    · exact hstamped ("client_id", _) (by simp [Stamp.fields])
    · exact hstamped ("value_date", _) (by simp [Stamp.fields])
    · exact hstamped ("domain", _) (by simp [Stamp.fields])
    · exact fun m hm field hfield =>
        projects_of_projected h hrecord hm hfield (hcells m hm field hfield)

end Row

/-- Every row is projected, exactly when every mapped cell is: one that is read
without a signal, and of the source system the stamp itself. -/
theorem records_project_rows (runtime : Runtime) (table : ParsedTable) (mappings : List Mapping)
    (h : Assignable mappings) (stamp : Stamp) (accountNames : List (String × String)) :
    (∃ records, buildRecords runtime table mappings stamp accountNames = .ok records ∧
      List.Forall₂ (Projects runtime mappings stamp accountNames) table.rows records) ↔
    ∀ row ∈ table.rows, ∀ m ∈ mappings, ∀ field, m.canonicalField = some field →
      Projected runtime mappings stamp accountNames row m.sourceField field := by
  refine Fallible.exists_mapM_forall₂.trans (forall₂_congr fun row _ => ?_)
  exact exists_projects_iff h

/-- A trade whose venue is in a column. -/
def venueTable : ParsedTable where
  headers := ["Venue", "Net Amount", "Side"]
  rows := [.ofPairs [("Venue", "ICE"), ("Net Amount", "1,250.50"), ("Side", "b")]]
  headers_nodup := by decide

def aliasMapping (source field : String) : Mapping where
  sourceField := source
  canonicalField := some field
  tier := .tierAlias
  confidence := 1
  evidence := "alias"

def venueStamp : Stamp where
  arrivalId := "arr-1"
  clientId := "CLNT004"
  valueDate := "2026-08-28"
  domain := "TRADE"
  sourceSystem := "CME"

theorem assignable_venue : Assignable [aliasMapping "Venue" "source_system"] := by
  refine ⟨by decide, fun m hm field hfield => ?_⟩
  obtain rfl := List.mem_singleton.mp hm
  obtain rfl := Option.some.inj hfield
  decide

/-- The venue of the row is not what the record has. -/
theorem stamp_hides_column :
    Assignable [aliasMapping "Venue" "source_system"] ∧
      ∃ record, buildRecords .ascii venueTable [aliasMapping "Venue" "source_system"] venueStamp [] =
          .ok [record] ∧
        record.get? "source_system" = some (.text (some "CME")) ∧
        ∃ row ∈ venueTable.rows, fieldValue .ascii "source_system" (strip (row.cell "Venue")) =
          .ok (.text (some "ICE")) := by
  refine ⟨assignable_venue, _, rfl, by decide, _, List.mem_cons_self, by decide⟩

/-- Without the venue every mapped cell is projected. -/
theorem records_project_rows_amount :
    ∃ records, buildRecords .ascii venueTable
        [aliasMapping "Net Amount" "net_amount", aliasMapping "Side" "side"] venueStamp [] =
          .ok records ∧
      List.Forall₂ (Projects .ascii
        [aliasMapping "Net Amount" "net_amount", aliasMapping "Side" "side"] venueStamp [])
        venueTable.rows records := by
  have hassignable : Assignable
      [aliasMapping "Net Amount" "net_amount", aliasMapping "Side" "side"] := by
    refine ⟨by decide, fun m hm field hfield => ?_⟩
    rcases List.mem_cons.mp hm with rfl | hm
    · obtain rfl := Option.some.inj hfield
      decide
    · obtain rfl := List.mem_singleton.mp hm
      obtain rfl := Option.some.inj hfield
      decide
  refine (records_project_rows .ascii venueTable _ hassignable venueStamp []).mpr ?_
  intro row hrow m hm field hfield
  obtain rfl := List.mem_singleton.mp hrow
  rcases List.mem_cons.mp hm with rfl | hm
  · obtain rfl := Option.some.inj hfield
    exact ⟨.amount (some (.finite false 125050 (-2))), by decide⟩
  · obtain rfl := List.mem_singleton.mp hm
    obtain rfl := Option.some.inj hfield
    exact ⟨.text (some "BUY"), by decide⟩

end Harbormaster.Inspector
