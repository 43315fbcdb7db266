import Harbormaster.Inspector.ColumnOrder

/-! # The spelling of headers

Tier 1 reads a header in its comparable form, but for two things: the pattern that tells a
price column is searched in the header as it is written, and an empty header is taken for
none. A table whose headers are spelled differently gets the same fields unless one of
these differs.
-/

namespace Harbormaster.Inspector

open Ordered Ranking

/-- The same columns under headers that are spelled differently: in another case, with
other spacing or punctuation. -/
structure Respelled (runtime : Runtime) (table table' : ParsedTable) (spell : String → String) :
    Prop where
  headers : table'.headers = table.headers.map spell
  form : ∀ header ∈ table.headers,
    normalizeHeader runtime (spell header) = normalizeHeader runtime header
  column : ∀ header ∈ table.headers, table'.column (spell header) = table.column header

/-- What Tier 1 reads in a header as it is written. -/
def Alike (first second : String) : Prop :=
  (priceHint.search first.toList).isNone = (priceHint.search second.toList).isNone ∧
    (first = "" ↔ second = "")

section Header

variable {runtime : Runtime} {fieldOverrides : List (String × String)} {first second : String}
  (h : normalizeHeader runtime first = normalizeHeader runtime second)

include h

theorem overrideFor_respelled :
    overrideFor runtime fieldOverrides first = overrideFor runtime fieldOverrides second := by
  rw [overrideFor, overrideFor, h]

theorem aliasLookup_respelled : aliasLookup runtime first = aliasLookup runtime second := by
  rw [aliasLookup, aliasLookup, h]

theorem namedField_respelled :
    namedField runtime fieldOverrides first = namedField runtime fieldOverrides second := by
  rw [namedField, namedField, overrideFor_respelled h, aliasLookup_respelled h]

theorem has_respelled (tokens : List String) :
    has runtime first tokens = has runtime second tokens := by
  rw [has, has, h]

theorem namesSettlement_respelled :
    namesSettlement runtime first = namesSettlement runtime second := by
  rw [namesSettlement, namesSettlement, has_respelled h, has_respelled h]

theorem namesTrade_respelled : namesTrade runtime first = namesTrade runtime second := by
  rw [namesTrade, namesTrade, has_respelled h, has_respelled h]

theorem namesPrice_respelled (field : String) :
    namesPrice runtime field first = namesPrice runtime field second := by
  rw [namesPrice, namesPrice, namesSettlement_respelled h, namesTrade_respelled h]

theorem pricePreference_respelled (field : String) :
    pricePreference runtime field first = pricePreference runtime field second := by
  unfold pricePreference settlementPreference tradePreference
  rw [h]

end Header

namespace Respelled

variable {runtime : Runtime} {fieldOverrides : List (String × String)} {table table' : ParsedTable}
  {spell : String → String} {header field : String}

theorem injective (h : Respelled runtime table table' spell) {first second : String}
    (hfirst : first ∈ table.headers) (hsecond : second ∈ table.headers)
    (hsame : spell first = spell second) : first = second :=
  List.inj_on_of_nodup_map (h.headers ▸ table'.headers_nodup) hfirst hsecond hsame

/-- A search that the spelling does not disturb finds the same column. -/
theorem find?_eq (h : Respelled runtime table table' spell) {found found' : String → Bool}
    (hfound : ∀ header ∈ table.headers, found' (spell header) = found header) :
    table'.headers.find? found' = (table.headers.find? found).map spell := by
  rw [h.headers, List.find?_map, ← List.head?_filter, ← List.head?_filter]
  exact congrArg (fun headers => (List.head? headers).map spell) (List.filter_congr hfound)

theorem find?_named (h : Respelled runtime table table' spell)
    (fieldOverrides : List (String × String)) (field : String) :
    table'.headers.find? (fun header => namedField runtime fieldOverrides header = some field) =
      (table.headers.find? fun header =>
        namedField runtime fieldOverrides header = some field).map spell :=
  h.find?_eq fun header hheader => by rw [namedField_respelled (h.form header hheader)]

theorem map_eq_some (h : Respelled runtime table table' spell) {found : Option String}
    (hfound : ∀ other, found = some other → other ∈ table.headers)
    (hheader : header ∈ table.headers) :
    found.map spell = some (spell header) ↔ found = some header := by
  cases found with
  | none => simp
  | some other =>
      rw [Option.map_some, Option.some_inj, Option.some_inj]
      exact ⟨fun hsame => h.injective (hfound other rfl) hheader hsame, congrArg spell⟩

theorem namedBy_iff (h : Respelled runtime table table' spell) (hheader : header ∈ table.headers) :
    NamedBy runtime fieldOverrides table'.headers (spell header) field ↔
      NamedBy runtime fieldOverrides table.headers header field := by
  have hfind := h.find?_named fieldOverrides field
  unfold NamedBy
  rw [hfind]
  refine or_congr ?_ (h.map_eq_some (fun other hother => List.mem_of_find?_eq_some hother) hheader)
  rw [overrideFor_respelled (h.form header hheader), h.headers]
  exact and_congr_left' (iff_of_true (List.mem_map_of_mem hheader) hheader)

variable (hsame : ∀ header ∈ table.headers, Alike (spell header) header)

include hsame

theorem isDeferred_eq (h : Respelled runtime table table' spell)
    (hheader : header ∈ table.headers) :
    isDeferred runtime fieldOverrides table' (spell header) =
      isDeferred runtime fieldOverrides table header := by
  have hprice : looksLikePriceColumn runtime (spell header) (table'.column (spell header)) =
      looksLikePriceColumn runtime header (table.column header) := by
    rw [h.column header hheader]
    unfold looksLikePriceColumn
    rw [(hsame header hheader).1]
  unfold isDeferred
  rw [overrideFor_respelled (h.form header hheader), aliasLookup_respelled (h.form header hheader),
    hprice]

theorem deferredHeaders_eq (h : Respelled runtime table table' spell) :
    deferredHeaders runtime fieldOverrides table' =
      (deferredHeaders runtime fieldOverrides table).map spell := by
  unfold deferredHeaders
  rw [h.headers, List.filter_map]
  exact congrArg (List.map spell)
    (List.filter_congr fun header hheader => h.isDeferred_eq hsame hheader)

theorem ratioOf_eq (h : Respelled runtime table table' spell) (hheader : header ∈ table.headers) :
    ratioOf runtime fieldOverrides table' (spell header) =
      ratioOf runtime fieldOverrides table header := by
  unfold ratioOf
  rw [h.column header hheader, h.find?_named]
  cases hfound : table.headers.find? fun header =>
      namedField runtime fieldOverrides header = some "instrument_id" with
  | none => rfl
  | some instrument =>
      have hmem := List.mem_of_find?_eq_some hfound
      rw [Option.map_some]
      by_cases hempty : instrument = ""
      · rw [(hsame instrument hmem).2.mpr hempty, hempty]
        rfl
      · have hspelled := fun hnil => hempty ((hsame instrument hmem).2.mp hnil)
        rw [truthy_of_ne hempty, truthy_of_ne hspelled, Option.map_some, Option.map_some,
          h.column instrument hmem]

theorem priceWinner_eq (h : Respelled runtime table table' spell) :
    priceWinner runtime fieldOverrides table' field =
      (priceWinner runtime fieldOverrides table field).map spell := by
  have hdeferred : ∀ header ∈ deferredHeaders runtime fieldOverrides table,
      header ∈ table.headers := fun header hheader => (List.mem_filter.mp hheader).1
  have hform : ∀ header ∈ deferredHeaders runtime fieldOverrides table,
      normalizeHeader runtime (spell header) = normalizeHeader runtime header :=
    fun header hheader => h.form header (hdeferred header hheader)
  have hratio : ∀ header ∈ deferredHeaders runtime fieldOverrides table,
      ratioOf runtime fieldOverrides table' (spell header) =
        ratioOf runtime fieldOverrides table header :=
    fun header hheader => h.ratioOf_eq hsame (hdeferred header hheader)
  have hany : (deferredHeaders runtime fieldOverrides table').any (namesPrice runtime field) =
      (deferredHeaders runtime fieldOverrides table).any (namesPrice runtime field) := by
    rw [h.deferredHeaders_eq hsame, List.any_map, Bool.eq_iff_iff, List.any_eq_true,
      List.any_eq_true]
    refine exists_congr fun header => and_congr_right fun hheader => ?_
    rw [Function.comp_apply, namesPrice_respelled (hform header hheader)]
  have hcontenders : contenders runtime (ratioOf runtime fieldOverrides table')
      (deferredHeaders runtime fieldOverrides table') field =
        (contenders runtime (ratioOf runtime fieldOverrides table)
          (deferredHeaders runtime fieldOverrides table) field).map spell := by
    unfold contenders contends
    rw [hany, h.deferredHeaders_eq hsame, List.filter_map]
    refine congrArg (List.map spell) (List.filter_congr fun header hheader => ?_)
    rw [Function.comp_apply, namesPrice_respelled (hform header hheader),
      namesSettlement_respelled (hform header hheader), namesTrade_respelled (hform header hheader),
      hratio header hheader]
  unfold priceWinner
  rw [hcontenders, argmax_map]
  refine congrArg (Option.map spell) (argmax_congr fun header hheader => ?_)
  have hmem := (List.mem_filter.mp hheader).1
  rw [standing, standing, hany, pricePreference_respelled (hform header hmem), hratio header hmem]

/-- Tier 1 gives the columns of a respelled table the same fields. -/
theorem mapTable_eq (h : Respelled runtime table table' spell) {tier1 tier1' : List Mapping}
    (htier1 : mapTable runtime fieldOverrides table = .ok tier1)
    (htier1' : mapTable runtime fieldOverrides table' = .ok tier1')
    (hheader : header ∈ table.headers) : fieldOf tier1' (spell header) = fieldOf tier1 header := by
  refine Option.ext fun field => ?_
  rw [mapTable_field htier1, mapTable_field htier1', h.namedBy_iff hheader,
    h.priceWinner_eq hsame]
  refine or_congr_right (and_congr_right' (h.map_eq_some (fun other hother => ?_) hheader))
  have hcontender := List.mem_filter.mp (List.argmax_mem hother)
  exact (List.mem_filter.mp hcontender.1).1

end Respelled

end Harbormaster.Inspector
