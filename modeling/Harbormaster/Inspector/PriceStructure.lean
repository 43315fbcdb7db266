import Harbormaster.Inspector.ColumnOrder

/-! # Prices told apart by their variation

Two price columns whose headers decide nothing are told apart by their values: a
settlement price repeats within an instrument, a trade price varies. The ratio
that the price pass compares counts instruments, so neither the order of the
columns nor that of the rows has a part in it.
-/

namespace Harbormaster.Inspector

open Ordered Ranking

section Groups

variable (table : ParsedTable) (instrument : String)

/-- The rows of one instrument. -/
def rowsOf (key : String) : List Row :=
  table.rows.filter fun row => row.cell instrument = key

/-- The instruments that have several rows. -/
def repeatedInstruments : List String :=
  (table.column instrument).dedup.filter fun key => 1 < (rowsOf table instrument key).length

/-- The values that a column takes within an instrument. -/
def valuesWithin (header key : String) : List String :=
  ((rowsOf table instrument key).map fun row => strip (row.cell header)).dedup

/-- The repeated instruments within which a column takes several values. -/
def varyingInstruments (header : String) : List String :=
  (repeatedInstruments table instrument).filter fun key =>
    1 < (valuesWithin table instrument header key).length

end Groups

variable {runtime : Runtime} {table : ParsedTable} {instrument header : String}

/-- Where no value is blank and some instrument repeats, the ratio is the share of
the repeated instruments within which the column varies. -/
theorem variationRatio_eq (hblank : ∀ row ∈ table.rows, strip (row.cell header) ≠ "")
    (hrepeated : repeatedInstruments table instrument ≠ []) :
    variationRatio (table.column header) (some (table.column instrument)) =
      (varyingInstruments table instrument header).length /
        (repeatedInstruments table instrument).length := by
  have hkeys : ¬ (table.column instrument = [] ∨
      (table.column instrument).length ≠ ((table.column header).map strip).length) := by
    rintro (hnil | hlength)
    · unfold repeatedInstruments at hrepeated
      rw [hnil] at hrepeated
      exact hrepeated rfl
    · simp [ParsedTable.column] at hlength
  have hpairs : (((table.column instrument).zip ((table.column header).map strip)).filter
      fun pair => pair.2 ≠ "") =
        table.rows.map fun row => (row.cell instrument, strip (row.cell header)) := by
    unfold ParsedTable.column
    rw [List.map_map, List.zip_map']
    refine List.filter_eq_self.mpr fun pair hpair => ?_
    obtain ⟨row, hrow, rfl⟩ := List.mem_map.mp hpair
    exact decide_eq_true (hblank row hrow)
  have hvalues : ∀ key, ((table.rows.map fun row =>
      (row.cell instrument, strip (row.cell header))).filter fun pair => pair.1 = key).map
        Prod.snd = (rowsOf table instrument key).map fun row => strip (row.cell header) := by
    intro key
    unfold rowsOf
    rw [List.filter_map, List.map_map]
    rfl
  have hkeysOf : (table.rows.map fun row =>
      (row.cell instrument, strip (row.cell header))).map Prod.fst = table.column instrument := by
    rw [List.map_map]
    rfl
  unfold variationRatio
  dsimp only
  rw [if_neg hkeys, hpairs, hkeysOf]
  simp only [hvalues, List.length_map]
  exact if_neg hrepeated

theorem structuralField_constant (hblank : ∀ row ∈ table.rows, strip (row.cell header) ≠ "")
    (hrepeated : repeatedInstruments table instrument ≠ [])
    (hconstant : ∀ key ∈ table.column instrument,
      (valuesWithin table instrument header key).length ≤ 1) :
    structuralField (variationRatio (table.column header) (some (table.column instrument))) =
      "settlement_price" := by
  have hnone : varyingInstruments table instrument header = [] :=
    List.filter_eq_nil_iff.mpr fun key hkey hvaries =>
      absurd (of_decide_eq_true hvaries)
        (not_lt.mpr (hconstant key (List.mem_dedup.mp (List.mem_filter.mp hkey).1)))
  rw [variationRatio_eq hblank hrepeated, hnone]
  unfold structuralField
  norm_num

theorem structuralField_varying (hblank : ∀ row ∈ table.rows, strip (row.cell header) ≠ "")
    (hrepeated : repeatedInstruments table instrument ≠ [])
    (hvarying : (repeatedInstruments table instrument).length ≤
      2 * (varyingInstruments table instrument header).length) :
    structuralField (variationRatio (table.column header) (some (table.column instrument))) =
      "trade_price" := by
  have hpos : (0 : ℚ) < (repeatedInstruments table instrument).length := by
    exact_mod_cast List.length_pos_iff.mpr hrepeated
  have hhalf : ((repeatedInstruments table instrument).length : ℚ) ≤
      2 * (varyingInstruments table instrument header).length := by
    exact_mod_cast hvarying
  rw [variationRatio_eq hblank hrepeated]
  refine if_pos ?_
  rw [le_div_iff₀ hpos]
  linarith

/-- A header without a name is no instrument, unless an override says so. -/
theorem aliasLookup_empty (hempty : runtime.lower [] = [])
    (hname : normalizeHeader runtime "instrument_id" = "instrumentid") :
    aliasLookup runtime "" ≠ some "instrument_id" := by
  have hform : normalizeHeader runtime "" = "" := by
    unfold normalizeHeader
    rw [String.toList_empty, hempty]
    rfl
  have halias : aliasOf runtime "" ≠ some "instrument_id" := by
    intro hfound
    obtain ⟨entry, hentry, hfield⟩ := Option.map_eq_some_iff.mp hfound
    have hlisted : ∀ entry ∈ fieldAliases, entry.1 = "instrument_id" →
        entry.2.contains "" = false := by decide
    have hnames := List.find?_some hentry
    rw [hfield, hname, hlisted entry (List.mem_of_find?_eq_some hentry) hfield] at hnames
    exact absurd hnames (by decide)
  have hnoise : stripNoise "" = "" := by decide +kernel
  unfold aliasLookup
  dsimp only
  rw [hform, hnoise, Option.or_self]
  exact halias

/-- Without overrides the rows are grouped by the column that is mapped to the
instrument. -/
theorem instrumentOf_eq (hempty : runtime.lower [] = [])
    (hname : normalizeHeader runtime "instrument_id" = "instrumentid") {mappings : List Mapping}
    (hmap : mapTable runtime [] table = .ok mappings)
    (hinstrument : fieldOf mappings instrument = some "instrument_id") :
    instrumentOf runtime [] table = some instrument ∧ instrument ≠ "" := by
  have hnoOverride : ∀ header, overrideFor runtime [] header = none := fun _ => rfl
  rcases (mapTable_field hmap instrument "instrument_id").mp hinstrument with
    (⟨-, hoverride⟩ | hfound) | ⟨hprice, -⟩
  · rw [hnoOverride] at hoverride
    cases hoverride
  · refine ⟨hfound, ?_⟩
    rintro rfl
    have hnamed : namedField runtime [] "" = some "instrument_id" := by
      simpa using List.find?_some hfound
    unfold namedField at hnamed
    rw [hnoOverride] at hnamed
    exact aliasLookup_empty hempty hname (Option.filter_eq_some_iff.mp hnamed).1
  · exact absurd hprice (by decide)

/-- The one column that competes for a price field gets it. -/
theorem priceWinner_of_only {fieldOverrides : List (String × String)} {field : String}
    (hmem : header ∈ deferredHeaders runtime fieldOverrides table)
    (hcontends : ∀ other ∈ deferredHeaders runtime fieldOverrides table,
      contends runtime (ratioOf runtime fieldOverrides table)
        (deferredHeaders runtime fieldOverrides table) field other = true ↔ other = header) :
    priceWinner runtime fieldOverrides table field = some header := by
  have honly : ∀ other ∈ contenders runtime (ratioOf runtime fieldOverrides table)
      (deferredHeaders runtime fieldOverrides table) field, other = header := by
    intro other hother
    obtain ⟨hother, hcompetes⟩ := List.mem_filter.mp hother
    exact (hcontends other hother).mp hcompetes
  refine Top.argmax_eq ⟨List.mem_filter.mpr ⟨hmem, (hcontends header hmem).mpr rfl⟩, ?_⟩
    fun other hother => honly other hother.1
  intro other hother
  rw [honly other hother]

/-- Of two price columns that their headers leave open, the one that varies within
half of the repeated instruments is the trade price, and the one that is
constant within every instrument is the settlement price. -/
theorem price_columns_by_variation (runtime : Runtime) (hempty : runtime.lower [] = [])
    (hname : normalizeHeader runtime "instrument_id" = "instrumentid") (table : ParsedTable)
    (mappings : List Mapping) (hmap : mapTable runtime [] table = .ok mappings)
    (instrument varying constant : String)
    (hinstrument : fieldOf mappings instrument = some "instrument_id")
    (hne : varying ≠ constant)
    (hdeferred : ∀ header, header ∈ deferredHeaders runtime [] table ↔
      header = varying ∨ header = constant)
    (hwords : ∀ header ∈ [varying, constant], namesSettlement runtime header = false ∧
      namesTrade runtime header = false)
    (hblank : ∀ header ∈ [varying, constant], ∀ row ∈ table.rows, strip (row.cell header) ≠ "")
    (hrepeated : repeatedInstruments table instrument ≠ [])
    (hconstant : ∀ key ∈ table.column instrument,
      (valuesWithin table instrument constant key).length ≤ 1)
    (hvarying : (repeatedInstruments table instrument).length ≤
      2 * (varyingInstruments table instrument varying).length) :
    fieldOf mappings varying = some "trade_price" ∧
      fieldOf mappings constant = some "settlement_price" := by
  obtain ⟨hgroup, hnonempty⟩ := instrumentOf_eq hempty hname hmap hinstrument
  have hratio : ∀ header, ratioOf runtime [] table header =
      variationRatio (table.column header) (some (table.column instrument)) := by
    intro header
    change variationRatio (table.column header)
      ((truthy (instrumentOf runtime [] table)).map table.column) = _
    rw [hgroup, truthy_of_ne hnonempty]
    rfl
  have hundecided : ∀ header ∈ deferredHeaders runtime [] table,
      namesSettlement runtime header = false ∧ namesTrade runtime header = false := by
    intro header hheader
    refine hwords header ?_
    rcases (hdeferred header).mp hheader with rfl | rfl <;> simp
  -- no words decide, so the variation does
  have hcontends : ∀ field, ∀ header ∈ deferredHeaders runtime [] table,
      contends runtime (ratioOf runtime [] table) (deferredHeaders runtime [] table) field header =
        decide (structuralField (ratioOf runtime [] table header) = field) := by
    intro field header hheader
    have hnone : (deferredHeaders runtime [] table).any (namesPrice runtime field) = false := by
      refine List.any_eq_false.mpr fun other hother => ?_
      unfold namesPrice
      split
      · rw [(hundecided other hother).1]
        exact Bool.false_ne_true
      · rw [(hundecided other hother).2]
        exact Bool.false_ne_true
    unfold contends
    rw [hnone, (hundecided header hheader).1, (hundecided header hheader).2]
    rfl
  have htrade : structuralField (ratioOf runtime [] table varying) = "trade_price" := by
    rw [hratio]
    exact structuralField_varying (hblank varying (by simp)) hrepeated hvarying
  have hsettlement : structuralField (ratioOf runtime [] table constant) = "settlement_price" := by
    rw [hratio]
    exact structuralField_constant (hblank constant (by simp)) hrepeated hconstant
  rw [mapTable_field hmap, mapTable_field hmap]
  refine ⟨.inr ⟨by decide, priceWinner_of_only ((hdeferred varying).mpr (.inl rfl)) ?_⟩,
    .inr ⟨by decide, priceWinner_of_only ((hdeferred constant).mpr (.inr rfl)) ?_⟩⟩
  · intro header hheader
    rw [hcontends _ header hheader, decide_eq_true_eq]
    rcases (hdeferred header).mp hheader with rfl | rfl
    · simp [htrade]
    · simp [hsettlement, hne.symm]
  · intro header hheader
    rw [hcontends _ header hheader, decide_eq_true_eq]
    rcases (hdeferred header).mp hheader with rfl | rfl
    · simp [htrade, hne]
    · simp [hsettlement]

/-- Two executions in one instrument, which is marked at one price. -/
def executionTable : ParsedTable where
  headers := ["Symbol", "Price", "Px"]
  rows := [.ofPairs [("Symbol", "ESZ6"), ("Price", "5401.25"), ("Px", "5399.50")],
    .ofPairs [("Symbol", "ESZ6"), ("Price", "5402.75"), ("Px", "5399.50")]]
  headers_nodup := by decide

theorem price_columns_by_variation_execution :
    ∃ mappings, mapTable .ascii [] executionTable = .ok mappings ∧
      fieldOf mappings "Price" = some "trade_price" ∧
      fieldOf mappings "Px" = some "settlement_price" := by
  have hrun : (mapTable .ascii [] executionTable).toOption.map
      (fun mappings => fieldOf mappings "Symbol") = some (some "instrument_id") := by
    decide +kernel
  obtain ⟨mappings, hmap, hinstrument⟩ := Fallible.ok_of_toOption hrun
  have hdeferred : deferredHeaders .ascii [] executionTable = ["Price", "Px"] := by
    decide +kernel
  refine ⟨mappings, hmap, price_columns_by_variation .ascii rfl (by decide) executionTable
    mappings hmap "Symbol" "Price" "Px" hinstrument (by decide) ?_ (by decide)
    (by decide) (by decide) (by decide) (by decide)⟩
  intro header
  rw [hdeferred]
  simp

end Harbormaster.Inspector
