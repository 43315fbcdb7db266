import Harbormaster.Foundation.Ranking
import Harbormaster.Inspector.PricePass

/-! # The order of the columns

Tier 1 goes through the columns in their order, so where several columns could
have a field the first of them gets it. Which columns compete does not depend on
the order; the assignment is independent of it exactly when no field has two
competitors.
-/

namespace Harbormaster.Inspector

open Ordered Ranking

/-- The field that a header is assigned. -/
def fieldOf (mappings : List Mapping) (header : String) : Option String :=
  (mappings.find? fun m => m.sourceField = header).bind Mapping.canonicalField

theorem fieldOf_eq_some {mappings : List Mapping} {header field : String}
    (hnodup : (mappings.map Mapping.sourceField).Nodup) :
    fieldOf mappings header = some field ↔
      ∃ m ∈ mappings, m.sourceField = header ∧ m.canonicalField = some field := by
  unfold fieldOf
  rw [Option.bind_eq_some_iff]
  constructor
  · rintro ⟨m, hfound, hfield⟩
    exact ⟨m, List.mem_of_find?_eq_some hfound, by simpa using List.find?_some hfound, hfield⟩
  · rintro ⟨m, hm, rfl, hfield⟩
    cases hfound : mappings.find? fun other => other.sourceField = m.sourceField with
    | none =>
        have hnone := List.find?_eq_none.mp hfound m hm
        simp at hnone
    | some other =>
        have hsource : other.sourceField = m.sourceField := by simpa using List.find?_some hfound
        have hsame := List.inj_on_of_nodup_map hnodup (List.mem_of_find?_eq_some hfound) hm hsource
        exact ⟨other, rfl, hsame ▸ hfield⟩

/-! ## Competition for a price field -/

section Contenders

variable (runtime : Runtime) (ratio : String → ℚ) (deferred : List String) (field : String)

/-- The words of a header name this price field. -/
def namesPrice (header : String) : Bool :=
  if field = "settlement_price" then namesSettlement runtime header else namesTrade runtime header

def pricePreference (header : String) : ℚ :=
  if field = "settlement_price" then settlementPreference runtime header
  else tradePreference runtime header

/-- The column competes for a price field: its words name the field, or no
column's do and its variation speaks for the field. -/
def contends (header : String) : Bool :=
  if deferred.any (namesPrice runtime field) then namesPrice runtime field header
  else !namesSettlement runtime header && !namesTrade runtime header &&
    decide (structuralField (ratio header) = field)

/-- What the competitors are compared by. -/
def standing (header : String) : ℚ :=
  if deferred.any (namesPrice runtime field) then pricePreference runtime field header
  else ratio header

def contenders : List String := deferred.filter (contends runtime ratio deferred field)

end Contenders

variable {runtime : Runtime}

@[simp] theorem namesPrice_settlement :
    namesPrice runtime "settlement_price" = namesSettlement runtime := rfl

@[simp] theorem namesPrice_trade : namesPrice runtime "trade_price" = namesTrade runtime := rfl

@[simp] theorem pricePreference_settlement :
    pricePreference runtime "settlement_price" = settlementPreference runtime := rfl

@[simp] theorem pricePreference_trade :
    pricePreference runtime "trade_price" = tradePreference runtime := rfl

theorem mem_assignNamed {field fieldWords reason header other : String} {candidates : List String}
    {score : String → ℚ} :
    (∃ m ∈ assignNamed runtime field fieldWords reason (candidates.map fun h => (h, score h)),
      m.sourceField = header ∧ m.canonicalField = some other) ↔
      other = field ∧ candidates.argmax score = some header := by
  have hbest : (ranked (candidates.map fun h => (h, score h))).head? =
      (candidates.argmax score).map fun h => (h, score h) := by
    have hfind : (ranked (candidates.map fun h => (h, score h))).find? (fun _ => true) =
        ((candidates.map fun h => (h, score h)).filter fun _ => true).argmax Prod.snd :=
      find?_insertionSort (fun _ => true) (candidates.map fun h => (h, score h))
    rw [List.filter_true, argmax_map] at hfind
    rw [← hfind, ← List.head?_filter, List.filter_true]
  unfold assignNamed
  split
  next hnone =>
    rw [hnone, List.head?_nil] at hbest
    rw [Option.map_eq_none_iff.mp hbest.symm]
    simp
  next best score' surplus hsome =>
    rw [hsome, List.head?_cons] at hbest
    obtain ⟨_, hargmax, hpair⟩ := Option.map_eq_some_iff.mp hbest.symm
    cases hpair
    rw [hargmax, List.exists_mem_cons_iff, Option.some_inj, Option.some_inj]
    constructor
    · rintro (⟨hsource, hfield⟩ | ⟨m, hm, _, hfield⟩)
      · exact ⟨hfield.symm, hsource⟩
      · obtain ⟨_, _, rfl⟩ := List.mem_map.mp hm
        cases hfield
    · rintro ⟨hfield, hsource⟩
      exact .inl ⟨hsource, hfield.symm⟩

theorem mem_assignStructural_field {basis header field : String} (taken : List String)
    (scored : List (String × ℚ)) :
    (∃ m ∈ assignStructural basis taken scored,
      m.sourceField = header ∧ m.canonicalField = some field) ↔
      field ∉ taken ∧
        (scored.find? fun entry => structuralField entry.2 = field).map Prod.fst = some header := by
  induction scored generalizing taken with
  | nil => simp [assignStructural]
  | cons entry rest ih =>
      obtain ⟨first, ratio⟩ := entry
      obtain ⟨m, hsource, _, ⟨hfree, hfield, heq⟩ | ⟨htaken, hfield, heq⟩⟩ :=
        @assignStructural_cons basis taken first ratio rest
      · rw [heq, List.exists_mem_cons_iff, ih, hsource, hfield, List.find?_cons, Option.some_inj]
        by_cases hsame : structuralField ratio = field
        · subst hsame
          simp [hfree]
        · simp [hsame, Ne.symm hsame]
      · rw [heq, List.exists_mem_cons_iff, ih, hsource, hfield, List.find?_cons]
        by_cases hsame : structuralField ratio = field
        · subst hsame
          simp [htaken]
        · simp [hsame]

theorem exists_mem_append {α : Type} {P : α → Prop} {first second : List α} :
    (∃ a ∈ first ++ second, P a) ↔ (∃ a ∈ first, P a) ∨ ∃ a ∈ second, P a := by
  simp only [List.mem_append, or_and_right, exists_or]

theorem structuralField_mem (ratio : ℚ) : structuralField ratio ∈ priceFields := by
  unfold structuralField
  split <;> decide

/-- The price pass gives a field to the first of its best competitors. -/
theorem resolvePrices_field {table : ParsedTable} {deferred : List String}
    {settled : List Mapping} {header field : String} (hfield : field ∈ priceFields) :
    (∃ m ∈ resolvePrices runtime table deferred settled,
      m.sourceField = header ∧ m.canonicalField = some field) ↔
      (contenders runtime (fun h => variationRatio (table.column h)
        (instrumentColumn table settled)) deferred field).argmax
          (standing runtime (fun h => variationRatio (table.column h)
            (instrumentColumn table settled)) deferred field) = some header := by
  generalize hratio : (fun h => variationRatio (table.column h)
    (instrumentColumn table settled)) = ratio
  have hparts : (∃ m ∈ resolvePrices runtime table deferred settled,
      m.sourceField = header ∧ m.canonicalField = some field) ↔
      (deferred.filter (namesPrice runtime field)).argmax (pricePreference runtime field) =
          some header ∨
        deferred.filter (namesPrice runtime field) = [] ∧
          ((undecidedHeaders runtime deferred).filter
            fun h => structuralField (ratio h) = field).argmax ratio = some header := by
    have hstructural : ((ranked ((undecidedHeaders runtime deferred).map fun h =>
        (h, ratio h))).find? fun entry => structuralField entry.2 = field).map Prod.fst =
        ((undecidedHeaders runtime deferred).filter
          fun h => structuralField (ratio h) = field).argmax ratio := by
      unfold ranked
      rw [find?_insertionSort, List.filter_map, argmax_map, Option.map_map]
      exact Option.map_id'
    rw [resolvePrices_eq]
    simp only [congrFun hratio]
    rw [exists_mem_append, exists_mem_append, mem_assignNamed, mem_assignNamed,
      mem_assignStructural_field, hstructural, List.mem_append, mem_given, mem_given]
    rcases List.mem_cons.mp hfield with rfl | hfield
    · simp
    · rw [List.mem_singleton.mp hfield]
      simp
  rw [hparts]
  unfold contenders contends standing
  by_cases hnamed : deferred.any (namesPrice runtime field) = true
  · have hne : deferred.filter (namesPrice runtime field) ≠ [] := by
      obtain ⟨h, hmem, hnames⟩ := List.any_eq_true.mp hnamed
      exact List.ne_nil_of_mem (List.mem_filter.mpr ⟨hmem, hnames⟩)
    simp only [hnamed, if_true, hne, false_and, or_false]
  · have hnil : deferred.filter (namesPrice runtime field) = [] := by
      refine List.filter_eq_nil_iff.mpr fun h hmem hnames => ?_
      exact hnamed (List.any_eq_true.mpr ⟨h, hmem, hnames⟩)
    unfold undecidedHeaders
    simp only [hnamed, hnil, List.argmax_nil, List.filter_filter, Bool.false_eq_true, if_false,
      reduceCtorEq, true_and, false_or, Bool.and_comm]

theorem mem_priceFields_of_resolvePrices {table : ParsedTable} {deferred : List String}
    {settled : List Mapping} {m : Mapping} {field : String}
    (hm : m ∈ resolvePrices runtime table deferred settled)
    (hfield : m.canonicalField = some field) : field ∈ priceFields := by
  have hsome : ∃ m ∈ resolvePrices runtime table deferred settled,
      m.sourceField = m.sourceField ∧ m.canonicalField = some field := ⟨m, hm, rfl, hfield⟩
  rw [resolvePrices_eq, exists_mem_append, exists_mem_append] at hsome
  rcases hsome with (⟨m, hm, hsource, hfield⟩ | ⟨m, hm, hsource, hfield⟩) | ⟨m, hm, hsource, hfield⟩
  · rw [(mem_assignNamed.mp ⟨m, hm, rfl, hfield⟩).1]
    decide
  · rw [(mem_assignNamed.mp ⟨m, hm, rfl, hfield⟩).1]
    decide
  · obtain ⟨entry, hentry, _⟩ := Option.map_eq_some_iff.mp
      ((mem_assignStructural_field _ _).mp ⟨m, hm, rfl, hfield⟩).2
    have hvaries : structuralField entry.2 = field := by simpa using List.find?_some hentry
    rw [← hvaries]
    exact structuralField_mem entry.2

/-! ## What each header gets -/

variable {fieldOverrides : List (String × String)} {table : ParsedTable}

variable (runtime fieldOverrides) in
/-- The header is given the field by its name: an override gives it, or no earlier
header is named so. -/
def NamedBy (passed : List String) (header field : String) : Prop :=
  (header ∈ passed ∧ overrideFor runtime fieldOverrides header = some field) ∨
    passed.find? (fun h => namedField runtime fieldOverrides h = some field) = some header

theorem namedBy_append {passed : List String} {last header field : String} :
    NamedBy runtime fieldOverrides (passed ++ [last]) header field ↔
      NamedBy runtime fieldOverrides passed header field ∨
        (last = header ∧ (overrideFor runtime fieldOverrides last = some field ∨
          namedField runtime fieldOverrides last = some field ∧
            ∀ earlier ∈ passed, namedField runtime fieldOverrides earlier ≠ some field)) := by
  unfold NamedBy
  rw [List.find?_append, List.mem_append, List.mem_singleton, or_and_right]
  cases hfound : passed.find? fun h => namedField runtime fieldOverrides h = some field with
  | some earlier =>
      have hmem := List.mem_of_find?_eq_some hfound
      have hnamed : namedField runtime fieldOverrides earlier = some field := by
        simpa using List.find?_some hfound
      have hnone : ¬ ∀ earlier ∈ passed, namedField runtime fieldOverrides earlier ≠ some field :=
        fun h => h earlier hmem hnamed
      simp only [Option.some_or, hnone, and_false, or_false]
      grind
  | none =>
      have hnone : ∀ earlier ∈ passed, namedField runtime fieldOverrides earlier ≠ some field := by
        simpa using List.find?_eq_none.mp hfound
      simp only [Option.none_or, List.find?_cons, List.find?_nil, reduceCtorEq, or_false]
      by_cases hlast : namedField runtime fieldOverrides last = some field
      · simp only [hlast, decide_true]
        grind
      · simp only [hlast, decide_false]
        grind

theorem namedField_of_override {header override : String}
    (h : overrideFor runtime fieldOverrides header = some override) :
    namedField runtime fieldOverrides header = some override := by
  unfold namedField
  rw [h]

/-- What the pass over the names gives out. -/
theorem named_of_foldlM {headers : List String} {state : Tier1State}
    (h : headers.foldlM (mapHeader runtime fieldOverrides table) {} = .ok state)
    (header field : String) :
    (∃ m ∈ state.mappings, m.sourceField = header ∧ m.canonicalField = some field) ↔
      NamedBy runtime fieldOverrides headers header field := by
  have hstart : @Passed runtime fieldOverrides table [] {} ∧ ∀ header field : String,
      (∃ m ∈ ({} : Tier1State).mappings, m.sourceField = header ∧
        m.canonicalField = some field) ↔ NamedBy runtime fieldOverrides [] header field :=
    ⟨passed_nil, by simp [NamedBy]⟩
  have hboth := Fallible.foldlM_passed (motive := fun headers state =>
    @Passed runtime fieldOverrides table headers state ∧ ∀ header field : String,
      (∃ m ∈ state.mappings, m.sourceField = header ∧ m.canonicalField = some field) ↔
        NamedBy runtime fieldOverrides headers header field) hstart ?_ h
  · exact hboth.2 header field
  rintro passed last state next ⟨hpassed, ih⟩ hnext
  rcases mapHeader_cases hnext with ⟨hdeferred, hname, rfl⟩ |
    ⟨hkept, m, hsource, hgrounded, ⟨given, hname, hne, hfield, hgiven, rfl⟩ |
      ⟨hoverride, hleft, hfield, rfl⟩⟩
  · refine ⟨hpassed.defer hdeferred hname, fun header field => ?_⟩
    rw [namedBy_append, ← ih]
    refine (or_iff_left ?_).symm
    rintro ⟨-, hoverride | ⟨hlast, -⟩⟩
    · rw [namedField_of_override hoverride] at hname
      cases hname
    · rw [hname] at hlast
      cases hlast
  · refine ⟨hpassed.give hkept hsource hgrounded hname hne hfield hgiven, fun header field => ?_⟩
    rw [namedBy_append, ← ih]
    simp only [Tier1State.claim, Tier1State.add]
    rw [exists_mem_append]
    simp only [List.mem_singleton, exists_eq_left]
    refine or_congr_right ?_
    rw [hsource, hfield]
    refine and_congr_right fun _ => ?_
    constructor
    · intro hsame
      cases hsame
      refine hgiven.imp id fun hfree => ⟨hname, fun earlier hearlier hsame => hfree.2 ?_⟩
      exact (hpassed.claimed_iff _).mpr ⟨earlier, hearlier, hsame⟩
    · rintro (hoverride | ⟨hlast, -⟩)
      · exact hname.symm.trans (namedField_of_override hoverride)
      · exact hname.symm.trans hlast
  · refine ⟨hpassed.leave hkept hsource hgrounded hoverride hleft hfield, fun header field => ?_⟩
    rw [namedBy_append, ← ih]
    simp only [Tier1State.add]
    rw [exists_mem_append]
    simp only [List.mem_singleton, exists_eq_left]
    refine or_congr_right ?_
    rw [hfield, hoverride]
    constructor
    · rintro ⟨-, hsame⟩
      cases hsame
    · rintro ⟨-, hsame | ⟨hlast, hfirst⟩⟩
      · cases hsame
      · obtain ⟨earlier, hearlier, hsame⟩ := (hpassed.claimed_iff _).mp (hleft field hlast)
        exact absurd hsame (hfirst earlier hearlier)

variable (runtime fieldOverrides table) in
/-- The headers that are left to the price pass. -/
def deferredHeaders : List String :=
  table.headers.filter (isDeferred runtime fieldOverrides table)

variable (runtime fieldOverrides table) in
/-- The column that the price pass gives a field to. -/
def priceWinner (field : String) : Option String :=
  (contenders runtime (ratioOf runtime fieldOverrides table)
    (deferredHeaders runtime fieldOverrides table) field).argmax
      (standing runtime (ratioOf runtime fieldOverrides table)
        (deferredHeaders runtime fieldOverrides table) field)

/-- A header gets a field by its name, or a price field from the price pass. -/
theorem mapTable_field {mappings : List Mapping}
    (h : mapTable runtime fieldOverrides table = .ok mappings) (header field : String) :
    fieldOf mappings header = some field ↔
      NamedBy runtime fieldOverrides table.headers header field ∨
        (field ∈ priceFields ∧
          priceWinner runtime fieldOverrides table field = some header) := by
  obtain ⟨state, hfold, hordered, hperm, hratio⟩ := mapTable_eq_ok h
  have hpassed := passed_of_foldlM hfold
  rw [fieldOf_eq_some (hordered.symm ▸ table.headers_nodup)]
  simp only [hperm.mem_iff]
  rw [exists_mem_append, named_of_foldlM hfold]
  refine or_congr_right ?_
  unfold priceWinner deferredHeaders
  rw [← hpassed.deferred, ← hratio]
  constructor
  · rintro ⟨m, hm, hsource, hfield⟩
    have hprice := mem_priceFields_of_resolvePrices hm hfield
    exact ⟨hprice, (resolvePrices_field hprice).mp ⟨m, hm, hsource, hfield⟩⟩
  · rintro ⟨hprice, hwinner⟩
    exact (resolvePrices_field hprice).mpr hwinner

/-! ## Reordered columns -/

/-- The same columns in another order. -/
structure Reordered (table table' : ParsedTable) : Prop where
  headers : table'.headers.Perm table.headers
  column : ∀ header, table'.column header = table.column header

/-- The pass can tell whether a column is deferred. -/
def Readable (runtime : Runtime) (fieldOverrides : List (String × String)) (table : ParsedTable)
    (header : String) : Prop :=
  overrideFor runtime fieldOverrides header = none → aliasLookup runtime header = none →
    ∃ price, looksLikePriceColumn runtime header (table.column header) = .ok price

theorem exists_mapHeader_eq_ok (state : Tier1State) (header : String) :
    (∃ next, mapHeader runtime fieldOverrides table state header = .ok next) ↔
      Readable runtime fieldOverrides table header := by
  unfold mapHeader Readable
  cases overrideFor runtime fieldOverrides header with
  | some override => simp
  | none =>
      dsimp only
      cases hhit : aliasLookup runtime header with
      | none =>
          simp only [Fallible.bind_eq_ok, forall_const]
          constructor
          · rintro ⟨next, price, hprice, -⟩
            exact ⟨price, hprice⟩
          · rintro ⟨price, hprice⟩
            cases price with
            | true => exact ⟨_, true, hprice, rfl⟩
            | false => exact ⟨_, false, hprice, rfl⟩
      | some hit =>
          have hmappable := mappable_of_aliasLookup runtime hhit
          simp only [reduceCtorEq, false_implies, implies_true, iff_true]
          split
          next => exact ⟨_, rfl⟩
          next =>
            split
            next => exact ⟨_, rfl⟩
            next hfree =>
              have hclaimed : hit ∈ state.claimed := by
                by_contra hnew
                exact hfree ⟨hmappable, hnew⟩
              rw [if_pos hclaimed]
              exact ⟨_, rfl⟩

theorem exists_mapTable_eq_ok :
    (∃ mappings, mapTable runtime fieldOverrides table = .ok mappings) ↔
      ∀ header ∈ table.headers, Readable runtime fieldOverrides table header := by
  rw [← Fallible.exists_foldlM_eq_ok exists_mapHeader_eq_ok {}]
  unfold mapTable
  simp only [Fallible.bind_eq_ok]
  constructor
  · rintro ⟨mappings, state, hfold, -⟩
    exact ⟨state, hfold⟩
  · rintro ⟨state, hfold⟩
    exact ⟨_, state, hfold, rfl⟩

section Competition

variable (runtime fieldOverrides) (table : ParsedTable)

/-- How a column varies beside the column of the instruments. -/
def ratioBeside (instrument : Option String) (header : String) : ℚ :=
  variationRatio (table.column header) ((truthy instrument).map table.column)

/-- The header whose column the rows are grouped by. -/
def instrumentOf : Option String :=
  table.headers.find? fun header =>
    namedField runtime fieldOverrides header = some "instrument_id"

/-- The headers that may come first among those named an instrument. -/
def instruments : List (Option String) :=
  let named := table.headers.filter fun header =>
    namedField runtime fieldOverrides header = some "instrument_id"
  if named = [] then [none] else named.map some

/-- No competitor for the price field surpasses the column. -/
def TopContender (instrument : Option String) (field header : String) : Prop :=
  Top (standing runtime (ratioBeside table instrument)
      (deferredHeaders runtime fieldOverrides table) field)
    (contenders runtime (ratioBeside table instrument)
      (deferredHeaders runtime fieldOverrides table) field) header

/-- No field has two competitors: two headers are named a field only where
overrides give it to both, and beside every column that the rows may be grouped
by, one and the same column is the best for a price field. -/
structure OrderFree : Prop where
  named : ∀ header ∈ table.headers, ∀ other ∈ table.headers, header ≠ other → ∀ field,
    namedField runtime fieldOverrides header = some field →
    namedField runtime fieldOverrides other = some field →
      overrideFor runtime fieldOverrides header = some field ∧
        overrideFor runtime fieldOverrides other = some field
  priced : ∀ field ∈ priceFields, ∀ instrument ∈ instruments runtime fieldOverrides table,
    ∀ instrument' ∈ instruments runtime fieldOverrides table, ∀ header,
      TopContender runtime fieldOverrides table instrument field header → ∀ other,
        TopContender runtime fieldOverrides table instrument' field other ↔ other = header

end Competition

theorem instrumentOf_mem_instruments :
    instrumentOf runtime fieldOverrides table ∈ instruments runtime fieldOverrides table := by
  unfold instruments instrumentOf
  rw [← List.head?_filter]
  cases hnamed : table.headers.filter fun header =>
      namedField runtime fieldOverrides header = some "instrument_id" with
  | nil => simp
  | cons first rest => simp

namespace Reordered

variable {table' : ParsedTable}

theorem isDeferred_eq (h : Reordered table table') :
    isDeferred runtime fieldOverrides table' = isDeferred runtime fieldOverrides table := by
  funext header
  unfold isDeferred
  rw [h.column]

theorem deferredHeaders_perm (h : Reordered table table') :
    (deferredHeaders runtime fieldOverrides table').Perm
      (deferredHeaders runtime fieldOverrides table) := by
  unfold deferredHeaders
  rw [h.isDeferred_eq]
  exact h.headers.filter _

theorem mem_instruments (h : Reordered table table') (instrument : Option String) :
    instrument ∈ instruments runtime fieldOverrides table' ↔
      instrument ∈ instruments runtime fieldOverrides table := by
  have hperm := h.headers.filter fun header =>
    namedField runtime fieldOverrides header = some "instrument_id"
  unfold instruments
  dsimp only
  by_cases hnone : (table.headers.filter fun header =>
      namedField runtime fieldOverrides header = some "instrument_id") = []
  · rw [hnone] at hperm
    rw [hnone, hperm.eq_nil]
  · have hsome : (table'.headers.filter fun header =>
        namedField runtime fieldOverrides header = some "instrument_id") ≠ [] := by
      intro hnil
      rw [hnil] at hperm
      exact hnone hperm.symm.eq_nil
    rw [if_neg hnone, if_neg hsome]
    exact (hperm.map some).mem_iff

theorem topContender_iff (h : Reordered table table') (instrument : Option String)
    (field header : String) :
    TopContender runtime fieldOverrides table' instrument field header ↔
      TopContender runtime fieldOverrides table instrument field header := by
  have hratio : ratioBeside table' instrument = ratioBeside table instrument := by
    funext header
    unfold ratioBeside
    rw [h.column, funext h.column]
  have hdeferred : (deferredHeaders runtime fieldOverrides table').Perm
      (deferredHeaders runtime fieldOverrides table) := h.deferredHeaders_perm
  have hany : (deferredHeaders runtime fieldOverrides table').any (namesPrice runtime field) =
      (deferredHeaders runtime fieldOverrides table).any (namesPrice runtime field) := by
    rw [Bool.eq_iff_iff, List.any_eq_true, List.any_eq_true]
    simp only [hdeferred.mem_iff]
  have hstanding : standing runtime (ratioBeside table instrument)
      (deferredHeaders runtime fieldOverrides table') field =
      standing runtime (ratioBeside table instrument)
        (deferredHeaders runtime fieldOverrides table) field := by
    unfold standing
    rw [hany]
  have hcontends : contends runtime (ratioBeside table instrument)
      (deferredHeaders runtime fieldOverrides table') field =
      contends runtime (ratioBeside table instrument)
        (deferredHeaders runtime fieldOverrides table) field := by
    unfold contends
    rw [hany]
  unfold TopContender contenders
  rw [hratio, hstanding, hcontends]
  exact Top.congr fun header => (hdeferred.filter _).mem_iff

theorem readable_iff (h : Reordered table table') (header : String) :
    Readable runtime fieldOverrides table' header ↔
      Readable runtime fieldOverrides table header := by
  unfold Readable
  rw [h.column]

theorem exists_mapTable (h : Reordered table table')
    (hok : ∃ mappings, mapTable runtime fieldOverrides table = .ok mappings) :
    ∃ mappings, mapTable runtime fieldOverrides table' = .ok mappings := by
  rw [exists_mapTable_eq_ok] at hok ⊢
  intro header hheader
  exact (h.readable_iff header).mpr (hok header (h.headers.mem_iff.mp hheader))

end Reordered

/-! ## Where the order does not matter -/

theorem priceWinner_top {field header : String}
    (h : priceWinner runtime fieldOverrides table field = some header) :
    TopContender runtime fieldOverrides table (instrumentOf runtime fieldOverrides table) field
      header :=
  top_of_argmax h

theorem mem_deferred_of_top {instrument : Option String} {field header : String}
    (h : TopContender runtime fieldOverrides table instrument field header) :
    header ∈ table.headers ∧ isDeferred runtime fieldOverrides table header = true :=
  List.mem_filter.mp (List.mem_filter.mp h.1).1

/-- What overrides give, every header named so gets. -/
theorem OrderFree.namedBy_iff (h : OrderFree runtime fieldOverrides table) {header field : String} :
    NamedBy runtime fieldOverrides table.headers header field ↔
      header ∈ table.headers ∧ namedField runtime fieldOverrides header = some field := by
  constructor
  · rintro (⟨hheader, hoverride⟩ | hfound)
    · exact ⟨hheader, namedField_of_override hoverride⟩
    · exact ⟨List.mem_of_find?_eq_some hfound, by simpa using List.find?_some hfound⟩
  · rintro ⟨hheader, hnamed⟩
    cases hfound : table.headers.find?
        fun h => namedField runtime fieldOverrides h = some field with
    | none =>
        have hnone := List.find?_eq_none.mp hfound header hheader
        exact absurd (decide_eq_true hnamed) hnone
    | some first =>
        by_cases hfirst : header = first
        · exact .inr (hfirst ▸ hfound)
        · have hsame : namedField runtime fieldOverrides first = some field := by
            simpa using List.find?_some hfound
          exact .inl ⟨hheader, (h.named header hheader first (List.mem_of_find?_eq_some hfound)
            hfirst field hnamed hsame).1⟩

theorem OrderFree.priceWinner_iff (h : OrderFree runtime fieldOverrides table) {field : String}
    (hfield : field ∈ priceFields) {instrument : Option String}
    (hinstrument : instrument ∈ instruments runtime fieldOverrides table) {header : String} :
    priceWinner runtime fieldOverrides table field = some header ↔
      TopContender runtime fieldOverrides table instrument field header := by
  have hown : instrumentOf runtime fieldOverrides table ∈
      instruments runtime fieldOverrides table := instrumentOf_mem_instruments
  constructor
  · intro hwinner
    exact (h.priced field hfield _ hown instrument hinstrument header (priceWinner_top hwinner)
      header).mpr rfl
  · intro htop
    have hown := (h.priced field hfield instrument hinstrument _ hown header htop header).mpr rfl
    exact Top.argmax_eq hown fun other hother =>
      (h.priced field hfield _ instrumentOf_mem_instruments _ instrumentOf_mem_instruments header
        hown other).mp hother

theorem OrderFree.reordered (h : OrderFree runtime fieldOverrides table) {table' : ParsedTable}
    (hreordered : Reordered table table') : OrderFree runtime fieldOverrides table' where
  named header hheader other hother :=
    h.named header (hreordered.headers.mem_iff.mp hheader) other
      (hreordered.headers.mem_iff.mp hother)
  priced field hfield instrument hinstrument instrument' hinstrument' header htop other := by
    rw [hreordered.topContender_iff] at htop ⊢
    exact h.priced field hfield instrument ((hreordered.mem_instruments _).mp hinstrument)
      instrument' ((hreordered.mem_instruments _).mp hinstrument') header htop other

/-- Without competition every order gives each header the same field. -/
theorem OrderFree.fieldOf_eq (h : OrderFree runtime fieldOverrides table) {table' : ParsedTable}
    (hreordered : Reordered table table') {mappings mappings' : List Mapping}
    (hmap : mapTable runtime fieldOverrides table = .ok mappings)
    (hmap' : mapTable runtime fieldOverrides table' = .ok mappings') (header : String) :
    fieldOf mappings' header = fieldOf mappings header := by
  have h' := h.reordered hreordered
  refine Option.ext fun field => ?_
  rw [mapTable_field hmap, mapTable_field hmap', h.namedBy_iff, h'.namedBy_iff,
    hreordered.headers.mem_iff]
  refine or_congr_right (and_congr_right fun hfield => ?_)
  rw [h.priceWinner_iff hfield instrumentOf_mem_instruments,
    h'.priceWinner_iff hfield ((hreordered.mem_instruments _).mpr instrumentOf_mem_instruments),
    hreordered.topContender_iff]

/-! ## Where the order matters -/

/-- The table with one of its columns in front. -/
def ParsedTable.bring (table : ParsedTable) (header : String) (h : header ∈ table.headers) :
    ParsedTable where
  headers := header :: table.headers.erase header
  rows := table.rows
  evidence := table.evidence
  warnings := table.warnings
  headers_nodup := (List.perm_cons_erase h).nodup_iff.mp table.headers_nodup

theorem reordered_bring {header : String} (h : header ∈ table.headers) :
    Reordered table (table.bring header h) where
  headers := (List.perm_cons_erase h).symm
  column _ := rfl

/-- A deferred header has no name of its own. -/
theorem namedField_of_isDeferred {header : String}
    (h : isDeferred runtime fieldOverrides table header = true) :
    namedField runtime fieldOverrides header = none := by
  unfold isDeferred at h
  unfold namedField
  cases hoverride : overrideFor runtime fieldOverrides header with
  | some override => simp [hoverride] at h
  | none =>
      cases hhit : aliasLookup runtime header with
      | none => rfl
      | some hit =>
          rw [hhit, Bool.and_eq_true] at h
          simp [Option.filter, of_decide_eq_true h.2]

/-- Any header that may come first among the instruments does so in some order,
with any price column in front of the others. -/
theorem exists_arranged {instrument : Option String} {header : String}
    (hinstrument : instrument ∈ instruments runtime fieldOverrides table)
    (hheader : header ∈ table.headers)
    (hdeferred : isDeferred runtime fieldOverrides table header = true) :
    ∃ table' rest, Reordered table table' ∧
      instrumentOf runtime fieldOverrides table' = instrument ∧
      deferredHeaders runtime fieldOverrides table' = header :: rest := by
  have hfront := reordered_bring hheader
  have hunnamed := namedField_of_isDeferred hdeferred
  unfold instruments at hinstrument
  dsimp only at hinstrument
  split at hinstrument
  next hnone =>
    obtain rfl := List.mem_singleton.mp hinstrument
    refine ⟨_, (table.headers.erase header).filter (isDeferred runtime fieldOverrides table),
      hfront, ?_, ?_⟩
    · refine List.find?_eq_none.mpr fun other hother hnamed => ?_
      exact List.filter_eq_nil_iff.mp hnone other (hfront.headers.mem_iff.mp hother) hnamed
    · unfold deferredHeaders
      rw [hfront.isDeferred_eq]
      exact List.filter_cons_of_pos hdeferred
  next hsome =>
    obtain ⟨first, hfirst, rfl⟩ := List.mem_map.mp hinstrument
    obtain ⟨hmem, hnamed⟩ := List.mem_filter.mp hfirst
    have hkept : ¬ isDeferred runtime fieldOverrides table first = true := by
      intro hfirst
      rw [namedField_of_isDeferred hfirst] at hnamed
      cases of_decide_eq_true hnamed
    have hfirst : first ∈ (table.bring header hheader).headers := hfront.headers.mem_iff.mpr hmem
    have hboth := reordered_bring hfirst
    have hne : header ≠ first := fun hsame => hkept (hsame ▸ hdeferred)
    refine ⟨_, ((table.headers.erase header).erase first).filter
      (isDeferred runtime fieldOverrides table), ⟨hboth.headers.trans hfront.headers,
      fun column => (hboth.column column).trans (hfront.column column)⟩,
      List.find?_cons_of_pos hnamed, ?_⟩
    unfold deferredHeaders
    rw [hboth.isDeferred_eq, hfront.isDeferred_eq]
    change List.filter _ (first :: (header :: table.headers.erase header).erase first) = _
    rw [List.filter_cons_of_neg hkept, List.erase_cons_tail (by simpa using hne),
      List.filter_cons_of_pos hdeferred]

/-- The best competitor for a price field gets it in front of the others. -/
theorem priceWinner_of_top {field header : String} {rest : List String}
    (htop : TopContender runtime fieldOverrides table (instrumentOf runtime fieldOverrides table)
      field header)
    (hfirst : deferredHeaders runtime fieldOverrides table = header :: rest) :
    priceWinner runtime fieldOverrides table field = some header := by
  obtain ⟨hmem, hbest⟩ := htop
  have hcontends := (List.mem_filter.mp hmem).2
  have hcontenders : contenders runtime (ratioOf runtime fieldOverrides table)
      (deferredHeaders runtime fieldOverrides table) field = header :: rest.filter
        (contends runtime (ratioOf runtime fieldOverrides table)
          (deferredHeaders runtime fieldOverrides table) field) := by
    exact (congrArg (List.filter _) hfirst).trans (List.filter_cons_of_pos hcontends)
  unfold priceWinner
  rw [hcontenders]
  refine argmax_cons_of_top fun other hother => hbest other ?_
  change other ∈ contenders runtime (ratioOf runtime fieldOverrides table)
    (deferredHeaders runtime fieldOverrides table) field
  rw [hcontenders]
  exact List.mem_cons_of_mem header hother

/-- In every order each header gets the field it gets in this one. -/
def OrderIndependent (runtime : Runtime) (fieldOverrides : List (String × String))
    (table : ParsedTable) (mappings : List Mapping) : Prop :=
  ∀ table', Reordered table table' →
    ∃ mappings', mapTable runtime fieldOverrides table' = .ok mappings' ∧
      ∀ header, fieldOf mappings' header = fieldOf mappings header

/-- A header that is named as another one loses the field behind it, unless an
override gives it. -/
theorem OrderIndependent.override_of_named {mappings : List Mapping}
    (h : OrderIndependent runtime fieldOverrides table mappings) {header other field : String}
    (hheader : header ∈ table.headers) (hother : other ∈ table.headers) (hne : header ≠ other)
    (hnamed : namedField runtime fieldOverrides header = some field)
    (hsame : namedField runtime fieldOverrides other = some field) :
    overrideFor runtime fieldOverrides header = some field := by
  obtain ⟨first, hmapFirst, hfirst⟩ := h _ (reordered_bring hheader)
  obtain ⟨second, hmapSecond, hsecond⟩ := h _ (reordered_bring hother)
  have hgiven : fieldOf first header = some field :=
    (mapTable_field hmapFirst header field).mpr
      (.inl (.inr (List.find?_cons_of_pos (decide_eq_true hnamed))))
  rw [hfirst, ← hsecond, mapTable_field hmapSecond] at hgiven
  rcases hgiven with (⟨-, hoverride⟩ | hfound) | ⟨-, hwinner⟩
  · exact hoverride
  · -- the other header is in front
    have hfront := List.find?_cons_of_pos (l := table.headers.erase other)
      (p := fun h => namedField runtime fieldOverrides h = some field) (decide_eq_true hsame)
    exact absurd (Option.some.inj (hfound.symm.trans hfront)) hne
  · have hdeferred := (mem_deferred_of_top (priceWinner_top hwinner)).2
    rw [namedField_of_isDeferred hdeferred] at hnamed
    cases hnamed

/-- The best competitor beside some column of instruments has the field in every
order. -/
theorem OrderIndependent.fieldOf_of_top {mappings : List Mapping}
    (h : OrderIndependent runtime fieldOverrides table mappings) {instrument : Option String}
    (hinstrument : instrument ∈ instruments runtime fieldOverrides table) {field header : String}
    (hfield : field ∈ priceFields)
    (htop : TopContender runtime fieldOverrides table instrument field header) :
    fieldOf mappings header = some field := by
  obtain ⟨hheader, hdeferred⟩ := mem_deferred_of_top htop
  obtain ⟨table', rest, hreordered, rfl, hfirst⟩ := exists_arranged hinstrument hheader hdeferred
  obtain ⟨mappings', hmap, hsame⟩ := h table' hreordered
  have htop' := (hreordered.topContender_iff _ field header).mpr htop
  rw [← hsame, mapTable_field hmap]
  exact .inr ⟨hfield, priceWinner_of_top htop' hfirst⟩

theorem priceWinner_of_fieldOf {mappings : List Mapping}
    (hmap : mapTable runtime fieldOverrides table = .ok mappings) {field header : String}
    (hdeferred : isDeferred runtime fieldOverrides table header = true)
    (hfield : fieldOf mappings header = some field) :
    priceWinner runtime fieldOverrides table field = some header := by
  rcases (mapTable_field hmap header field).mp hfield with (⟨-, hoverride⟩ | hfound) | ⟨-, hwinner⟩
  · have hnamed := namedField_of_override hoverride
    rw [namedField_of_isDeferred hdeferred] at hnamed
    cases hnamed
  · have hnamed : namedField runtime fieldOverrides header = some field := by
      simpa using List.find?_some hfound
    rw [namedField_of_isDeferred hdeferred] at hnamed
    cases hnamed
  · exact hwinner

/-- Tier 1 assigns the columns their fields in every order alike exactly when no
field has two competitors. -/
theorem column_order_independent_iff (runtime : Runtime)
    (fieldOverrides : List (String × String)) (table : ParsedTable) (mappings : List Mapping)
    (hmap : mapTable runtime fieldOverrides table = .ok mappings) :
    OrderIndependent runtime fieldOverrides table mappings ↔
      OrderFree runtime fieldOverrides table := by
  constructor
  · intro h
    refine ⟨?_, ?_⟩
    · intro header hheader other hother hne field hnamed hsame
      exact ⟨h.override_of_named hheader hother hne hnamed hsame,
        h.override_of_named hother hheader hne.symm hsame hnamed⟩
    · intro field hfield instrument hinstrument instrument' hinstrument' header htop other
      have hgets := h.fieldOf_of_top hinstrument hfield htop
      obtain ⟨hheader, hdeferred⟩ := mem_deferred_of_top htop
      constructor
      · intro hother
        have hwins := priceWinner_of_fieldOf hmap (mem_deferred_of_top hother).2
          (h.fieldOf_of_top hinstrument' hfield hother)
        have hwin := priceWinner_of_fieldOf hmap hdeferred hgets
        exact Option.some.inj (hwins.symm.trans hwin)
      · rintro rfl
        obtain ⟨table', rest, hreordered, rfl, hfirst⟩ :=
          exists_arranged hinstrument' hheader hdeferred
        obtain ⟨mappings', hmap', hsame⟩ := h table' hreordered
        have hdeferred' : isDeferred runtime fieldOverrides table' other = true := by
          rw [hreordered.isDeferred_eq]
          exact hdeferred
        have hwin := priceWinner_of_fieldOf hmap' hdeferred' ((hsame other).trans hgets)
        exact (hreordered.topContender_iff _ field other).mp (priceWinner_top hwin)
  · intro h table' hreordered
    obtain ⟨mappings', hmap'⟩ := hreordered.exists_mapTable ⟨mappings, hmap⟩
    exact ⟨mappings', hmap', h.fieldOf_eq hreordered hmap hmap'⟩

/-- A table whose columns are two spellings of one field. -/
def quantityTable : ParsedTable where
  headers := ["Qty", "Quantity"]
  rows := [.ofPairs [("Qty", "100"), ("Quantity", "200")]]
  headers_nodup := by decide

def quantityTableReordered : ParsedTable := quantityTable.bring "Quantity" (by decide)

/-- Whichever of the two spellings comes first is the quantity. -/
theorem quantity_by_order :
    Reordered quantityTable quantityTableReordered ∧ ∃ mappings mappings',
      mapTable .ascii [] quantityTable = .ok mappings ∧
      mapTable .ascii [] quantityTableReordered = .ok mappings' ∧
      fieldOf mappings "Qty" = some "quantity" ∧ fieldOf mappings' "Qty" = none := by
  have hrun : (mapTable .ascii [] quantityTable).toOption.map
      (fun mappings => fieldOf mappings "Qty") = some (some "quantity") := by
    decide +kernel
  have hrun' : (mapTable .ascii [] quantityTableReordered).toOption.map
      (fun mappings => fieldOf mappings "Qty") = some none := by
    decide +kernel
  obtain ⟨mappings, hmap, hfield⟩ := Fallible.ok_of_toOption hrun
  obtain ⟨mappings', hmap', hfield'⟩ := Fallible.ok_of_toOption hrun'
  exact ⟨reordered_bring (by decide), mappings, mappings', hmap, hmap', hfield, hfield'⟩

/-- A table of one quantity and its currency. -/
def holdingTable : ParsedTable where
  headers := ["Quantity", "Currency"]
  rows := [.ofPairs [("Quantity", "200"), ("Currency", "USD")]]
  headers_nodup := by decide

/-- No two columns compete for a field, so their order is free. -/
theorem column_order_independent_holding :
    ∃ mappings, mapTable .ascii [] holdingTable = .ok mappings ∧
      OrderIndependent .ascii [] holdingTable mappings := by
  have hrun : (mapTable .ascii [] holdingTable).toOption.map
      (fun mappings => fieldOf mappings "Quantity") = some (some "quantity") := by
    decide +kernel
  obtain ⟨mappings, hmap, -⟩ := Fallible.ok_of_toOption hrun
  refine ⟨mappings, hmap, (column_order_independent_iff .ascii [] holdingTable mappings hmap).mpr ?_⟩
  have hnames : ∀ header ∈ holdingTable.headers, ∀ other ∈ holdingTable.headers,
      header ≠ other → namedField .ascii [] header ≠ namedField .ascii [] other := by
    decide +kernel
  have hnone : deferredHeaders .ascii [] holdingTable = [] := by decide +kernel
  refine ⟨?_, ?_⟩
  · intro header hheader other hother hne field hnamed hsame
    exact absurd (hnamed.trans hsame.symm) (hnames header hheader other hother hne)
  · intro field _ instrument _ instrument' _ header htop
    have hmem := List.mem_filter.mpr (mem_deferred_of_top htop)
    change header ∈ deferredHeaders .ascii [] holdingTable at hmem
    rw [hnone] at hmem
    cases hmem

end Harbormaster.Inspector
