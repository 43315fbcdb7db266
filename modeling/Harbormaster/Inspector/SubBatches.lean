import Harbormaster.Foundation.Fallible
import Harbormaster.Inspector.Classify

/-! # Sub-batches

What the split by value date does to the rows of a file: which of them reach a
sub-batch, and which day each sub-batch is stamped with.
-/

namespace Harbormaster.Inspector

open Ordered

variable (runtime : Runtime)

/-- The value date a row carries itself. -/
def rowDate (headers hints : List String) (row : Row) : Option Day :=
  (truthy (findValueDateColumn runtime headers hints)).bind fun column =>
    cellDate runtime column row

/-- The value dates of a table, row by row. -/
def valueDates (rows : List Row) (headers hints : List String) : List Day :=
  rows.filterMap (rowDate runtime headers hints)

/-- The rows of each value date. -/
def dateGroups (rows : List Row) (headers hints : List String) : Dict String (List Row) :=
  groupBy (fun row => (rowDate runtime headers hints row).map isoformat) rows

variable {runtime} {rows : List Row} {headers hints : List String}

theorem groupBy_none {α : Type} (elements : List α) :
    groupBy (fun _ : α => (none : Option String)) elements = .empty := by
  unfold groupBy
  induction elements with
  | nil => rfl
  | cons element rest ih => exact ih

theorem columnDates_eq (column : Option String) : columnDates runtime rows column =
    rows.filterMap fun row => (truthy column).bind fun column => cellDate runtime column row := by
  unfold columnDates
  cases column with
  | none => simp
  | some column =>
      by_cases hempty : column = ""
      · simp [hempty]
      · simp [hempty, truthy_of_ne]

theorem splitByValueDate_eq : splitByValueDate runtime rows headers hints =
    if 1 < (dateGroups runtime rows headers hints).entries.length then
      (dateGroups runtime rows headers hints).entries
    else [] := by
  unfold splitByValueDate dateGroups rowDate
  cases findValueDateColumn runtime headers hints with
  | none => simp [groupBy_none, Dict.empty]
  | some column =>
      by_cases hempty : column = ""
      · simp [hempty, groupBy_none, Dict.empty]
      · simp [hempty, truthy_of_ne]

theorem date_of_rowDate {row : Row} {day : Day} (h : rowDate runtime headers hints row = some day) :
    ∃ date : Civil.Date, date.ordinal = day := by
  obtain ⟨column, _, hcell⟩ := Option.bind_eq_some_iff.mp h
  exact date_of_parseDate runtime hcell

theorem mem_valueDates {day : Day} : day ∈ valueDates runtime rows headers hints ↔
    ∃ row ∈ rows, rowDate runtime headers hints row = some day := List.mem_filterMap

/-- The keys of the groups are the texts of the dates. -/
theorem mem_groupKeys (iso : String) :
    iso ∈ (dateGroups runtime rows headers hints).entries.map Prod.fst ↔
      ∃ day ∈ valueDates runtime rows headers hints, isoformat day = iso := by
  unfold dateGroups
  rw [mem_keys_groupBy]
  constructor
  · rintro ⟨row, hrow, hkey⟩
    obtain ⟨day, hday, hiso⟩ := Option.map_eq_some_iff.mp hkey
    exact ⟨day, mem_valueDates.mpr ⟨row, hrow, hday⟩, hiso⟩
  · rintro ⟨day, hmem, hiso⟩
    obtain ⟨row, hrow, hday⟩ := mem_valueDates.mp hmem
    exact ⟨row, hrow, Option.map_eq_some_iff.mpr ⟨day, hday, hiso⟩⟩

theorem day_of_iso {day day' : Day} (hday : day ∈ valueDates runtime rows headers hints)
    (hday' : day' ∈ valueDates runtime rows headers hints) (h : isoformat day = isoformat day') :
    day = day' := by
  obtain ⟨row, _, hrow⟩ := mem_valueDates.mp hday
  obtain ⟨row', _, hrow'⟩ := mem_valueDates.mp hday'
  exact isoformat_injective (date_of_rowDate hrow) (date_of_rowDate hrow') h

/-- A file is not split exactly when it has at most one value date. -/
theorem split_eq_nil_iff : splitByValueDate runtime rows headers hints = [] ↔
    ∀ day ∈ valueDates runtime rows headers hints,
      ∀ day' ∈ valueDates runtime rows headers hints, day = day' := by
  rw [splitByValueDate_eq]
  have hnodup := (dateGroups runtime rows headers hints).nodup
  have hkeys : ∀ iso, iso ∈ (dateGroups runtime rows headers hints).entries.map Prod.fst ↔
    ∃ day ∈ valueDates runtime rows headers hints, isoformat day = iso := mem_groupKeys
  constructor
  · intro hsplit day hday day' hday'
    apply day_of_iso hday hday'
    have hmem := (hkeys _).mpr ⟨day, hday, rfl⟩
    have hmem' := (hkeys _).mpr ⟨day', hday', rfl⟩
    split at hsplit
    next hseveral =>
      rw [hsplit] at hseveral
      cases hseveral
    next hfew =>
      -- one key at most, so the two texts are the same
      have hlength : ((dateGroups runtime rows headers hints).entries.map Prod.fst).length =
        (dateGroups runtime rows headers hints).entries.length := List.length_map _
      match hentries : (dateGroups runtime rows headers hints).entries.map Prod.fst with
      | [] => rw [hentries] at hmem; cases hmem
      | [key] =>
          rw [hentries, List.mem_singleton] at hmem hmem'
          rw [hmem, hmem']
      | _ :: _ :: _ =>
          rw [hentries] at hlength
          simp only [List.length_cons] at hlength
          omega
  · intro hsame
    rw [if_neg]
    intro hseveral
    match hentries : (dateGroups runtime rows headers hints).entries with
    | [] => rw [hentries] at hseveral; cases hseveral
    | [_] => rw [hentries] at hseveral; exact absurd hseveral (Nat.lt_irrefl 1)
    | first :: second :: rest =>
        rw [hentries] at hnodup hkeys
        obtain ⟨day, hday, hfirst⟩ := (hkeys _).mp List.mem_cons_self
        obtain ⟨day', hday', hsecond⟩ := (hkeys _).mp
          (List.mem_cons_of_mem _ List.mem_cons_self)
        have hne := (List.nodup_cons.mp hnodup).1
        apply hne
        rw [← hfirst, hsame day hday day' hday', hsecond]
        exact List.mem_cons_self

/-- A group of a split file: the rows of one of its dates. -/
theorem split_entry {iso : String} {group : List Row}
    (h : (iso, group) ∈ (dateGroups runtime rows headers hints).entries) :
    ∃ day ∈ valueDates runtime rows headers hints, isoformat day = iso ∧
      group = rows.filter (fun row => rowDate runtime headers hints row = some day) ∧
      group ≠ [] := by
  obtain ⟨hgroup, hne⟩ := groupBy_entry _ h
  obtain ⟨day, hday, hiso⟩ := (mem_groupKeys iso).mp (List.mem_map_of_mem h)
  refine ⟨day, hday, hiso, ?_, hne⟩
  rw [hgroup]
  apply List.filter_congr
  intro row hrow
  -- among the rows of the file the text of a date stands for the date
  apply decide_eq_decide.mpr
  constructor
  · intro hkey
    obtain ⟨day', hday', hiso'⟩ := Option.map_eq_some_iff.mp hkey
    rw [hday', day_of_iso (mem_valueDates.mpr ⟨row, hrow, hday'⟩) hday (hiso'.trans hiso.symm)]
  · intro hrowday
    rw [hrowday]
    exact congrArg some hiso

/-! ## The day of a part -/

theorem winner_mem (first : Day) (rest : List Day) : winner first rest ∈ first :: rest := by
  unfold winner
  cases hmax : (first :: rest).argmax fun day => (first :: rest).count day with
  | none => exact List.mem_cons_self
  | some day => exact List.argmax_mem hmax

/-- No date is more frequent than the winner. -/
theorem count_le_winner (first : Day) (rest : List Day) (day : Day) (h : day ∈ first :: rest) :
    (first :: rest).count day ≤ (first :: rest).count (winner first rest) := by
  unfold winner
  cases hmax : (first :: rest).argmax fun day => (first :: rest).count day with
  | none => exact absurd (List.argmax_eq_none.mp hmax) (List.cons_ne_nil _ _)
  | some best => exact List.le_of_mem_argmax h hmax

variable {filename : String} {today : Day} {calendar : Calendar}

theorem resolve_explicit {first : Day} {rest : List Day}
    (hdates : valueDates runtime rows headers hints = first :: rest) :
    (resolve runtime headers rows filename today calendar hints).resolved =
      some (calendar.roll (winner first rest)) := by
  have hcolumn : columnDates runtime rows (findValueDateColumn runtime headers hints) =
    first :: rest := (columnDates_eq _).trans hdates
  unfold resolve
  dsimp only
  rw [hcolumn]
  rfl

/-- Some day is always settled on. -/
theorem resolve_isSome : ∃ day,
    (resolve runtime headers rows filename today calendar hints).resolved = some day := by
  unfold resolve finish
  dsimp only
  split
  next => exact ⟨_, rfl⟩
  next =>
    split
    next => exact ⟨_, rfl⟩
    next =>
      split
      next => exact ⟨_, rfl⟩
      next => exact ⟨_, rfl⟩

/-- Rows of one value date resolve to that date, rolled. -/
theorem resolve_of_dated {day : Day}
    (hday : day ∈ valueDates runtime rows headers hints)
    (hsame : ∀ day' ∈ valueDates runtime rows headers hints, day' = day) :
    (resolve runtime headers rows filename today calendar hints).resolved =
      some (calendar.roll day) := by
  cases hdates : valueDates runtime rows headers hints with
  | nil =>
      rw [hdates] at hday
      cases hday
  | cons first rest =>
      rw [resolve_explicit hdates]
      rw [hdates] at hsame
      rw [hsame _ (winner_mem first rest)]

/-- The trade date in a row plus one business day. -/
def inferredDate (runtime : Runtime) (headers : List String) (calendar : Calendar) (row : Row) :
    Option Day :=
  ((truthy (findTradeDateColumn runtime headers)).bind fun column =>
    cellDate runtime column row).map fun day => calendar.addBusinessDays day 1

/-- The dates inferred from a table, row by row. -/
def inferredDates (runtime : Runtime) (rows : List Row) (headers : List String)
    (calendar : Calendar) : List Day :=
  rows.filterMap (inferredDate runtime headers calendar)

/-- Without a dated value-date column the dominant inferred date is rolled. -/
theorem resolve_inferred (hnone : valueDates runtime rows headers hints = [])
    (hsome : inferredDates runtime rows headers calendar ≠ []) :
    ∃ dominant ∈ inferredDates runtime rows headers calendar,
      (∀ day ∈ inferredDates runtime rows headers calendar,
        (inferredDates runtime rows headers calendar).count day ≤
          (inferredDates runtime rows headers calendar).count dominant) ∧
      (resolve runtime headers rows filename today calendar hints).resolved =
        some (calendar.roll dominant) := by
  have hcolumn : columnDates runtime rows (findValueDateColumn runtime headers hints) = [] :=
    (columnDates_eq _).trans hnone
  have htrade : (columnDates runtime rows (findTradeDateColumn runtime headers)).map
      (fun day => calendar.addBusinessDays day 1) = inferredDates runtime rows headers calendar := by
    rw [columnDates_eq, List.map_filterMap]
    rfl
  cases hdates : inferredDates runtime rows headers calendar with
  | nil => exact absurd hdates hsome
  | cons first rest =>
      refine ⟨winner first rest, winner_mem first rest, count_le_winner first rest, ?_⟩
      rw [hdates] at htrade
      unfold resolve
      dsimp only
      rw [hcolumn]
      dsimp only
      rw [htrade]
      rfl

/-! ## The parts of a file -/

variable {inspector : FileInspector} {shared : FileInspector.Shared} {table : ParsedTable}
variable {clock : Nat → Day}

/-- The day of the rows of one value date. -/
def groupDay (runtime : Runtime) (headers hints : List String) (rows : List Row) : Option Day :=
  (valueDates runtime rows headers hints).head?

/-- The value dates of the rows of one date. -/
theorem valueDates_filter {day : Day} {day' : Day} (h : day' ∈ valueDates runtime
    (rows.filter fun row => rowDate runtime headers hints row = some day) headers hints) :
    day' = day := by
  obtain ⟨row, hrow, hday'⟩ := mem_valueDates.mp h
  have hday := of_decide_eq_true (List.mem_filter.mp hrow).2
  exact Option.some.inj (hday'.symm.trans hday)

/-- A group has the rows of one date of the file, and that date is its day. -/
theorem groupDay_entry {iso : String} {group : List Row}
    (h : (iso, group) ∈ (dateGroups runtime rows headers hints).entries) :
    ∃ day ∈ valueDates runtime rows headers hints, isoformat day = iso ∧
      (∀ row ∈ group, row ∈ rows ∧ rowDate runtime headers hints row = some day) ∧
      groupDay runtime headers hints group = some day := by
  obtain ⟨day, hday, hiso, hgroup, hne⟩ := split_entry h
  have hrows : ∀ row ∈ group, row ∈ rows ∧ rowDate runtime headers hints row = some day := by
    intro row hrow
    rw [hgroup] at hrow
    exact ⟨(List.mem_filter.mp hrow).1, of_decide_eq_true (List.mem_filter.mp hrow).2⟩
  refine ⟨day, hday, hiso, hrows, ?_⟩
  obtain ⟨row, hrow⟩ := List.exists_mem_of_ne_nil _ hne
  have hmem : day ∈ valueDates runtime group headers hints :=
    mem_valueDates.mpr ⟨row, hrow, (hrows row hrow).2⟩
  unfold groupDay
  cases hdates : valueDates runtime group headers hints with
  | nil =>
      rw [hdates] at hmem
      cases hmem
  | cons first rest =>
      have hfirst : first ∈ valueDates runtime group headers hints := hdates ▸ List.mem_cons_self
      rw [hgroup] at hfirst
      rw [List.head?_cons, valueDates_filter hfirst]

/-- The part of one date resolves to that date, rolled. -/
theorem classifyGroup_resolved {iso : String} {group : List Row}
    (h : (iso, group) ∈ (dateGroups runtime table.rows table.headers shared.hints).entries)
    (total index : Nat) :
    (inspector.classifyGroup runtime shared table clock total group index).valueDate.resolved =
      (groupDay runtime table.headers shared.hints group).map shared.calendar.roll := by
  obtain ⟨day, _, _, hrows, hgroup⟩ := groupDay_entry h
  rw [hgroup]
  apply resolve_of_dated
  · unfold groupDay at hgroup
    exact List.mem_of_head? hgroup
  · intro day' hday'
    obtain ⟨row, hrow, hrowday⟩ := mem_valueDates.mp hday'
    exact Option.some.inj (hrowday.symm.trans (hrows row hrow).2)

/-- The groups in the order of their dates' texts. -/
def sortedGroups (runtime : Runtime) (rows : List Row) (headers hints : List String) :
    List (String × List Row) :=
  (splitByValueDate runtime rows headers hints).insertionSort fun a b => a.1 ≤ b.1

theorem sortedGroups_perm (hsplit : splitByValueDate runtime rows headers hints ≠ []) :
    (sortedGroups runtime rows headers hints).Perm (dateGroups runtime rows headers hints).entries := by
  have hentries : splitByValueDate runtime rows headers hints =
      (dateGroups runtime rows headers hints).entries := by
    rw [splitByValueDate_eq] at hsplit ⊢
    split at hsplit
    next h => rw [if_pos h]
    next => exact absurd rfl hsplit
  rw [← hentries]
  exact List.perm_insertionSort _ _

/-- A file that is split is its groups, each one classified. -/
theorem classifyParts_split
    (hsplit : splitByValueDate runtime table.rows table.headers shared.hints ≠ []) :
    inspector.classifyParts runtime shared table clock =
      (sortedGroups runtime table.rows table.headers shared.hints).zipIdx.map fun (group, index) =>
        inspector.classifyGroup runtime shared table clock
          (splitByValueDate runtime table.rows table.headers shared.hints).length group.2 index := by
  unfold FileInspector.classifyParts
  dsimp only
  rw [if_neg hsplit]
  rfl

theorem classifyParts_whole
    (hsplit : splitByValueDate runtime table.rows table.headers shared.hints = []) :
    inspector.classifyParts runtime shared table clock =
      [inspector.classifyPart runtime shared table (clock 0) "" 0 1] := by
  unfold FileInspector.classifyParts
  dsimp only
  rw [if_pos hsplit]

/-- Every classification of a file is that of some part of it. -/
theorem mem_classifyParts {c : Classification}
    (h : c ∈ inspector.classifyParts runtime shared table clock) :
    ∃ part index remark total,
      c = inspector.classifyPart runtime shared part (clock index) remark index total := by
  by_cases hsplit : splitByValueDate runtime table.rows table.headers shared.hints = []
  · rw [classifyParts_whole hsplit, List.mem_singleton] at h
    exact ⟨table, 0, "", 1, h⟩
  · rw [classifyParts_split hsplit, List.mem_map] at h
    obtain ⟨⟨group, index⟩, _, rfl⟩ := h
    exact ⟨_, index, _, _, rfl⟩

/-- The rows of the parts of a split file are the rows with a date. -/
theorem classifyParts_rows
    (hsplit : splitByValueDate runtime table.rows table.headers shared.hints ≠ []) :
    ((inspector.classifyParts runtime shared table clock).flatMap fun c => c.table.rows).Perm
      (table.rows.filter fun row => (rowDate runtime table.headers shared.hints row).isSome) := by
  have hrows : (inspector.classifyParts runtime shared table clock).flatMap
      (fun c => c.table.rows) =
      (sortedGroups runtime table.rows table.headers shared.hints).flatMap Prod.snd := by
    rw [classifyParts_split hsplit, List.flatMap_map]
    conv_rhs => rw [← List.zipIdx_map_fst 0 (sortedGroups _ _ _ _), List.flatMap_map]
    rfl
  rw [hrows]
  apply ((sortedGroups_perm hsplit).flatMap_right Prod.snd).trans
  apply (groupBy_perm _ table.rows).trans
  simp only [Option.isSome_map]
  exact .rfl

/-! ## What a file becomes -/

/-- The hints for a table under a name. -/
def hintsFor (runtime : Runtime) (inspector : FileInspector) (table : ParsedTable) (name : String) :
    List String :=
  inspector.hints (inspector.attribution runtime table name)

theorem prepare_ok {arrivalId name : String} {parser : Parser}
    (h : inspector.prepare runtime arrivalId parser table name = .ok shared) :
    shared.attribution = inspector.attribution runtime table name ∧
      inspector.calendar shared.attribution = some shared.calendar ∧
      shared.hints = hintsFor runtime inspector table name ∧
      Domain.ofText? (orElseText shared.attribution.domain domainUnknown) =
        some shared.domain := by
  unfold FileInspector.prepare at h
  dsimp only at h
  split at h
  next calendar hcalendar =>
    obtain ⟨outcome, _, h⟩ := Fallible.bind_eq_ok.mp h
    obtain ⟨⟨agrees, note⟩, _, h⟩ := Fallible.bind_eq_ok.mp h
    dsimp only at h
    split at h
    next domain hdomain =>
      cases h
      exact ⟨rfl, hcalendar, rfl, hdomain⟩
    next => cases h
  next => cases h

theorem classify_ok {arrivalId name : String} {content : Content} {out : List Classification}
    (h : inspector.classify runtime arrivalId content name clock = .ok out) :
    ∃ parser table shared, inspector.sniff runtime content name = .ok parser ∧
      parser.parse content = .ok table ∧
      inspector.prepare runtime arrivalId parser table name = .ok shared ∧
      out = inspector.classifyParts runtime shared table clock := by
  obtain ⟨parser, hparser, h⟩ := Fallible.bind_eq_ok.mp h
  obtain ⟨table, htable, h⟩ := Fallible.bind_eq_ok.mp h
  obtain ⟨shared, hshared, h⟩ := Fallible.bind_eq_ok.mp h
  cases h
  exact ⟨parser, table, shared, hparser, htable, hshared, rfl⟩

/-! ## A sample inspector

One client with one cash account, and one format, whose reader answers with a
given table. -/

def statementClient : Client where
  clientId := "CLNT001"
  calendar := "US_EQUITY"
  accounts := [{ id := "ACC-001" }]
  expectations := [{ id := "CLNT001-CASH", domain := "CASH" }]

def usEquity : Calendar := { calendarId := "US_EQUITY" }

def sampleRegistry : Registry where
  clients := [statementClient]
  calendars := [usEquity]

/-- Signals that answer nothing. -/
def sampleScorer : Scorer where
  extractOne _ _ := none
  best _ := (none, 0)
  degraded := true
  best_described _ := none_described

def sampleParser (table : ParsedTable) : Parser where
  formatName := "CSV"
  sniff _ _ := 9 / 10
  parse _ := .ok table

def sampleInspector (table : ParsedTable) : FileInspector where
  registry := sampleRegistry
  parsers := [sampleParser table]
  scorer := sampleScorer
  crossCheckAmount _ _ := .ok (none, "insufficient columns for an arithmetic cross-check")

/-- A cash statement of one amount a row, with a date in a column of this name. -/
def sampleStatement (dateColumn : String) (dates : List String)
    (h : ["Account", dateColumn, "Net Amount", "Currency"].Nodup := by decide) : ParsedTable where
  headers := ["Account", dateColumn, "Net Amount", "Currency"]
  rows := dates.map fun date =>
    .ofPairs [("Account", "ACC-001"), (dateColumn, date), ("Net Amount", "100.00"),
      ("Currency", "USD")]
  headers_nodup := h

/-- What the sample inspector makes of a table. -/
def sampleRun (table : ParsedTable) : Except Failure (List Classification) :=
  (sampleInspector table).classify .ascii "arr-1" [] "statement.csv" fun _ => 739860

theorem sampleInspector_sniff (table : ParsedTable) :
    (sampleInspector table).sniff .ascii [] "statement.csv" = .ok (sampleParser table) := by
  have hscore : ¬ (9 / 10 : ℚ) ≤ 0 := by decide +kernel
  unfold FileInspector.sniff
  rw [show (sampleInspector table).parsers = [sampleParser table] from rfl, List.argmax_singleton]
  exact if_neg hscore

end Harbormaster.Inspector
