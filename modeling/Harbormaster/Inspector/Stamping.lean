import Harbormaster.Inspector.SubBatches

/-! # What reaches the slots

Which rows of a file are kept by its classifications, whether two parts of one
file meet in one slot, and whether a row is stamped with its own day.
-/

namespace Harbormaster.Inspector

open Ordered

variable (runtime : Runtime) (inspector : FileInspector) {arrivalId name : String} {content : Content}
variable {clock : Nat → Day} {parser : Parser} {table : ParsedTable} {out : List Classification}

/-- The value dates of a table, read with the hints of its client. -/
def datesOf (table : ParsedTable) (name : String) : List Day :=
  valueDates runtime table.rows table.headers (hintsFor runtime inspector table name)

/-- The value date of a row, read with the hints of its table's client. -/
def dateOf (table : ParsedTable) (name : String) (row : Row) : Option Day :=
  rowDate runtime table.headers (hintsFor runtime inspector table name) row

/-- The rows of the classifications add up to the rows of the file exactly when
the file has at most one value date or every row has one. -/
theorem rows_conserved_iff (arrivalId name : String) (content : Content) (clock : Nat → Day)
    (hsniff : inspector.sniff runtime content name = .ok parser)
    (hparse : parser.parse content = .ok table)
    (hclassify : inspector.classify runtime arrivalId content name clock = .ok out) :
    (out.flatMap fun c => c.table.rows).Perm table.rows ↔
      (∀ day ∈ datesOf runtime inspector table name,
        ∀ day' ∈ datesOf runtime inspector table name, day = day') ∨
      ∀ row ∈ table.rows, (dateOf runtime inspector table name row).isSome := by
  obtain ⟨parser', table', shared, hsniff', hparse', hprepare, rfl⟩ := classify_ok hclassify
  obtain rfl := Except.ok.inj (hsniff.symm.trans hsniff')
  obtain rfl := Except.ok.inj (hparse.symm.trans hparse')
  obtain ⟨_, _, hhints, _⟩ := prepare_ok hprepare
  unfold datesOf dateOf
  rw [← hhints]
  by_cases hsplit : splitByValueDate runtime table.rows table.headers shared.hints = []
  · have hfew := split_eq_nil_iff.mp hsplit
    rw [classifyParts_whole hsplit]
    have hrows : (inspector.classifyPart runtime shared table (clock 0) "" 0 1).table = table := rfl
    simp only [List.flatMap_cons, List.flatMap_nil, List.append_nil, hrows]
    exact ⟨fun _ => .inl hfew, fun _ => .rfl⟩
  · have hseveral := mt split_eq_nil_iff.mpr hsplit
    have hkept := @classifyParts_rows runtime inspector shared table clock hsplit
    constructor
    · intro hconserved
      -- the kept rows are as many as the rows of the file, so the filter drops none
      right
      have hlength := (hkept.symm.trans hconserved).length_eq
      intro row hrow
      exact List.length_filter_eq_length_iff.mp hlength row hrow
    · intro hcase
      cases hcase with
      | inl hsame => exact absurd hsame hseveral
      | inr hdated =>
          apply hkept.trans
          rw [List.filter_eq_self.mpr hdated]

/-- A statement of a Thursday and a Friday is classified. -/
theorem sampleRun_weekdays :
    ∃ out, sampleRun (sampleStatement "Value Date" ["2026-08-27", "2026-08-28"]) = .ok out := by
  have heval : (sampleRun (sampleStatement "Value Date" ["2026-08-27", "2026-08-28"])).toOption.map
      (fun _ => ()) = some () := by decide +kernel
  obtain ⟨out, hrun, -⟩ := Fallible.ok_of_toOption heval
  exact ⟨out, hrun⟩

/-- Every row of this statement is dated, so none is lost. -/
theorem rows_conserved_dated :
    ∃ out, sampleRun (sampleStatement "Value Date" ["2026-08-27", "2026-08-28"]) = .ok out ∧
      (out.flatMap fun c => c.table.rows).Perm
        (sampleStatement "Value Date" ["2026-08-27", "2026-08-28"]).rows := by
  obtain ⟨out, hrun⟩ := sampleRun_weekdays
  exact ⟨out, hrun, (rows_conserved_iff _ _ _ _ _ _ (sampleInspector_sniff _) rfl hrun).mpr
    (.inr (by decide +kernel))⟩

/-- Two value dates and a row without one: of three rows two are kept. -/
theorem undated_row_lost :
    ∃ out, sampleRun (sampleStatement "Value Date" ["2026-08-27", "2026-08-28", ""]) = .ok out ∧
      ¬ (out.flatMap fun c => c.table.rows).Perm
        (sampleStatement "Value Date" ["2026-08-27", "2026-08-28", ""]).rows := by
  have heval : (sampleRun
      (sampleStatement "Value Date" ["2026-08-27", "2026-08-28", ""])).toOption.map
      (fun out => (out.flatMap fun c => c.table.rows).length) = some 2 := by decide +kernel
  obtain ⟨out, hrun, hrows⟩ := Fallible.ok_of_toOption heval
  refine ⟨out, hrun, fun hperm => ?_⟩
  have hlength := hperm.length_eq
  rw [hrows] at hlength
  cases hlength

/-! ## Distinct slots -/

variable {inspector}

/-- The slots of a split file, group by group. -/
theorem slots_split {shared : FileInspector.Shared}
    (hsplit : splitByValueDate runtime table.rows table.headers shared.hints ≠ []) :
    (inspector.classifyParts runtime shared table clock).map
        (fun c => (c.clientId, c.domain, c.valueDate.resolved)) =
      (sortedGroups runtime table.rows table.headers shared.hints).map fun group =>
        (shared.attribution.clientId, shared.domain,
          (groupDay runtime table.headers shared.hints group.2).map shared.calendar.roll) := by
  rw [classifyParts_split hsplit, List.map_map]
  conv_rhs => rw [← List.zipIdx_map_fst 0 (sortedGroups _ _ _ _), List.map_map]
  apply List.map_congr_left
  rintro ⟨⟨iso, group⟩, index⟩ hmem
  have hentry := (sortedGroups_perm hsplit).mem_iff.mp (List.fst_mem_of_mem_zipIdx hmem)
  have hresolved := @classifyGroup_resolved runtime inspector shared table clock _ _ hentry
    (splitByValueDate runtime table.rows table.headers shared.hints).length index
  exact congrArg (fun resolved => (shared.attribution.clientId, shared.domain, resolved)) hresolved

/-- The parts of a file meet in no slot exactly when no two of its value dates
are rolled onto one business day. -/
theorem slots_distinct_iff {calendar : Calendar} (arrivalId name : String) (content : Content)
    (clock : Nat → Day) (hsniff : inspector.sniff runtime content name = .ok parser)
    (hparse : parser.parse content = .ok table)
    (hcalendar : inspector.calendar (inspector.attribution runtime table name) = some calendar)
    (hclassify : inspector.classify runtime arrivalId content name clock = .ok out) :
    (out.map fun c => (c.clientId, c.domain, c.valueDate.resolved)).Nodup ↔
      ∀ day ∈ datesOf runtime inspector table name,
        ∀ day' ∈ datesOf runtime inspector table name,
          calendar.roll day = calendar.roll day' → day = day' := by
  obtain ⟨parser', table', shared, hsniff', hparse', hprepare, rfl⟩ := classify_ok hclassify
  obtain rfl := Except.ok.inj (hsniff.symm.trans hsniff')
  obtain rfl := Except.ok.inj (hparse.symm.trans hparse')
  obtain ⟨hattribution, hcalendar', hhints, _⟩ := prepare_ok hprepare
  rw [hattribution, hcalendar] at hcalendar'
  obtain rfl := Option.some.inj hcalendar'
  unfold datesOf
  rw [← hhints]
  by_cases hsplit : splitByValueDate runtime table.rows table.headers shared.hints = []
  · have hfew := split_eq_nil_iff.mp hsplit
    rw [classifyParts_whole hsplit]
    constructor
    · intro _ day hday day' hday' _
      exact hfew day hday day' hday'
    · intro _
      exact List.nodup_singleton _
  · rw [slots_split runtime hsplit]
    have hmem : ∀ entry, entry ∈ sortedGroups runtime table.rows table.headers shared.hints ↔
        entry ∈ (dateGroups runtime table.rows table.headers shared.hints).entries :=
      fun _ => (sortedGroups_perm hsplit).mem_iff
    constructor
    · intro hnodup day hday day' hday' hroll
      -- the groups of two such days would have one slot
      obtain ⟨⟨iso, group⟩, hentry, hiso⟩ := List.mem_map.mp
        ((mem_groupKeys (isoformat day)).mpr ⟨day, hday, rfl⟩)
      obtain ⟨⟨iso', group'⟩, hentry', hiso'⟩ := List.mem_map.mp
        ((mem_groupKeys (isoformat day')).mpr ⟨day', hday', rfl⟩)
      obtain rfl : iso = isoformat day := hiso
      obtain rfl : iso' = isoformat day' := hiso'
      obtain ⟨own, hown, hsame, _, hgroup⟩ := groupDay_entry hentry
      obtain ⟨own', hown', hsame', _, hgroup'⟩ := groupDay_entry hentry'
      obtain rfl := day_of_iso hown hday hsame
      obtain rfl := day_of_iso hown' hday' hsame'
      have hslot := List.inj_on_of_nodup_map hnodup ((hmem _).mpr hentry) ((hmem _).mpr hentry')
        (by simp only [hgroup, hgroup', Option.map_some, hroll])
      exact day_of_iso hown hown' (congrArg Prod.fst hslot)
    · intro hapart
      have hkeys := (((sortedGroups_perm hsplit).map Prod.fst).nodup_iff).mpr
        (dateGroups runtime table.rows table.headers shared.hints).nodup
      apply List.Nodup.map_on _ (List.Nodup.of_map _ hkeys)
      rintro ⟨iso, group⟩ hentry ⟨iso', group'⟩ hentry' hslot
      obtain ⟨day, hday, hiso, _, hgroup⟩ := groupDay_entry ((hmem _).mp hentry)
      obtain ⟨day', hday', hiso', _, hgroup'⟩ := groupDay_entry ((hmem _).mp hentry')
      simp only [hgroup, hgroup', Option.map_some, Prod.mk.injEq, Option.some.injEq, true_and]
        at hslot
      obtain rfl := hapart day hday day' hday' hslot
      exact List.inj_on_of_nodup_map hkeys hentry hentry' (hiso.symm.trans hiso')

/-- Thursday and Friday have a slot each. -/
theorem slots_distinct_weekdays :
    ∃ out, sampleRun (sampleStatement "Value Date" ["2026-08-27", "2026-08-28"]) = .ok out ∧
      (out.map fun c => (c.clientId, c.domain, c.valueDate.resolved)).Nodup := by
  obtain ⟨out, hrun⟩ := sampleRun_weekdays
  have hcalendar : (sampleInspector (sampleStatement "Value Date"
      ["2026-08-27", "2026-08-28"])).calendar ((sampleInspector (sampleStatement "Value Date"
      ["2026-08-27", "2026-08-28"])).attribution .ascii (sampleStatement "Value Date"
      ["2026-08-27", "2026-08-28"]) "statement.csv") = some usEquity := by decide
  exact ⟨out, hrun, (slots_distinct_iff _ _ _ _ _ (sampleInspector_sniff _) rfl hcalendar hrun).mpr
    (by decide +kernel)⟩

/-- Friday and the Saturday after it are two parts of one slot. -/
theorem weekend_parts_collide :
    ∃ out, sampleRun (sampleStatement "Value Date" ["2026-08-28", "2026-08-29"]) = .ok out ∧
      ¬ (out.map fun c => (c.clientId, c.domain, c.valueDate.resolved)).Nodup := by
  have heval : (sampleRun (sampleStatement "Value Date" ["2026-08-28", "2026-08-29"])).toOption.map
      (fun out => out.map fun c => (c.clientId, c.domain, c.valueDate.resolved)) =
      some [(some "CLNT001", .cash, some 739856), (some "CLNT001", .cash, some 739856)] := by
    decide +kernel
  obtain ⟨out, hrun, hslots⟩ := Fallible.ok_of_toOption heval
  refine ⟨out, hrun, ?_⟩
  rw [hslots]
  decide

/-! ## The day of a row -/

/-- A part is stamped with the day of each of its dated rows, rolled. -/
theorem part_day {shared : FileInspector.Shared} {c : Classification}
    (h : c ∈ inspector.classifyParts runtime shared table clock) :
    ∃ resolved, c.valueDate.resolved = some resolved ∧
      ∀ row ∈ c.table.rows, ∀ day,
        rowDate runtime table.headers shared.hints row = some day →
          shared.calendar.roll day = resolved := by
  by_cases hsplit : splitByValueDate runtime table.rows table.headers shared.hints = []
  · rw [classifyParts_whole hsplit, List.mem_singleton] at h
    subst h
    obtain ⟨resolved, hresolved⟩ := @resolve_isSome runtime table.rows table.headers shared.hints
      shared.name (clock 0) shared.calendar
    refine ⟨resolved, hresolved, fun row hrow day hday => ?_⟩
    have hmem := mem_valueDates.mpr ⟨row, hrow, hday⟩
    have hdated := @resolve_of_dated runtime table.rows table.headers shared.hints shared.name
      (clock 0) shared.calendar day hmem
      fun day' hday' => split_eq_nil_iff.mp hsplit day' hday' day hmem
    exact Option.some.inj (hdated.symm.trans hresolved)
  · rw [classifyParts_split hsplit, List.mem_map] at h
    obtain ⟨⟨⟨iso, group⟩, index⟩, hmem, rfl⟩ := h
    have hentry := (sortedGroups_perm hsplit).mem_iff.mp (List.fst_mem_of_mem_zipIdx hmem)
    obtain ⟨day, _, _, hrows, hgroup⟩ := groupDay_entry hentry
    refine ⟨shared.calendar.roll day, ?_, fun row hrow day' hday' => ?_⟩
    · exact (classifyGroup_resolved hentry _ index).trans (by rw [hgroup]; rfl)
    · have hown := (hrows row hrow).2
      rw [hday'] at hown
      rw [Option.some.inj hown]

/-- A file without value dates is one part, on its most frequent inferred date. -/
theorem part_inferred {shared : FileInspector.Shared}
    (hnone : valueDates runtime table.rows table.headers shared.hints = [])
    (hsome : inferredDates runtime table.rows table.headers shared.calendar ≠ []) :
    ∃ c, inspector.classifyParts runtime shared table clock = [c] ∧ c.table = table ∧
      ∃ dominant ∈ inferredDates runtime table.rows table.headers shared.calendar,
        (∀ day ∈ inferredDates runtime table.rows table.headers shared.calendar,
          (inferredDates runtime table.rows table.headers shared.calendar).count day ≤
            (inferredDates runtime table.rows table.headers shared.calendar).count dominant) ∧
        c.valueDate.resolved = some (shared.calendar.roll dominant) := by
  have hsplit : splitByValueDate runtime table.rows table.headers shared.hints = [] := by
    rw [split_eq_nil_iff, hnone]
    intro day hday
    cases hday
  exact ⟨_, classifyParts_whole hsplit, rfl, resolve_inferred hnone hsome⟩

/-- The records of a part carry its day. -/
theorem records_day {c : Classification} {records : List CanonicalRecord} {resolved : Day}
    (hresolved : c.valueDate.resolved = some resolved)
    (h : inspector.canonicalRecords runtime c = .ok records) :
    ∀ record ∈ records, record.get? "value_date" = some (.text (some (isoformat resolved))) := by
  intro record hrecord
  have hstamped := buildRecords_stamped h record hrecord ("value_date", c.valueDate.resolvedIso)
    (by simp [Stamp.fields])
  rw [hstamped, Resolution.resolvedIso, hresolved]
  rfl

/-- The dates inferred for the rows of a table, with the calendar of its client. -/
def inferredOf (table : ParsedTable) (calendar : Calendar) : List Day :=
  inferredDates runtime table.rows table.headers calendar

/-- A row with a value date of its own is stamped with that date, rolled. A file
without value dates is kept whole and stamped with its most frequent inferred
date, so that each row has its own day exactly when they all have one. -/
theorem stamped_day {calendar : Calendar} (arrivalId name : String) (content : Content)
    (clock : Nat → Day) (hsniff : inspector.sniff runtime content name = .ok parser)
    (hparse : parser.parse content = .ok table)
    (hcalendar : inspector.calendar (inspector.attribution runtime table name) = some calendar)
    (hclassify : inspector.classify runtime arrivalId content name clock = .ok out) :
    ∀ c ∈ out, ∃ resolved, c.valueDate.resolved = some resolved ∧
      (∀ records, inspector.canonicalRecords runtime c = .ok records →
        ∀ record ∈ records,
          record.get? "value_date" = some (.text (some (isoformat resolved)))) ∧
      (∀ row ∈ c.table.rows, ∀ day, dateOf runtime inspector table name row = some day →
        calendar.roll day = resolved) ∧
      (datesOf runtime inspector table name = [] → inferredOf runtime table calendar ≠ [] →
        out = [c] ∧ c.table = table ∧
        (∃ dominant ∈ inferredOf runtime table calendar,
          (∀ day ∈ inferredOf runtime table calendar,
            (inferredOf runtime table calendar).count day ≤
              (inferredOf runtime table calendar).count dominant) ∧
          calendar.roll dominant = resolved) ∧
        ((∀ row ∈ c.table.rows, ∀ day,
            inferredDate runtime table.headers calendar row = some day →
              calendar.roll day = resolved) ↔
          ∀ day ∈ inferredOf runtime table calendar, ∀ day' ∈ inferredOf runtime table calendar,
            calendar.roll day = calendar.roll day')) := by
  obtain ⟨parser', table', shared, hsniff', hparse', hprepare, rfl⟩ := classify_ok hclassify
  obtain rfl := Except.ok.inj (hsniff.symm.trans hsniff')
  obtain rfl := Except.ok.inj (hparse.symm.trans hparse')
  obtain ⟨hattribution, hcalendar', hhints, _⟩ := prepare_ok hprepare
  rw [hattribution, hcalendar] at hcalendar'
  obtain rfl := Option.some.inj hcalendar'
  unfold datesOf dateOf inferredOf
  rw [← hhints]
  intro c hc
  obtain ⟨resolved, hresolved, hrows⟩ := part_day runtime hc
  refine ⟨resolved, hresolved, fun records => records_day runtime hresolved, hrows, ?_⟩
  intro hnone hsome
  obtain ⟨whole, hwhole, htable, dominant, hmem, hmost, hday⟩ :=
    @part_inferred runtime inspector clock _ _ hnone hsome
  rw [hwhole, List.mem_singleton] at hc
  subst hc
  rw [hresolved] at hday
  obtain rfl := Option.some.inj hday
  refine ⟨hwhole, htable, ⟨dominant, hmem, hmost, rfl⟩, ?_⟩
  rw [htable]
  constructor
  · intro hown day hday day' hday'
    obtain ⟨row, hrow, hinferred⟩ := List.mem_filterMap.mp hday
    obtain ⟨row', hrow', hinferred'⟩ := List.mem_filterMap.mp hday'
    rw [hown row hrow day hinferred, hown row' hrow' day' hinferred']
  · intro hsame row hrow day hinferred
    exact hsame day (List.mem_filterMap.mpr ⟨row, hrow, hinferred⟩) dominant hmem

/-- A statement of two trade dates, which is kept whole. -/
def tradeStatement : ParsedTable := sampleStatement "Trade Date" ["2026-08-26", "2026-08-27"]

theorem stamped_day_trades :
    ∃ out, sampleRun tradeStatement = .ok out ∧ ∀ c ∈ out, ∃ resolved,
      c.valueDate.resolved = some resolved ∧ out = [c] ∧ c.table = tradeStatement := by
  have heval : (sampleRun tradeStatement).toOption.map (fun _ => ()) = some () := by
    decide +kernel
  obtain ⟨out, hrun, -⟩ := Fallible.ok_of_toOption heval
  have hcalendar : (sampleInspector tradeStatement).calendar ((sampleInspector
      tradeStatement).attribution .ascii tradeStatement "statement.csv") = some usEquity := by
    decide
  refine ⟨out, hrun, fun c hc => ?_⟩
  obtain ⟨resolved, hresolved, _, _, hinferred⟩ := stamped_day _ _ _ _ _
    (sampleInspector_sniff _) rfl hcalendar hrun c hc
  obtain ⟨hwhole, htable, _⟩ := hinferred (by decide) (by decide +kernel)
  exact ⟨resolved, hresolved, hwhole, htable⟩

/-- The second trade settles on Friday and is stamped with Thursday. -/
theorem foreign_day_stamped :
    ∃ out, sampleRun tradeStatement = .ok out ∧ ∃ c ∈ out, ∃ row ∈ c.table.rows, ∃ day,
      datesOf .ascii (sampleInspector tradeStatement) tradeStatement "statement.csv" = [] ∧
      inferredDate .ascii tradeStatement.headers usEquity row = some day ∧
      c.valueDate.resolved ≠ some (usEquity.roll day) := by
  have heval : (sampleRun tradeStatement).toOption.map (fun out => out.any fun c =>
      c.table.rows.any fun row => decide (
        inferredDate .ascii tradeStatement.headers usEquity row = some 739856 ∧
          c.valueDate.resolved = some 739855)) = some true := by decide +kernel
  obtain ⟨out, hrun, hday⟩ := Fallible.ok_of_toOption heval
  obtain ⟨c, hc, hrows⟩ := List.any_eq_true.mp hday
  obtain ⟨row, hrow, hrowday⟩ := List.any_eq_true.mp hrows
  obtain ⟨hinferred, hresolved⟩ := of_decide_eq_true hrowday
  refine ⟨out, hrun, c, hc, row, hrow, 739856, by decide, hinferred, ?_⟩
  rw [hresolved]
  decide

end Harbormaster.Inspector
