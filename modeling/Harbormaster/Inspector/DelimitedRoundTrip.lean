import Harbormaster.Inspector.DelimitedText

/-! # A delimited file that is written and read

The corpus writes one record to a line, its cells joined by the delimiter of the venue.
The parser is told nothing of that: it votes on the delimiter, looks for the header row
and leaves rows out. From such a file it nevertheless reads what was written.
-/

namespace Harbormaster.Inspector

open Ordered Rounding Utf8

/-! ## The file -/

/-- `_CANDIDATE_DELIMITERS`. -/
def candidateDelimiters : List Char := [',', '\t', '|', ';']

/-- `delimiter.join(row)`. -/
def delimitedLine (delimiter : Char) (row : List String) : List Char :=
  [delimiter].intercalate (row.map String.toList)

/-- The lines of `write_delimited`, each with its line feed. -/
def delimitedText (delimiter : Char) (grid : List (List String)) : List Char :=
  grid.flatMap fun row => delimitedLine delimiter row ++ ['\n']

/-- The bytes of the file, which may begin with a byte order mark. -/
def delimitedFile (marked : Bool) (delimiter : Char) (grid : List (List String)) : Content :=
  (if marked then byteOrderMark else []) ++
    (delimitedText delimiter grid).flatMap String.utf8EncodeChar

/-- A cell that needs no quoting, whichever delimiter it is written with. -/
structure PlainCell (cell : String) : Prop where
  not_delimiter : ∀ c ∈ candidateDelimiters, c ∉ cell.toList
  not_quote : '"' ∉ cell.toList
  not_lineBreak : ∀ c ∈ cell.toList, isLineBreak c = false
  stripped : strip cell = cell
  within_limit : cell.toList.length ≤ Csv.fieldLimit

variable {delimiter : Char} {cell : String} {row : List String} {grid : List (List String)}

theorem mem_candidateDelimiters :
    delimiter ∈ candidateDelimiters ↔
      delimiter = ',' ∨ delimiter = '\t' ∨ delimiter = '|' ∨ delimiter = ';' := by
  simp [candidateDelimiters]

theorem delimitedLine_cons_cons (delimiter : Char) (cell next : String) (row : List String) :
    delimitedLine delimiter (cell :: next :: row) =
      cell.toList ++ delimiter :: delimitedLine delimiter (next :: row) := by
  unfold delimitedLine
  rw [List.map_cons, List.intercalate_cons_of_ne_nil (by simp), List.append_assoc]
  rfl

theorem delimitedLine_singleton (delimiter : Char) (cell : String) :
    delimitedLine delimiter [cell] = cell.toList := by
  simp [delimitedLine]

/-- What no cell contains occurs in a line as often as the line has delimiters. -/
theorem count_delimitedLine {c : Char} (h : ∀ cell ∈ row, c ∉ cell.toList) :
    (delimitedLine delimiter row).count c = if c = delimiter then row.length - 1 else 0 := by
  induction row with
  | nil => simp [delimitedLine]
  | cons cell row ih =>
      obtain ⟨hcell, hrow⟩ := List.forall_mem_cons.mp h
      cases row with
      | nil =>
          rw [delimitedLine_singleton, List.count_eq_zero_of_not_mem hcell]
          simp
      | cons next row =>
          rw [delimitedLine_cons_cons, List.count_append, List.count_eq_zero_of_not_mem hcell,
            List.count_cons, ih hrow]
          by_cases hsame : c = delimiter
          · simp [hsame]
          · simp [hsame, Ne.symm hsame]

theorem mem_delimitedLine {c : Char} (h : c ∈ delimitedLine delimiter row) :
    c = delimiter ∨ ∃ cell ∈ row, c ∈ cell.toList := by
  by_contra hnot
  obtain ⟨hne, hrow⟩ := not_or.mp hnot
  have hcount := @count_delimitedLine delimiter row c fun cell hcell hmem =>
    hrow ⟨cell, hcell, hmem⟩
  rw [if_neg hne] at hcount
  exact List.count_eq_zero.mp hcount h

theorem subset_delimitedLine (h : cell ∈ row) : cell.toList ⊆ delimitedLine delimiter row := by
  induction row with
  | nil => cases h
  | cons first row ih =>
      cases row with
      | nil =>
          rw [List.mem_singleton.mp h, delimitedLine_singleton]
          exact List.Subset.refl _
      | cons next row =>
          rw [delimitedLine_cons_cons]
          rcases List.mem_cons.mp h with rfl | hrest
          · exact List.subset_append_left _ _
          · exact fun c hc => List.mem_append_right _ (List.mem_cons_of_mem _ (ih hrest hc))

/-- A line has no break of its own. -/
theorem isLineBreak_delimitedLine (hdelimiter : delimiter ∈ candidateDelimiters)
    (h : ∀ cell ∈ row, PlainCell cell) :
    ∀ c ∈ delimitedLine delimiter row, isLineBreak c = false := by
  intro c hc
  rcases mem_delimitedLine hc with rfl | ⟨cell, hcell, hmem⟩
  · rcases mem_candidateDelimiters.mp hdelimiter with rfl | rfl | rfl | rfl <;> decide
  · exact (h cell hcell).not_lineBreak c hmem

/-! ## Lines -/

theorem splitlines_append {line : List Char} (h : ∀ c ∈ line, isLineBreak c = false)
    (before rest : List Char) :
    splitlines before (line ++ '\n' :: rest) = (before.reverse ++ line) :: splitlines [] rest := by
  induction line generalizing before with
  | nil =>
      rw [List.nil_append, splitlines.eq_3]
      · rw [if_pos (by decide), List.append_nil]
      · exact fun _ hreturn => absurd hreturn (by decide)
  | cons c line ih =>
      obtain ⟨hc, hline⟩ := List.forall_mem_cons.mp h
      rw [List.cons_append, splitlines.eq_3]
      · rw [hc, if_neg Bool.false_ne_true, ih hline, List.reverse_cons, List.append_assoc]
        rfl
      · rintro _ rfl
        exact absurd hc (by decide)

theorem splitlines_delimitedText (hdelimiter : delimiter ∈ candidateDelimiters)
    (h : ∀ row ∈ grid, ∀ cell ∈ row, PlainCell cell) :
    splitlines [] (delimitedText delimiter grid) = grid.map (delimitedLine delimiter) := by
  induction grid with
  | nil => rfl
  | cons row grid ih =>
      obtain ⟨hrow, hgrid⟩ := List.forall_mem_cons.mp h
      rw [delimitedText, List.flatMap_cons, List.append_assoc, List.singleton_append,
        splitlines_append (isLineBreak_delimitedLine hdelimiter hrow)]
      exact congrArg _ (ih hgrid)

namespace Csv

theorem physicalLines_append {line : List Char} (h : '\n' ∉ line) (before rest : List Char) :
    physicalLines before (line ++ '\n' :: rest) =
      (before.reverse ++ (line ++ ['\n'])) :: physicalLines [] rest := by
  induction line generalizing before with
  | nil => rw [List.nil_append, physicalLines, List.reverse_cons]; rfl
  | cons c line ih =>
      simp only [List.mem_cons, not_or] at h
      obtain ⟨hc, hline⟩ := h
      rw [List.cons_append, physicalLines.eq_3, ih hline, List.reverse_cons, List.append_assoc]
      · rfl
      · exact fun hsame => hc hsame.symm

/-! ## Records -/

/-- What the reader does with a character that has no meaning of its own. -/
structure Ordinary (delimiter c : Char) : Prop where
  not_newline : Reader.isNewline c = false
  not_quote : c ≠ '"'
  not_delimiter : c ≠ delimiter

theorem read_inField {chars field : List Char} {fields : List String}
    (h : ∀ c ∈ chars, Ordinary delimiter c) (hlimit : field.length + chars.length ≤ fieldLimit) :
    chars.foldlM (Reader.read delimiter) ⟨.inField, field, fields⟩ =
      .ok ⟨.inField, chars.reverse ++ field, fields⟩ := by
  induction chars generalizing field with
  | nil => rfl
  | cons c chars ih =>
      obtain ⟨hc, hchars⟩ := List.forall_mem_cons.mp h
      rw [List.length_cons] at hlimit
      have hread : Reader.read delimiter ⟨.inField, field, fields⟩ c =
          .ok ⟨.inField, c :: field, fields⟩ := by
        have hroom : ¬ fieldLimit ≤ field.length := by omega
        simp [Reader.read, Reader.add, hc.not_newline, hc.not_delimiter, hroom]
      rw [List.foldlM_cons, hread]
      change chars.foldlM (Reader.read delimiter) ⟨.inField, c :: field, fields⟩ = _
      rw [ih hchars (by rw [List.length_cons]; omega), List.reverse_cons, List.append_assoc]
      rfl

/-- A cell and the delimiter or the line feed behind it, at the start of a field. -/
theorem read_cell {state : State} (hstate : state = .startRecord ∨ state = .startField)
    {cell : String} (h : ∀ c ∈ cell.toList, Ordinary delimiter c)
    (hlimit : cell.toList.length ≤ fieldLimit) (fields : List String) :
    ∃ reader : Reader, cell.toList.foldlM (Reader.read delimiter) ⟨state, [], fields⟩ = .ok reader ∧
      reader.field = cell.toList.reverse ∧ reader.fields = fields ∧
      (reader.state = .inField ∨ cell = "" ∧ reader.state = state) := by
  cases hcell : cell.toList with
  | nil => exact ⟨_, rfl, rfl, rfl, .inr ⟨String.toList_eq_nil_iff.mp hcell, rfl⟩⟩
  | cons c chars =>
      rw [hcell] at h hlimit
      obtain ⟨hc, hchars⟩ := List.forall_mem_cons.mp h
      have hread : Reader.read delimiter ⟨state, [], fields⟩ c = .ok ⟨.inField, [c], fields⟩ := by
        have hroom : ¬ fieldLimit ≤ 0 := by decide
        rcases hstate with rfl | rfl <;>
          simp [Reader.read, Reader.add, hc.not_newline, hc.not_delimiter, hc.not_quote, hroom]
      refine ⟨⟨.inField, chars.reverse ++ [c], fields⟩, ?_, (List.reverse_cons).symm, rfl, .inl rfl⟩
      rw [List.foldlM_cons, hread]
      refine read_inField hchars ?_
      rw [List.length_cons] at hlimit
      rw [List.length_singleton]
      omega

/-- A cell and the delimiter behind it. -/
theorem read_cell_delimiter {state : State} (hstate : state = .startRecord ∨ state = .startField)
    {cell : String} (h : ∀ c ∈ cell.toList, Ordinary delimiter c)
    (hdelimiter : Reader.isNewline delimiter = false ∧ delimiter ≠ '"')
    (hlimit : cell.toList.length ≤ fieldLimit) (fields : List String) (rest : List Char) :
    (cell.toList ++ delimiter :: rest).foldlM (Reader.read delimiter) ⟨state, [], fields⟩ =
      rest.foldlM (Reader.read delimiter) ⟨.startField, [], fields ++ [cell]⟩ := by
  obtain ⟨⟨state', field, fields'⟩, hread, hfield, hfields, hstate'⟩ :=
    read_cell hstate h hlimit fields
  dsimp only at hfield hfields hstate'
  subst hfield hfields
  have hsaved : Reader.read delimiter ⟨state', cell.toList.reverse, fields'⟩ delimiter =
      .ok ⟨.startField, [], fields' ++ [cell]⟩ := by
    have hwhole : state' = .inField ∨ state' = .startRecord ∨ state' = .startField :=
      hstate'.imp_right fun hempty => hstate.imp hempty.2.trans hempty.2.trans
    rcases hwhole with rfl | rfl | rfl <;>
      simp [Reader.read, Reader.save, hdelimiter.1, hdelimiter.2]
  rw [List.foldlM_append, hread]
  change (delimiter :: rest).foldlM (Reader.read delimiter) _ = _
  rw [List.foldlM_cons, hsaved]
  rfl

/-- The last cell and the line feed behind it. -/
theorem read_cell_newline {cell : String} (h : ∀ c ∈ cell.toList, Ordinary delimiter c)
    (hlimit : cell.toList.length ≤ fieldLimit) (fields : List String) :
    (cell.toList ++ ['\n']).foldlM (Reader.read delimiter) ⟨.startField, [], fields⟩ =
      .ok ⟨.eatNewline, [], fields ++ [cell]⟩ := by
  obtain ⟨⟨state', field, fields'⟩, hread, hfield, hfields, hstate'⟩ :=
    read_cell (.inr rfl) h hlimit fields
  dsimp only at hfield hfields hstate'
  subst hfield hfields
  have hnewline : Reader.isNewline '\n' = true := by decide
  have hsaved : Reader.read delimiter ⟨state', cell.toList.reverse, fields'⟩ '\n' =
      .ok ⟨.eatNewline, [], fields' ++ [cell]⟩ := by
    rcases hstate'.imp_right And.right with rfl | rfl <;>
      simp [Reader.read, Reader.save, hnewline]
  rw [List.foldlM_append, hread]
  change ['\n'].foldlM (Reader.read delimiter) _ = _
  rw [List.foldlM_cons, hsaved]
  rfl

/-- The cells of a line, from the start of a field on. -/
theorem read_line {row : List String} (hne : row ≠ [])
    (h : ∀ cell ∈ row, ∀ c ∈ cell.toList, Ordinary delimiter c)
    (hdelimiter : Reader.isNewline delimiter = false ∧ delimiter ≠ '"')
    (hlimit : ∀ cell ∈ row, cell.toList.length ≤ fieldLimit) (fields : List String) :
    (delimitedLine delimiter row ++ ['\n']).foldlM (Reader.read delimiter)
        ⟨.startField, [], fields⟩ = .ok ⟨.eatNewline, [], fields ++ row⟩ := by
  induction row generalizing fields with
  | nil => exact absurd rfl hne
  | cons cell row ih =>
      obtain ⟨hcell, hrow⟩ := List.forall_mem_cons.mp h
      obtain ⟨hshort, hlimit⟩ := List.forall_mem_cons.mp hlimit
      cases row with
      | nil =>
          rw [delimitedLine_singleton]
          exact read_cell_newline hcell hshort fields
      | cons next row =>
          rw [delimitedLine_cons_cons, List.append_assoc, List.cons_append,
            read_cell_delimiter (.inr rfl) hcell hdelimiter hshort,
            ih (List.cons_ne_nil _ _) hrow hlimit, List.append_assoc]
          rfl

/-- A line of at least two cells is one record. -/
theorem readLines_delimitedLine {row : List String} (hwide : 2 ≤ row.length)
    (h : ∀ cell ∈ row, ∀ c ∈ cell.toList, Ordinary delimiter c)
    (hdelimiter : Reader.isNewline delimiter = false ∧ delimiter ≠ '"')
    (hlimit : ∀ cell ∈ row, cell.toList.length ≤ fieldLimit) (lines : List (List Char)) :
    readLines delimiter {} ((delimitedLine delimiter row ++ ['\n']) :: lines) =
      (fun records => row :: records) <$> readLines delimiter {} lines := by
  obtain ⟨cell, next, row, rfl⟩ : ∃ cell next rest, row = cell :: next :: rest := by
    cases row with
    | nil => exact absurd hwide (by simp)
    | cons cell row =>
        cases row with
        | nil => exact absurd hwide (by simp)
        | cons next rest => exact ⟨cell, next, rest, rfl⟩
  obtain ⟨hcell, hrow⟩ := List.forall_mem_cons.mp h
  obtain ⟨hshort, hlimit⟩ := List.forall_mem_cons.mp hlimit
  have hread : (delimitedLine delimiter (cell :: next :: row) ++ ['\n']).foldlM
      (Reader.read delimiter) {} = .ok ⟨.eatNewline, [], cell :: next :: row⟩ := by
    rw [delimitedLine_cons_cons, List.append_assoc, List.cons_append]
    refine (read_cell_delimiter (.inl rfl) hcell hdelimiter hshort [] _).trans ?_
    exact read_line (List.cons_ne_nil _ _) hrow hdelimiter hlimit _
  rw [readLines, hread]
  rfl

end Csv

theorem Csv.records_delimitedText (hdelimiter : delimiter ∈ candidateDelimiters)
    (hwide : ∀ row ∈ grid, 2 ≤ row.length) (h : ∀ row ∈ grid, ∀ cell ∈ row, PlainCell cell) :
    Csv.records delimiter (delimitedText delimiter grid) = .ok grid := by
  have hmark : Csv.Reader.isNewline delimiter = false ∧ delimiter ≠ '"' := by
    rcases mem_candidateDelimiters.mp hdelimiter with rfl | rfl | rfl | rfl <;> decide
  have hbreaks : ∀ c, Csv.Reader.isNewline c = true → isLineBreak c = true := by
    intro c hc
    unfold Csv.Reader.isNewline at hc
    rw [Bool.or_eq_true, decide_eq_true_eq, decide_eq_true_eq] at hc
    rcases hc with rfl | rfl <;> decide
  have hordinary : ∀ row ∈ grid, ∀ cell ∈ row, ∀ c ∈ cell.toList, Csv.Ordinary delimiter c := by
    intro row hrow cell hcell c hc
    have hplain := h row hrow cell hcell
    refine ⟨?_, ?_, ?_⟩
    · by_contra hnewline
      have hbreak := hplain.not_lineBreak c hc
      rw [hbreaks c (by simpa using hnewline)] at hbreak
      cases hbreak
    · rintro rfl
      exact hplain.not_quote hc
    · rintro rfl
      exact hplain.not_delimiter c hdelimiter hc
  unfold Csv.records
  induction grid with
  | nil => rfl
  | cons row grid ih =>
      obtain ⟨hrow, hgrid⟩ := List.forall_mem_cons.mp h
      obtain ⟨hwidth, hwide⟩ := List.forall_mem_cons.mp hwide
      obtain ⟨hfirst, hordinary⟩ := List.forall_mem_cons.mp hordinary
      have hline : '\n' ∉ delimitedLine delimiter row := fun hmem =>
        absurd (isLineBreak_delimitedLine hdelimiter hrow '\n' hmem) (by decide)
      rw [delimitedText, List.flatMap_cons, List.append_assoc, List.singleton_append,
        Csv.physicalLines_append hline, List.reverse_nil, List.nil_append,
        Csv.readLines_delimitedLine hwidth hfirst hmark fun cell hcell =>
          (hrow cell hcell).within_limit]
      change _ <$> Csv.readLines delimiter {}
        (Csv.physicalLines [] (delimitedText delimiter grid)) = _
      rw [ih hwide hgrid hordinary]
      rfl

/-! ## The delimiter -/

namespace DelimitedParser

variable {set : SetOrder} {lines : List (List Char)}

theorem weigh_absent {best : Best} {other : Char} (h : ∀ line ∈ lines, line.count other = 0) :
    weigh set lines best other = best := by
  have hnone : occurrences other lines = [] := by
    unfold occurrences
    rw [List.filter_eq_nil_iff]
    intro count hcount
    obtain ⟨line, hline, rfl⟩ := List.mem_map.mp hcount
    rw [h line hline]
    decide
  unfold weigh
  rw [hnone]
  exact if_pos (by simp)

theorem weigh_constant {best : Best} {count : Nat} (hpos : 0 < count)
    (hcount : ∀ line ∈ lines, line.count delimiter = count) (hlines : 2 ≤ lines.length)
    (hbest : best.score ≤ 0) : (weigh set lines best delimiter).delim = some delimiter := by
  have hcounts : occurrences delimiter lines = List.replicate lines.length count := by
    unfold occurrences
    rw [List.map_congr_left hcount, List.map_const', List.filter_eq_self]
    intro count' hcount'
    rw [List.eq_of_mem_replicate hcount']
    exact decide_eq_true hpos
  have horder : set.order (List.replicate lines.length count) = [count] := by
    have hperm := set.perm (List.replicate lines.length count)
    rwa [List.replicate_dedup (by omega), List.perm_singleton] at hperm
  unfold weigh
  rw [hcounts]
  dsimp only
  rw [horder, List.length_replicate, if_neg (by omega), List.argmax_singleton]
  dsimp only
  have hscore : best.score < double (double ((lines.length : ℚ) / lines.length) *
      min 1 (double ((count : ℚ) / 6))) := by
    have hlength : (lines.length : ℚ) ≠ 0 := Nat.cast_ne_zero.mpr (by omega)
    have hsix : (1 : ℚ) / 6 ≤ count / 6 := by
      have hcast : (1 : ℚ) ≤ count := by exact_mod_cast hpos
      linarith
    have hleast : (0 : ℚ) < double (double 1 * min 1 (double (1 / 6))) := by decide +kernel
    rw [div_self hlength]
    refine hbest.trans_lt (hleast.trans_le (double_mono ?_))
    exact mul_le_mul_of_nonneg_left (min_le_min le_rfl (double_mono hsix))
      (double_nonneg zero_le_one)
  rw [List.count_replicate_self, if_pos hscore]

/-- The delimiter that every line has as often is the only candidate. -/
theorem bestDelimiter_eq {count : Nat} (hdelimiter : delimiter ∈ candidateDelimiters)
    (hpos : 0 < count) (hcount : ∀ line ∈ lines, line.count delimiter = count)
    (hother : ∀ other ∈ candidateDelimiters, other ≠ delimiter →
      ∀ line ∈ lines, line.count other = 0)
    (hlines : 2 ≤ lines.length) : (bestDelimiter set lines).delim = some delimiter := by
  have hpass : ∀ others : List Char,
      (∀ other ∈ others, other ∈ candidateDelimiters ∧ other ≠ delimiter) →
      ∀ best, others.foldl (weigh set lines) best = best := by
    intro others hothers best
    induction others with
    | nil => rfl
    | cons other others ih =>
        obtain ⟨hfirst, hrest⟩ := List.forall_mem_cons.mp hothers
        rw [List.foldl_cons, weigh_absent (hother other hfirst.1 hfirst.2)]
        exact ih hrest
  -- the candidates before it and after it leave the best one as it is
  obtain ⟨before, after, hsplit⟩ := List.append_of_mem hdelimiter
  have hnodup : (before ++ delimiter :: after).Nodup := hsplit ▸ (by decide)
  rw [List.nodup_middle, List.nodup_cons, List.mem_append, not_or] at hnodup
  change (candidateDelimiters.foldl (weigh set lines) {}).delim = _
  rw [hsplit, List.foldl_append, List.foldl_cons, hpass before, hpass after]
  · exact weigh_constant hpos hcount hlines le_rfl
  · intro other hmem
    refine ⟨hsplit ▸ List.mem_append_right _ (List.mem_cons_of_mem _ hmem), ?_⟩
    rintro rfl
    exact hnodup.1.2 hmem
  · intro other hmem
    refine ⟨hsplit ▸ List.mem_append_left _ hmem, ?_⟩
    rintro rfl
    exact hnodup.1.1 hmem

/-- A cell that is not blank shows in its line. -/
theorem exists_not_isspace (h : isBlank cell = false) : ∃ c ∈ cell.toList, isspace c = false := by
  by_contra hnone
  refine of_decide_eq_false h ?_
  have hall : ∀ c ∈ cell.toList, isspace c = true := fun c hc => by
    simpa using fun hspace => hnone ⟨c, hc, hspace⟩
  unfold strip stripChars
  rw [List.dropWhile_eq_nil_iff.mpr hall]
  rfl

theorem all_isspace_delimitedLine (h : row.any fun cell => !isBlank cell) :
    (delimitedLine delimiter row).all isspace = false := by
  obtain ⟨cell, hcell, hfilled⟩ := List.any_eq_true.mp h
  obtain ⟨c, hc, hspace⟩ := exists_not_isspace (by simpa using hfilled)
  rw [List.all_eq_false]
  exact ⟨c, subset_delimitedLine hcell hc, by simp [hspace]⟩

/-! ## The header row -/

theorem headerScore_le {α : Type} {blank numeric : α → Bool} {width : List α → Nat}
    (modal index : Nat) (row : List α) :
    headerScore blank numeric width modal index row ≤ 9 / 2 - 3 / 20 * index := by
  have htexts : (((filledCells blank row).countP fun cell => !numeric cell : Nat) : ℚ) /
      (filledCells blank row).length ≤ 1 := by
    refine div_le_one_of_le₀ ?_ (Nat.cast_nonneg _)
    exact_mod_cast List.countP_le_length
  have hwidth : (if width row = modal then (3 / 2 : ℚ) else 0) ≤ 3 / 2 := by
    split
    next => exact le_rfl
    next => norm_num
  have hfilled : ((filledCells blank row).length : ℚ) / (max row.length 1 : Nat) ≤ 1 := by
    refine div_le_one_of_le₀ ?_ (Nat.cast_nonneg _)
    exact_mod_cast (List.length_filter_le _ row).trans (le_max_left _ _)
  unfold headerScore
  push_cast at hfilled ⊢
  linarith

/-- A first row of labels is the header, whatever stands below it. -/
theorem findHeaderRow_first {runtime : Runtime} {headers : List String} {rows : List (List String)}
    (hwide : 2 ≤ headers.length)
    (hheaders : ∀ header ∈ headers, isBlank header = false ∧ looksNumeric runtime header = false)
    (hrows : ∀ row ∈ rows, row.length = headers.length) :
    findHeaderRow runtime (headers :: rows) = 0 := by
  have hwidths : (headers :: rows).map List.length =
      List.replicate (rows.length + 1) headers.length := by
    rw [List.map_cons, List.map_congr_left hrows, List.map_const']
    rfl
  have hmodal : modalWidth ((headers :: rows).map List.length) = some headers.length := by
    rw [modalWidth, hwidths, List.replicate_dedup (Nat.succ_ne_zero _), List.argmax_singleton]
  have hfilled : filledCells isBlank headers = headers :=
    filledCells_eq_self fun header hheader => (hheaders header hheader).1
  have hscore : headerScore isBlank (looksNumeric runtime) List.length headers.length 0 headers =
      9 / 2 := by
    have hpos : (headers.length : ℚ) ≠ 0 := by
      rw [Nat.cast_ne_zero]
      omega
    have htexts : (headers.countP fun header => !looksNumeric runtime header) = headers.length :=
      List.countP_eq_length.mpr fun header hheader => by rw [(hheaders header hheader).2]; rfl
    rw [Bannered.headerScore_filled hwide (fun _ _ => rfl)
      (fun header hheader => (hheaders header hheader).1) rfl, htexts, div_self hpos]
    norm_num
  unfold findHeaderRow Inspector.findHeaderRow
  rw [hmodal]
  dsimp only
  have hkept : (!(filledCells isBlank headers).isEmpty) = true := by
    rw [hfilled, Bool.not_eq_true', List.isEmpty_eq_false_iff, ← List.length_pos_iff]
    omega
  rw [show maxHeaderSearchRows = 24 + 1 from rfl, List.take_succ_cons, List.zipIdx_cons,
    List.filter_cons]
  dsimp only
  rw [if_pos hkept]
  -- no row below scores more than the first one, and of equal scores the first wins
  have hbest := @List.argmax_of_first _ _ _ (fun entry : List String × Nat =>
    headerScore isBlank (looksNumeric runtime) List.length headers.length entry.2 entry.1) []
    (((rows.take 24).zipIdx (0 + 1)).filter fun entry =>
      !(filledCells isBlank entry.1).isEmpty) (headers, 0) (fun _ h => absurd h List.not_mem_nil)
    (fun entry _ => by
      dsimp only
      rw [hscore]
      have hindex : (0 : ℚ) ≤ entry.2 := Nat.cast_nonneg _
      linarith [@headerScore_le _ isBlank (looksNumeric runtime) List.length headers.length entry.2
        entry.1])
  rw [List.nil_append] at hbest
  exact congrArg (fun best : Option (List String × Nat) => (best.map Prod.snd).getD 0) hbest

/-! ## The rows below -/

theorem dedupe_eq_self {headers : List String}
    (hheaders : ∀ header ∈ headers, isBlank header = false ∧ strip header = header)
    (hnodup : headers.Nodup) : dedupe headers = headers := by
  have hnames : headers.mapIdx columnName = headers := by
    refine List.ext_getElem (List.length_mapIdx) fun index hleft hright => ?_
    obtain ⟨hfilled, hstrip⟩ := hheaders _ (List.getElem_mem hright)
    rw [List.getElem_mapIdx]
    unfold columnName
    dsimp only
    rw [if_neg (of_decide_eq_false hfilled), hstrip]
  rw [dedupe_eq, hnames, Occurrences.labelled_eq_self hnodup]

/-- The record of a row that is as wide as the header. -/
def recordOf (headers row : List String) : Row := .ofPairs (headers.zip row)

theorem record_eq {headers row : List String} (hlength : row.length = headers.length)
    (hstrip : ∀ cell ∈ row, strip cell = cell) :
    (Dict.ofPairs (headers.zipIdx.map fun (header, index) =>
      (header, (row[index]?.map strip).getD ""))) = recordOf headers row := by
  refine congrArg Dict.ofPairs (List.ext_getElem ?_ fun index hleft hright => ?_)
  · rw [List.length_map, List.length_zipIdx, List.length_zip, hlength, Nat.min_self]
  · have hrow : index < row.length := by
      rw [List.length_zip] at hright
      exact (lt_min_iff.mp hright).2
    rw [List.getElem_map, List.getElem_zip, List.getElem_zipIdx]
    dsimp only
    rw [Nat.zero_add, List.getElem?_eq_getElem hrow, Option.map_some, Option.getD_some,
      hstrip _ (List.getElem_mem hrow)]

/-- Every row below the header is a record or a summary line. -/
theorem foldl_add {runtime : Runtime} {headers : List String} {rows : List (List String)}
    (hrows : ∀ row ∈ rows, row.length = headers.length ∧ ∀ cell ∈ row, strip cell = cell)
    (body : Body) :
    rows.foldl (Body.add runtime headers) body =
      { rows := body.rows ++ (rows.filter fun row => !isTotalRow runtime row).map (recordOf headers)
        warnings := body.warnings
        droppedTotals := body.droppedTotals + rows.countP (isTotalRow runtime) } := by
  induction rows generalizing body with
  | nil => simp
  | cons row rows ih =>
      obtain ⟨⟨hlength, hstrip⟩, hrest⟩ := List.forall_mem_cons.mp hrows
      rw [List.foldl_cons, ih hrest]
      unfold Body.add
      cases htotal : isTotalRow runtime row with
      | true =>
          rw [if_pos rfl, List.filter_cons_of_neg (by simp [htotal]),
            List.countP_cons_of_pos htotal, Nat.add_assoc, Nat.add_comm 1]
      | false =>
          rw [if_neg Bool.false_ne_true, List.filter_cons_of_pos (by simp [htotal]),
            List.countP_cons_of_neg (by simp [htotal]), record_eq hlength hstrip]
          dsimp only
          rw [if_neg (by omega), List.append_assoc]
          rfl

theorem cell_recordOf {headers row : List String} (hnodup : headers.Nodup)
    (hlength : row.length = headers.length) : headers.map (recordOf headers row).cell = row := by
  refine List.ext_getElem (by rw [List.length_map, hlength]) fun index hleft hright => ?_
  rw [List.length_map] at hleft
  have hkeys : ((headers.zip row).map Prod.fst).Nodup := by
    rwa [List.map_fst_zip hlength.ge]
  have hentry : (headers[index], row[index]) ∈ headers.zip row := by
    rw [← List.getElem_zip (h := by rw [List.length_zip]; omega)]
    exact List.getElem_mem _
  rw [List.getElem_map]
  unfold Row.cell recordOf
  rw [(Dict.get?_ofPairs_of_nodup hkeys).mpr hentry, Option.getD_some]

/-! ## Round trip -/

/-- A table that is written: labels over plain cells, with at least one row that is not
blank. -/
structure Writable (runtime : Runtime) (headers : List String) (rows : List (List String)) :
    Prop where
  wide : 2 ≤ headers.length
  nodup : headers.Nodup
  label : ∀ header ∈ headers, isBlank header = false ∧ looksNumeric runtime header = false
  width : ∀ row ∈ rows, row.length = headers.length
  plain : ∀ row ∈ headers :: rows, ∀ cell ∈ row, PlainCell cell
  filled : ∃ row ∈ rows, row.any fun cell => !isBlank cell

variable {runtime : Runtime} {headers : List String} {rows : List (List String)}

/-- The rows with a cell that is not blank. -/
def filledRows (rows : List (List String)) : List (List String) :=
  rows.filter fun row => row.any fun cell => !isBlank cell

theorem Writable.any_headers (h : Writable runtime headers rows) :
    (headers.any fun header => !isBlank header) = true := by
  obtain ⟨header, hheader⟩ := List.exists_mem_of_length_pos (lt_of_lt_of_le two_pos h.wide)
  exact List.any_eq_true.mpr ⟨header, hheader, by rw [(h.label header hheader).1]; rfl⟩

theorem Writable.two_le_sample (h : Writable runtime headers rows)
    (hdelimiter : delimiter ∈ candidateDelimiters) :
    2 ≤ (sampleLines (delimitedText delimiter (headers :: rows))).length := by
  obtain ⟨row, hrow, hfilled⟩ := h.filled
  have hmem : delimitedLine delimiter row ∈ (rows.map (delimitedLine delimiter)).filter fun line =>
      !line.all isspace := by
    refine List.mem_filter.mpr ⟨List.mem_map_of_mem hrow, ?_⟩
    rw [all_isspace_delimitedLine hfilled]
    rfl
  have hpos := List.length_pos_of_mem hmem
  unfold sampleLines
  rw [splitlines_delimitedText hdelimiter h.plain, List.map_cons, List.filter_cons_of_pos,
    List.length_take, List.length_cons]
  · omega
  · rw [all_isspace_delimitedLine h.any_headers]
    rfl

/-- The vote on the delimiter. -/
theorem Writable.delim_eq (h : Writable runtime headers rows) (set : SetOrder)
    (hdelimiter : delimiter ∈ candidateDelimiters) :
    (bestDelimiter set (sampleLines (delimitedText delimiter (headers :: rows)))).delim =
      some delimiter := by
  have hline : ∀ line ∈ sampleLines (delimitedText delimiter (headers :: rows)),
      ∃ row ∈ headers :: rows, line = delimitedLine delimiter row := by
    intro line hline
    have hmem := List.mem_of_mem_filter (List.mem_of_mem_take hline)
    rw [splitlines_delimitedText hdelimiter h.plain] at hmem
    obtain ⟨row, hrow, rfl⟩ := List.mem_map.mp hmem
    exact ⟨row, hrow, rfl⟩
  have hwidth : ∀ row ∈ headers :: rows, row.length = headers.length :=
    List.forall_mem_cons.mpr ⟨rfl, h.width⟩
  have hcount : ∀ c ∈ candidateDelimiters,
      ∀ line ∈ sampleLines (delimitedText delimiter (headers :: rows)),
        line.count c = if c = delimiter then headers.length - 1 else 0 := by
    intro c hc line hmem
    obtain ⟨row, hrow, rfl⟩ := hline line hmem
    rw [count_delimitedLine fun cell hcell => (h.plain row hrow cell hcell).not_delimiter c hc,
      hwidth row hrow]
  have hwide := h.wide
  refine @bestDelimiter_eq delimiter set _ (headers.length - 1) hdelimiter (by omega)
    (fun line hmem => ?_) (fun other hother hne line hmem => ?_) (h.two_le_sample hdelimiter)
  · rw [hcount delimiter hdelimiter line hmem, if_pos rfl]
  · rw [hcount other hother line hmem, if_neg hne]

/-- A table that is written with one of the candidates is read back: its headers, and its
rows in their order. Blank rows and summary lines are left out, and the latter counted. -/
theorem parse_delimitedFile (set : SetOrder) (h : Writable runtime headers rows)
    (hdelimiter : delimiter ∈ candidateDelimiters) (marked : Bool)
    (hmark : marked = true ∨
      (delimitedText delimiter (headers :: rows)).head? ≠ some '\uFEFF') :
    ∃ table, parse runtime set (delimitedFile marked delimiter (headers :: rows)) = .ok table ∧
      table.headers = headers ∧
      table.rows = ((filledRows rows).filter fun row => !isTotalRow runtime row).map
        (recordOf headers) ∧
      (∀ row ∈ rows, headers.map (recordOf headers row).cell = row) ∧
      table.warnings = (if 0 < (filledRows rows).countP (isTotalRow runtime) then
        ["excluded " ++ toString ((filledRows rows).countP (isTotalRow runtime)) ++
          " summary row(s)"] else []) ∧
      table.evidence = .ofPairs [("delimiter", delimiterName delimiter), ("header_row_index", "0"),
        ("encoding", if marked then "utf-8-bom" else "utf-8")] := by
  have hwidth : ∀ row ∈ headers :: rows, row.length = headers.length :=
    List.forall_mem_cons.mpr ⟨rfl, h.width⟩
  have htext : decodeText (delimitedFile marked delimiter (headers :: rows)) =
      delimitedText delimiter (headers :: rows) := by
    unfold decodeText delimitedFile
    rw [decodeStrict_flatMap marked hmark, Option.getD_some]
  have hsample := h.two_le_sample hdelimiter
  have hgrid : (headers :: rows).filter (fun row => row.any fun cell => !isBlank cell) =
      headers :: filledRows rows := by
    rw [List.filter_cons, if_pos h.any_headers]
    rfl
  have hfilled : ∀ row ∈ filledRows rows, row.length = headers.length ∧
      ∀ cell ∈ row, strip cell = cell := by
    intro row hrow
    have hmem := List.mem_of_mem_filter hrow
    exact ⟨h.width row hmem, fun cell hcell =>
      (h.plain row (List.mem_cons_of_mem _ hmem) cell hcell).stripped⟩
  have hdedupe : dedupe headers = headers :=
    dedupe_eq_self (fun header hheader => ⟨(h.label header hheader).1,
      (h.plain headers List.mem_cons_self header hheader).stripped⟩) h.nodup
  have hencoding : (if (delimitedFile marked delimiter (headers :: rows)).take 3 ≠ byteOrderMark
      then "utf-8" else "utf-8-bom") = if marked then "utf-8-bom" else "utf-8" := by
    cases marked with
    | true => rfl
    | false =>
        have hplain := not_isPrefix_byteOrderMark (hmark.resolve_left Bool.false_ne_true)
        rw [if_neg Bool.false_ne_true, if_pos]
        intro htake
        refine hplain ?_
        rw [← htake]
        exact List.take_prefix 3 _
  have hbody := @foldl_add runtime headers (filledRows rows) hfilled { warnings := [] }
  have htable : tableOf runtime (delimitedFile marked delimiter (headers :: rows)) delimiter
      (headers :: filledRows rows) = .ok
        { headers := headers
          rows := ((filledRows rows).filter fun row => !isTotalRow runtime row).map
            (recordOf headers)
          evidence := .ofPairs [("delimiter", delimiterName delimiter), ("header_row_index", "0"),
            ("encoding", if marked then "utf-8-bom" else "utf-8")]
          warnings := if 0 < (filledRows rows).countP (isTotalRow runtime) then
            ["excluded " ++ toString ((filledRows rows).countP (isTotalRow runtime)) ++
              " summary row(s)"] else []
          headers_nodup := h.nodup } := by
    unfold tableOf
    rw [findHeaderRow_first h.wide h.label fun row hrow => (hfilled row hrow).1]
    dsimp only
    rw [List.getElem?_cons_zero, Option.getD_some, hdedupe, Nat.zero_add, List.drop_one,
      List.tail_cons, if_neg (Nat.lt_irrefl 0), hbody, hencoding]
    unfold ParsedTable.new
    rw [dif_pos h.nodup]
    simp only [Nat.zero_add, List.nil_append]
    rfl
  refine ⟨_, Eq.trans ?_ htable, rfl, rfl,
    fun row hrow => cell_recordOf h.nodup (h.width row hrow), rfl, rfl⟩
  unfold parse
  dsimp only
  rw [htext, if_neg (List.ne_nil_of_length_pos (lt_of_lt_of_le two_pos hsample)),
    h.delim_eq set hdelimiter]
  dsimp only
  rw [Csv.records_delimitedText hdelimiter (fun row hrow => (hwidth row hrow).ge.trans' h.wide)
    h.plain]
  change (if (headers :: rows).filter _ = [] then _ else _) = _
  rw [hgrid, if_neg (List.cons_ne_nil _ _)]

/-! ## A statement with a summary line -/

def sampleHeaders : List String := ["Account", "Net Amount"]

def sampleRows : List (List String) := [["8842", "1.50"], ["", ""], ["Total", "1.50"]]

theorem writable_sample : Writable .ascii sampleHeaders sampleRows where
  wide := by decide
  nodup := by decide
  label := by decide +kernel
  width := by decide
  plain := by
    intro row hrow cell hcell
    have hcells : ∀ cell ∈ (sampleHeaders :: sampleRows).flatten,
        candidateDelimiters.all (fun c => c ∉ cell.toList) ∧ '"' ∉ cell.toList ∧
          cell.toList.all (fun c => !isLineBreak c) ∧ strip cell = cell ∧
          cell.toList.length ≤ Csv.fieldLimit := by
      decide +kernel
    obtain ⟨hdelimiter, hquote, hbreak, hstrip, hlimit⟩ :=
      hcells cell (List.mem_flatten.mpr ⟨row, hrow, hcell⟩)
    exact ⟨by simpa using hdelimiter, hquote, by simpa using hbreak, hstrip, hlimit⟩
  filled := by decide

theorem parse_delimitedFile_pipes :
    ∃ table, parse .ascii sampleOrder (delimitedFile true '|' (sampleHeaders :: sampleRows)) =
        .ok table ∧ table.headers = ["Account", "Net Amount"] ∧
      table.rows = [recordOf sampleHeaders ["8842", "1.50"]] ∧
      table.warnings = ["excluded 1 summary row(s)"] := by
  obtain ⟨table, hparse, hheaders, hrows, -, hwarnings, -⟩ :=
    parse_delimitedFile sampleOrder writable_sample
      (show '|' ∈ candidateDelimiters by decide) true (.inl rfl)
  refine ⟨table, hparse, hheaders, ?_, ?_⟩
  · rw [hrows, show (filledRows sampleRows).filter (fun row => !isTotalRow .ascii row) =
      [["8842", "1.50"]] by decide +kernel]
    rfl
  · rw [hwarnings, show (filledRows sampleRows).countP (isTotalRow .ascii) = 1 by decide +kernel]
    rfl

end DelimitedParser

end Harbormaster.Inspector
