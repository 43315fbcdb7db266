import Harbormaster.Foundation.Bytes
import Harbormaster.Foundation.Occurrences
import Harbormaster.Inspector.Table
import Harbormaster.Inspector.Text
import Mathlib.Data.List.DropRight
import Mathlib.Data.List.Sort
import Mathlib.Data.String.Basic

/-! # The names of the columns

Both parsers suffix a header that repeats with how often it came before. The
suffixed names are not counted themselves, so one may meet a header of the file.
-/

namespace Harbormaster.Inspector

open Ordered Occurrences

/-! ## Names that repeat -/

/-- `f"{name}__{n}"`. -/
def suffixed (name : String) (n : Nat) : String := name ++ "__" ++ toString n

/-- The names given so far, and how often each header has come again. -/
structure Names where
  seen : Dict String Nat := .empty
  out : List String := []

def Names.add (names : Names) (name : String) : Names :=
  match names.seen.get? name with
  | some n =>
      { seen := names.seen.set name (n + 1), out := names.out ++ [suffixed name (n + 1)] }
  | none => { seen := names.seen.set name 0, out := names.out ++ [name] }

/-- The name of a column without one. -/
def placeholder (index : Nat) : String := "column_" ++ toString (index + 1)

/-- `header.strip() or placeholder`. -/
def columnName (index : Nat) (header : String) : String :=
  let name := strip header
  if name = "" then placeholder index else name

/-- `DelimitedParser._dedupe`. -/
def DelimitedParser.dedupe (headers : List String) : List String :=
  (headers.zipIdx.foldl
    (fun (names : Names) (header, index) => names.add (columnName index header)) {}).out

namespace ExcelParser

/-- A cell of a sheet: nothing, or the `str` of its value. -/
abbrev Cell := Option String

def isBlank : Cell → Bool
  | none => true
  | some text => strip text = ""

/-- The names given so far, and how many of the last cells are blank. -/
structure Headers where
  names : Names := {}
  trailingBlanks : Nat := 0

def Headers.add (headers : Headers) (index : Nat) (cell : Cell) : Headers :=
  if isBlank cell then
    { names := headers.names.add (placeholder index), trailingBlanks := headers.trailingBlanks + 1 }
  else { names := headers.names.add (strip (cell.getD "")), trailingBlanks := 0 }

/-- Drop the placeholders that trail off the end, at most the given number. -/
def dropPlaceholders : Nat → List String → List String
  | 0, out => out
  | trailingBlanks + 1, out =>
      match out.getLast? with
      | some last =>
          if startsWith last "column_" then dropPlaceholders trailingBlanks out.dropLast else out
      | none => out

/-- `ExcelParser._dedupe`. -/
def dedupe (rawHeaders : List Cell) : List String :=
  let headers := rawHeaders.zipIdx.foldl
    (fun (headers : Headers) (cell, index) => headers.add index cell) {}
  dropPlaceholders headers.trailingBlanks headers.names.out

end ExcelParser

inductive ParseError where
  | duplicateHeaders (dupes : List String)
deriving DecidableEq, Repr

def ParseError.text (runtime : Runtime) : ParseError → String
  | duplicateHeaders dupes =>
      "duplicate column headers: [" ++ join ", " (dupes.map (quoted runtime)) ++ "]"

/-- `ParsedTable(headers, rows, evidence, warnings)`, with the check of `__post_init__`. -/
def ParsedTable.new (headers : List String) (rows : List Row) (evidence : Dict String String)
    (warnings : List String) : Except ParseError ParsedTable :=
  if hnodup : headers.Nodup then .ok ⟨headers, rows, evidence, warnings, hnodup⟩
  else
    let dupes := (headers.filter fun h => 1 < headers.count h).dedup
    .error (.duplicateHeaders (dupes.insertionSort (· ≤ ·)))

theorem ParsedTable.exists_new_eq_ok {headers : List String} {rows : List Row}
    {evidence : Dict String String} {warnings : List String} :
    (∃ table, new headers rows evidence warnings = .ok table) ↔ headers.Nodup := by
  unfold new
  split
  next hnodup => exact ⟨fun _ => hnodup, fun _ => ⟨_, rfl⟩⟩
  next hrepeats =>
      constructor
      · rintro ⟨_, h⟩
        cases h
      · exact fun hnodup => absurd hnodup hrepeats

/-! ## What the loops build -/

theorem toDigits_injective {m n : Nat} (h : Nat.toDigits 10 m = Nat.toDigits 10 n) : m = n := by
  have hm := Nat.ofDigitChars_toDigits (b := 10) (n := m) (by decide) (by decide)
  rw [h, Nat.ofDigitChars_toDigits (by decide) (by decide)] at hm
  exact hm.symm

/-- The last underscore ends the name. -/
theorem suffixed_injective (name other : String) (m n : Nat)
    (h : suffixed name m = suffixed other n) : name = other ∧ m = n := by
  have hchars : ∀ (text : String) (k : Nat), (suffixed text k).toList.reverse =
      (Nat.toDigits 10 k).reverse ++ '_' :: '_' :: text.toList.reverse := by
    intro text k
    simp [suffixed, Nat.toString_eq_repr, Nat.toList_repr]
  have hmark : ∀ k, '_' ∉ (Nat.toDigits 10 k).reverse := fun k hmem =>
    Nat.underscore_not_in_toDigits (List.mem_reverse.mp hmem)
  have hreverse := congrArg (fun text : String => text.toList.reverse) h
  simp only [hchars] at hreverse
  obtain ⟨hdigits, hname⟩ := Bytes.append_cons_injective (hmark m) (hmark n) hreverse
  refine ⟨?_, toDigits_injective (List.reverse_injective hdigits)⟩
  exact String.toList_injective (List.reverse_injective (List.cons.inj hname).2)

/-- What is remembered of the headers so far. -/
structure Names.Of (headers : List String) (names : Names) : Prop where
  seen : ∀ name, names.seen.get? name =
    if headers.count name = 0 then none else some (headers.count name - 1)
  out : names.out = labelled suffixed headers

theorem labelled_concat (headers : List String) (name : String) :
    labelled suffixed (headers ++ [name]) =
      labelled suffixed headers ++ [label suffixed (name, headers.count name)] := by
  unfold labelled
  rw [numbered_append, List.map_append, List.append_nil]
  simp only [numbered, List.map_cons, List.map_nil, List.count_reverse]

theorem Names.Of.add {headers : List String} {names : Names} (h : Of headers names)
    (name : String) : Of (headers ++ [name]) (names.add name) := by
  have hcount : ∀ other, (headers ++ [name]).count other =
      headers.count other + if name = other then 1 else 0 := by
    intro other
    rw [List.count_append, List.count_singleton]
    simp only [beq_iff_eq]
  have hseen := h.seen name
  unfold Names.add
  by_cases hnew : headers.count name = 0
  · rw [if_pos hnew] at hseen
    rw [hseen]
    refine ⟨fun other => ?_, ?_⟩
    · rw [Dict.get?_set, hcount]
      by_cases hother : other = name
      · simp [hother, hnew]
      · rw [if_neg hother, h.seen, if_neg (Ne.symm hother), Nat.add_zero]
    · rw [labelled_concat, h.out, hnew]
      rfl
  · obtain ⟨n, hn⟩ := Nat.exists_eq_succ_of_ne_zero hnew
    rw [if_neg hnew, hn, Nat.succ_sub_one] at hseen
    rw [hseen]
    refine ⟨fun other => ?_, ?_⟩
    · rw [Dict.get?_set, hcount]
      by_cases hother : other = name
      · simp [hother, hn]
      · rw [if_neg hother, h.seen, if_neg (Ne.symm hother), Nat.add_zero]
    · rw [labelled_concat, h.out, hn]
      rfl

/-- A whole header row. -/
theorem names_of (headers : List String) : Names.Of headers (headers.foldl Names.add {}) := by
  induction headers using List.reverseRecOn with
  | nil => exact ⟨fun _ => Dict.get?_empty _, rfl⟩
  | append_singleton headers name ih =>
      rw [List.foldl_append]
      exact ih.add name

theorem DelimitedParser.dedupe_eq (headers : List String) :
    dedupe headers = labelled suffixed (headers.mapIdx columnName) := by
  rw [← (names_of _).out, List.mapIdx_eq_zipIdx_map, List.foldl_map]
  rfl

namespace ExcelParser

/-- The name of a cell before repetitions are suffixed. -/
def cellName (index : Nat) (cell : Cell) : String := columnName index (cell.getD "")

theorem columnName_of_blank {cell : Cell} (h : isBlank cell = true) (index : Nat) :
    cellName index cell = placeholder index := by
  cases cell with
  | none => rfl
  | some text => exact if_pos (of_decide_eq_true h)

theorem Headers.add_names (headers : Headers) (index : Nat) (cell : Cell) :
    (headers.add index cell).names = headers.names.add (cellName index cell) := by
  unfold add
  split
  next hblank => rw [columnName_of_blank hblank]
  next hfilled =>
    cases cell with
    | none => exact absurd rfl hfilled
    | some text =>
        have hname : strip text ≠ "" := fun hempty => hfilled (decide_eq_true hempty)
        unfold cellName columnName
        dsimp only [Option.getD_some]
        rw [if_neg hname]

/-- A whole header row: its names, and the blank cells at its end. -/
theorem headers_of (cells : List Cell) :
    let headers := cells.zipIdx.foldl
      (fun (headers : Headers) (cell, index) => headers.add index cell) {}
    headers.names = (cells.mapIdx cellName).foldl Names.add {} ∧
      headers.trailingBlanks = (cells.rtakeWhile isBlank).length := by
  induction cells using List.reverseRecOn with
  | nil => exact ⟨rfl, rfl⟩
  | append_singleton cells cell ih =>
      obtain ⟨hnames, hblanks⟩ := ih
      dsimp only at hnames hblanks ⊢
      rw [List.zipIdx_append, List.foldl_append, List.mapIdx_append, List.foldl_append]
      simp only [List.zipIdx_singleton, List.foldl_cons, List.foldl_nil, Nat.zero_add,
        List.mapIdx_cons, List.mapIdx_nil]
      refine ⟨by rw [Headers.add_names, hnames], ?_⟩
      by_cases hblank : isBlank cell = true
      · rw [List.rtakeWhile_concat_pos _ _ _ hblank, List.length_append, ← hblanks]
        unfold Headers.add
        rw [if_pos hblank]
        rfl
      · rw [List.rtakeWhile_concat_neg _ _ _ hblank]
        unfold Headers.add
        rw [if_neg hblank]
        rfl

theorem dropPlaceholders_append {out back : List String}
    (h : ∀ name ∈ back, startsWith name "column_" = true) :
    dropPlaceholders back.length (out ++ back) = out := by
  induction back using List.reverseRecOn with
  | nil => rw [List.append_nil]; rfl
  | append_singleton back name ih =>
      rw [List.length_append, ← List.append_assoc]
      change dropPlaceholders (back.length + 1) _ = _
      unfold dropPlaceholders
      rw [List.getLast?_concat]
      dsimp only
      rw [if_pos (h name (List.mem_append_right _ List.mem_cons_self)), List.dropLast_concat]
      exact ih fun other hother => h other (List.mem_append_left _ hother)

/-- A placeholder is one with a suffix as well. -/
theorem startsWith_label (index number : Nat) :
    startsWith (label suffixed (placeholder index, number)) "column_" = true := by
  have hprefix : ∀ rest : String, "column_".toList <+: (placeholder index ++ rest).toList := by
    intro rest
    refine ⟨(toString (index + 1)).toList ++ rest.toList, ?_⟩
    simp [placeholder]
  refine decide_eq_true ?_
  cases number with
  | zero => simpa [label] using hprefix ""
  | succ n =>
      change _ <+: (suffixed (placeholder index) (n + 1)).toList
      unfold suffixed
      rw [String.append_assoc]
      exact hprefix _

/-- The blank cells at the end leave no column. -/
theorem dedupe_eq (cells : List Cell) :
    dedupe cells = labelled suffixed ((cells.rdropWhile isBlank).mapIdx cellName) := by
  obtain ⟨hnames, hblanks⟩ := headers_of cells
  unfold dedupe
  dsimp only at hnames hblanks ⊢
  rw [hnames, hblanks, (names_of _).out]
  have hsplit : cells.rdropWhile isBlank ++ cells.rtakeWhile isBlank = cells :=
    List.rdropWhile_append_rtakeWhile
  generalize hfront : cells.rdropWhile isBlank = front at hsplit ⊢
  generalize hback : cells.rtakeWhile isBlank = back at hsplit ⊢
  have hblank : ∀ cell ∈ back, isBlank cell = true := fun cell hcell =>
    List.mem_rtakeWhile_imp (hback ▸ hcell)
  rw [← hsplit, List.mapIdx_append]
  unfold labelled
  rw [numbered_append, List.map_append]
  generalize hlast : back.mapIdx (fun index cell => cellName (index + front.length) cell) = last
  have hlength : back.length = ((numbered ((front.mapIdx cellName).reverse ++ []) last).map
      (label suffixed)).length := by
    rw [List.length_map, length_numbered, ← hlast, List.length_mapIdx]
  rw [hlength]
  refine dropPlaceholders_append fun name hname => ?_
  obtain ⟨⟨header, number⟩, hnumbered, rfl⟩ := List.mem_map.mp hname
  have hheader : header ∈ last := by
    have hcount := mem_numbered.mp hnumbered
    exact List.count_pos_iff.mp (by omega)
  rw [← hlast] at hheader
  obtain ⟨index, hindex, rfl⟩ := List.mem_mapIdx.mp hheader
  rw [columnName_of_blank (hblank _ (List.getElem_mem hindex))]
  exact startsWith_label _ _

end ExcelParser

/-! ## When the names are unique -/

/-- The names are unique, and the table is accepted, exactly when no suffixed name
of a repeated header is itself a header. A sheet counts the cells up to the last
that is not blank. -/
theorem dedupe_nodup (rows : List Row) (evidence : Dict String String) (warnings : List String) :
    (∀ headers : List String,
      ((DelimitedParser.dedupe headers).Nodup ↔ Apart suffixed (headers.mapIdx columnName)) ∧
      ((∃ table, ParsedTable.new (DelimitedParser.dedupe headers) rows evidence warnings =
          .ok table) ↔ Apart suffixed (headers.mapIdx columnName))) ∧
    ∀ cells : List ExcelParser.Cell,
      ((ExcelParser.dedupe cells).Nodup ↔
        Apart suffixed ((cells.rdropWhile ExcelParser.isBlank).mapIdx ExcelParser.cellName)) ∧
      ((∃ table, ParsedTable.new (ExcelParser.dedupe cells) rows evidence warnings = .ok table) ↔
        Apart suffixed ((cells.rdropWhile ExcelParser.isBlank).mapIdx ExcelParser.cellName)) := by
  simp only [ParsedTable.exists_new_eq_ok, and_self, DelimitedParser.dedupe_eq,
    ExcelParser.dedupe_eq]
  exact ⟨fun _ => nodup_labelled suffixed_injective _, fun _ =>
    nodup_labelled suffixed_injective _⟩

/-- The second price is given the name of the third column. -/
theorem suffixed_name_repeats :
    DelimitedParser.dedupe ["Price", "Price", "Price__1"] = ["Price", "Price__1", "Price__1"] ∧
      ExcelParser.dedupe [some "Price", some "Price", some "Price__1"] =
        ["Price", "Price__1", "Price__1"] ∧
      ParsedTable.new ["Price", "Price__1", "Price__1"] [] .empty [] =
        .error (.duplicateHeaders ["Price__1"]) := by
  refine ⟨by decide, by decide, ?_⟩
  unfold ParsedTable.new
  rw [dif_neg (by decide)]
  rfl

end Harbormaster.Inspector
