import Harbormaster.Foundation.Ranking
import Harbormaster.Inspector.Dates
import Harbormaster.Inspector.HeaderNames
import Mathlib.Data.List.Dedup
import Mathlib.Data.Prod.Lex
import Mathlib.Tactic.Linarith

/-! # The header row

Both parsers of grids look for the header among the first rows: a row scores for texts,
for the width most rows have, and for being filled, and loses a little with every row
above it. With enough banners above the header the first banner scores as much.
-/

namespace Harbormaster.Inspector

open Matching Matcher

variable (runtime : Runtime)

/-! ## Numbers -/

section Numbers

/-- A part that may be left out, and is read if it can be. -/
def optional {α : Type} (matcher : Matcher α) : Matcher Unit :=
  orElse (do let _ ← matcher; return ()) (pure ())

def floatSign : Matcher Unit := optional (oneOf [literal '+', literal '-'])

/-- Digits, with single underscores between them. -/
def floatDigits : Matcher Unit := do
  let _ ← digit runtime
  fun cursor => (do
    let _ ← upTo (do optional (literal '_'); digit runtime) cursor.rest.length
    return ()) cursor

def floatExponent : Matcher Unit := do
  oneOf [literal 'e', literal 'E']
  floatSign
  floatDigits runtime

/-- What `float` reads, apart from the white space around it. -/
def floatText : Matcher Unit := do
  floatSign
  oneOf [
    do
      floatDigits runtime
      optional (do literal '.'; optional (floatDigits runtime))
      optional (floatExponent runtime),
    do
      literal '.'
      floatDigits runtime
      optional (floatExponent runtime),
    word "infinity".toList,
    word "inf".toList,
    word "nan".toList]

/-- `float(text)` does not raise. -/
def isFloat (text : List Char) : Bool :=
  (floatText runtime ⟨[], stripChars text⟩).any fun (_, after) => after.rest.isEmpty

end Numbers

/-- `text.strip()` without some characters. -/
def strippedOf (removed : List Char) (text : String) : List Char :=
  (stripChars text.toList).filter fun c => c ∉ removed

/-- The text without parentheses around it. -/
def unwrapped (text : List Char) : List Char :=
  if text.head? = some '(' ∧ text.getLast? = some ')' then text.tail.dropLast else text

/-! ## Scores -/

section Scores

variable {α : Type} (blank numeric : α → Bool) (width : List α → Nat)

/-- The width that most rows have; of several the widest. -/
def modalWidth (widths : List Nat) : Option Nat :=
  widths.dedup.argmax fun w => toLex (widths.count w, w)

def filledCells (row : List α) : List α := row.filter fun cell => !blank cell

def headerScore (modal index : Nat) (row : List α) : ℚ :=
  let filled := filledCells blank row
  2 * ((filled.countP fun cell => !numeric cell) / filled.length) +
    (if width row = modal then 3 / 2 else 0) + filled.length / max row.length 1 - 3 / 20 * index

def maxHeaderSearchRows : Nat := 25

/-- The first row with the best score, among the first rows that are not blank. -/
def findHeaderRow (grid : List (List α)) : Nat :=
  match modalWidth (grid.map width) with
  | none => 0
  | some modal =>
      let rows := (grid.take maxHeaderSearchRows).zipIdx.filter fun (row, _) =>
        !(filledCells blank row).isEmpty
      ((rows.argmax fun (row, index) => headerScore blank numeric width modal index row).map
        Prod.snd).getD 0

end Scores

namespace DelimitedParser

def isBlank (cell : String) : Bool := strip cell = ""

/-- `_looks_numeric`. -/
def looksNumeric (cell : String) : Bool :=
  let stripped := unwrapped (strippedOf [',', '$', '%'] cell)
  !stripped.isEmpty && isFloat runtime stripped

/-- `DelimitedParser._find_header_row`: the width of a row counts all its cells. -/
def findHeaderRow (grid : List (List String)) : Nat :=
  Inspector.findHeaderRow isBlank (looksNumeric runtime) List.length grid

end DelimitedParser

namespace ExcelParser

/-- The value of a cell: nothing, a number, or anything else, each with its `str`. -/
inductive Value where
  | empty
  | number (text : String)
  | other (text : String)
deriving DecidableEq

def Value.cell : Value → Cell
  | empty => none
  | number text | other text => some text

/-- `_is_blank`. -/
def Value.isBlank (value : Value) : Bool := ExcelParser.isBlank value.cell

/-- `str(value)`. -/
def Value.text (value : Value) : String := value.cell.getD "None"

/-- `_looks_numeric`. -/
def looksNumeric (value : Value) : Bool :=
  match value with
  | .number _ => true
  | .empty | .other _ =>
      let stripped := strippedOf [',', '$'] value.text
      !stripped.isEmpty && isFloat runtime stripped

/-- `ExcelParser._find_header_row`: the width of a row counts the cells that are filled. -/
def findHeaderRow (grid : List (List Value)) : Nat :=
  Inspector.findHeaderRow Value.isBlank (looksNumeric runtime)
    (fun row => (filledCells Value.isBlank row).length) grid

end ExcelParser

/-! ## Grids with banners -/

section Banners

variable {α : Type} {blank numeric : α → Bool} {width : List α → Nat}

/-- Banners of one text each and some blank cells, a header of texts, and rows with a number. -/
structure Bannered (blank numeric : α → Bool) (padding : Nat) (preamble : List (List α))
    (header : List α) (data : List (List α)) : Prop where
  banner : ∀ row ∈ preamble, ∃ text, filledCells blank row = [text] ∧ numeric text = false ∧
    row.length = padding + 1
  header_width : 2 ≤ header.length
  header_text : ∀ cell ∈ header, blank cell = false ∧ numeric cell = false
  data_width : ∀ row ∈ data, row.length = header.length
  data_filled : ∀ row ∈ data, ∀ cell ∈ row, blank cell = false
  data_number : ∀ row ∈ data, ∃ cell ∈ row, numeric cell = true
  enough : 1 ≤ data.length ∧ preamble.length ≤ data.length
  searched : preamble.length < maxHeaderSearchRows

variable {padding : Nat} {preamble data : List (List α)} {header : List α}

/-- A row without blank cells. -/
theorem filledCells_eq_self {row : List α} (h : ∀ cell ∈ row, blank cell = false) :
    filledCells blank row = row := by
  apply List.filter_eq_self.mpr
  intro cell hcell
  rw [h cell hcell]
  rfl

namespace Bannered

theorem modalWidth_eq (h : Bannered blank numeric padding preamble header data)
    (hone : ∀ row ∈ preamble, width row = 1)
    (hall : ∀ row, (∀ cell ∈ row, blank cell = false) → width row = row.length) :
    modalWidth ((preamble ++ header :: data).map width) = some header.length := by
  have hheader : width header = header.length :=
    hall header fun cell hcell => (h.header_text cell hcell).1
  have hpreamble : preamble.map width = List.replicate preamble.length 1 :=
    List.eq_replicate_iff.mpr ⟨List.length_map _, by simpa using hone⟩
  have hdata : data.map width = List.replicate data.length header.length := by
    refine List.eq_replicate_iff.mpr ⟨List.length_map _, ?_⟩
    simp only [List.mem_map, forall_exists_index, and_imp, forall_apply_eq_imp_iff₂]
    exact fun row hrow => (hall row (h.data_filled row hrow)).trans (h.data_width row hrow)
  rw [List.map_append, List.map_cons, hheader, hpreamble, hdata]
  have hn := h.header_width
  obtain ⟨_, hle⟩ := h.enough
  set widths := List.replicate preamble.length 1 ++
    header.length :: List.replicate data.length header.length with hwidths
  have hcount : widths.count header.length = data.length + 1 := by
    rw [hwidths, List.count_append, List.count_cons_self, List.count_replicate_self,
      List.count_replicate, if_neg (by simpa using (by omega : (1 : Nat) ≠ header.length)), zero_add]
  have hcount_one : widths.count 1 = preamble.length := by
    have hne : header.length ≠ 1 := by omega
    rw [hwidths, List.count_append, List.count_replicate_self, List.count_cons_of_ne hne,
      List.count_replicate, if_neg (by simpa using hne), add_zero]
  have hmem : ∀ w ∈ widths, w = 1 ∨ w = header.length := by
    intro w hw
    rcases List.mem_append.mp hw with hleft | hright
    · exact Or.inl (List.eq_of_mem_replicate hleft)
    · rcases List.mem_cons.mp hright with rfl | hright
      · exact Or.inr rfl
      · exact Or.inr (List.eq_of_mem_replicate hright)
  have hless : toLex (widths.count 1, 1) < toLex (widths.count header.length, header.length) := by
    rw [Prod.Lex.toLex_lt_toLex, hcount, hcount_one]
    exact Or.inl (by omega)
  unfold modalWidth
  refine Ranking.Top.argmax_eq ⟨?_, ?_⟩ ?_
  · rw [List.mem_dedup, hwidths]
    simp
  · intro w hw
    rcases hmem w (List.mem_dedup.mp hw) with rfl | rfl
    · exact hless.le
    · exact le_rfl
  · rintro w ⟨hw, hbest⟩
    rcases hmem w (List.mem_dedup.mp hw) with rfl | rfl
    · refine absurd (hbest header.length ?_) (not_le.mpr hless)
      rw [List.mem_dedup, hwidths]
      simp
    · rfl

theorem score_banner (h : Bannered blank numeric padding preamble header data)
    (hone : ∀ row ∈ preamble, width row = 1) {row : List α} (hrow : row ∈ preamble) (index : Nat) :
    headerScore blank numeric width header.length index row =
      2 + 1 / (padding + 1) - 3 / 20 * index := by
  obtain ⟨text, hfilled, htext, hlength⟩ := h.banner row hrow
  have hn := h.header_width
  have hne : width row ≠ header.length := by
    rw [hone row hrow]
    omega
  unfold headerScore
  simp only [hfilled, hne, if_false, List.countP_singleton, htext, hlength, List.length_singleton]
  norm_num

/-- The score of a row without blank cells that is as wide as the header. -/
theorem headerScore_filled {row : List α} (hn : 2 ≤ header.length)
    (hall : ∀ row, (∀ cell ∈ row, blank cell = false) → width row = row.length)
    (hfilled : ∀ cell ∈ row, blank cell = false) (hlength : row.length = header.length)
    (index : Nat) :
    headerScore blank numeric width header.length index row =
      2 * ((row.countP fun cell => !numeric cell) / header.length) + 5 / 2 - 3 / 20 * index := by
  have hpos : (header.length : ℚ) ≠ 0 := by
    rw [Nat.cast_ne_zero]
    omega
  unfold headerScore
  simp only [filledCells_eq_self hfilled, hall row hfilled, hlength, if_true,
    max_eq_left (by omega : 1 ≤ header.length), div_self hpos]
  ring

theorem score_header (h : Bannered blank numeric padding preamble header data)
    (hall : ∀ row, (∀ cell ∈ row, blank cell = false) → width row = row.length) (index : Nat) :
    headerScore blank numeric width header.length index header = 9 / 2 - 3 / 20 * index := by
  have hn := h.header_width
  have hpos : (header.length : ℚ) ≠ 0 := by
    rw [Nat.cast_ne_zero]
    omega
  have htexts : (header.countP fun cell => !numeric cell) = header.length := by
    apply List.countP_eq_length.mpr
    intro cell hcell
    rw [(h.header_text cell hcell).2]
    rfl
  rw [headerScore_filled hn hall (fun cell hcell => (h.header_text cell hcell).1) rfl, htexts,
    div_self hpos]
  ring

theorem score_data_le (h : Bannered blank numeric padding preamble header data)
    (hall : ∀ row, (∀ cell ∈ row, blank cell = false) → width row = row.length) {row : List α}
    (hrow : row ∈ data) (index : Nat) :
    headerScore blank numeric width header.length index row ≤ 9 / 2 - 3 / 20 * index := by
  have hn := h.header_width
  have hpos : (0 : ℚ) < header.length := by
    rw [Nat.cast_pos]
    omega
  have hlength := h.data_width row hrow
  have hshare : ((row.countP fun cell => !numeric cell : Nat) : ℚ) / header.length ≤ 1 := by
    rw [div_le_one hpos, ← hlength]
    exact_mod_cast List.countP_le_length
  rw [headerScore_filled hn hall (h.data_filled row hrow) hlength]
  linarith

/-- No row is blank. -/
theorem filledCells_isEmpty (h : Bannered blank numeric padding preamble header data)
    {row : List α} (hrow : row ∈ preamble ++ header :: data) :
    (filledCells blank row).isEmpty = false := by
  have hn := h.header_width
  have hwide : ∀ {row : List α}, row.length = header.length → row.isEmpty = false := by
    intro row hlength
    rw [List.isEmpty_eq_false_iff, ← List.length_pos_iff, hlength]
    omega
  rcases List.mem_append.mp hrow with hbanner | hrest
  · obtain ⟨text, hfilled, -, -⟩ := h.banner row hbanner
    rw [hfilled]
    rfl
  · rcases List.mem_cons.mp hrest with rfl | hdata
    · rw [filledCells_eq_self fun cell hcell => (h.header_text cell hcell).1]
      exact hwide rfl
    · rw [filledCells_eq_self (h.data_filled row hdata)]
      exact hwide (h.data_width row hdata)

/-- The rows that are searched, with their positions. -/
theorem searched_eq (h : Bannered blank numeric padding preamble header data) :
    (((preamble ++ header :: data).take maxHeaderSearchRows).zipIdx.filter fun (row, _) =>
        !(filledCells blank row).isEmpty) =
      preamble.zipIdx ++ (header, preamble.length) ::
        (data.take (maxHeaderSearchRows - preamble.length - 1)).zipIdx (preamble.length + 1) := by
  have hsearched := h.searched
  rw [List.filter_eq_self.mpr]
  · obtain ⟨more, hmore⟩ := Nat.exists_eq_add_of_lt hsearched
    rw [List.take_append, List.take_of_length_le hsearched.le, hmore,
      show preamble.length + more + 1 - preamble.length = more + 1 by omega, List.take_succ_cons,
      List.zipIdx_append, List.zipIdx_cons, Nat.zero_add, Nat.add_sub_cancel]
  · rintro ⟨row, index⟩ hmem
    have hrow := List.mem_of_mem_take (List.fst_mem_of_mem_zipIdx hmem)
    show (!(filledCells blank row).isEmpty) = true
    rw [h.filledCells_isEmpty hrow]
    rfl

/-- The header is found exactly when it scores more than the first banner. -/
theorem findHeaderRow_eq_iff (h : Bannered blank numeric padding preamble header data)
    (hone : ∀ row ∈ preamble, width row = 1)
    (hall : ∀ row, (∀ cell ∈ row, blank cell = false) → width row = row.length) :
    findHeaderRow blank numeric width (preamble ++ header :: data) = preamble.length ↔
      1 / ((padding : ℚ) + 1) + 3 / 20 * preamble.length < 5 / 2 := by
  unfold findHeaderRow
  rw [h.modalWidth_eq hone hall]
  dsimp only
  rw [h.searched_eq]
  set score : List α × Nat → ℚ := fun (row, index) =>
    headerScore blank numeric width header.length index row with hscore
  have hheader : score (header, preamble.length) = 9 / 2 - 3 / 20 * preamble.length :=
    h.score_header hall preamble.length
  have hbanner : ∀ pair ∈ preamble.zipIdx,
      score pair = 2 + 1 / (padding + 1) - 3 / 20 * pair.2 := fun pair hpair =>
    h.score_banner hone (List.fst_mem_of_mem_zipIdx hpair) pair.2
  constructor
  · intro hfound
    by_contra hworse
    cases hpreamble : preamble with
    | nil =>
        have hpos : (0 : ℚ) < padding + 1 := by positivity
        have hle : 1 / ((padding : ℚ) + 1) ≤ 1 := by
          rw [div_le_one hpos]
          linarith [(Nat.cast_nonneg padding : (0 : ℚ) ≤ padding)]
        rw [hpreamble, List.length_nil, Nat.cast_zero] at hworse
        linarith
    | cons first rest =>
        -- the first banner comes before the header and scores no less
        have hfirst : score (header, preamble.length) ≤ score (first, 0) := by
          rw [hheader, hbanner (first, 0) (by rw [hpreamble]; exact List.mem_cons_self)]
          push_cast
          linarith
        have hposition : preamble.length ≠ 0 := by rw [hpreamble]; exact Nat.succ_ne_zero _
        have hunique : ∀ pair ∈ preamble.zipIdx ++ (header, preamble.length) ::
            (data.take (maxHeaderSearchRows - preamble.length - 1)).zipIdx (preamble.length + 1),
            pair.2 = preamble.length → pair = (header, preamble.length) := by
          rintro ⟨row, index⟩ hpair rfl
          rcases List.mem_append.mp hpair with hbefore | hrest
          · exact absurd (List.mem_zipIdx' hbefore).1 (lt_irrefl _)
          · rcases List.mem_cons.mp hrest with heq | hafter
            · exact heq
            · have hle := (List.mem_zipIdx hafter).1
              omega
        set rows := preamble.zipIdx ++ (header, preamble.length) ::
          (data.take (maxHeaderSearchRows - preamble.length - 1)).zipIdx (preamble.length + 1)
          with hrows
        cases hbest : rows.argmax score with
        | none =>
            rw [hbest] at hfound
            exact hposition hfound.symm
        | some best =>
            rw [hbest] at hfound
            obtain rfl := hunique best (List.argmax_mem hbest) hfound
            rw [hrows, hpreamble, List.zipIdx_cons, List.cons_append] at hbest
            refine Ranking.argmax_cons_ne ?_ ?_ hbest
            · rwa [hpreamble] at hfirst
            · intro heq
              exact Nat.succ_ne_zero _ (congrArg Prod.snd heq)
  · intro hbetter
    rw [List.argmax_of_first]
    · rfl
    · intro pair hpair
      rw [hbanner pair hpair, hheader]
      have hindex : (0 : ℚ) ≤ pair.2 := Nat.cast_nonneg _
      linarith
    · rintro ⟨row, index⟩ hpair
      rw [hheader]
      have hrow := List.mem_of_mem_take (List.fst_mem_of_mem_zipIdx hpair)
      have hindex : ((preamble.length : Nat) : ℚ) ≤ index := by
        exact_mod_cast Nat.le_of_succ_le (List.mem_zipIdx hpair).1
      refine (h.score_data_le hall hrow index).trans ?_
      linarith

end Bannered

end Banners

namespace DelimitedParser

/-- Below single-cell banners the header is found exactly when there are fewer than ten. -/
theorem findHeaderRow_iff (runtime : Runtime) {preamble data : List (List String)}
    {header : List String}
    (h : Bannered isBlank (looksNumeric runtime) 0 preamble header data) :
    findHeaderRow runtime (preamble ++ header :: data) = preamble.length ↔
      preamble.length < 10 := by
  unfold findHeaderRow
  rw [h.findHeaderRow_eq_iff (fun row hrow => ?_) fun _ _ => rfl]
  · rw [Nat.cast_zero, zero_add, div_one]
    constructor
    · intro hless
      have hcast : (preamble.length : ℚ) < 10 := by linarith
      exact_mod_cast hcast
    · intro hless
      have hcast : (preamble.length : ℚ) < 10 := by exact_mod_cast hless
      linarith
  · obtain ⟨text, -, -, hlength⟩ := h.banner row hrow
    exact hlength

end DelimitedParser

namespace ExcelParser

/-- The more blank cells a banner has beside its text, the more banners there may be. -/
theorem findHeaderRow_iff (runtime : Runtime) {padding : Nat} {preamble data : List (List Value)}
    {header : List Value}
    (h : Bannered Value.isBlank (looksNumeric runtime) padding preamble header data) :
    findHeaderRow runtime (preamble ++ header :: data) = preamble.length ↔
      1 / ((padding : ℚ) + 1) + 3 / 20 * preamble.length < 5 / 2 := by
  refine h.findHeaderRow_eq_iff (fun row hrow => ?_) fun row hfilled => ?_
  · obtain ⟨text, hfilled, -, -⟩ := h.banner row hrow
    exact congrArg List.length hfilled
  · exact congrArg List.length (filledCells_eq_self hfilled)

end ExcelParser

/-- Both parsers find the header below few banners only: fewer than ten in a text, and in a
workbook as many as the blank cells beside the first of them allow. -/
theorem headerRow_found_iff (runtime : Runtime) :
    (∀ preamble header data,
      Bannered DelimitedParser.isBlank (DelimitedParser.looksNumeric runtime) 0 preamble header
          data →
        (DelimitedParser.findHeaderRow runtime (preamble ++ header :: data) = preamble.length ↔
          preamble.length < 10)) ∧
      ∀ padding preamble header data,
        Bannered ExcelParser.Value.isBlank (ExcelParser.looksNumeric runtime) padding preamble
            header data →
          (ExcelParser.findHeaderRow runtime (preamble ++ header :: data) = preamble.length ↔
            1 / ((padding : ℚ) + 1) + 3 / 20 * preamble.length < 5 / 2) :=
  ⟨fun _ _ _ h => DelimitedParser.findHeaderRow_iff runtime h,
    fun _ _ _ _ h => ExcelParser.findHeaderRow_iff runtime h⟩

/-- A report with the same banner several times, and as many trades. -/
theorem bannered_report (count : Nat) (hcount : count < maxHeaderSearchRows) :
    Bannered DelimitedParser.isBlank (DelimitedParser.looksNumeric .ascii) 0
      (List.replicate count ["Daily extract"]) ["TradeID", "Qty"]
      (List.replicate (count + 1) ["T1", "100"]) where
  banner row hrow := by
    rw [List.eq_of_mem_replicate hrow]
    exact ⟨"Daily extract", rfl, rfl, rfl⟩
  header_width := by decide
  header_text := by decide
  data_width row hrow := by
    rw [List.eq_of_mem_replicate hrow]
    rfl
  data_filled row hrow := by
    rw [List.eq_of_mem_replicate hrow]
    decide
  data_number row hrow := by
    rw [List.eq_of_mem_replicate hrow]
    exact ⟨"100", by simp, rfl⟩
  enough := by simp
  searched := by simpa using hcount

/-- A workbook with a title in the first of two columns. -/
theorem bannered_workbook :
    Bannered ExcelParser.Value.isBlank (ExcelParser.looksNumeric .ascii) 1
      [[.other "Holdings", .empty]] [.other "ISIN", .other "Qty"]
      [[.other "US0378331005", .number "5"]] where
  banner row hrow := by
    rw [List.mem_singleton.mp hrow]
    exact ⟨.other "Holdings", rfl, rfl, rfl⟩
  header_width := le_rfl
  header_text := by decide
  data_width := by decide
  data_filled := by decide
  data_number row hrow := by
    rw [List.mem_singleton.mp hrow]
    exact ⟨.number "5", by simp, rfl⟩
  enough := ⟨le_rfl, le_rfl⟩
  searched := by decide

theorem headerRow_found_samples :
    DelimitedParser.findHeaderRow .ascii (List.replicate 3 ["Daily extract"] ++
        ["TradeID", "Qty"] :: List.replicate 4 ["T1", "100"]) = 3 ∧
      ExcelParser.findHeaderRow .ascii ([[.other "Holdings", .empty]] ++
        [.other "ISIN", .other "Qty"] :: [[.other "US0378331005", .number "5"]]) = 1 :=
  ⟨((headerRow_found_iff .ascii).1 _ _ _ (bannered_report 3 (by decide))).mpr (by decide),
    ((headerRow_found_iff .ascii).2 _ _ _ _ bannered_workbook).mpr (by norm_num)⟩

/-- Below ten banners the header is not found. -/
theorem header_missed : ∃ preamble header data,
    Bannered DelimitedParser.isBlank (DelimitedParser.looksNumeric .ascii) 0 preamble header data ∧
      DelimitedParser.findHeaderRow .ascii (preamble ++ header :: data) ≠ preamble.length := by
  refine ⟨_, _, _, bannered_report 10 (by decide), fun hfound => ?_⟩
  have hless := (DelimitedParser.findHeaderRow_iff .ascii (bannered_report 10 (by decide))).mp hfound
  simp at hless

end Harbormaster.Inspector
