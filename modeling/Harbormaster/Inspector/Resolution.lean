import Harbormaster.Inspector.SubBatches
import Harbormaster.Regular
import Mathlib.Data.Finset.Card

/-! # What a value date rests on

A value date is the most frequent date of the first source that gives any,
rolled back to a business day. The filename is compared with it only after it
has been rolled.
-/

namespace Harbormaster.Inspector

open Rounding

variable {runtime : Runtime} {headers : List String} {rows : List Row} {filename : String}
variable {arrivalDay : Day} {calendar : Calendar} {hints : List String}

/-! ## The most frequent date -/

/-- A date is among the candidates, none is more frequent, and those that are as
frequent were seen later. -/
structure Dominant (candidates : List Day) (day : Day) : Prop where
  mem : day ∈ candidates
  most : ∀ other ∈ candidates, candidates.count other ≤ candidates.count day
  first : ∀ other ∈ candidates, candidates.count other = candidates.count day →
    candidates.idxOf day ≤ candidates.idxOf other

theorem Dominant.unique {candidates : List Day} {day other : Day} (h : Dominant candidates day)
    (h' : Dominant candidates other) : day = other := by
  have hcount := le_antisymm (h'.most day h.mem) (h.most other h'.mem)
  have hindex := le_antisymm (h.first other h'.mem hcount.symm) (h'.first day h.mem hcount)
  exact (List.idxOf_inj h.mem).mp hindex

theorem winner_dominant (first : Day) (rest : List Day) :
    Dominant (first :: rest) (winner first rest) where
  mem := winner_mem first rest
  most := count_le_winner first rest
  first other hother hcount := by
    unfold winner at hcount ⊢
    cases hmax : (first :: rest).argmax fun day => (first :: rest).count day with
    | none => exact absurd (List.argmax_eq_none.mp hmax) (List.cons_ne_nil _ _)
    | some best =>
        rw [hmax] at hcount
        exact List.index_of_argmax hmax hother hcount.ge

/-! ## Sources -/

/-- What a value date can be read from. -/
inductive DateSource where
  | explicit | inferred | filename | arrival
deriving DecidableEq, Repr

namespace DateSource

/-- The sources that are consulted first. -/
def before : DateSource → List DateSource
  | .explicit => []
  | .inferred => [.explicit]
  | .filename => [.explicit, .inferred]
  | .arrival => [.explicit, .inferred, .filename]

def method : DateSource → String
  | .explicit => methodContentExplicit
  | .inferred => methodContentInferred
  | .filename => methodFilename
  | .arrival => methodArrival

def base : DateSource → ℚ
  | .explicit => confContentExplicit
  | .inferred => confContentInferred
  | .filename => confFilename
  | .arrival => confArrival

/-- The dates a source gives: those of the value-date column, the trade dates plus
one business day, the date in the filename, the business day before the arrival. -/
def dates (runtime : Runtime) (headers : List String) (rows : List Row) (filename : String)
    (arrivalDay : Day) (calendar : Calendar) (hints : List String) : DateSource → List Day
  | .explicit => valueDates runtime rows headers hints
  | .inferred => inferredDates runtime rows headers calendar
  | .filename => (dateFromFilename runtime filename).toList
  | .arrival => [calendar.previousBusinessDay arrivalDay]

end DateSource

variable (runtime headers rows filename arrivalDay calendar hints) in
/-- The first source that gives a date decides. -/
theorem resolve_dateSource :
    ∃ (source : DateSource) (first : Day) (rest : List Day) (note : String),
      (∀ earlier ∈ source.before,
        earlier.dates runtime headers rows filename arrivalDay calendar hints = []) ∧
      source.dates runtime headers rows filename arrivalDay calendar hints = first :: rest ∧
      resolve runtime headers rows filename arrivalDay calendar hints =
        finish first rest source.method source.base (dateFromFilename runtime filename) arrivalDay
          calendar note := by
  have hexplicit : columnDates runtime rows (findValueDateColumn runtime headers hints) =
      valueDates runtime rows headers hints := columnDates_eq _
  have hinferred : (columnDates runtime rows (findTradeDateColumn runtime headers)).map
      (fun day => calendar.addBusinessDays day 1) = inferredDates runtime rows headers calendar := by
    rw [columnDates_eq, List.map_filterMap]
    rfl
  unfold resolve
  dsimp only
  rw [hexplicit, hinferred]
  cases hvalue : valueDates runtime rows headers hints with
  | cons first rest => exact ⟨.explicit, first, rest, _, by simp [DateSource.before], hvalue, rfl⟩
  | nil =>
      cases htrade : inferredDates runtime rows headers calendar with
      | cons first rest =>
          refine ⟨.inferred, first, rest, _, ?_, htrade, rfl⟩
          simp [DateSource.before, DateSource.dates, hvalue]
      | nil =>
          cases hname : dateFromFilename runtime filename with
          | some day =>
              refine ⟨.filename, day, [], _, ?_, by simp [DateSource.dates, hname], rfl⟩
              simp [DateSource.before, DateSource.dates, hvalue, htrade]
          | none =>
              refine ⟨.arrival, calendar.previousBusinessDay arrivalDay, [], _, ?_, rfl, rfl⟩
              simp [DateSource.before, DateSource.dates, hvalue, htrade, hname]

/-! ## Confidence -/

/-- The certainty of every source is a number of thousandths. -/
theorem DateSource.exists_base_eq (source : DateSource) :
    ∃ n : Nat, 10 ≤ n ∧ source.base = n / 10 ^ 3 := by
  cases source with
  | explicit => exact ⟨970, by norm_num [DateSource.base, confContentExplicit]⟩
  | inferred => exact ⟨850, by norm_num [DateSource.base, confContentInferred]⟩
  | filename => exact ⟨700, by norm_num [DateSource.base, confFilename]⟩
  | arrival => exact ⟨550, by norm_num [DateSource.base, confArrival]⟩

theorem roundTo_clamp_nonneg (value : ℚ) : 0 ≤ roundTo 3 (clamp value) := by
  have hzero := roundTo_of_decimals 3 0
  have hmono := roundTo_mono 3 (le_max_left 0 (min value 1))
  rw [Int.cast_zero, zero_div] at hzero
  exact hzero ▸ hmono

/-- Rounded to thousandths, a certainty stays within a bound in thousandths. -/
theorem roundTo_clamp_le {value : ℚ} {n : Int} (hpos : 0 ≤ n) (h : value ≤ n / 10 ^ 3) :
    roundTo 3 (clamp value) ≤ n / 10 ^ 3 := by
  refine roundTo_le n (max_le ?_ ((min_le_left _ _).trans h))
  have hcast : (0 : ℚ) ≤ n := Int.cast_nonneg hpos
  positivity

theorem one_lt_distinct {candidates : List Day} {day other : Day} (hday : day ∈ candidates)
    (hother : other ∈ candidates) (hne : day ≠ other) :
    1 < (candidates.dedup.insertionSort (· ≤ ·)).length := by
  rw [List.length_insertionSort, ← List.card_toFinset]
  exact Finset.one_lt_card.mpr
    ⟨day, List.mem_toFinset.mpr hday, other, List.mem_toFinset.mpr hother, hne⟩

/-- A resolution is no surer than the stage it rests on. -/
theorem finish_le (first : Day) (rest : List Day) (method : String) {base : ℚ} (n : Nat)
    (hbase : base = n / 10 ^ 3) (filenameDate : Option Day) (arrivalDay : Day)
    (calendar : Calendar) (note : String) :
    (finish first rest method base filenameDate arrivalDay calendar note).confidence ≤ base := by
  have hpos : 0 ≤ base := hbase ▸ by positivity
  have hround : ∀ value, value ≤ base → roundTo 3 value ≤ base := by
    rw [hbase]
    exact fun value h => roundTo_le n h
  refine hround _ (max_le hpos ((min_le_left _ _).trans ?_))
  split_ifs
  · rw [rollPenalty]
    linarith
  · rw [rollPenalty]
    linarith
  · linarith
  · exact le_rfl

/-- Several dates, or one that has to be rolled, cost certainty. -/
theorem finish_lt_base (source : DateSource) {first : Day} {rest : List Day}
    (filenameDate : Option Day) (note : String)
    (h : (∃ day ∈ first :: rest, ∃ other ∈ first :: rest, day ≠ other) ∨
      calendar.roll (winner first rest) ≠ winner first rest) :
    (finish first rest source.method source.base filenameDate arrivalDay calendar
      note).confidence < source.base := by
  obtain ⟨n, hlow, hbase⟩ := source.exists_base_eq
  have hn : (10 : ℚ) ≤ n := by exact_mod_cast hlow
  rw [hbase]
  have hless : ((n - 1 : Int) : ℚ) / 10 ^ 3 < n / 10 ^ 3 := by
    push_cast
    linarith
  refine lt_of_le_of_lt (roundTo_clamp_le (by omega) ?_) hless
  unfold rollPenalty
  push_cast
  rcases h with ⟨day, hday, other, hother, hne⟩ | hrolled
  · rw [if_pos (one_lt_distinct hday hother hne)]
    split_ifs <;> linarith
  · rw [if_pos hrolled]
    split_ifs <;> linarith

/-! ## The contract -/

/-- On a calendar without a closed month a file resolves to the last business day
not after the dominant date of the first source that gives any. The certainty
of that source bounds the answer's, and is not reached where dates disagree or
the dominant one is closed. -/
theorem resolve_contract (runtime : Runtime) (headers : List String) (rows : List Row)
    (filename : String) (arrivalDay : Day) (hints : List String) (calendar : Calendar)
    (hregular : calendar.Regular) :
    ∃ (source : DateSource) (dominant : Day),
      (∀ earlier ∈ source.before,
        earlier.dates runtime headers rows filename arrivalDay calendar hints = []) ∧
      Dominant (source.dates runtime headers rows filename arrivalDay calendar hints) dominant ∧
      (resolve runtime headers rows filename arrivalDay calendar hints).method = source.method ∧
      (∃ resolved,
        (resolve runtime headers rows filename arrivalDay calendar hints).resolved =
          some resolved ∧
        calendar.isBusinessDay resolved = true ∧ resolved = calendar.roll dominant ∧
        IsGreatest {day | calendar.isBusinessDay day = true ∧ day ≤ dominant} resolved) ∧
      0 ≤ (resolve runtime headers rows filename arrivalDay calendar hints).confidence ∧
      (resolve runtime headers rows filename arrivalDay calendar hints).confidence ≤ source.base ∧
      ((∃ day ∈ source.dates runtime headers rows filename arrivalDay calendar hints,
          ∃ other ∈ source.dates runtime headers rows filename arrivalDay calendar hints,
            day ≠ other) ∨ calendar.roll dominant ≠ dominant →
        (resolve runtime headers rows filename arrivalDay calendar hints).confidence <
          source.base) := by
  obtain ⟨source, first, rest, note, hbefore, hdates, hresolve⟩ :=
    resolve_dateSource runtime headers rows filename arrivalDay calendar hints
  have hgreatest := hregular.roll_isGreatest (winner first rest)
  rw [hresolve]
  refine ⟨source, winner first rest, hbefore, ?_, rfl,
    ⟨calendar.roll (winner first rest), rfl, hgreatest.1.1, rfl, hgreatest⟩,
    roundTo_clamp_nonneg _, ?_, ?_⟩
  · rw [hdates]
    exact winner_dominant first rest
  · obtain ⟨n, _, hbase⟩ := source.exists_base_eq
    exact finish_le first rest source.method n hbase _ arrivalDay calendar note
  · rw [hdates]
    exact finish_lt_base source _ note

/-- A Saturday and a Friday, once each: the Saturday was seen first. -/
theorem resolve_contract_saturday :
    (resolve Runtime.ascii ["Value Date"]
      [.ofPairs [("Value Date", "2026-08-29")], .ofPairs [("Value Date", "2026-08-28")]]
      "positions.csv" 739860 usEquity []).confidence <
        confContentExplicit := by
  obtain ⟨source, dominant, hbefore, hdominant, hmethod, -, -, -, hlt⟩ :=
    resolve_contract Runtime.ascii ["Value Date"]
      [.ofPairs [("Value Date", "2026-08-29")], .ofPairs [("Value Date", "2026-08-28")]]
      "positions.csv" 739860 [] usEquity
      (Calendar.regular_of_weekend "US_EQUITY")
  cases source with
  | explicit =>
      exact hlt (.inl ⟨739857, by decide +kernel, 739856, by decide +kernel, by decide⟩)
  | inferred => exact absurd hmethod (by decide +kernel)
  | filename => exact absurd hmethod (by decide +kernel)
  | arrival => exact absurd hmethod (by decide +kernel)

/-! ## Disagreement with the filename -/

/-- The dates that the contents of a table give. -/
def contentDates (runtime : Runtime) (headers : List String) (rows : List Row)
    (calendar : Calendar) (hints : List String) : List Day :=
  if valueDates runtime rows headers hints = [] then inferredDates runtime rows headers calendar
  else valueDates runtime rows headers hints

/-- Where the contents give a date, the flag compares the filename with the date
that it rolls to. -/
theorem resolve_mismatchFlagged {dominant : Day}
    (h : Dominant (contentDates runtime headers rows calendar hints) dominant) :
    (resolve runtime headers rows filename arrivalDay calendar hints).mismatchFlagged =
      (dateFromFilename runtime filename).any fun day => day ≠ calendar.roll dominant := by
  obtain ⟨source, first, rest, note, hbefore, hdates, hresolve⟩ :=
    resolve_dateSource runtime headers rows filename arrivalDay calendar hints
  have hcontents : contentDates runtime headers rows calendar hints = first :: rest := by
    unfold contentDates at h ⊢
    cases source with
    | explicit =>
        have hvalue : valueDates runtime rows headers hints = first :: rest := hdates
        rw [hvalue, if_neg (List.cons_ne_nil first rest)]
    | inferred =>
        have hvalue : valueDates runtime rows headers hints = [] :=
          hbefore .explicit (by simp [DateSource.before])
        rw [if_pos hvalue]
        exact hdates
    | filename | arrival =>
        -- both are consulted only where the contents are silent
        have hvalue : valueDates runtime rows headers hints = [] :=
          hbefore .explicit (by simp [DateSource.before])
        have hinferred : inferredDates runtime rows headers calendar = [] :=
          hbefore .inferred (by simp [DateSource.before])
        rw [if_pos hvalue, hinferred] at h
        exact absurd h.mem List.not_mem_nil
  rw [hcontents] at h
  rw [hresolve, h.unique (winner_dominant first rest)]
  rfl

/-- The dominant date of the contents and the date in the filename are compared
after rolling: where they differ, the difference is flagged exactly when the
dominant date is open or the business day before it is not the filename's. -/
theorem mismatch_flagged_iff (runtime : Runtime) (headers : List String) (rows : List Row)
    (filename : String) (arrivalDay : Day) (calendar : Calendar) (hints : List String)
    (dominant filenameDay : Day)
    (hdominant : Dominant (contentDates runtime headers rows calendar hints) dominant)
    (hfilename : dateFromFilename runtime filename = some filenameDay) :
    (dominant ≠ filenameDay →
      (resolve runtime headers rows filename arrivalDay calendar hints).mismatchFlagged = true) ↔
    (calendar.isBusinessDay dominant = true ∨
      calendar.previousBusinessDay dominant ≠ filenameDay) := by
  rw [resolve_mismatchFlagged hdominant, hfilename, Option.any_some, decide_eq_true_eq]
  unfold Calendar.roll
  split
  next hopen => exact ⟨fun _ => .inl hopen, fun _ hne => hne.symm⟩
  next hclosed =>
    constructor
    · intro hflagged
      refine .inr fun hsame => ?_
      have hearlier : filenameDay < dominant := hsame ▸ calendar.previousBusinessDay_lt dominant
      exact hflagged hearlier.ne' hsame.symm
    · rintro (hopen | hother) _
      · exact absurd hopen hclosed
      · exact hother.symm

/-- A file for Friday 2026-08-28 whose rows all say the Saturday after it. -/
def saturdayRows : List Row := [.ofPairs [("Value Date", "2026-08-29"), ("Quantity", "100")]]

/-- The Saturday rolls onto the Friday of the filename, and nothing is flagged. -/
theorem saturday_not_flagged :
    Dominant (contentDates Runtime.ascii ["Value Date", "Quantity"] saturdayRows
        usEquity []) 739857 ∧
      dateFromFilename Runtime.ascii "positions_20260828.csv" = some 739856 ∧
      (resolve Runtime.ascii ["Value Date", "Quantity"] saturdayRows "positions_20260828.csv"
        739860 usEquity []).mismatchFlagged = false := by
  have hdates : contentDates Runtime.ascii ["Value Date", "Quantity"] saturdayRows
      usEquity [] = [739857] := by decide +kernel
  refine ⟨?_, by decide +kernel, by decide +kernel⟩
  rw [hdates]
  exact winner_dominant 739857 []

/-- The same rows under the name of the Thursday are flagged. -/
theorem mismatch_flagged_thursday :
    (resolve Runtime.ascii ["Value Date", "Quantity"] saturdayRows "positions_20260827.csv"
      739860 usEquity []).mismatchFlagged = true := by
  have hdates : contentDates Runtime.ascii ["Value Date", "Quantity"] saturdayRows
      usEquity [] = [739857] := by decide +kernel
  have hdominant : Dominant (contentDates Runtime.ascii ["Value Date", "Quantity"] saturdayRows
      usEquity []) 739857 := by
    rw [hdates]
    exact winner_dominant 739857 []
  exact (mismatch_flagged_iff _ _ _ _ 739860 _ _ 739857 739855 hdominant
    (by decide +kernel)).mpr (.inr (by decide)) (by decide)

end Harbormaster.Inspector
