import Harbormaster.Inspector.Text

/-! # Reading dates

`parse_date` and `date_from_filename` of the inspector's `valuedate`. A format
of `strptime` is the backtracking matcher that the format is compiled to; the
whole text has to be read by its preferred reading.
-/

namespace Harbormaster.Inspector

open Matching Matcher

variable (runtime : Runtime)

/-! ## Fields of a format -/

/-- `\d`. -/
def digit : Matcher Nat := char runtime.decimal

/-- A digit of the ASCII range `[low-high]`. -/
def asciiDigit (low high : Nat) : Matcher Nat := char fun c => do
  let value ← Civil.digit? c
  if low ≤ value ∧ value ≤ high then some value else none

/-- `%Y`. -/
def yearField : Matcher Nat := do
  return (← times (digit runtime) 4).foldl (fun year value => 10 * year + value) 0

/-- `%m`. -/
def monthField : Matcher Nat :=
  oneOf [
    do
      literal '1'
      return 10 + (← asciiDigit 0 2),
    do
      literal '0'
      asciiDigit 1 9,
    asciiDigit 1 9]

/-- `%d`. -/
def dayField : Matcher Nat :=
  oneOf [
    do
      literal '3'
      return 30 + (← asciiDigit 0 1),
    do
      let tens ← asciiDigit 1 2
      return 10 * tens + (← digit runtime),
    do
      literal '0'
      asciiDigit 1 9,
    asciiDigit 1 9,
    do
      literal ' '
      asciiDigit 1 9]

/-- A word in any letter case. The few letters outside ASCII that fold onto a
letter of a month name are refused by the lookup that follows the match. -/
def word : List Char → Matcher Unit
  | [] => pure ()
  | c :: rest => do
      let _ ← satisfy fun c' => c'.toLower = c
      word rest

/-- One of the names, as its position. -/
def named (names : List String) : Matcher Nat :=
  oneOf (names.zipIdx.map fun (name, index) => do
    word name.toList
    return index + 1)

/-- `%b`. -/
def abbreviatedMonth : Matcher Nat :=
  named ["jan", "feb", "mar", "apr", "may", "jun", "jul", "aug", "sep", "oct", "nov", "dec"]

/-- `%B`. No name begins another, so their order does not matter. -/
def fullMonth : Matcher Nat :=
  named ["january", "february", "march", "april", "may", "june", "july", "august", "september",
    "october", "november", "december"]

/-- White space in a format. -/
def spaces : Matcher Unit := do
  let _ ← many1 (satisfy isspace)
  return ()

/-! ## Formats -/

/-- The year, month and day a text is read as. -/
structure DateFields where
  year : Nat
  month : Nat
  day : Nat

/-- `%Y`, `%m` and `%d` around a separator. -/
def yearFirst (separator : Matcher Unit) : Matcher DateFields := do
  let year ← yearField runtime
  separator
  let month ← monthField
  separator
  let day ← dayField runtime
  return { year, month, day }

/-- Day, month and year around a separator. -/
def dayFirst (month : Matcher Nat) (separator : Matcher Unit) : Matcher DateFields := do
  let day ← dayField runtime
  separator
  let month ← month
  separator
  let year ← yearField runtime
  return { year, month, day }

/-- Month, day and year, each followed by its separator. -/
def monthFirst (month : Matcher Nat) (first second : Matcher Unit) : Matcher DateFields := do
  let month ← month
  first
  let day ← dayField runtime
  second
  let year ← yearField runtime
  return { year, month, day }

/-- Date formats seen in real extracts, most specific first. -/
def dateFormats : List (Matcher DateFields) := [
  yearFirst runtime (literal '-'),
  yearFirst runtime (literal '/'),
  dayFirst runtime monthField (literal '/'),
  monthFirst runtime monthField (literal '/') (literal '/'),
  dayFirst runtime abbreviatedMonth (literal '-'),
  dayFirst runtime abbreviatedMonth (pure ()),
  monthFirst runtime abbreviatedMonth spaces (do literal ','; spaces),
  dayFirst runtime fullMonth spaces,
  yearFirst runtime (pure ()),
  dayFirst runtime monthField (literal '.')]

/-- `datetime.strptime(raw, format).date()`. -/
def strptime (format : Matcher DateFields) (raw : List Char) : Option Civil.Date :=
  match format.exec raw with
  | some (fields, []) =>
      if 1 ≤ fields.year then Civil.Date.of? fields.year fields.month fields.day else none
  | _ => none

/-- The first format that reads the text as a date of a plausible year. A
quantity or a price that looks like a compact date is refused by its year. -/
def parseFormats (raw : List Char) : Option Civil.Date :=
  (dateFormats runtime).findSome? fun format =>
    (strptime format raw).filter fun parsed => 1990 ≤ parsed.year && parsed.year ≤ 2100

/-- Parse a date cell in any of the formats real extracts use. A time component
is trimmed first. -/
def parseDate (text : String) : Option Day :=
  let raw := stripChars text.toList
  if raw = [] then none
  else
    let raw := stripChars (raw.takeWhile fun c => c ≠ 'T' && c ≠ ' ')
    if raw = [] then none else (parseFormats runtime raw).map Civil.Date.ordinal

/-- What is parsed is a date of the calendar. -/
theorem date_of_parseDate {text : String} {day : Day} (h : parseDate runtime text = some day) :
    ∃ date : Civil.Date, date.ordinal = day := by
  unfold parseDate at h
  dsimp only at h
  split at h
  next => cases h
  next =>
    split at h
    next => cases h
    next =>
      obtain ⟨date, _, hdate⟩ := Option.map_eq_some_iff.mp h
      exact ⟨date, hdate⟩

/-! ## Filenames -/

/-- The compact date embedded in a filename: the text of `iso`, `compact` or `dmy`. -/
def filenameDate : Matcher (List Char) :=
  oneOf [
    captured do
      let _ ← times (digit runtime) 4
      literal '-'
      let _ ← times (digit runtime) 2
      literal '-'
      let _ ← times (digit runtime) 2
      return (),
    captured do
      behind fun c => !(c.any fun c => (runtime.decimal c).isSome)
      let _ ← times (digit runtime) 8
      ahead fun rest => !(rest.head?.any fun c => (runtime.decimal c).isSome)
      return (),
    captured do
      let _ ← times (digit runtime) 2
      let _ ← times (satisfy Char.isAlpha) 3
      let _ ← times (digit runtime) 4
      return ()]

/-- Extract a date from a filename, if one is present. -/
def dateFromFilename (name : String) : Option Day := do
  parseDate runtime (String.ofList (← (filenameDate runtime).search name.toList))

/-! ## Text of a date -/

/-- `isoformat` of a date. -/
def isoformat (day : Day) : String := ((Civil.ofOrdinal? day).map Civil.Date.isoformat).getD ""

theorem isoformat_ordinal (date : Civil.Date) : isoformat date.ordinal = date.isoformat := by
  rw [isoformat, Civil.ofOrdinal?_ordinal]
  rfl

/-- The text of a parsed date determines it. -/
theorem isoformat_injective {day day' : Day} (h : ∃ date : Civil.Date, date.ordinal = day)
    (h' : ∃ date : Civil.Date, date.ordinal = day') (hsame : isoformat day = isoformat day') :
    day = day' := by
  obtain ⟨date, rfl⟩ := h
  obtain ⟨date', rfl⟩ := h'
  rw [isoformat_ordinal, isoformat_ordinal] at hsame
  rw [Civil.Date.isoformat_injective hsame]

end Harbormaster.Inspector
