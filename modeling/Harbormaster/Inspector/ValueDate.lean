import Harbormaster.Inspector.Dates
import Harbormaster.Inspector.Table
import Mathlib.Data.List.MinMax
import Mathlib.Data.List.Sort

/-! # The business day a file represents

`valuedate` of the inspector: the columns that carry dates, the resolution of
one value date for a table, and the split of its rows by their own value dates.
-/

namespace Harbormaster.Inspector

open Ordered Rounding

variable (runtime : Runtime)

def methodContentExplicit : String := "CONTENT_EXPLICIT"
def methodContentInferred : String := "CONTENT_INFERRED"
def methodFilename : String := "FILENAME"
def methodArrival : String := "ARRIVAL_MINUS_CALENDAR"

def confContentExplicit : ℚ := 97 / 100
def confContentInferred : ℚ := 85 / 100
def confFilename : ℚ := 70 / 100
def confArrival : ℚ := 55 / 100

/-- Penalty applied when a date had to be rolled onto a business day. -/
def rollPenalty : ℚ := 10 / 100

/-- The resolved value date and everything that informed it. -/
structure Resolution where
  resolved : Option Day
  method : String
  confidence : ℚ
  fromFilename : Option Day := none
  fromContent : List Day := []
  fromArrival : Option Day := none
  mismatchFlagged : Bool := false
  calendarId : String := ""
  notes : String := ""
deriving DecidableEq

def Resolution.resolvedIso (resolution : Resolution) : String :=
  (resolution.resolved.map isoformat).getD ""

/-! ## Columns -/

/-- The headers by their comparable form; a form used twice keeps its first
place and its last header. -/
def normalized (headers : List String) : Dict String String :=
  .ofPairs (headers.map fun h => (normalizeHeader runtime h, h))

/-- The header of a comparable form. An empty header is no header. -/
def headerFor (normalized : Dict String String) (pattern : String) : Option String :=
  (normalized.get? pattern).filter fun hit => hit ≠ ""

def valueDatePatterns : List String :=
  ["valuedate", "valdate", "settlementdate", "settledate", "settldate", "settlmntdate",
    "cashsettlementdate", "effectivedate", "posteddate", "postingdate", "valuedt", "settldt"]

def tradeDatePatterns : List String :=
  ["tradedate", "trddate", "dealdate", "executiondate", "transactiondate", "businessdate",
    "activitydate", "bookingdate", "asofdate"]

/-- Locate the column carrying the value or settlement date: configured hints
first, then known names, then a name that contains one. -/
def findValueDateColumn (headers hints : List String) : Option String :=
  let normalized := normalized runtime headers
  (hints.findSome? fun hint => headerFor normalized (normalizeHeader runtime hint)).or
    ((valueDatePatterns.findSome? (headerFor normalized)).or
      ((normalized.entries.find? fun entry =>
        within "settlementdate" entry.1 || within "valuedate" entry.1).map Prod.snd))

def findTradeDateColumn (headers : List String) : Option String :=
  tradeDatePatterns.findSome? (headerFor (normalized runtime headers))

/-- The date in a row's cell of a column. -/
def cellDate (column : String) (row : Row) : Option Day := parseDate runtime (row.cell column)

def columnDates (rows : List Row) (column : Option String) : List Day :=
  match column with
  | none => []
  | some column => if column = "" then [] else rows.filterMap (cellDate runtime column)

/-! ## Resolution -/

/-- The most frequent candidate, of several the one seen first. -/
def winner (first : Day) (rest : List Day) : Day :=
  ((first :: rest).argmax fun day => (first :: rest).count day).getD first

def clamp (confidence : ℚ) : ℚ := max 0 (min confidence 1)

/-- What a date that is closed is rolled to, and the note about it. -/
def rollNote (calendar : Calendar) (day : Day) : String :=
  let reason := if calendar.holidayName day = "" then "a weekend" else calendar.holidayName day
  isoformat day ++ " was not a business day (" ++ reason ++ "); rolled back to " ++
    isoformat (calendar.roll day)

/-- `_finish`, on candidates of which there is at least one. -/
def finish (first : Day) (rest : List Day) (method : String) (baseConfidence : ℚ)
    (filenameDate : Option Day) (arrivalDay : Day) (calendar : Calendar) (note : String) :
    Resolution :=
  let candidates := first :: rest
  let distinct := candidates.dedup.insertionSort (· ≤ ·)
  let dominant := winner first rest
  let several := 1 < distinct.length
  let rolled := calendar.roll dominant
  let share : ℚ := candidates.count dominant / candidates.length
  let spread := if several then baseConfidence * (9 / 10) else baseConfidence
  let confidence := if rolled ≠ dominant then spread - rollPenalty else spread
  let mismatch := filenameDate.any fun day => day ≠ rolled
  let notes := [note] ++
    (if several then ["contents span " ++ toString distinct.length ++ " value dates; " ++
      isoformat dominant ++ " covers " ++ percent share ++ " of rows"] else []) ++
    (if rolled ≠ dominant then [rollNote calendar dominant] else []) ++
    (match filenameDate with
      | some day => if mismatch then ["filename says " ++ isoformat day ++
          " but the contents resolve to " ++ isoformat rolled] else []
      | none => [])
  { resolved := some rolled
    method := method
    confidence := roundTo 3 (clamp confidence)
    fromFilename := filenameDate
    fromContent := distinct
    fromArrival := some arrivalDay
    mismatchFlagged := mismatch
    calendarId := calendar.calendarId
    notes := join "; " notes }

/-- Resolve the value date for a parsed file. -/
def resolve (headers : List String) (rows : List Row) (filename : String) (arrivalDay : Day)
    (calendar : Calendar) (hints : List String) (settlementOffsetDays : Int := 1) : Resolution :=
  let filenameDate := dateFromFilename runtime filename
  let explicitCol := findValueDateColumn runtime headers hints
  match columnDates runtime rows explicitCol with
  | first :: rest =>
      finish first rest methodContentExplicit confContentExplicit filenameDate arrivalDay calendar
        ("value date read from column " ++ quoted runtime (explicitCol.getD ""))
  | [] =>
      let tradeCol := findTradeDateColumn runtime headers
      let inferred := (columnDates runtime rows tradeCol).map fun day =>
        calendar.addBusinessDays day settlementOffsetDays
      match inferred with
      | first :: rest =>
          finish first rest methodContentInferred confContentInferred filenameDate arrivalDay
            calendar ("no value-date column; inferred from " ++ quoted runtime (tradeCol.getD "") ++
              " plus T+" ++ toString settlementOffsetDays ++ " on this client's calendar")
      | [] =>
          match filenameDate with
          | some day =>
              finish day [] methodFilename confFilename filenameDate arrivalDay calendar
                "file contents carried no date; fell back to the filename"
          | none =>
              finish (calendar.previousBusinessDay arrivalDay) [] methodArrival confArrival none
                arrivalDay calendar "no date found in the filename or the contents"

/-! ## Splitting -/

/-- Partition rows by the value date each one carries. Nothing is split where
there is no value-date column, or at most one date. -/
def splitByValueDate (rows : List Row) (headers hints : List String) :
    List (String × List Row) :=
  match findValueDateColumn runtime headers hints with
  | none => []
  | some column =>
      if column = "" then []
      else
        let groups := groupBy (fun row => (cellDate runtime column row).map isoformat) rows
        if 1 < groups.entries.length then groups.entries else []

end Harbormaster.Inspector
