import Harbormaster.Foundation.Dict

/-! # Parsed tables

What every parser produces, regardless of source format: headers, rows as texts
and the evidence the format revealed.
-/

namespace Harbormaster.Inspector

open Ordered

abbrev Row := Dict String String

/-- `row.get(column, "")`. -/
def Row.cell (row : Row) (column : String) : String := (row.get? column).getD ""

/-- Normalised output of any parser. A table whose headers repeat is refused when
it is built. -/
structure ParsedTable where
  headers : List String
  rows : List Row
  evidence : Dict String String := .empty
  warnings : List String := []
  headers_nodup : headers.Nodup

namespace ParsedTable

variable (table : ParsedTable)

def rowCount : Nat := table.rows.length

/-- All values for one column, in row order. -/
def column (header : String) : List String := table.rows.map fun row => row.cell header

/-- The table with some of its rows, without the warnings. -/
def subset (rows : List Row) : ParsedTable where
  headers := table.headers
  rows := rows
  evidence := table.evidence
  headers_nodup := table.headers_nodup

end ParsedTable

end Harbormaster.Inspector
