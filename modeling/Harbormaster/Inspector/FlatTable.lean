import Harbormaster.Foundation.Writes
import Harbormaster.Inspector.Table

/-! # Tables of flattened records

The parsers of nested formats flatten each record to a row of its own keys. The columns
are the keys in the order in which they are first seen, and absent cells are empty.
-/

namespace Harbormaster.Inspector

open Ordered

/-- `row.setdefault(key, value)`. -/
def Row.setDefault (row : Row) (key value : String) : Row :=
  if (row.get? key).isSome then row else row.set key value

theorem Row.get?_setDefault (row : Row) (key value other : String) :
    (row.setDefault key value).get? other =
      if other = key then some ((row.get? key).getD value) else row.get? other := by
  unfold Row.setDefault
  split
  next hset =>
    obtain ⟨old, hold⟩ := Option.isSome_iff_exists.mp hset
    split
    next heq => rw [heq, hold, Option.getD_some]
    next => rfl
  next hunset =>
    rw [Option.not_isSome_iff_eq_none] at hunset
    rw [Dict.get?_set, hunset, Option.getD_none]

/-- A default does not change a cell. -/
theorem Row.get?_setDefault_of_some {row : Row} {other cell : String} (key value : String)
    (h : row.get? other = some cell) : (row.setDefault key value).get? other = some cell := by
  rw [Row.get?_setDefault]
  split
  next heq => rw [← heq, h, Option.getD_some]
  next => exact h

/-- Give a row the cells it lacks. -/
def Row.setDefaults (row : Row) (defaults : List (String × String)) : Row :=
  defaults.foldl (fun row entry => row.setDefault entry.1 entry.2) row

theorem Row.get?_setDefaults {row : Row} {other cell : String} (defaults : List (String × String))
    (h : row.get? other = some cell) : (row.setDefaults defaults).get? other = some cell :=
  List.foldlRecOn (motive := fun row : Row => row.get? other = some cell) defaults _ h
    fun _ hrow entry _ => Row.get?_setDefault_of_some entry.1 entry.2 hrow

/-- The keys of the rows in the order in which they are first seen. -/
def flatHeaders (rows : List Row) : List String :=
  rows.foldl (fun headers row => extend headers row.keys) []

theorem nodup_extend {keys more : List String} (h : keys.Nodup) : (extend keys more).Nodup := by
  refine List.foldlRecOn (motive := List.Nodup) _ _ h fun keys hkeys key _ => ?_
  split
  next => exact hkeys
  next hnew =>
    rw [List.nodup_append]
    refine ⟨hkeys, List.nodup_singleton key, fun a ha b hb heq => hnew ?_⟩
    rw [← List.mem_singleton.mp hb, ← heq]
    exact ha

theorem nodup_flatHeaders (rows : List Row) : (flatHeaders rows).Nodup :=
  List.foldlRecOn (motive := List.Nodup) _ _ List.nodup_nil fun _ h _ _ => nodup_extend h

/-- The table of flattened records. -/
def flatTable (rows : List Row) (evidence : Dict String String) : ParsedTable where
  headers := flatHeaders rows
  rows := rows.map fun row => row.setDefaults ((flatHeaders rows).map fun header => (header, ""))
  evidence := evidence
  headers_nodup := nodup_flatHeaders rows

/-- Each row is in the table, with all its cells. -/
theorem rows_flatTable (rows : List Row) (evidence : Dict String String) :
    List.Forall₂ (fun (row filled : Row) =>
        ∀ key cell, row.get? key = some cell → filled.get? key = some cell)
      rows (flatTable rows evidence).rows := by
  rw [flatTable, List.forall₂_map_right_iff, List.forall₂_same]
  exact fun row _ key cell hcell => Row.get?_setDefaults _ hcell

end Harbormaster.Inspector
