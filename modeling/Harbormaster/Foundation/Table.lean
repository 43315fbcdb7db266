import Mathlib.Data.List.AList

/-! # Keyed tables

A table holds at most one row for each key. `upsert` is the statement
`INSERT ... ON CONFLICT (key) DO UPDATE`, whose merge of the stored row with the
proposed one is a parameter; `modify` is an `UPDATE` of the row of one key; `select`
returns the rows that satisfy a condition.
-/

namespace Keyed

/-- Rows indexed by a primary key. -/
abbrev Table (κ ρ : Type) := AList (fun _ : κ => ρ)

namespace Table

variable {κ ρ : Type} [DecidableEq κ]

/-- Insert a row, or merge it into the row that holds the key already. -/
def upsert (table : Table κ ρ) (merge : ρ → ρ → ρ) (key : κ) (proposed : ρ) : Table κ ρ :=
  table.insert key
    (match table.lookup key with
      | none => proposed
      | some stored => merge stored proposed)

theorem lookup_upsert_self (table : Table κ ρ) (merge : ρ → ρ → ρ) (key : κ) (proposed : ρ) :
    (table.upsert merge key proposed).lookup key =
      some (match table.lookup key with
        | none => proposed
        | some stored => merge stored proposed) :=
  AList.lookup_insert table

theorem lookup_upsert_of_ne (table : Table κ ρ) (merge : ρ → ρ → ρ) {key other : κ}
    (proposed : ρ) (hne : other ≠ key) :
    (table.upsert merge key proposed).lookup other = table.lookup other :=
  AList.lookup_insert_ne hne

/-- Change the row of a key, if there is one. -/
def modify (table : Table κ ρ) (key : κ) (change : ρ → ρ) : Table κ ρ :=
  match table.lookup key with
  | none => table
  | some row => table.insert key (change row)

theorem lookup_modify_self (table : Table κ ρ) (key : κ) (change : ρ → ρ) :
    (table.modify key change).lookup key = (table.lookup key).map change := by
  unfold modify
  cases hrow : table.lookup key with
  | none => exact hrow
  | some row => exact AList.lookup_insert table

theorem lookup_modify_of_ne (table : Table κ ρ) {key other : κ} (change : ρ → ρ)
    (hne : other ≠ key) : (table.modify key change).lookup other = table.lookup other := by
  unfold modify
  split
  · rfl
  · exact AList.lookup_insert_ne hne

/-- The rows satisfying a condition, in table order. -/
def select (table : Table κ ρ) (condition : κ → ρ → Bool) : List (κ × ρ) :=
  (table.entries.filter fun entry => condition entry.1 entry.2).map fun entry =>
    (entry.1, entry.2)

theorem mem_select (table : Table κ ρ) (condition : κ → ρ → Bool) (key : κ) (row : ρ) :
    (key, row) ∈ table.select condition ↔
      table.lookup key = some row ∧ condition key row = true := by
  have hentry : (⟨key, row⟩ : (_ : κ) × ρ) ∈ table.entries ↔ table.lookup key = some row :=
    AList.mem_lookup_iff.symm
  rw [← hentry]
  simp only [select, List.mem_map, List.mem_filter, Prod.mk.injEq]
  constructor
  · rintro ⟨⟨key', row'⟩, ⟨hmem, hcond⟩, rfl, rfl⟩
    exact ⟨hmem, hcond⟩
  · rintro ⟨hmem, hcond⟩
    exact ⟨⟨key, row⟩, ⟨hmem, hcond⟩, rfl, rfl⟩

omit [DecidableEq κ] in
/-- A selection names every key at most once. -/
theorem select_keys_nodup (table : Table κ ρ) (condition : κ → ρ → Bool) :
    ((table.select condition).map Prod.fst).Nodup := by
  have hsub : List.Sublist ((table.select condition).map Prod.fst) table.keys := by
    rw [select, List.map_map]
    exact List.filter_sublist.map Sigma.fst
  exact table.keys_nodup.sublist hsub

/-- The rows whose key satisfies a condition. -/
def restrict (table : Table κ ρ) (condition : κ → Bool) : Table κ ρ :=
  ⟨table.entries.filter fun entry => condition entry.1,
    table.nodupKeys.sublist List.filter_sublist⟩

theorem lookup_restrict (table : Table κ ρ) (condition : κ → Bool) (key : κ) :
    (table.restrict condition).lookup key =
      if condition key = true then table.lookup key else none := by
  apply Option.ext
  intro row
  have hentry : ∀ table : Table κ ρ,
      table.lookup key = some row ↔ (⟨key, row⟩ : (_ : κ) × ρ) ∈ table.entries :=
    fun table => AList.mem_lookup_iff
  rw [hentry, restrict, List.mem_filter]
  split
  next hkey => rw [hentry]; exact and_iff_left hkey
  next hkey =>
    constructor
    · exact fun h => absurd h.2 hkey
    · intro h
      cases h

end Table

end Keyed
