import Harbormaster.Foundation.Table

/-! # Tables that grow, and answers that are given once

Operations that only ever add rows, or change them in ways that a relation allows, keep
everything a table has shown. An answer that reports the first write of a place is given
at most once, and what it reported stays.
-/

namespace Keyed.Table

variable {κ ρ τ : Type} [DecidableEq κ]

/-- No row is lost, and each has become one that it may become. -/
def Grows (may : ρ → ρ → Prop) (before after : Table κ ρ) : Prop :=
  ∀ key row, before.lookup key = some row → ∃ row', after.lookup key = some row' ∧ may row row'

section Growth

variable {may : ρ → ρ → Prop} {before middle after table : Table κ ρ}

theorem grows_refl (hrefl : ∀ row, may row row) (table : Table κ ρ) : Grows may table table :=
  fun _ row hrow => ⟨row, hrow, hrefl row⟩

theorem Grows.trans (htrans : ∀ row row' row'', may row row' → may row' row'' → may row row'')
    (h : Grows may before middle) (hnext : Grows may middle after) : Grows may before after := by
  intro key row hrow
  obtain ⟨row', hrow', hmay⟩ := h key row hrow
  obtain ⟨row'', hrow'', hmay'⟩ := hnext key row' hrow'
  exact ⟨row'', hrow'', htrans row row' row'' hmay hmay'⟩

/-- A proposed row replaces no stored one. -/
theorem grows_upsert (hrefl : ∀ row, may row row) (table : Table κ ρ) (key : κ) (proposed : ρ) :
    Grows may table (table.upsert (fun stored _ => stored) key proposed) := by
  intro other row hrow
  refine ⟨row, ?_, hrefl row⟩
  by_cases hother : other = key
  · rw [hother] at hrow ⊢
    rw [lookup_upsert_self, hrow]
  · rw [lookup_upsert_of_ne _ _ _ hother, hrow]

theorem grows_modify (hrefl : ∀ row, may row row) {change : ρ → ρ}
    (hchange : ∀ row, may row (change row)) (table : Table κ ρ) (key : κ) :
    Grows may table (table.modify key change) := by
  intro other row hrow
  by_cases hother : other = key
  · rw [hother] at hrow ⊢
    exact ⟨change row, by rw [lookup_modify_self, hrow, Option.map_some], hchange row⟩
  · exact ⟨row, by rw [lookup_modify_of_ne _ _ hother, hrow], hrefl row⟩

end Growth

/-! ## The rows of a table as another one shows them -/

omit [DecidableEq κ] in
theorem nodupKeys_map (f : ρ → τ) (table : Table κ ρ) :
    (table.entries.map fun entry => (⟨entry.1, f entry.2⟩ : (_ : κ) × τ)).NodupKeys := by
  unfold List.NodupKeys List.keys
  rw [List.map_map]
  exact table.nodupKeys

def mapRows (f : ρ → τ) (table : Table κ ρ) : Table κ τ :=
  ⟨table.entries.map fun entry => ⟨entry.1, f entry.2⟩, nodupKeys_map f table⟩

theorem lookup_mapRows (f : ρ → τ) (table : Table κ ρ) (key : κ) :
    (table.mapRows f).lookup key = (table.lookup key).map f :=
  List.dlookup_map₂ (f := fun _ => f) key

/-! ## Counting -/

theorem mem_keys_select {table : Table κ ρ} {condition : κ → ρ → Bool} {key : κ} :
    key ∈ (table.select condition).map Prod.fst ↔
      (table.lookup key).any (condition key) = true := by
  rw [List.mem_map, Option.any_eq_true]
  constructor
  · rintro ⟨⟨key, row⟩, hrow, rfl⟩
    exact ⟨row, (mem_select _ _ _ _).mp hrow⟩
  · rintro ⟨row, hrow⟩
    exact ⟨(key, row), (mem_select _ _ _ _).mpr hrow, rfl⟩

/-- As many rows satisfy a condition in tables that agree about it. -/
theorem length_select_congr {table : Table κ ρ} {other : Table κ τ} {condition : κ → ρ → Bool}
    {condition' : κ → τ → Bool}
    (h : ∀ key, (table.lookup key).any (condition key) = (other.lookup key).any (condition' key)) :
    (table.select condition).length = (other.select condition').length := by
  have hperm := (List.perm_ext_iff_of_nodup (select_keys_nodup table condition)
    (select_keys_nodup other condition')).mpr fun key => by
      rw [mem_keys_select, mem_keys_select, h]
  simpa only [List.length_map] using hperm.length_eq

theorem length_select_eq_zero {table : Table κ ρ} {condition : κ → ρ → Bool} :
    (table.select condition).length = 0 ↔
      ∀ key row, table.lookup key = some row → condition key row = false := by
  rw [List.length_eq_zero_iff, List.eq_nil_iff_forall_not_mem]
  constructor
  · intro h key row hrow
    by_contra hcondition
    rw [Bool.not_eq_false] at hcondition
    exact h (key, row) ((mem_select _ _ _ _).mpr ⟨hrow, hcondition⟩)
  · rintro h ⟨key, row⟩ hmem
    obtain ⟨hrow, hcondition⟩ := (mem_select _ _ _ _).mp hmem
    rw [h key row hrow] at hcondition
    cases hcondition

end Keyed.Table

namespace Settlement

variable {σ α β : Type}

/-- The answers of a run. -/
def answers (step : σ → α → σ) (tells : σ → α → Option β) : σ → List α → List β
  | _, [] => []
  | s, a :: rest => (tells s a).toList ++ answers step tells (step s a) rest

/-- Once a place is written it stays, and who is told so has written it. -/
structure Settles (step : σ → α → σ) (place : σ → Option β) (tells : σ → α → Option β) : Prop where
  keeps : ∀ s a b, place s = some b → place (step s a) = some b
  told : ∀ s a b, tells s a = some b → place s = none ∧ place (step s a) = some b

variable {step : σ → α → σ} {place : σ → Option β} {tells : σ → α → Option β}

theorem Settles.keeps_run (h : Settles step place tells) {s : σ} {b : β}
    (hwritten : place s = some b)
    (actions : List α) : place (actions.foldl step s) = some b := by
  induction actions generalizing s with
  | nil => exact hwritten
  | cons a rest ih => exact ih (h.keeps s a b hwritten)

/-- Nobody is told so after it was written. -/
theorem Settles.answers_of_written (h : Settles step place tells) {s : σ} {b : β}
    (hwritten : place s = some b) (actions : List α) : answers step tells s actions = [] := by
  induction actions generalizing s with
  | nil => rfl
  | cons a rest ih =>
      have hsilent : tells s a = none := by
        by_contra htells
        obtain ⟨told, htold⟩ := Option.ne_none_iff_exists'.mp htells
        rw [(h.told s a told htold).1] at hwritten
        cases hwritten
      rw [answers, hsilent, ih (h.keeps s a b hwritten)]
      rfl

/-- At most one is told so, and what was reported stays. -/
theorem Settles.answers_once (h : Settles step place tells) (s : σ) (actions : List α) :
    answers step tells s actions = [] ∨
      ∃ b, answers step tells s actions = [b] ∧ place (actions.foldl step s) = some b := by
  induction actions generalizing s with
  | nil => exact Or.inl rfl
  | cons a rest ih =>
      rw [answers, List.foldl_cons]
      cases htells : tells s a with
      | none => exact ih (step s a)
      | some b =>
          have hwritten := (h.told s a b htells).2
          right
          refine ⟨b, ?_, h.keeps_run hwritten rest⟩
          rw [h.answers_of_written hwritten]
          rfl

end Settlement
