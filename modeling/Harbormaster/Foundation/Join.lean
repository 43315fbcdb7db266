import Mathlib.Data.List.Forall2
import Mathlib.Data.List.Nodup
import Mathlib.Data.List.Perm.Basic

/-! # Joining on a key

The row that a table of last values keeps for each key, and when the rows of two
lists correspond one to one along their keys.
-/

namespace Joining

variable {α β κ : Type}

/-- A list whose keys repeat has an element that a later one of its key replaces. -/
theorem exists_repeated {key : α → κ} {rows : List α} (h : ¬ (rows.map key).Nodup) :
    ∃ before row after, rows = before ++ row :: after ∧ key row ∈ after.map key := by
  induction rows with
  | nil => exact absurd List.nodup_nil h
  | cons row rest ih =>
      by_cases hmem : key row ∈ rest.map key
      · exact ⟨[], row, rest, rfl, hmem⟩
      · obtain ⟨before, row', after, rfl, hrepeated⟩ :=
          ih fun hrest => h (List.nodup_cons.mpr ⟨hmem, hrest⟩)
        exact ⟨row :: before, row', after, rfl, hrepeated⟩

/-- Lists without repetition that have the same keys correspond one to one. -/
theorem exists_matching {key : α → κ} {key' : β → κ} {rows : List α} {rows' : List β}
    (hnodup : (rows.map key).Nodup) (hnodup' : (rows'.map key').Nodup)
    (hkeys : ∀ k, k ∈ rows.map key ↔ k ∈ rows'.map key') :
    ∃ matched, rows'.Perm matched ∧ List.Forall₂ (fun a b => key a = key' b) rows matched := by
  have hperm : (rows.map key).Perm (rows'.map key') :=
    (List.perm_ext_iff_of_nodup hnodup hnodup').mpr hkeys
  have hself : List.Forall₂ (fun k b => k = key' b) (rows'.map key') rows' :=
    List.forall₂_map_left_iff.mpr (List.forall₂_same.mpr fun _ _ => rfl)
  obtain ⟨matched, hmatched, hsame⟩ := List.perm_comp_forall₂ hperm hself
  exact ⟨matched, hsame.symm, List.forall₂_map_left_iff.mp hmatched⟩

theorem exists_right {relation : α → β → Prop} {rows : List α} {rows' : List β}
    (h : List.Forall₂ relation rows rows') {row : α} (hrow : row ∈ rows) :
    ∃ row' ∈ rows', relation row row' := by
  induction h with
  | nil => exact absurd hrow List.not_mem_nil
  | cons hhead _ ih =>
      rcases List.mem_cons.mp hrow with rfl | hrow
      · exact ⟨_, List.mem_cons_self, hhead⟩
      · obtain ⟨row', hmem, hrelated⟩ := ih hrow
        exact ⟨row', List.mem_cons_of_mem _ hmem, hrelated⟩

theorem exists_left {relation : α → β → Prop} {rows : List α} {rows' : List β}
    (h : List.Forall₂ relation rows rows') {row' : β} (hrow' : row' ∈ rows') :
    ∃ row ∈ rows, relation row row' :=
  exists_right h.flip hrow'

/-! ## The last row of a key -/

section Last

variable [DecidableEq κ]

/-- Of several rows with a key, the last. -/
def last (key : α → κ) (rows : List α) (k : κ) : Option α :=
  rows.reverse.find? fun row => key row = k

variable {key : α → κ} {rows : List α} {k : κ} {row : α}

theorem last_mem (h : last key rows k = some row) : row ∈ rows ∧ key row = k :=
  ⟨List.mem_reverse.mp (List.mem_of_find?_eq_some h), by simpa using List.find?_some h⟩

theorem last_isSome : (last key rows k).isSome ↔ k ∈ rows.map key := by
  simp [last]

theorem last_append (rows rows' : List α) :
    last key (rows ++ rows') k = (last key rows' k).or (last key rows k) := by
  rw [last, List.reverse_append, List.find?_append]
  rfl

theorem last_map (change : β → α) (rows : List β) :
    last key (rows.map change) k = (last (fun row => key (change row)) rows k).map change := by
  rw [last, ← List.map_reverse, List.find?_map]
  rfl

/-- A row that a later one of its key replaces is not the last. -/
theorem last_replaced {before after : List α} (h : key row ∈ after.map key) :
    last key (before ++ row :: after) k = last key (before ++ after) k := by
  rw [← List.singleton_append, last_append, last_append, last_append]
  by_cases hkey : key row = k
  · obtain ⟨later, hlater⟩ := Option.isSome_iff_exists.mp (last_isSome.mpr h)
    rw [← hkey, hlater]
    rfl
  · have hnone : last key [row] k = none := by simp [last, hkey]
    rw [hnone, Option.or_none]

theorem last_of_nodup (hnodup : (rows.map key).Nodup) (hrow : row ∈ rows) :
    last key rows (key row) = some row := by
  have hkeys : key row ∈ rows.map key := List.mem_map_of_mem hrow
  obtain ⟨found, hfound⟩ := Option.isSome_iff_exists.mp (last_isSome.mpr hkeys)
  obtain ⟨hmem, hkey⟩ := last_mem hfound
  rw [hfound, List.inj_on_of_nodup_map hnodup hmem hrow hkey]

end Last

end Joining
