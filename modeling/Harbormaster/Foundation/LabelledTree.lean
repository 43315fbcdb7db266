import Harbormaster.Foundation.DottedPath
import Mathlib.Data.List.Nodup
import Mathlib.Tactic.Tauto

/-! # Labelled trees

A tree whose branches have labels holds values, each at the path of the labels that lead
to it. Where siblings have different plain labels, the dotted texts of the paths tell the
values apart.
-/

namespace Dotted

inductive LabelledTree (α : Type) where
  | node (value : Option α) (branches : List (String × LabelledTree α))

namespace LabelledTree

variable {α : Type}

mutual

/-- The values of a tree with their paths, in order. -/
def entries (path : List String) : LabelledTree α → List (List String × α)
  | .node value branches => value.toList.map (path, ·) ++ branchEntries path branches

def branchEntries (path : List String) :
    List (String × LabelledTree α) → List (List String × α)
  | [] => []
  | (label, tree) :: rest => tree.entries (path ++ [label]) ++ branchEntries path rest

end

mutual

/-- How many labels lead to the deepest node. -/
def height : LabelledTree α → Nat
  | .node _ branches => branchHeight branches

def branchHeight : List (String × LabelledTree α) → Nat
  | [] => 0
  | (_, tree) :: rest => max (tree.height + 1) (branchHeight rest)

end

mutual

/-- Labels are plain, and no sibling has the label of another. -/
def Sound : LabelledTree α → Prop
  | .node _ branches => SoundBranches branches

def SoundBranches : List (String × LabelledTree α) → Prop
  | [] => True
  | (label, tree) :: rest =>
      Plain label ∧ label ∉ rest.map Prod.fst ∧ tree.Sound ∧ SoundBranches rest

end

theorem soundBranches_iff {branches : List (String × LabelledTree α)} :
    SoundBranches branches ↔
      (branches.map Prod.fst).Nodup ∧ ∀ branch ∈ branches, Plain branch.1 ∧ branch.2.Sound := by
  induction branches with
  | nil => simp [SoundBranches]
  | cons branch rest ih =>
      rw [SoundBranches, ih, List.map_cons, List.nodup_cons, List.forall_mem_cons]
      tauto

theorem branchEntries_append (path : List String) (branches more : List (String × LabelledTree α)) :
    branchEntries path (branches ++ more) =
      branchEntries path branches ++ branchEntries path more := by
  induction branches with
  | nil => rfl
  | cons branch rest ih =>
      rw [List.cons_append, branchEntries, branchEntries, ih, List.append_assoc]

mutual

theorem path_of_mem_entries (tree : LabelledTree α) (h : tree.Sound) (path : List String)
    {entry : List String × α} (hmem : entry ∈ tree.entries path) :
    ∃ labels, (∀ label ∈ labels, Plain label) ∧ entry.1 = path ++ labels := by
  obtain ⟨value, branches⟩ := tree
  rw [entries, List.mem_append] at hmem
  rcases hmem with hvalue | hbranch
  · obtain ⟨value, -, rfl⟩ := List.mem_map.mp hvalue
    exact ⟨[], fun _ hlabel => absurd hlabel List.not_mem_nil, (List.append_nil path).symm⟩
  · rw [Sound] at h
    obtain ⟨label, labels, -, hplain, hpath⟩ := path_of_mem_branchEntries branches h path hbranch
    exact ⟨label :: labels, hplain, hpath⟩

theorem path_of_mem_branchEntries (branches : List (String × LabelledTree α))
    (h : SoundBranches branches) (path : List String) {entry : List String × α}
    (hmem : entry ∈ branchEntries path branches) :
    ∃ label labels, label ∈ branches.map Prod.fst ∧ (∀ part ∈ label :: labels, Plain part) ∧
      entry.1 = path ++ label :: labels := by
  cases branches with
  | nil =>
      rw [branchEntries] at hmem
      exact absurd hmem List.not_mem_nil
  | cons branch rest =>
      obtain ⟨label, tree⟩ := branch
      rw [SoundBranches] at h
      obtain ⟨hlabel, -, htree, hrest⟩ := h
      rw [branchEntries, List.mem_append] at hmem
      rcases hmem with hfirst | hlater
      · obtain ⟨labels, hplain, hpath⟩ := path_of_mem_entries tree htree _ hfirst
        refine ⟨label, labels, List.mem_cons_self, List.forall_mem_cons.mpr ⟨hlabel, hplain⟩, ?_⟩
        rw [hpath, List.append_assoc, List.singleton_append]
      · obtain ⟨other, labels, hother, hentry⟩ := path_of_mem_branchEntries rest hrest path hlater
        exact ⟨other, labels, List.mem_cons_of_mem label hother, hentry⟩

end

mutual

/-- Every value of a sound tree has a path of its own. -/
theorem nodup_paths (tree : LabelledTree α) (h : tree.Sound) (path : List String) :
    ((tree.entries path).map Prod.fst).Nodup := by
  obtain ⟨value, branches⟩ := tree
  rw [Sound] at h
  have hbranches := nodup_branchPaths branches h path
  rw [entries, List.map_append]
  cases value with
  | none => exact hbranches
  | some value =>
      refine List.nodup_cons.mpr ⟨fun hmem => ?_, hbranches⟩
      obtain ⟨entry, hentry, hpath⟩ := List.mem_map.mp hmem
      obtain ⟨label, labels, -, -, hlonger⟩ := path_of_mem_branchEntries branches h path hentry
      have hlength := congrArg List.length (hpath.symm.trans hlonger)
      simp at hlength

theorem nodup_branchPaths (branches : List (String × LabelledTree α)) (h : SoundBranches branches)
    (path : List String) : ((branchEntries path branches).map Prod.fst).Nodup := by
  cases branches with
  | nil => exact List.nodup_nil
  | cons branch rest =>
      obtain ⟨label, tree⟩ := branch
      rw [SoundBranches] at h
      obtain ⟨hlabel, hnew, htree, hrest⟩ := h
      rw [branchEntries, List.map_append, List.nodup_append]
      refine ⟨nodup_paths tree htree _, nodup_branchPaths rest hrest path, ?_⟩
      rintro first hfirst _ hlater rfl
      obtain ⟨entry, hentry, rfl⟩ := List.mem_map.mp hfirst
      obtain ⟨entry', hentry', hsame⟩ := List.mem_map.mp hlater
      obtain ⟨labels, -, hpath⟩ := path_of_mem_entries tree htree _ hentry
      obtain ⟨other, labels', hother, -, hpath'⟩ :=
        path_of_mem_branchEntries rest hrest path hentry'
      rw [hpath, hpath', List.append_assoc] at hsame
      obtain ⟨rfl, -⟩ := List.cons.inj (List.append_cancel_left hsame)
      exact hnew hother

end

/-- The dotted texts of the paths tell the values of a sound tree apart. -/
theorem nodup_dotted {tree : LabelledTree α} (h : tree.Sound) :
    ((tree.entries []).map fun entry => dotted entry.1).Nodup := by
  have hpaths := nodup_paths tree h []
  rw [List.Nodup, List.pairwise_map] at hpaths ⊢
  refine hpaths.imp_of_mem fun hfirst hsecond hne heq => hne ?_
  obtain ⟨labels, hplain, hpath⟩ := path_of_mem_entries tree h [] hfirst
  obtain ⟨labels', hplain', hpath'⟩ := path_of_mem_entries tree h [] hsecond
  rw [hpath, hpath'] at heq ⊢
  exact dotted_injective hplain hplain' heq

end LabelledTree

end Dotted
