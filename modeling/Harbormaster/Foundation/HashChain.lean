import Mathlib.Data.List.Induction
import Mathlib.Data.List.Sort

/-! # Hash chains

Records that carry the digest of their predecessor and their own. A chain whose
links hold is determined by its last digest, as far as the digests of its records
have no collision. A log whose chain is extended after the record of the greatest
key, and replayed in the order of the keys, is linked when its keys ascend.
-/

namespace HashChain

/-- How records are linked: what they carry, and what they should carry. -/
structure Scheme (ρ δ : Type) where
  prev : ρ → δ
  own : ρ → δ
  digest : ρ → δ
  /-- What the first record carries for its predecessor. -/
  origin : δ

variable {ρ δ κ : Type} (scheme : Scheme ρ δ)

/-- The links hold, the first one to a given digest. -/
def LinkedFrom : δ → List ρ → Prop
  | _, [] => True
  | last, record :: rest =>
      scheme.prev record = last ∧ scheme.own record = scheme.digest record ∧
        LinkedFrom (scheme.own record) rest

def Linked (records : List ρ) : Prop := LinkedFrom scheme scheme.origin records

/-- The digest the next record is linked to. -/
def tip (records : List ρ) : δ := (records.getLast?.map scheme.own).getD scheme.origin

@[simp] theorem tip_nil : tip scheme [] = scheme.origin := rfl

@[simp] theorem tip_concat (records : List ρ) (record : ρ) :
    tip scheme (records ++ [record]) = scheme.own record := by
  simp [tip]

theorem linkedFrom_append (last : δ) (first second : List ρ) :
    LinkedFrom scheme last (first ++ second) ↔ LinkedFrom scheme last first ∧
      LinkedFrom scheme ((first.getLast?.map scheme.own).getD last) second := by
  induction first generalizing last with
  | nil => simp [LinkedFrom]
  | cons record rest ih =>
      rw [List.cons_append, LinkedFrom, LinkedFrom, ih, and_assoc, and_assoc]
      cases rest with
      | nil => rfl
      | cons next rest => simp [List.getLast?_cons]

/-- A chain grows by a record that is linked to its tip. -/
theorem linked_concat {records : List ρ} {record : ρ} :
    Linked scheme (records ++ [record]) ↔ Linked scheme records ∧
      scheme.prev record = tip scheme records ∧ scheme.own record = scheme.digest record := by
  rw [Linked, linkedFrom_append]
  simp [LinkedFrom, tip, Linked]

variable {scheme}

theorem Linked.own_eq {records : List ρ} (h : Linked scheme records) {record : ρ}
    (hmem : record ∈ records) : scheme.own record = scheme.digest record := by
  obtain ⟨before, after, rfl⟩ := List.append_of_mem hmem
  exact ((linkedFrom_append scheme _ _ _).mp h).2.2.1

/-- The predecessor of a record in a chain. -/
theorem Linked.prev_eq {before after : List ρ} {record : ρ}
    (h : Linked scheme (before ++ record :: after)) : scheme.prev record = tip scheme before :=
  ((linkedFrom_append scheme _ _ _).mp h).2.1

/-- Two chains with the same tip agree, when a digest determines what is seen of
its record and the predecessor it names. -/
theorem Linked.eq_of_tip {view : ρ → κ} {honest suspect : List ρ}
    (hhonest : Linked scheme honest) (hsuspect : Linked scheme suspect)
    (htip : tip scheme honest = tip scheme suspect)
    (horigin : ∀ record, scheme.digest record ≠ scheme.origin)
    (hcollision : ∀ record ∈ honest, ∀ other ∈ suspect,
      scheme.digest record = scheme.digest other →
        view record = view other ∧ scheme.prev record = scheme.prev other) :
    honest.map view = suspect.map view := by
  -- both chains are taken apart at their ends, where their tips agree
  induction honest using List.reverseRecOn generalizing suspect with
  | nil =>
      cases suspect using List.reverseRecOn with
      | nil => rfl
      | append_singleton suspect other =>
          rw [tip_nil, tip_concat, hsuspect.own_eq (by simp)] at htip
          exact absurd htip.symm (horigin other)
  | append_singleton honest record ih =>
      cases suspect using List.reverseRecOn with
      | nil =>
          rw [tip_nil, tip_concat, hhonest.own_eq (by simp)] at htip
          exact absurd htip (horigin record)
      | append_singleton suspect other =>
          obtain ⟨hhonest, hprev, hown⟩ := (linked_concat scheme).mp hhonest
          obtain ⟨hsuspect, hprev', hown'⟩ := (linked_concat scheme).mp hsuspect
          rw [tip_concat, tip_concat, hown, hown'] at htip
          obtain ⟨hview, hsame⟩ := hcollision record (by simp) other (by simp) htip
          have hrest := ih hhonest hsuspect (by rw [← hprev, ← hprev', hsame])
            fun record hrecord other hother => hcollision record
              (List.mem_append_left _ hrecord) other (List.mem_append_left _ hother)
          rw [List.map_append, List.map_append, hrest, List.map_singleton, List.map_singleton,
            hview]

/-! ## Chains in the order of a key -/

section Replay

variable (scheme) {K : Type} [LinearOrder K] (key : ρ → K)

/-- The records by ascending key. -/
def replay (records : List ρ) : List ρ := records.insertionSort fun r s => key r ≤ key s

/-- The record of the greatest key. -/
def latest (records : List ρ) : Option ρ :=
  (records.insertionSort fun r s => key s ≤ key r).head?

/-- A log whose records were each linked to the record of the greatest key. -/
inductive Grown : List ρ → Prop
  | empty : Grown []
  | append {records : List ρ} {record : ρ} (h : Grown records)
      (hfresh : ∀ other ∈ records, key other ≠ key record)
      (hprev : scheme.prev record = ((latest key records).map scheme.own).getD scheme.origin)
      (hown : scheme.own record = scheme.digest record) : Grown (records ++ [record])

variable {scheme key}

theorem replay_perm (records : List ρ) : (replay key records).Perm records :=
  List.perm_insertionSort _ records

theorem replay_pairwise (records : List ρ) :
    (replay key records).Pairwise fun r s => key r ≤ key s := by
  have : Std.Total fun r s : ρ => key r ≤ key s := ⟨fun r s => le_total (key r) (key s)⟩
  have : IsTrans ρ fun r s : ρ => key r ≤ key s := ⟨fun _ _ _ => le_trans⟩
  exact List.pairwise_insertionSort _ records

theorem replay_of_pairwise {records : List ρ}
    (h : records.Pairwise fun r s => key r < key s) : replay key records = records :=
  (h.imp fun hlt => hlt.le).insertionSort_eq

theorem latest_eq_none {records : List ρ} : latest key records = none ↔ records = [] := by
  rw [latest, List.head?_eq_none_iff]
  constructor
  · intro hnil
    have hperm := List.perm_insertionSort (fun r s : ρ => key s ≤ key r) records
    rw [hnil] at hperm
    exact hperm.nil_eq.symm
  · rintro rfl
    rfl

/-- The latest record is one of them, and no key exceeds its own. -/
theorem latest_spec {records : List ρ} {last : ρ} (h : latest key records = some last) :
    last ∈ records ∧ ∀ record ∈ records, key record ≤ key last := by
  have : Std.Total fun r s : ρ => key s ≤ key r := ⟨fun r s => le_total (key s) (key r)⟩
  have : IsTrans ρ fun r s : ρ => key s ≤ key r := ⟨fun _ _ _ h h' => h'.trans h⟩
  have hperm := List.perm_insertionSort (fun r s : ρ => key s ≤ key r) records
  have hsorted := List.pairwise_insertionSort (fun r s : ρ => key s ≤ key r) records
  obtain ⟨rest, hrest⟩ := List.head?_eq_some_iff.mp h
  rw [hrest] at hperm hsorted
  refine ⟨hperm.mem_iff.mp List.mem_cons_self, ?_⟩
  intro record hmem
  rcases List.mem_cons.mp (hperm.mem_iff.mpr hmem) with rfl | htail
  · exact le_rfl
  · exact (List.pairwise_cons.mp hsorted).1 record htail

/-- Of ascending records the latest is the last one. -/
theorem latest_of_pairwise {records : List ρ}
    (h : records.Pairwise fun r s => key r < key s) :
    latest key records = records.getLast? := by
  cases hlast : latest key records with
  | none =>
      rw [latest_eq_none.mp hlast]
      rfl
  | some last =>
      obtain ⟨hmem, hmax⟩ := latest_spec hlast
      obtain ⟨before, after, rfl⟩ := List.append_of_mem hmem
      cases after with
      | nil => simp
      | cons next after =>
          have hlt := (List.pairwise_cons.mp (List.pairwise_append.mp h).2.1).1 next
            List.mem_cons_self
          exact absurd (hmax next (by simp)) (not_le.mpr hlt)

/-- Keys that ascend leave the chain linked in the order of the keys. -/
theorem Grown.linked_replay {records : List ρ} (h : Grown scheme key records)
    (hascending : records.Pairwise fun r s => key r < key s) :
    Linked scheme (replay key records) := by
  rw [replay_of_pairwise hascending]
  induction h with
  | empty => trivial
  | append _ _ hprev hown ih =>
      have hold := (List.pairwise_append.mp hascending).1
      rw [latest_of_pairwise hold] at hprev
      exact (linked_concat scheme).mpr ⟨ih hold, hprev, hown⟩

theorem Grown.keys_nodup {records : List ρ} (h : Grown scheme key records) :
    (records.map key).Nodup := by
  induction h with
  | empty => exact List.nodup_nil
  | append _ hfresh _ _ ih =>
      rw [List.map_append, List.nodup_append']
      refine ⟨ih, List.nodup_singleton _, ?_⟩
      intro k hold hnew
      obtain ⟨other, hother, rfl⟩ := List.mem_map.mp hold
      exact hfresh other hother (List.mem_singleton.mp hnew)

/-- The replay is the only arrangement by ascending key. -/
theorem replay_eq {records sorted : List ρ} (hkeys : (records.map key).Nodup)
    (hperm : sorted.Perm records) (hsorted : sorted.Pairwise fun r s => key r ≤ key s) :
    replay key records = sorted := by
  apply List.Perm.eq_of_pairwise _ (replay_pairwise records) hsorted
    ((replay_perm records).trans hperm.symm)
  intro r s hr hs hle hge
  exact List.inj_on_of_nodup_map hkeys ((replay_perm records).mem_iff.mp hr)
    (hperm.mem_iff.mp hs) (le_antisymm hle hge)

/-- A record of the greatest key is replayed last. -/
theorem replay_concat {records : List ρ} {record : ρ}
    (hkeys : ((records ++ [record]).map key).Nodup)
    (h : ∀ other ∈ records, key other < key record) :
    replay key (records ++ [record]) = replay key records ++ [record] := by
  apply replay_eq hkeys ((replay_perm records).append_right _)
  apply List.pairwise_append.mpr
  refine ⟨replay_pairwise records, List.pairwise_singleton _ _, ?_⟩
  intro other hother last hlast
  rw [List.mem_singleton.mp hlast]
  exact (h other ((replay_perm records).mem_iff.mp hother)).le

/-- A record behind the greatest key is replayed before the record it is linked to,
and the link is broken. -/
theorem not_linked_of_behind {records : List ρ} {record last : ρ}
    (horigin : ∀ record, scheme.digest record ≠ scheme.origin)
    (hdistinct : ((records ++ [record]).map scheme.own).Nodup)
    (hlast : latest key records = some last) (hbehind : key record < key last)
    (hprev : scheme.prev record = scheme.own last) :
    ¬ Linked scheme (replay key (records ++ [record])) := by
  intro hlinked
  have hperm : (replay key (records ++ [record])).Perm (records ++ [record]) := replay_perm _
  have hsorted : (replay key (records ++ [record])).Pairwise fun r s => key r ≤ key s :=
    replay_pairwise _
  have hmem : last ∈ replay key (records ++ [record]) :=
    hperm.mem_iff.mpr (List.mem_append_left _ (latest_spec hlast).1)
  obtain ⟨before, after, hsplit⟩ := List.append_of_mem
    (hperm.mem_iff.mpr (List.mem_append_right records List.mem_cons_self))
  have hown := hlinked.own_eq hmem
  have hnodup := (hperm.map scheme.own).nodup_iff.mpr hdistinct
  rw [hsplit] at hlinked hsorted hmem hnodup
  rw [hlinked.prev_eq, tip] at hprev
  cases hbefore : before.getLast? with
  | none =>
      rw [hbefore] at hprev
      exact horigin last (hown.symm.trans hprev.symm)
  | some other =>
      rw [hbefore] at hprev
      have hother := List.mem_of_getLast? hbefore
      have hsame : other = last := List.inj_on_of_nodup_map hnodup
        (List.mem_append_left _ hother) hmem hprev
      have hle := (List.pairwise_append.mp hsorted).2.2 other hother record List.mem_cons_self
      rw [hsame] at hle
      exact absurd hbehind (not_lt.mpr hle)

/-- When no two records have the same digest, the replay is linked only if the
keys ascended. -/
theorem Grown.ascending {records : List ρ} (h : Grown scheme key records)
    (horigin : ∀ record, scheme.digest record ≠ scheme.origin)
    (hdistinct : (records.map scheme.own).Nodup)
    (hlinked : Linked scheme (replay key records)) :
    records.Pairwise fun r s => key r < key s := by
  induction h with
  | empty => exact .nil
  | @append records record hgrown hfresh hprev hown ih =>
      have hkeys := (hgrown.append hfresh hprev hown).keys_nodup
      by_cases hgreatest : ∀ other ∈ records, key other < key record
      · rw [replay_concat hkeys hgreatest] at hlinked
        rw [List.map_append] at hdistinct
        have hold := ih hdistinct.of_append_left ((linked_concat scheme).mp hlinked).1
        apply List.pairwise_append.mpr
        refine ⟨hold, List.pairwise_singleton _ _, ?_⟩
        intro other hother last hlast
        rw [List.mem_singleton.mp hlast]
        exact hgreatest other hother
      · -- the record is replayed before the one it was chained to
        push Not at hgreatest
        obtain ⟨other, hother, hle⟩ := hgreatest
        cases hlast : latest key records with
        | none =>
            rw [latest_eq_none.mp hlast] at hother
            cases hother
        | some last =>
            have hlt := lt_of_le_of_ne hle (hfresh other hother).symm
            rw [hlast] at hprev
            exact absurd hlinked (not_linked_of_behind horigin hdistinct hlast
              (hlt.trans_le ((latest_spec hlast).2 other hother)) hprev)

end Replay

end HashChain
