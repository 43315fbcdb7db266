import Mathlib.Data.List.Forall2
import Mathlib.Data.List.Infix
import Mathlib.Order.Bounds.Basic
import Mathlib.Order.MinMax

/-! # The longest common subsequence

Its length, from one row of a table for each element of the first list: the row
holds the lengths for the suffixes of the second list.
-/

namespace CommonSubsequence

variable {α : Type}

/-- A number that some common subsequence has as its length, and none exceeds. -/
def Longest (first second : List α) (n : Nat) : Prop :=
  IsGreatest {n | ∃ common : List α, common.Sublist first ∧ common.Sublist second ∧
    common.length = n} n

theorem longest_nil_left (second : List α) : Longest [] second 0 := by
  refine ⟨⟨[], List.nil_sublist _, List.nil_sublist _, rfl⟩, ?_⟩
  rintro _ ⟨common, hfirst, -, rfl⟩
  rw [List.sublist_nil.mp hfirst]
  exact le_rfl

theorem longest_nil_right (first : List α) : Longest first [] 0 := by
  refine ⟨⟨[], List.nil_sublist _, List.nil_sublist _, rfl⟩, ?_⟩
  rintro _ ⟨common, -, hsecond, rfl⟩
  rw [List.sublist_nil.mp hsecond]
  exact le_rfl

/-- A common first element is matched. -/
theorem Longest.cons_cons {first second : List α} {n : Nat} (h : Longest first second n) (a : α) :
    Longest (a :: first) (a :: second) (n + 1) := by
  obtain ⟨⟨common, hfirst, hsecond, hlength⟩, hmost⟩ := h
  refine ⟨⟨a :: common, hfirst.cons_cons a, hsecond.cons_cons a, ?_⟩, ?_⟩
  · rw [List.length_cons, hlength]
  · rintro _ ⟨other, hfirst, hsecond, rfl⟩
    have htail := hmost ⟨other.tail, hfirst.tail, hsecond.tail, rfl⟩
    rw [List.length_tail] at htail
    omega

/-- Of two first elements that differ, one is left out. -/
theorem Longest.max_of_ne {first second : List α} {a b : α} {m n : Nat} (hne : a ≠ b)
    (hright : Longest (a :: first) second m) (hleft : Longest first (b :: second) n) :
    Longest (a :: first) (b :: second) (max m n) := by
  refine ⟨?_, ?_⟩
  · rcases max_choice m n with hmax | hmax
    · obtain ⟨common, hfirst, hsecond, hlength⟩ := hright.1
      exact ⟨common, hfirst, hsecond.cons b, hlength.trans hmax.symm⟩
    · obtain ⟨common, hfirst, hsecond, hlength⟩ := hleft.1
      exact ⟨common, hfirst.cons a, hsecond, hlength.trans hmax.symm⟩
  · rintro _ ⟨other, hfirst, hsecond, rfl⟩
    rcases List.sublist_cons_iff.mp hfirst with hskip | ⟨rest, rfl, _⟩
    · exact (hleft.2 ⟨other, hskip, hsecond, rfl⟩).trans (le_max_right m n)
    · rcases List.sublist_cons_iff.mp hsecond with hskip | ⟨other, hsame, _⟩
      · exact (hright.2 ⟨_, hfirst, hskip, rfl⟩).trans (le_max_left m n)
      · exact absurd (List.cons.inj hsame).1 hne

/-- The first entry of a row is the length for the whole second list. -/
theorem longest_of_row {first second : List α} {lengths : List Nat}
    (h : List.Forall₂ (Longest first) second.tails lengths) :
    Longest first second (lengths.headD 0) := by
  cases second with
  | nil =>
      cases h with
      | cons hfirst _ => exact hfirst
  | cons b rest =>
      cases h with
      | cons hfirst _ => exact hfirst

variable [DecidableEq α]

/-- The row of a list with one more element in front. -/
def extend (a : α) : List α → List Nat → List Nat
  | [], _ => [0]
  | b :: rest, row =>
      let later := extend a rest row.tail
      (if a = b then row.tail.headD 0 + 1 else max (later.headD 0) (row.headD 0)) :: later

def row : List α → List α → List Nat
  | [], second => second.tails.map fun _ => 0
  | a :: first, second => extend a second (row first second)

/-- The length of a longest common subsequence. -/
def length (first second : List α) : Nat := (row first second).headD 0

theorem extend_spec {first : List α} (a : α) {second : List α} {lengths : List Nat}
    (h : List.Forall₂ (Longest first) second.tails lengths) :
    List.Forall₂ (Longest (a :: first)) second.tails (extend a second lengths) := by
  induction second generalizing lengths with
  | nil => exact .cons (longest_nil_right _) .nil
  | cons b rest ih =>
      cases h with
      | cons hskip hprevious =>
          have hlater := ih hprevious
          refine .cons ?_ hlater
          dsimp only [List.tail_cons, List.headD_cons]
          split
          next hsame => exact hsame ▸ (longest_of_row hprevious).cons_cons a
          next hne => exact (longest_of_row hlater).max_of_ne hne hskip

/-- A row holds the lengths for the suffixes of the second list. -/
theorem row_spec (first second : List α) :
    List.Forall₂ (Longest first) second.tails (row first second) := by
  induction first with
  | nil =>
      rw [row, List.forall₂_map_right_iff, List.forall₂_same]
      exact fun suffix _ => longest_nil_left suffix
  | cons a first ih => exact extend_spec a ih

theorem length_spec (first second : List α) : Longest first second (length first second) :=
  longest_of_row (row_spec first second)

end CommonSubsequence
