import Mathlib.Data.List.Count
import Mathlib.Data.List.Nodup

/-! # Numbered occurrences

Each element of a list with the number of equal elements before it. Elements that
are labelled by their number stay apart, unless a label is itself an element.
-/

namespace Occurrences

variable {α : Type} [DecidableEq α]

/-- The elements with the number of equal ones before each, of which those in
`seen` came first. -/
def numbered (seen : List α) : List α → List (α × Nat)
  | [] => []
  | a :: rest => (a, seen.count a) :: numbered (a :: seen) rest

@[simp] theorem length_numbered (seen elements : List α) :
    (numbered seen elements).length = elements.length := by
  induction elements generalizing seen with
  | nil => rfl
  | cons a rest ih => simp only [numbered, List.length_cons, ih]

theorem numbered_append (seen front back : List α) :
    numbered seen (front ++ back) = numbered seen front ++ numbered (front.reverse ++ seen) back := by
  induction front generalizing seen with
  | nil => rfl
  | cons a rest ih =>
      simp only [List.cons_append, numbered, ih, List.reverse_cons, List.append_assoc,
        List.nil_append]

theorem mem_numbered {seen elements : List α} {a : α} {k : Nat} :
    (a, k) ∈ numbered seen elements ↔
      seen.count a ≤ k ∧ k < seen.count a + elements.count a := by
  induction elements generalizing seen with
  | nil =>
      simp only [numbered, List.not_mem_nil, List.count_nil, false_iff]
      omega
  | cons b rest ih =>
      rw [numbered, List.mem_cons, Prod.mk.injEq, ih]
      by_cases hsame : a = b
      · subst hsame
        simp only [List.count_cons_self, true_and]
        omega
      · simp only [hsame, false_and, false_or, List.count_cons_of_ne (Ne.symm hsame)]

theorem nodup_numbered (seen elements : List α) : (numbered seen elements).Nodup := by
  induction elements generalizing seen with
  | nil => exact List.nodup_nil
  | cons a rest ih =>
      rw [numbered, List.nodup_cons]
      refine ⟨fun hmem => ?_, ih _⟩
      -- the later ones have a greater number
      have hlater := (mem_numbered.mp hmem).1
      rw [List.count_cons_self] at hlater
      omega

/-! ## Labels -/

/-- The first occurrence keeps its name, the others have a tag. -/
def label (tag : α → Nat → α) : α × Nat → α
  | (a, 0) => a
  | (a, k + 1) => tag a (k + 1)

/-- The elements, labelled by the number of equal ones before each. -/
def labelled (tag : α → Nat → α) (elements : List α) : List α :=
  (numbered [] elements).map (label tag)

/-- Elements that do not repeat keep their names. -/
theorem labelled_eq_self {tag : α → Nat → α} {elements : List α} (h : elements.Nodup) :
    labelled tag elements = elements := by
  have hnumbered : ∀ {seen elements : List α}, elements.Nodup → (∀ a ∈ elements, a ∉ seen) →
      numbered seen elements = elements.map fun a => (a, 0) := by
    intro seen elements h hnew
    induction elements generalizing seen with
    | nil => rfl
    | cons a rest ih =>
        obtain ⟨ha, hrest⟩ := List.nodup_cons.mp h
        obtain ⟨hseen, hnew⟩ := List.forall_mem_cons.mp hnew
        rw [numbered, List.count_eq_zero_of_not_mem hseen, ih hrest]
        · rfl
        · intro b hb hmem
          rcases List.mem_cons.mp hmem with rfl | hold
          · exact ha hb
          · exact hnew b hb hold
  rw [labelled, hnumbered h fun a _ => List.not_mem_nil, List.map_map]
  exact List.map_id elements

/-- No tag of a repeated element is an element. -/
def Apart (tag : α → Nat → α) (elements : List α) : Prop :=
  ∀ a k, 0 < k → k < elements.count a → tag a k ∉ elements

theorem nodup_labelled {tag : α → Nat → α}
    (htag : ∀ a b k l, tag a k = tag b l → a = b ∧ k = l) (elements : List α) :
    (labelled tag elements).Nodup ↔ Apart tag elements := by
  have hrange : ∀ {a k}, (a, k) ∈ numbered [] elements ↔ k < elements.count a := by
    intro a k
    rw [mem_numbered, List.count_nil, Nat.zero_add]
    exact and_iff_right (Nat.zero_le k)
  rw [labelled, List.nodup_map_iff_inj_on (nodup_numbered [] elements)]
  constructor
  · intro hinj a k hk hcount hmem
    have hfirst : (tag a k, 0) ∈ numbered [] elements := hrange.mpr (List.count_pos_iff.mpr hmem)
    obtain ⟨k, rfl⟩ := Nat.exists_eq_add_of_lt hk
    have hsame := hinj (a, 0 + k + 1) (hrange.mpr hcount) (tag a (0 + k + 1), 0) hfirst rfl
    cases (Prod.mk.inj hsame).2
  · rintro hapart ⟨a, k⟩ ha ⟨b, l⟩ hb hlabel
    have hcount := hrange.mp ha
    have hcount' := hrange.mp hb
    cases k with
    | zero =>
        cases l with
        | zero => exact congrArg (·, 0) hlabel
        | succ l =>
            refine absurd ?_ (hapart b (l + 1) l.succ_pos hcount')
            change a = tag b (l + 1) at hlabel
            rw [← hlabel]
            exact List.count_pos_iff.mp hcount
    | succ k =>
        cases l with
        | zero =>
            refine absurd ?_ (hapart a (k + 1) k.succ_pos hcount)
            change tag a (k + 1) = b at hlabel
            rw [hlabel]
            exact List.count_pos_iff.mp hcount'
        | succ l =>
            obtain ⟨rfl, hnumber⟩ := htag a b (k + 1) (l + 1) hlabel
            rw [hnumber]

end Occurrences
