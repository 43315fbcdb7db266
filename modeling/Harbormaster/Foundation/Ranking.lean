import Mathlib.Data.List.MinMax
import Mathlib.Data.List.Sort

/-! # The first of the best

A stable sort by falling score puts the first of the best elements in front.
Which element that is depends on the order of the list only where several are
best.
-/

/-- The first of the best. -/
theorem List.argmax_of_first {α β : Type*} [LinearOrder β] {score : α → β} {before after : List α}
    {best : α} (hbefore : ∀ a ∈ before, score a < score best)
    (hafter : ∀ a ∈ after, score a ≤ score best) :
    (before ++ best :: after).argmax score = some best := by
  induction before with
  | nil =>
      rw [List.nil_append, List.argmax_cons]
      cases hrest : after.argmax score with
      | none => rfl
      | some other =>
          exact if_neg (not_lt.mpr (hafter other (List.argmax_mem hrest)))
  | cons a before ih =>
      obtain ⟨hfirst, hbefore⟩ := List.forall_mem_cons.mp hbefore
      rw [List.cons_append, List.argmax_cons, ih hbefore]
      exact if_pos hfirst

namespace Ranking

variable {α β γ : Type} [LinearOrder γ] {score : α → γ}

/-- An element that no other one surpasses. -/
def Top (score : α → γ) (elements : List α) (element : α) : Prop :=
  element ∈ elements ∧ ∀ other ∈ elements, score other ≤ score element

theorem Top.congr {elements others : List α} {element : α}
    (h : ∀ element, element ∈ elements ↔ element ∈ others) :
    Top score elements element ↔ Top score others element := by
  unfold Top
  simp only [h]

theorem top_of_argmax {elements : List α} {element : α}
    (h : elements.argmax score = some element) : Top score elements element :=
  ⟨List.argmax_mem h, fun _ hother => List.le_of_mem_argmax hother h⟩

theorem Top.exists_argmax {elements : List α} {element : α} (h : Top score elements element) :
    ∃ best, elements.argmax score = some best := by
  refine Option.ne_none_iff_exists'.mp fun hnone => ?_
  rw [List.argmax_eq_none.mp hnone] at h
  exact List.not_mem_nil h.1

/-- Where only one element is best, it is found in every order. -/
theorem Top.argmax_eq {elements : List α} {element : α} (h : Top score elements element)
    (hunique : ∀ other, Top score elements other → other = element) :
    elements.argmax score = some element := by
  obtain ⟨best, hbest⟩ := h.exists_argmax
  rw [hbest, hunique best (top_of_argmax hbest)]

/-- One of the best is found where it stands first. -/
theorem argmax_cons_of_top {element : α} {rest : List α}
    (h : ∀ other ∈ rest, score other ≤ score element) :
    (element :: rest).argmax score = some element := by
  rw [List.argmax_cons]
  cases hbest : rest.argmax score with
  | none => rfl
  | some best => exact if_neg (not_lt.mpr (h best (List.argmax_mem hbest)))

/-- What comes later is found only where it is better than the first. -/
theorem argmax_cons_ne {first other : α} {rest : List α} (h : score other ≤ score first)
    (hne : other ≠ first) : (first :: rest).argmax score ≠ some other := by
  intro hfound
  rw [List.argmax_cons] at hfound
  cases hbest : rest.argmax score with
  | none =>
      rw [hbest] at hfound
      exact hne (Option.some.inj hfound).symm
  | some best =>
      rw [hbest] at hfound
      dsimp only at hfound
      split at hfound
      next hless =>
        obtain rfl := Option.some.inj hfound
        exact absurd h (not_le.mpr hless)
      next => exact hne (Option.some.inj hfound).symm

/-- An element is found exactly where it is better than all before it and no later one is
better. -/
theorem argmax_append_cons_iff {before after : List α} {best : α} (hnew : best ∉ before) :
    (before ++ best :: after).argmax score = some best ↔
      (∀ a ∈ before, score a < score best) ∧ ∀ a ∈ after, score a ≤ score best := by
  refine ⟨fun hbest => ?_, fun h => List.argmax_of_first h.1 h.2⟩
  induction before with
  | nil =>
      refine ⟨fun _ hmem => absurd hmem List.not_mem_nil, fun a hmem => ?_⟩
      exact (top_of_argmax hbest).2 a (List.mem_cons_of_mem best hmem)
  | cons a before ih =>
      obtain ⟨hne, hnew⟩ := not_or.mp (List.mem_cons.not.mp hnew)
      rw [List.cons_append, List.argmax_cons] at hbest
      cases hrest : (before ++ best :: after).argmax score with
      | none =>
          rw [hrest] at hbest
          exact absurd (Option.some.inj hbest).symm hne
      | some other =>
          rw [hrest] at hbest
          dsimp only at hbest
          split at hbest
          next hless =>
            obtain rfl := Option.some.inj hbest
            obtain ⟨hbefore, hafter⟩ := ih hnew hrest
            exact ⟨List.forall_mem_cons.mpr ⟨hless, hbefore⟩, hafter⟩
          next => exact absurd (Option.some.inj hbest).symm hne

theorem argmax_map (image : α → β) (score : β → γ) (elements : List α) :
    (elements.map image).argmax score = (elements.argmax fun a => score (image a)).map image := by
  induction elements with
  | nil => rfl
  | cons element rest ih =>
      rw [List.map_cons, List.argmax_cons, List.argmax_cons, ih]
      cases rest.argmax fun a => score (image a) with
      | none => rfl
      | some best =>
          dsimp only [Option.map_some]
          split <;> rfl

/-- The first element of a kind once an element is put in its place among the
others. -/
theorem find?_orderedInsert (kind : α → Bool) (element : α) {sorted : List α}
    (h : sorted.Pairwise fun a b => score b ≤ score a) :
    (sorted.orderedInsert (fun a b => score b ≤ score a) element).find? kind =
      if kind element then
        match sorted.find? kind with
        | none => some element
        | some best => if score element < score best then some best else some element
      else sorted.find? kind := by
  induction sorted with
  | nil =>
      rw [List.orderedInsert_nil, List.find?_cons]
      split <;> simp_all
  | cons first rest ih =>
      obtain ⟨hfirst, hrest⟩ := List.pairwise_cons.mp h
      rw [List.orderedInsert_cons]
      split
      next hle =>
        rw [List.find?_cons]
        split
        next hkind =>
          rw [if_pos hkind]
          cases hbest : (first :: rest).find? kind with
          | none => rfl
          | some best =>
              have hbound : score best ≤ score element := by
                rcases List.mem_cons.mp (List.mem_of_find?_eq_some hbest) with rfl | hmem
                · exact hle
                · exact (hfirst best hmem).trans hle
              exact (if_neg (not_lt.mpr hbound)).symm
        next hkind => rw [if_neg (Bool.eq_false_iff.mp hkind)]
      next hlt =>
        rw [List.find?_cons, List.find?_cons]
        split
        next hkind =>
          dsimp only
          rw [if_pos (not_le.mp hlt), ite_self]
        next hkind => exact ih hrest

/-- After a stable sort by falling score, the first element of a kind is the
first of the best of that kind. -/
theorem find?_insertionSort (kind : α → Bool) (elements : List α) :
    (elements.insertionSort fun a b => score b ≤ score a).find? kind =
      (elements.filter kind).argmax score := by
  induction elements with
  | nil => rfl
  | cons element rest ih =>
      have hsorted : (rest.insertionSort fun a b => score b ≤ score a).Pairwise
          fun a b => score b ≤ score a :=
        List.pairwise_insertionSort (fun a b : α => score b ≤ score a) rest
      rw [List.insertionSort_cons, find?_orderedInsert kind element hsorted, ih,
        List.filter_cons]
      split
      next =>
        rw [List.argmax_cons]
        cases (rest.filter kind).argmax score <;> rfl
      next => rfl

/-- The first of the best is found among fewer elements as well. -/
theorem argmax_filter {kind : α → Bool} {elements : List α} {best : α}
    (h : elements.argmax score = some best) (hkind : kind best = true) :
    (elements.filter kind).argmax score = some best := by
  have hfirst : (elements.insertionSort fun a b => score b ≤ score a).find? (fun _ => true) =
      some best := by
    rw [find?_insertionSort, List.filter_true, h]
  rw [← find?_insertionSort]
  cases hsorted : elements.insertionSort fun a b => score b ≤ score a with
  | nil =>
      rw [hsorted] at hfirst
      cases hfirst
  | cons first rest =>
      rw [hsorted] at hfirst
      obtain rfl := Option.some.inj hfirst
      exact List.find?_cons_of_pos hkind

theorem argmax_congr {score' : α → γ} {elements : List α}
    (h : ∀ element ∈ elements, score element = score' element) :
    elements.argmax score = elements.argmax score' := by
  induction elements with
  | nil => rfl
  | cons first rest ih =>
      obtain ⟨hfirst, hrest⟩ := List.forall_mem_cons.mp h
      rw [List.argmax_cons, List.argmax_cons, ih hrest]
      cases hbest : rest.argmax score' with
      | none => rfl
      | some best => simp only [hfirst, hrest best (List.argmax_mem hbest)]

end Ranking
