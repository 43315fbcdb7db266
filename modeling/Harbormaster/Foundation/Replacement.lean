import Mathlib.Data.List.Basic

/-! # Replacing a text within a text

A replacement goes from left to right and does not read again what it has put in. Where a
pair of equal letters is replaced by another letter, no such pair is left, however long
the runs of the letter were.
-/

namespace Replacement

variable {α : Type} [DecidableEq α]

/-- Skip what was replaced, and go on behind it. -/
def replaceFrom (old new : List α) : Nat → List α → List α
  | _, [] => []
  | skip + 1, _ :: rest => replaceFrom old new skip rest
  | 0, c :: rest =>
      if old <+: c :: rest then new ++ replaceFrom old new (old.length - 1) rest
      else c :: replaceFrom old new 0 rest

/-- Replace every occurrence of a nonempty text. -/
def replaceAll (old new text : List α) : List α := replaceFrom old new 0 text

variable {old new : List α}

/-- What is not replaced stays. -/
theorem mem_replaceFrom_of_mem (hold : old ≠ []) {c : α} (hc : c ∉ old) {text : List α} {skip : Nat}
    (h : c ∈ text.drop skip) : c ∈ replaceFrom old new skip text := by
  induction text generalizing skip with
  | nil => simp at h
  | cons first rest ih =>
      cases skip with
      | succ skip => exact ih h
      | zero =>
          rw [replaceFrom]
          split
          next hprefix =>
            obtain ⟨after, hafter⟩ := hprefix
            obtain ⟨o, others, rfl⟩ := List.exists_cons_of_ne_nil hold
            obtain ⟨rfl, rfl⟩ := List.cons.inj hafter
            rw [List.drop_zero, ← hafter, List.mem_append] at h
            refine List.mem_append_right _ (ih ?_)
            simpa using h.resolve_left hc
          next =>
            rcases List.mem_cons.mp h with rfl | h
            · exact List.mem_cons_self
            · exact List.mem_cons_of_mem _ (ih h)

/-- Nothing comes from elsewhere. -/
theorem mem_of_mem_replaceFrom {c : α} {text : List α} {skip : Nat}
    (h : c ∈ replaceFrom old new skip text) : c ∈ text ∨ c ∈ new := by
  induction text generalizing skip with
  | nil => cases skip <;> cases h
  | cons first rest ih =>
      cases skip with
      | succ skip => exact (ih h).imp_left (List.mem_cons_of_mem _)
      | zero =>
          rw [replaceFrom] at h
          split at h
          next =>
            rcases List.mem_append.mp h with h | h
            · exact Or.inr h
            · exact (ih h).imp_left (List.mem_cons_of_mem _)
          next =>
            rcases List.mem_cons.mp h with rfl | h
            · exact Or.inl List.mem_cons_self
            · exact (ih h).imp_left (List.mem_cons_of_mem _)

section Pairs

variable {c other : α}

/-- A text begins with the letter only if it did so before. -/
theorem head_replaceAll (hother : other ≠ c) {text : List α}
    (h : (replaceAll [c, c] [other] text).head? = some c) : text.head? = some c := by
  cases text with
  | nil => exact h
  | cons first rest =>
      rw [replaceAll, replaceFrom] at h
      split at h
      next => exact absurd (Option.some.inj h) hother
      next => exact h

omit [DecidableEq α] in
/-- A pair of letters is behind the part that has no such letter. -/
theorem pair_of_append {lead text : List α} (hlead : c ∉ lead) (h : [c, c] <:+: lead ++ text) :
    [c, c] <:+: text := by
  induction lead with
  | nil => exact h
  | cons first rest ih =>
      rw [List.cons_append, List.infix_cons_iff, List.cons_prefix_cons] at h
      rcases h with ⟨rfl, -⟩ | h
      · exact absurd List.mem_cons_self hlead
      · exact ih (List.not_mem_of_not_mem_cons hlead) h

/-- No pair is left. -/
theorem no_pair_replaceAll (hother : other ≠ c) (text : List α) :
    ¬ [c, c] <:+: replaceAll [c, c] [other] text := by
  -- a pair is replaced with what stands behind it, so the length of the text decreases
  induction hlength : text.length using Nat.strongRecOn generalizing text with
  | ind length ih =>
      cases text with
      | nil => simp [replaceAll, replaceFrom]
      | cons first rest =>
          rw [replaceAll, replaceFrom]
          split
          next hprefix =>
            obtain ⟨after, hafter⟩ := hprefix
            obtain ⟨rfl, hrest⟩ := List.cons.inj hafter
            rw [← hrest] at hlength ⊢
            have hafter := ih after.length (by simp at hlength; omega) after rfl
            change ¬ [c, c] <:+: other :: replaceAll [c, c] [other] after
            rw [List.infix_cons_iff, List.cons_prefix_cons]
            rintro (⟨rfl, -⟩ | hinfix)
            · exact hother rfl
            · exact hafter hinfix
          next hprefix =>
            have hrest := ih rest.length (by simp at hlength; omega) rest rfl
            change ¬ [c, c] <:+: first :: replaceAll [c, c] [other] rest
            rw [List.infix_cons_iff, List.cons_prefix_cons]
            rintro (⟨rfl, hnext⟩ | hinfix)
            · apply hprefix
              obtain ⟨after, hafter⟩ := hnext
              have hhead : rest.head? = some c := head_replaceAll hother (by rw [← hafter]; rfl)
              obtain ⟨after, rfl⟩ := List.head?_eq_some_iff.mp hhead
              exact ⟨after, rfl⟩
            · exact hrest hinfix

end Pairs

end Replacement
