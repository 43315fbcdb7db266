import Mathlib.Data.List.Induction

/-! # Delivery orders

Several orders in which one set of messages may be delivered: the messages of one
place keep their order, and those of different places may come in any order. What
is settled by the first message of one place is the same in all of them.
-/

namespace Delivery

variable {α π β : Type} [DecidableEq π] (place : α → π)

/-- The messages of a place. -/
def ofPlace (deliveries : List α) (p : π) : List α := deliveries.filter fun d => place d = p

/-- Two delivery orders of the same messages. -/
def SameLog (deliveries other : List α) : Prop :=
  ∀ p, ofPlace place deliveries p = ofPlace place other p

variable {place} {deliveries other : List α}

theorem SameLog.mem_iff (h : SameLog place deliveries other) {d : α} :
    d ∈ deliveries ↔ d ∈ other := by
  have hmem : ∀ l : List α, d ∈ l ↔ d ∈ ofPlace place l (place d) := by simp [ofPlace]
  rw [hmem deliveries, hmem other, h (place d)]

/-- The first answer is the first answer of a place, if no other place answers. -/
theorem findSome?_ofPlace {f : α → Option β} {p : π}
    (hone : ∀ d ∈ deliveries, f d ≠ none → place d = p) :
    (ofPlace place deliveries p).findSome? f = deliveries.findSome? f := by
  induction deliveries with
  | nil => rfl
  | cons d rest ih =>
      obtain ⟨hd, hrest⟩ := List.forall_mem_cons.mp hone
      unfold ofPlace at ih ⊢
      rw [List.filter_cons]
      by_cases hplace : place d = p
      · rw [if_pos (decide_eq_true hplace), List.findSome?_cons, List.findSome?_cons, ih hrest]
      · have hnone : f d = none := by
          by_contra hsome
          exact hplace (hd hsome)
        rw [if_neg (by simpa using hplace), List.findSome?_cons, hnone, ih hrest]

/-- A first answer that only one place gives does not depend on the order. -/
theorem SameLog.findSome?_eq (h : SameLog place deliveries other) {f : α → Option β}
    (hone : ∀ d ∈ deliveries, ∀ d' ∈ deliveries, f d ≠ none → f d' ≠ none →
      place d = place d') :
    deliveries.findSome? f = other.findSome? f := by
  by_cases hany : ∃ d ∈ deliveries, f d ≠ none
  · obtain ⟨d, hd, hsome⟩ := hany
    rw [← findSome?_ofPlace (p := place d) fun d' hd' hsome' => hone d' hd' d hd hsome' hsome, h,
      findSome?_ofPlace fun d' hd' hsome' => hone d' (h.mem_iff.mpr hd') d hd hsome' hsome]
  · push Not at hany
    rw [List.findSome?_eq_none_iff.mpr hany, List.findSome?_eq_none_iff.mpr fun d hd =>
      hany d (h.mem_iff.mpr hd)]

/-- The messages of one place may come last. -/
theorem sameLog_last (deliveries : List α) (p : π) :
    SameLog place deliveries
      ((deliveries.filter fun d => place d ≠ p) ++ ofPlace place deliveries p) := by
  intro q
  unfold ofPlace
  rw [List.filter_append, List.filter_filter, List.filter_filter]
  by_cases hq : q = p
  · subst hq
    have hnone : deliveries.filter (fun d => decide (place d = q) && decide (place d ≠ q)) = [] := by
      simp
    rw [hnone, List.nil_append]
    simp
  · have hnone : deliveries.filter (fun d => decide (place d = q) && decide (place d = p)) = [] := by
      rw [List.filter_eq_nil_iff]
      intro d _ hboth
      simp only [Bool.and_eq_true, decide_eq_true_eq] at hboth
      exact hq (hboth.1.symm.trans hboth.2)
    rw [hnone, List.append_nil]
    apply List.filter_congr
    intro d _
    by_cases hd : place d = q
    · simp [hd, hq]
    · simp [hd]

/-- The messages that may come last are those that are the last of their place. -/
theorem exists_last_iff {f : α → Option β} {b : β} :
    (∃ other, SameLog place deliveries other ∧ (other.filterMap f).getLast? = some b) ↔
      ∃ p, ((ofPlace place deliveries p).filterMap f).getLast? = some b := by
  constructor
  · rintro ⟨other, hsame, hlast⟩
    have hplace : ∃ p, ((ofPlace place other p).filterMap f).getLast? = some b := by
      clear hsame
      induction other using List.reverseRecOn with
      | nil => cases hlast
      | append_singleton front d ih =>
          rw [List.filterMap_append] at hlast
          cases hd : f d with
          | none =>
              obtain ⟨p, hp⟩ := ih (by simpa [hd] using hlast)
              refine ⟨p, ?_⟩
              unfold ofPlace at hp ⊢
              by_cases hplace : place d = p
              · simpa [hplace, hd] using hp
              · simpa [hplace] using hp
          | some b' =>
              refine ⟨place d, ?_⟩
              unfold ofPlace
              simpa [hd] using hlast
    obtain ⟨p, hp⟩ := hplace
    exact ⟨p, by rw [hsame p]; exact hp⟩
  · rintro ⟨p, hp⟩
    refine ⟨_, sameLog_last deliveries p, ?_⟩
    rw [List.filterMap_append, List.getLast?_append, hp, Option.some_or]

/-- When every step undoes the ones before it, the last one settles the outcome. -/
theorem foldl_overwrite {σ : Type} {write : β → σ → σ} {writes : List β}
    (h : ∀ b ∈ writes, ∀ b' s, write b (write b' s) = write b s) (s : σ) :
    writes.foldl (fun s b => write b s) s = (writes.getLast?.map fun b => write b s).getD s := by
  induction writes using List.reverseRecOn with
  | nil => rfl
  | append_singleton front b ih =>
      rw [List.foldl_append, List.getLast?_concat, List.foldl_cons, List.foldl_nil,
        ih fun b' hb' => h b' (List.mem_append_left _ hb')]
      cases front.getLast? with
      | none => rfl
      | some b' => exact h b (by simp) b' s

end Delivery
