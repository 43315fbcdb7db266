import Harbormaster.Foundation.Offers
import Harbormaster.Inspector.SurplusPrices

/-! # The stages as rounds of offers

Each stage of the ladder offers the columns without a field one that is free, in the order
of the columns. What it makes of the fields is a round of offers to the headers; the
evidence and the confidence have no part in it.
-/

namespace Harbormaster.Inspector

open Ordered Ranking Offers

variable {runtime : Runtime}

/-! ## One stage -/

/-- No field is the empty text. -/
def Named (mappings : List Mapping) : Prop := ∀ m ∈ mappings, m.canonicalField ≠ some ""

/-- A change of unresolved columns that gives them what they are offered. -/
structure Gives (change : List String → Mapping → Mapping) (offer : Offer String String) :
    Prop where
  source : ∀ taken m, (change taken m).sourceField = m.sourceField
  field : ∀ taken m, m.canonicalField = none →
    (change taken m).canonicalField = offer taken m.sourceField
  nonempty : ∀ taken header, offer taken header ≠ some ""

theorem claimed_eq_taken {mappings : List Mapping}
    (hnodup : (mappings.map Mapping.sourceField).Nodup) (hnamed : Named mappings) :
    claimed mappings = taken (mappings.map Mapping.sourceField) (fieldOf mappings) := by
  unfold claimed taken
  rw [List.filterMap_map]
  refine List.filterMap_congr fun m hm => ?_
  rw [Function.comp_apply, fieldOf_of_mem hnodup hm]
  cases hfield : m.canonicalField with
  | none => rfl
  | some field => exact truthy_of_ne fun hempty => hnamed m hm (hempty ▸ hfield)

theorem fieldOf_of_not_mem {mappings : List Mapping} {header : String}
    (h : header ∉ mappings.map Mapping.sourceField) : fieldOf mappings header = none := by
  have hnone : (mappings.find? fun m => m.sourceField = header) = none := by
    refine List.find?_eq_none.mpr fun m hm hsource => h ?_
    rw [← of_decide_eq_true hsource]
    exact List.mem_map_of_mem hm
  rw [fieldOf, hnone, Option.bind_none]

/-- A column has no part in the fields of the others. -/
theorem fieldOf_append_cons {settled rest : List Mapping} {m : Mapping} {header : String}
    (h : header ≠ m.sourceField) :
    fieldOf (settled ++ m :: rest) header = fieldOf (settled ++ rest) header := by
  have hskip : (m :: rest).find? (fun m => m.sourceField = header) =
      rest.find? fun m => m.sourceField = header :=
    List.find?_cons_of_neg (by simpa using h.symm)
  rw [fieldOf, fieldOf, List.find?_append, List.find?_append, hskip]

section Stage

variable {change : List String → Mapping → Mapping} {offer : Offer String String}
  {settled rest mappings : List Mapping} {m : Mapping}

/-- The turn of one column. -/
theorem Gives.turn_eq (h : Gives change offer)
    (hnodup : ((settled ++ m :: rest).map Mapping.sourceField).Nodup)
    (hnamed : Named (settled ++ m :: rest)) :
    fieldOf (settled ++ (if m.canonicalField = none then
        change (claimed (settled ++ m :: rest)) m else m) :: rest) =
      turn ((settled ++ m :: rest).map Mapping.sourceField) offer
        (fieldOf (settled ++ m :: rest)) m.sourceField := by
  have hmem : m ∈ settled ++ m :: rest := List.mem_append_right _ List.mem_cons_self
  have hself := fieldOf_of_mem hnodup hmem
  split
  next hnone =>
    rw [turn_of_none (hself.trans hnone), ← claimed_eq_taken hnodup hnamed, ← h.field _ m hnone]
    generalize htaken : claimed (settled ++ m :: rest) = taken
    have hsource := h.source taken m
    have hsources : (settled ++ change taken m :: rest).map Mapping.sourceField =
        (settled ++ m :: rest).map Mapping.sourceField := by
      rw [List.map_append, List.map_append, List.map_cons, List.map_cons, hsource]
    funext header
    by_cases hheader : header = m.sourceField
    · subst hheader
      rw [Function.update_self, ← hsource]
      exact fieldOf_of_mem (hsources ▸ hnodup) (List.mem_append_right _ List.mem_cons_self)
    · rw [Function.update_of_ne hheader, fieldOf_append_cons hheader,
        fieldOf_append_cons (hsource ▸ hheader)]
  next hsome => rw [turn_of_ne_none (by rw [hself]; exact hsome)]

/-- A stage of the ladder is a round of offers to the headers. -/
theorem Gives.settleUnresolved_spec (h : Gives change offer)
    (hnodup : ((settled ++ rest).map Mapping.sourceField).Nodup)
    (hnamed : Named (settled ++ rest)) :
    (settleUnresolved change settled rest).map Mapping.sourceField =
        (settled ++ rest).map Mapping.sourceField ∧
      Named (settleUnresolved change settled rest) ∧
      fieldOf (settleUnresolved change settled rest) =
        pass ((settled ++ rest).map Mapping.sourceField) offer (rest.map Mapping.sourceField)
          (fieldOf (settled ++ rest)) := by
  induction rest generalizing settled with
  | nil =>
      rw [List.append_nil] at hnodup hnamed ⊢
      exact ⟨rfl, hnamed, rfl⟩
  | cons m rest ih =>
      have hturn := h.turn_eq hnodup hnamed
      rw [settleUnresolved]
      generalize hafter : (if m.canonicalField = none then
        change (claimed (settled ++ m :: rest)) m else m) = after at hturn ⊢
      have hsource : after.sourceField = m.sourceField := by
        rw [← hafter]
        split
        next => exact h.source _ m
        next => rfl
      have hsources : (settled ++ [after] ++ rest).map Mapping.sourceField =
          (settled ++ m :: rest).map Mapping.sourceField := by
        rw [← List.append_cons, List.map_append, List.map_append, List.map_cons, List.map_cons,
          hsource]
      have hnamedAfter : Named (settled ++ [after] ++ rest) := by
        intro other hother
        rw [← List.append_cons] at hother
        rcases List.mem_append.mp hother with hbefore | hlater
        · exact hnamed other (List.mem_append_left _ hbefore)
        · rcases List.mem_cons.mp hlater with rfl | hrest
          · rw [← hafter]
            split
            next hnone =>
              rw [h.field _ m hnone]
              exact h.nonempty _ _
            next => exact hnamed m (List.mem_append_right _ List.mem_cons_self)
          · exact hnamed other (List.mem_append_right _ (List.mem_cons_of_mem _ hrest))
      obtain ⟨hsourcesEnd, hnamedEnd, hend⟩ := ih (hsources ▸ hnodup) hnamedAfter
      refine ⟨hsourcesEnd.trans hsources, hnamedEnd, ?_⟩
      rw [hend, hsources, ← List.append_cons, hturn]
      rfl

/-- What a stage makes of a table. -/
theorem Gives.stage (h : Gives change offer)
    (hnodup : (mappings.map Mapping.sourceField).Nodup) (hnamed : Named mappings) :
    (settleUnresolved change [] mappings).map Mapping.sourceField =
        mappings.map Mapping.sourceField ∧
      Named (settleUnresolved change [] mappings) ∧
      fieldOf (settleUnresolved change [] mappings) =
        pass (mappings.map Mapping.sourceField) offer (mappings.map Mapping.sourceField)
          (fieldOf mappings) :=
  @Gives.settleUnresolved_spec change offer [] mappings h hnodup hnamed

end Stage

/-! ## What the stages offer -/

/-- What Tier 2 offers with the fuzzy matcher alone. -/
def fuzzyOffer (runtime : Runtime) : Offer String String := fun taken header =>
  (fuzzyScorer.tryMatch runtime header taken).canonicalField

theorem tryMatch_of_empty {header : String} (h : normalizeHeader runtime header = "")
    (taken : List String) : fuzzyOffer runtime taken header = none := by
  have hfuzzy : fuzzyScorer.fuzzy runtime header taken = (none, 0) := if_pos h
  have hsemantic : fuzzyScorer.semantic header taken = (none, 0) := rfl
  rw [fuzzyOffer, Scorer.tryMatch, hfuzzy, hsemantic]
  rfl

theorem fuzzyOffer_eq_some {taken : List String} {header field : String} :
    fuzzyOffer runtime taken header = some field ↔ normalizeHeader runtime header ≠ "" ∧
      ∃ name, closestAlias (normalizeHeader runtime header) taken = some (name, field) ∧
        leastSimilarity ≤ tokenSetRatio (normalizeHeader runtime header) name / 100 := by
  by_cases hempty : normalizeHeader runtime header = ""
  · rw [tryMatch_of_empty hempty]
    simp [hempty]
  · rw [and_iff_right hempty]
    exact tryMatch_eq_some hempty

theorem free_fuzzyOffer : Free (fuzzyOffer runtime) := fun _ _ _ h => fuzzyScorer.tryMatch_free h

theorem closestAlias_spec {normalized : String} {taken : List String} {best : String × String}
    (h : closestAlias normalized taken = some best) : best ∈ aliasCorpus ∧ best.2 ∉ taken ∧
      ∀ candidate ∈ aliasCorpus, candidate.2 ∉ taken →
        tokenSetRatio normalized candidate.1 ≤ tokenSetRatio normalized best.1 := by
  unfold closestAlias at h
  obtain ⟨hmem, hbest⟩ := top_of_argmax h
  obtain ⟨hcorpus, hfree⟩ := List.mem_filter.mp hmem
  exact ⟨hcorpus, of_decide_eq_true hfree, fun candidate hcandidate hother =>
    hbest candidate (List.mem_filter.mpr ⟨hcandidate, decide_eq_true hother⟩)⟩

theorem exists_closestAlias (normalized : String) {taken : List String}
    {candidate : String × String} (hmem : candidate ∈ aliasCorpus) (hfree : candidate.2 ∉ taken) :
    ∃ best, closestAlias normalized taken = some best := by
  refine Option.ne_none_iff_exists'.mp fun hnone => ?_
  unfold closestAlias at hnone
  rw [List.argmax_eq_none] at hnone
  exact List.ne_nil_of_mem (List.mem_filter.mpr ⟨hmem, decide_eq_true hfree⟩) hnone

/-- The closest alias is so among fewer ones, as long as its field is free. -/
theorem closestAlias_of_subset {before after : List String} {normalized : String}
    {candidate : String × String} (hsubset : before ⊆ after)
    (h : closestAlias normalized before = some candidate) (hfree : candidate.2 ∉ after) :
    closestAlias normalized after = some candidate := by
  have hfewer : (aliasCorpus.filter fun candidate => candidate.2 ∉ after) =
      (aliasCorpus.filter fun candidate => candidate.2 ∉ before).filter fun candidate =>
        candidate.2 ∉ after := by
    rw [List.filter_filter]
    refine List.filter_congr fun candidate _ => ?_
    by_cases hmem : candidate.2 ∈ after
    · simp [hmem]
    · have hbefore : candidate.2 ∉ before := fun hbefore => hmem (hsubset hbefore)
      simp [hmem, hbefore]
  unfold closestAlias
  rw [hfewer]
  exact argmax_filter h (decide_eq_true hfree)

theorem stable_fuzzyOffer : Stable (fuzzyOffer runtime) := by
  intro before after header hsubset hkept
  refine Option.ext fun field => ?_
  constructor
  · intro hafter
    obtain ⟨hne, name, hclosest, hnear⟩ := fuzzyOffer_eq_some.mp hafter
    obtain ⟨hmem, hfree, -⟩ := closestAlias_spec hclosest
    have hcandidate : field ∉ before := fun hbefore => hfree (hsubset hbefore)
    -- the closest alias of all is at least as near, and is offered again
    obtain ⟨⟨name', field'⟩, hbest⟩ :=
      exists_closestAlias (normalizeHeader runtime header) hmem hcandidate
    have hle := (closestAlias_spec hbest).2.2 _ hmem hcandidate
    have hoffer : fuzzyOffer runtime before header = some field' :=
      fuzzyOffer_eq_some.mpr ⟨hne, name', hbest,
        hnear.trans (div_le_div_of_nonneg_right hle (by norm_num))⟩
    have hagain := closestAlias_of_subset hsubset hbest (hkept field' hoffer)
    rw [hclosest] at hagain
    cases hagain
    exact hoffer
  · intro hbefore
    obtain ⟨hne, name, hclosest, hnear⟩ := fuzzyOffer_eq_some.mp hbefore
    exact fuzzyOffer_eq_some.mpr
      ⟨hne, name, closestAlias_of_subset hsubset hclosest (hkept field hbefore), hnear⟩

theorem gives_applyTier2 : Gives (applyTier2 runtime fuzzyScorer) (fuzzyOffer runtime) where
  source := (fair_applyTier2 fuzzyScorer).source
  field taken m hnone := by
    unfold applyTier2 fuzzyOffer
    dsimp only
    split
    next hdeclined => exact hnone.trans hdeclined.symm
    next field hfield => exact hfield.symm
  nonempty taken header h := by
    obtain ⟨-, name, hclosest, -⟩ := fuzzyOffer_eq_some.mp h
    have hfields : ∀ candidate ∈ aliasCorpus, candidate.2 ≠ "" := by decide +kernel
    exact hfields _ (closestAlias_spec hclosest).1 rfl

/-- The field that is remembered of a header. -/
def learnedField (learned : Dict String String) (header : String) : Option String :=
  truthy (learned.get? header)

theorem gives_applyLearned (learned : Dict String String) :
    Gives (applyLearned learned) (recalled (learnedField learned)) where
  source := (fair_applyLearned learned).source
  field taken m hnone := by
    unfold applyLearned
    rw [← learnedField]
    cases hlearned : learnedField learned m.sourceField with
    | none =>
        dsimp only
        rw [recalled_of_none hlearned, hnone]
    | some candidate =>
        dsimp only
        by_cases hmem : candidate ∈ taken
        · rw [recalled_of_mem hlearned hmem, if_neg (not_not.mpr hmem), hnone]
        · rw [recalled_of_not_mem hlearned hmem, if_pos hmem]
  nonempty taken header h := by
    have hvalue := (Option.filter_eq_some_iff.mp h).1
    exact (truthy_eq_some.mp hvalue).2 rfl

/-- The field that an answer names. -/
def answered (answers : Dict String AdjudicatedField) (header : String) : Option String :=
  (answers.get? header).bind AdjudicatedField.canonicalField

theorem gives_applyTier3 (model : String) {answers : Dict String AdjudicatedField}
    (hnamed : ∀ header, answered answers header ≠ some "") :
    Gives (applyTier3 model answers) (recalled (answered answers)) where
  source := (fair_applyTier3 model answers).source
  field taken m hnone := by
    unfold applyTier3
    cases hanswer : answers.get? m.sourceField with
    | none =>
        have hnothing : answered answers m.sourceField = none := by rw [answered, hanswer]; rfl
        rw [recalled_of_none hnothing]
        exact hnone
    | some answer =>
        have hanswered : answered answers m.sourceField = answer.canonicalField := by
          rw [answered, hanswer, Option.bind_some]
        dsimp only
        cases hfield : answer.canonicalField with
        | none =>
            rw [recalled_of_none (hanswered.trans hfield)]
            exact hnone
        | some field =>
            dsimp only
            by_cases hmem : field ∈ taken
            · rw [recalled_of_mem (hanswered.trans hfield) hmem, if_pos hmem]
              exact hnone
            · rw [recalled_of_not_mem (hanswered.trans hfield) hmem, if_neg hmem]
  nonempty taken header h := hnamed header (Option.filter_eq_some_iff.mp h).1

/-! ## What is learned -/

theorem tier_of_applyTier2 {taken : List String} {m : Mapping} (hnone : m.canonicalField = none)
    (h : (applyTier2 runtime fuzzyScorer taken m).canonicalField ≠ none) :
    (applyTier2 runtime fuzzyScorer taken m).tier = .tierLocal := by
  unfold applyTier2 at h ⊢
  dsimp only at h ⊢
  split at h
  next => exact absurd hnone h
  next => rfl

theorem tier_of_applyTier3 {model : String} {answers : Dict String AdjudicatedField}
    {taken : List String} {m : Mapping} (hnone : m.canonicalField = none)
    (h : (applyTier3 model answers taken m).canonicalField ≠ none) :
    (applyTier3 model answers taken m).tier = .tierLlm := by
  unfold applyTier3 at h ⊢
  split at h
  next => exact absurd hnone h
  next =>
    split at h
    next => exact absurd hnone h
    next =>
      split at h
      next => exact absurd hnone h
      next hfree => rw [if_neg hfree]

/-- What is remembered of a column. -/
theorem learnedField_of_mem {mappings : List Mapping} {m : Mapping}
    (hnodup : (mappings.map Mapping.sourceField).Nodup) (hm : m ∈ mappings) :
    learnedField (.ofPairs (learnedFrom mappings)) m.sourceField =
      if m.tier = .tierLlm then truthy m.canonicalField else none := by
  have hlearned : ∀ field, (m.sourceField, field) ∈ learnedFrom mappings ↔
      m.tier = .tierLlm ∧ truthy m.canonicalField = some field := by
    intro field
    unfold learnedFrom
    rw [List.mem_filterMap]
    constructor
    · rintro ⟨other, hother, hpair⟩
      split at hpair
      next htier =>
        obtain ⟨_, hfield, heq⟩ := Option.map_eq_some_iff.mp hpair
        obtain ⟨hsource, rfl⟩ := Prod.mk.inj heq
        rw [← List.inj_on_of_nodup_map hnodup hother hm hsource]
        exact ⟨htier, hfield⟩
      next => cases hpair
    · rintro ⟨htier, hfield⟩
      exact ⟨m, hm, by rw [if_pos htier, hfield]; rfl⟩
  refine Option.ext fun field => ?_
  unfold learnedField
  constructor
  · intro h
    obtain ⟨htier, hfield⟩ := (hlearned field).mp
      (Dict.mem_of_get?_ofPairs (truthy_eq_some.mp h).1)
    rw [if_pos htier, hfield]
  · intro h
    split at h
    next htier =>
      have hget := Dict.get?_ofPairs_of_mem ((hlearned field).mpr ⟨htier, h⟩) fun other hother =>
        Option.some.inj (((hlearned other).mp hother).2.symm.trans h)
      exact truthy_eq_some.mpr ⟨hget, (truthy_eq_some.mp h).2⟩
    next => cases h

/-- Of the columns that Tier 1 left, those that the adjudicator resolved are remembered. -/
theorem learnedField_eq {tier1 : List Mapping} {model : String}
    {answers : Dict String AdjudicatedField}
    (hnamed : ∀ header, answered answers header ≠ some "")
    (hnodup : (tier1.map Mapping.sourceField).Nodup) (htier1 : Named tier1)
    {settled final : List Mapping}
    (hsettled : settleUnresolved (applyTier2 runtime fuzzyScorer) [] tier1 = settled)
    (hfinal : settleUnresolved (applyTier3 model answers) [] settled = final) {header : String}
    (hheader : header ∈ tier1.map Mapping.sourceField) (hnone : fieldOf tier1 header = none) :
    learnedField (.ofPairs (learnedFrom final)) header =
      if fieldOf settled header = none then fieldOf final header else none := by
  obtain ⟨m, hm, rfl⟩ := List.mem_map.mp hheader
  rw [fieldOf_of_mem hnodup hm] at hnone
  obtain ⟨hsources, hnamedSettled, -⟩ := (@gives_applyTier2 runtime).stage hnodup htier1
  rw [hsettled] at hsources hnamedSettled
  have hnodupSettled : (settled.map Mapping.sourceField).Nodup := hsources ▸ hnodup
  obtain ⟨hsourcesFinal, hnamedFinal, -⟩ :=
    (gives_applyTier3 model hnamed).stage hnodupSettled hnamedSettled
  rw [hfinal] at hsourcesFinal hnamedFinal
  have hnodupFinal : (final.map Mapping.sourceField).Nodup := hsourcesFinal ▸ hnodupSettled
  have hturn := @settleUnresolved_turn (applyTier2 runtime fuzzyScorer) [] _ _ hm hnodup hnone
  rw [hsettled] at hturn
  have hsource := (@gives_applyTier2 runtime).source
    (claimedAt (applyTier2 runtime fuzzyScorer) m.sourceField [] tier1) m
  have htier := @tier_of_applyTier2 runtime
    (claimedAt (applyTier2 runtime fuzzyScorer) m.sourceField [] tier1) m hnone
  generalize applyTier2 runtime fuzzyScorer
    (claimedAt (applyTier2 runtime fuzzyScorer) m.sourceField [] tier1) m = middle
    at hturn hsource htier
  rw [← hsource, fieldOf_of_mem hnodupSettled hturn]
  by_cases hmiddle : middle.canonicalField = none
  · rw [if_pos hmiddle]
    have hlast :=
      @settleUnresolved_turn (applyTier3 model answers) [] _ _ hturn hnodupSettled hmiddle
    rw [hfinal] at hlast
    have hsourceLast := (gives_applyTier3 model hnamed).source
      (claimedAt (applyTier3 model answers) middle.sourceField [] settled) middle
    have htierLast := @tier_of_applyTier3 model answers
      (claimedAt (applyTier3 model answers) middle.sourceField [] settled) middle hmiddle
    generalize applyTier3 model answers
      (claimedAt (applyTier3 model answers) middle.sourceField [] settled) middle = last
      at hlast hsourceLast htierLast
    rw [← hsourceLast, fieldOf_of_mem hnodupFinal hlast, learnedField_of_mem hnodupFinal hlast]
    cases hfield : last.canonicalField with
    | none =>
        rw [truthy_none]
        exact ite_self none
    | some field =>
        rw [if_pos (htierLast (by rw [hfield]; exact Option.some_ne_none field))]
        exact truthy_of_ne fun hempty => hnamedFinal last hlast (hempty ▸ hfield)
  · have hkept : middle ∈ final := by
      rw [← hfinal]
      exact Keeps.mem_of_resolved ((fair_applyTier3 model answers).stage settled).keeps hturn
        hmiddle
    rw [if_neg hmiddle, learnedField_of_mem hnodupFinal hkept, htier hmiddle]
    rfl

end Harbormaster.Inspector
