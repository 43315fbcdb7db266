import Harbormaster.Inspector.PricePass
import Harbormaster.Inspector.SubBatches

/-! # What the ladder keeps

The cache, Tier 2 and Tier 3 change a mapping only where it has no field yet, and
give it only a field that is free at that moment. What they keep follows for any
such change.
-/

namespace Harbormaster.Inspector

open Ordered

variable {runtime : Runtime}

/-! ## Changes to unresolved columns -/

/-- A change of an unresolved mapping: it keeps the column, gives a free field or
none, and leaves its evidence. -/
structure Fair (change : List String → Mapping → Mapping) : Prop where
  source : ∀ taken m, (change taken m).sourceField = m.sourceField
  free : ∀ taken m field, m.canonicalField = none →
    (change taken m).canonicalField = some field → field ∉ taken
  grounded : ∀ taken m, m.canonicalField = none → m.Grounded → (change taken m).Grounded

/-- What becomes of one mapping: resolved, it stays as it is. -/
structure Keeps (before after : Mapping) : Prop where
  source : after.sourceField = before.sourceField
  resolved : before.canonicalField ≠ none → after = before
  grounded : before.Grounded → after.Grounded

theorem Keeps.refl (m : Mapping) : Keeps m m := ⟨rfl, fun _ => rfl, id⟩

theorem Keeps.trans {first second third : Mapping} (h : Keeps first second)
    (h' : Keeps second third) : Keeps first third where
  source := h'.source.trans h.source
  resolved hsome := by
    have hsame := h.resolved hsome
    rw [← hsame] at hsome
    exact (h'.resolved hsome).trans hsame
  grounded := h'.grounded ∘ h.grounded

theorem Fair.keeps {change : List String → Mapping → Mapping} (hfair : Fair change)
    (taken : List String) (m : Mapping) :
    Keeps m (if m.canonicalField = none then change taken m else m) := by
  split
  next hnone =>
    exact ⟨hfair.source taken m, fun hsome => absurd hnone hsome, hfair.grounded taken m hnone⟩
  next => exact .refl m

/-- A free field is given out no second time. -/
theorem Fair.nodup_iff {change : List String → Mapping → Mapping} (hfair : Fair change)
    (settled rest : List Mapping) (m : Mapping) :
    (claimed (settled ++ (if m.canonicalField = none then
        change (claimed (settled ++ m :: rest)) m else m) :: rest)).Nodup ↔
      (claimed (settled ++ m :: rest)).Nodup := by
  split
  next hnone =>
    have hbefore : claimed (settled ++ m :: rest) = claimed settled ++ claimed rest := by
      rw [claimed_append, ← List.singleton_append, claimed_append, claimed_none hnone,
        List.nil_append]
    rw [hbefore]
    -- the field it gets is free among the columns before it and behind it
    generalize hafter : change (claimed settled ++ claimed rest) m = after
    rw [claimed_append, ← List.singleton_append, claimed_append]
    cases hfield : after.canonicalField with
    | none => rw [claimed_none hfield, List.nil_append]
    | some field =>
        have hfree := hfair.free _ m field hnone (hafter ▸ hfield)
        by_cases hempty : field = ""
        · simp [claimed, hfield, hempty]
        · rw [claimed_some hfield hempty]
          rw [List.singleton_append, List.perm_middle.nodup_iff, List.nodup_cons]
          exact and_iff_right hfree
  next => exact Iff.rfl

theorem settleUnresolved_spec {change : List String → Mapping → Mapping} (hfair : Fair change)
    (settled rest : List Mapping) :
    ∃ after, settleUnresolved change settled rest = settled ++ after ∧
      List.Forall₂ Keeps rest after ∧
      ((claimed (settled ++ after)).Nodup ↔ (claimed (settled ++ rest)).Nodup) := by
  induction rest generalizing settled with
  | nil => exact ⟨[], by rw [List.append_nil]; rfl, .nil, Iff.rfl⟩
  | cons m rest ih =>
      rw [settleUnresolved]
      obtain ⟨after, heq, hkeeps, hnodup⟩ := ih (settled ++ [if m.canonicalField = none then
        change (claimed (settled ++ m :: rest)) m else m])
      refine ⟨_ :: after, heq.trans (List.append_cons ..).symm, .cons (hfair.keeps _ m) hkeeps, ?_⟩
      rw [List.append_cons, hnodup, ← List.append_cons]
      exact hfair.nodup_iff settled rest m

/-- A change is asked about unresolved columns only. -/
theorem settleUnresolved_congr {change change' : List String → Mapping → Mapping}
    (settled rest : List Mapping)
    (hsame : ∀ m ∈ unresolved rest, ∀ taken, change taken m = change' taken m) :
    settleUnresolved change settled rest = settleUnresolved change' settled rest := by
  induction rest generalizing settled with
  | nil => rfl
  | cons m rest ih =>
      have hrest : ∀ m ∈ unresolved rest, ∀ taken, change taken m = change' taken m := by
        intro other hother
        apply hsame
        unfold unresolved at hother ⊢
        rw [List.filter_cons]
        split
        next => exact List.mem_cons_of_mem _ hother
        next => exact hother
      rw [settleUnresolved, settleUnresolved]
      by_cases hnone : m.canonicalField = none
      · have hmem : m ∈ unresolved (m :: rest) :=
          List.mem_filter.mpr ⟨List.mem_cons_self, by simpa using hnone⟩
        simp only [if_pos hnone]
        rw [hsame m hmem]
        exact ih _ hrest
      · simp only [if_neg hnone]
        exact ih _ hrest

/-! ## The tiers make fair changes -/

theorem fair_applyLearned (learned : Dict String String) : Fair (applyLearned learned) where
  source taken m := by
    unfold applyLearned
    split
    · split <;> rfl
    · rfl
  free taken m field hnone hfield := by
    unfold applyLearned at hfield
    split at hfield
    next candidate hcandidate =>
      split at hfield
      next hfree => exact Option.some.inj hfield ▸ hfree
      next => rw [hnone] at hfield; cases hfield
    next => rw [hnone] at hfield; cases hfield
  grounded taken m hnone hgrounded := by
    unfold applyLearned
    split
    next =>
      split
      next => exact ⟨by simp, by simp⟩
      next => exact hgrounded
    next => exact hgrounded

theorem Scorer.fuzzy_free (scorer : Scorer) {header field : String} {taken : List String}
    (h : (scorer.fuzzy runtime header taken).1 = some field) : field ∉ taken := by
  unfold Scorer.fuzzy at h
  dsimp only at h
  split at h
  next => cases h
  next =>
    split at h
    next => cases h
    next score index _ =>
      have hmem := List.get_mem (aliasCorpus.filter fun candidate => candidate.2 ∉ taken)
        (index.cast (List.length_map ..))
      rw [← Option.some.inj h]
      simpa using (List.mem_filter.mp hmem).2

theorem Scorer.semantic_free (scorer : Scorer) {header field : String} {taken : List String}
    (h : (scorer.semantic header taken).1 = some field) : field ∉ taken := by
  unfold Scorer.semantic at h
  split at h
  next preferred score _ =>
    split at h
    next => cases h
    next hfree => exact Option.some.inj h ▸ hfree
  next => cases h

/-- The local matcher answers with a field that is free. -/
theorem Scorer.tryMatch_free (scorer : Scorer) {header field : String} {taken : List String}
    (h : (scorer.tryMatch runtime header taken).canonicalField = some field) : field ∉ taken := by
  have hsettle : ∀ {preferred : String} {combined : ℚ} {evidence : String},
      (Scorer.tryMatch.settle preferred combined evidence).canonicalField = some field →
        preferred = field := by
    intro preferred combined evidence hsettled
    unfold Scorer.tryMatch.settle at hsettled
    split at hsettled
    next => cases hsettled
    next => exact Option.some.inj hsettled
  have hfuzzy := fun found => @Scorer.fuzzy_free runtime scorer header found taken
  have hsemantic := fun found => @Scorer.semantic_free scorer header found taken
  unfold Scorer.tryMatch at h
  generalize scorer.fuzzy runtime header taken = fuzzy at h hfuzzy
  generalize scorer.semantic header taken = semantic at h hsemantic
  obtain ⟨fuzzyField, fuzzyScore⟩ := fuzzy
  obtain ⟨semanticField, semanticScore⟩ := semantic
  dsimp only at h hfuzzy hsemantic
  cases semanticField with
  | none =>
      cases fuzzyField with
      | none => cases h
      | some found =>
          dsimp only at h
          split at h
          next => cases h
          next => exact hfuzzy _ (Option.some.inj h ▸ rfl)
  | some preferred =>
      dsimp only at h
      split at h
      next => exact hsemantic _ (hsettle h ▸ rfl)
      next =>
        split at h
        next =>
          cases fuzzyField with
          | none => cases h
          | some found =>
              dsimp only at h
              split at h
              next => cases h
              next => exact hfuzzy _ (Option.some.inj h ▸ rfl)
        next => exact hsemantic _ (hsettle h ▸ rfl)

/-- The local matcher says why. -/
theorem Scorer.tryMatch_evidence (scorer : Scorer) (header : String) (taken : List String) :
    (scorer.tryMatch runtime header taken).evidence ≠ "" := by
  have hsettle : ∀ (preferred : String) (combined : ℚ) (evidence : String), evidence ≠ "" →
      (Scorer.tryMatch.settle preferred combined evidence).evidence ≠ "" := by
    intro preferred combined evidence hevidence
    unfold Scorer.tryMatch.settle
    split
    next => simp [Scorer.decline]
    next => exact hevidence
  unfold Scorer.tryMatch
  dsimp only
  split
  next =>
    split
    · split <;> simp [Scorer.decline]
    · simp [Scorer.decline]
  next =>
    split
    next => exact hsettle _ _ _ (by simp)
    next =>
      split
      next =>
        split
        · split <;> simp [Scorer.decline]
        · simp [Scorer.decline]
      next => exact hsettle _ _ _ (by simp)

/-- A column that stays unresolved only gains evidence. -/
theorem Mapping.Grounded.declined {m : Mapping} (h : m.Grounded) (reason : String) :
    { m with evidence := m.evidence ++ reason }.Grounded where
  evidence := by simp [h.evidence]
  unresolved_iff := h.unresolved_iff

theorem fair_applyTier2 (scorer : Scorer) : Fair (applyTier2 runtime scorer) where
  source taken m := by
    unfold applyTier2
    dsimp only
    split <;> rfl
  free taken m field hnone hfield := by
    unfold applyTier2 at hfield
    dsimp only at hfield
    split at hfield
    next => rw [hnone] at hfield; cases hfield
    next found hfound => exact scorer.tryMatch_free (hfound.trans hfield)
  grounded taken m hnone hgrounded := by
    unfold applyTier2
    dsimp only
    split
    next => simpa only [String.append_assoc] using hgrounded.declined ("; tier2: " ++ _)
    next => exact ⟨scorer.tryMatch_evidence m.sourceField taken, by simp⟩

theorem fair_applyTier3 (model : String) (answers : Dict String AdjudicatedField) :
    Fair (applyTier3 model answers) where
  source taken m := by
    unfold applyTier3
    split
    · rfl
    · split
      · rfl
      · split <;> rfl
  free taken m field hnone hfield := by
    unfold applyTier3 at hfield
    split at hfield
    next => rw [hnone] at hfield; cases hfield
    next answer _ =>
      split at hfield
      next => rw [hnone] at hfield; cases hfield
      next proposed _ =>
        split at hfield
        next => rw [hnone] at hfield; cases hfield
        next hfree => exact Option.some.inj hfield ▸ hfree
  grounded taken m hnone hgrounded := by
    unfold applyTier3
    split
    next => exact hgrounded.declined _
    next answer _ =>
      split
      next => exact hgrounded.declined _
      next proposed _ =>
        split
        next => simpa only [String.append_assoc] using
          hgrounded.declined ("; tier3 proposed " ++ (proposed ++ " but it was already assigned"))
        next => exact ⟨by simp, by simp⟩

/-! ## The whole ladder -/

/-- A stage of the ladder: what it keeps of every mapping, and no field given out twice. -/
structure Stage (before after : List Mapping) : Prop where
  keeps : List.Forall₂ Keeps before after
  nodup_iff : (claimed after).Nodup ↔ (claimed before).Nodup

theorem Stage.refl (mappings : List Mapping) : Stage mappings mappings :=
  ⟨List.forall₂_same.mpr fun m _ => .refl m, Iff.rfl⟩

theorem Stage.trans {first second third : List Mapping} (h : Stage first second)
    (h' : Stage second third) : Stage first third where
  keeps := by
    have hsecond := h.keeps
    have hthird := h'.keeps
    clear h h'
    induction hsecond generalizing third with
    | nil =>
        cases hthird
        exact .nil
    | cons hkept _ ih =>
        cases hthird with
        | cons hkept' hrest => exact .cons (hkept.trans hkept') (ih hrest)
  nodup_iff := h'.nodup_iff.trans h.nodup_iff

theorem Fair.stage {change : List String → Mapping → Mapping} (hfair : Fair change)
    (mappings : List Mapping) : Stage mappings (settleUnresolved change [] mappings) := by
  obtain ⟨after, heq, hkeeps, hnodup⟩ := settleUnresolved_spec hfair [] mappings
  rw [List.nil_append, List.nil_append] at hnodup
  rw [heq, List.nil_append]
  exact ⟨hkeeps, hnodup⟩

namespace Keeps

variable {before after : List Mapping} (hkeeps : List.Forall₂ Keeps before after)

include hkeeps

theorem sources : after.map Mapping.sourceField = before.map Mapping.sourceField := by
  induction hkeeps with
  | nil => rfl
  | cons hkept _ ih => rw [List.map_cons, List.map_cons, hkept.source, ih]

/-- Resolved mappings stay as they are. -/
theorem mem_of_resolved {m : Mapping} (hm : m ∈ before) (hsome : m.canonicalField ≠ none) :
    m ∈ after := by
  induction hkeeps with
  | nil => cases hm
  | cons hkept _ ih =>
      rcases List.mem_cons.mp hm with rfl | hm
      · exact hkept.resolved hsome ▸ List.mem_cons_self
      · exact List.mem_cons_of_mem _ (ih hm)

theorem all_grounded (hbefore : ∀ m ∈ before, m.Grounded) : ∀ m ∈ after, m.Grounded := by
  induction hkeeps with
  | nil => exact hbefore
  | cons hkept _ ih =>
      obtain ⟨hhead, htail⟩ := List.forall_mem_cons.mp hbefore
      exact List.forall_mem_cons.mpr ⟨hkept.grounded hhead, ih htail⟩

/-- What is unresolved afterwards was unresolved before. -/
theorem unresolved_sublist :
    ((unresolved after).map Mapping.sourceField).Sublist
      ((unresolved before).map Mapping.sourceField) := by
  induction hkeeps with
  | nil => exact .slnil
  | @cons m m' before after hkept _ ih =>
      unfold unresolved at ih ⊢
      rw [List.filter_cons, List.filter_cons]
      by_cases hnone : m.canonicalField = none
      · rw [if_pos (decide_eq_true hnone), List.map_cons]
        split
        next => rw [List.map_cons, hkept.source]; exact ih.cons_cons _
        next => exact ih.cons _
      · rw [hkept.resolved hnone, if_neg (by simpa using hnone), if_neg (by simpa using hnone)]
        exact ih

end Keeps

namespace TieredResolver

variable (resolver : TieredResolver)

theorem stage_remembered (context : TableContext) (tier1 : List Mapping) :
    Stage tier1 (resolver.remembered context tier1) := by
  unfold remembered
  split
  next learned _ => exact (fair_applyLearned learned).stage tier1
  next => exact .refl tier1

theorem stage_runTier2 (mappings : List Mapping) :
    Stage mappings (resolver.runTier2 runtime mappings) :=
  (fair_applyTier2 resolver.scorer).stage mappings

theorem stage_runTier3 (adjudicator : Adjudicator) (table : ParsedTable)
    (context : TableContext) (outcome : ResolutionOutcome) :
    Stage outcome.mappings (runTier3 adjudicator table context outcome).mappings := by
  have hstage := (fair_applyTier3 (adjudicator (requestFor table context outcome.mappings)).model
    (adjudicator (requestFor table context outcome.mappings)).asMap).stage outcome.mappings
  unfold runTier3
  dsimp only
  split
  · exact hstage
  · exact hstage

theorem runTier3_request (adjudicator : Adjudicator) (table : ParsedTable)
    (context : TableContext) (outcome : ResolutionOutcome) :
    (runTier3 adjudicator table context outcome).request =
      some (requestFor table context outcome.mappings) := by
  unfold runTier3
  dsimp only
  split <;> rfl

variable {resolver} {table : ParsedTable} {context : TableContext} {outcome : ResolutionOutcome}

/-- The ladder runs Tier 1, the cache, Tier 2 and at most once Tier 3. -/
theorem resolve_stages (h : resolver.resolve runtime table context = .ok outcome) :
    ∃ tier1, mapTable runtime resolver.fieldOverrides table = .ok tier1 ∧
      Stage (resolver.runTier2 runtime (resolver.remembered context tier1)) outcome.mappings ∧
      ∀ request, outcome.request = some request →
        request = requestFor table context
          (resolver.runTier2 runtime (resolver.remembered context tier1)) := by
  obtain ⟨tier1, htier1, h⟩ := Fallible.bind_eq_ok.mp h
  refine ⟨tier1, htier1, ?_⟩
  dsimp only at h
  split at h
  next adjudicator _ =>
    split at h
    next =>
      obtain rfl := Except.ok.inj h
      refine ⟨stage_runTier3 adjudicator table context ⟨_, _, _, _, _, _, _, _⟩, ?_⟩
      intro request hrequest
      rw [runTier3_request] at hrequest
      exact (Option.some.inj hrequest).symm
    next =>
      obtain rfl := Except.ok.inj h
      exact ⟨.refl _, nofun⟩
  next =>
    obtain rfl := Except.ok.inj h
    exact ⟨.refl _, nofun⟩

/-- No field is assigned to two columns, exactly when no override gives a field
that another column is given by its name or as a price. -/
theorem resolve_nodup_iff (h : resolver.resolve runtime table context = .ok outcome) :
    (claimed outcome.mappings).Nodup ↔
      OverridesApart runtime resolver.fieldOverrides table := by
  obtain ⟨tier1, htier1, hstage, _⟩ := resolve_stages h
  rw [hstage.nodup_iff, (resolver.stage_runTier2 _).nodup_iff,
    (resolver.stage_remembered context tier1).nodup_iff]
  exact (mapTable_spec htier1).nodup_iff

/-- A file of a client that names its own price columns. -/
def ownPrices (headers : List String) (hnodup : headers.Nodup := by decide) : ParsedTable where
  headers := headers
  rows := [.ofPairs (headers.map fun header => (header, "101.25"))]
  headers_nodup := hnodup

def ownResolver : TieredResolver where
  fieldOverrides := [("Px_Sett", "settlement_price"), ("Px_Last", "trade_price")]
  scorer := sampleScorer

def ownContext : TableContext where
  clientId := "CLNT004"

theorem resolve_nodup_own :
    ∃ outcome, ownResolver.resolve .ascii (ownPrices ["Px_Sett", "Px_Last", "Quantity"])
        ownContext = .ok outcome ∧
      (claimed outcome.mappings).Nodup ∧ OverridesApart .ascii ownResolver.fieldOverrides
        (ownPrices ["Px_Sett", "Px_Last", "Quantity"]) := by
  have heval : (ownResolver.resolve .ascii (ownPrices ["Px_Sett", "Px_Last", "Quantity"])
      ownContext).toOption.map (fun outcome => decide (claimed outcome.mappings).Nodup) =
        some true := by decide +kernel
  obtain ⟨outcome, hrun, hnodup⟩ := Fallible.ok_of_toOption heval
  have hnodup := of_decide_eq_true hnodup
  exact ⟨outcome, hrun, hnodup, (resolve_nodup_iff hrun).mp hnodup⟩

/-- The override and the words of another column both speak for the trade price. -/
theorem two_trade_prices :
    ∃ outcome, ownResolver.resolve .ascii (ownPrices ["Exec Price", "Px_Last"]) ownContext =
        .ok outcome ∧
      outcome.mappings.map (fun m => (m.sourceField, m.canonicalField)) =
        [("Exec Price", some "trade_price"), ("Px_Last", some "trade_price")] ∧
      ¬ (claimed outcome.mappings).Nodup := by
  have heval : (ownResolver.resolve .ascii (ownPrices ["Exec Price", "Px_Last"])
      ownContext).toOption.map (fun outcome => decide (
        outcome.mappings.map (fun m => (m.sourceField, m.canonicalField)) =
          [("Exec Price", some "trade_price"), ("Px_Last", some "trade_price")] ∧
        ¬ (claimed outcome.mappings).Nodup)) = some true := by decide +kernel
  obtain ⟨outcome, hrun, htwice⟩ := Fallible.ok_of_toOption heval
  exact ⟨outcome, hrun, of_decide_eq_true htwice⟩

/-- The same resolver with another local matcher. -/
def withScorer (resolver : TieredResolver) (scorer : Scorer) : TieredResolver :=
  { resolver with scorer := scorer }

/-- Tier 2 is asked about the columns that are left, and nothing else. -/
theorem runTier2_congr {scorer : Scorer} {mappings : List Mapping}
    (hsame : ∀ m ∈ unresolved mappings, ∀ taken,
      scorer.tryMatch runtime m.sourceField taken =
        resolver.scorer.tryMatch runtime m.sourceField taken) :
    (resolver.withScorer scorer).runTier2 runtime mappings =
      resolver.runTier2 runtime mappings := by
  apply settleUnresolved_congr
  intro m hm taken
  unfold applyTier2
  rw [withScorer, hsame m hm taken]

/-- Escalation is one-way: the cache, the local matcher and the adjudicator each see the
columns the earlier ones left and keep what they resolved, and every column ends with
one mapping that names its evidence. -/
theorem resolve_escalation (h : resolver.resolve runtime table context = .ok outcome) :
    ∃ tier1, mapTable runtime resolver.fieldOverrides table = .ok tier1 ∧
      outcome.mappings.map Mapping.sourceField = table.headers ∧
      (∀ m ∈ tier1, m.canonicalField ≠ none → m ∈ outcome.mappings) ∧
      (∀ m ∈ resolver.remembered context tier1, m.canonicalField ≠ none → m ∈ outcome.mappings) ∧
      (∀ m ∈ resolver.runTier2 runtime (resolver.remembered context tier1),
        m.canonicalField ≠ none → m ∈ outcome.mappings) ∧
      ((unresolved (resolver.remembered context tier1)).map Mapping.sourceField).Sublist
        ((unresolved tier1).map Mapping.sourceField) ∧
      ((unresolved (resolver.runTier2 runtime (resolver.remembered context tier1))).map
        Mapping.sourceField).Sublist
          ((unresolved (resolver.remembered context tier1)).map Mapping.sourceField) ∧
      (∀ scorer : Scorer, scorer.degraded = resolver.scorer.degraded →
        (∀ m ∈ unresolved (resolver.remembered context tier1), ∀ taken,
          scorer.tryMatch runtime m.sourceField taken =
            resolver.scorer.tryMatch runtime m.sourceField taken) →
        (resolver.withScorer scorer).resolve runtime table context = .ok outcome) ∧
      (∀ request, outcome.request = some request →
        request.unresolvedHeaders =
            (unresolved (resolver.runTier2 runtime (resolver.remembered context tier1))).map
              Mapping.sourceField ∧
          request.samples.map Prod.fst = request.unresolvedHeaders) ∧
      ∀ m ∈ outcome.mappings,
        m.evidence ≠ "" ∧ (m.canonicalField = none ↔ m.tier = .tierUnresolved) := by
  obtain ⟨tier1, htier1, hlast, hrequest⟩ := resolve_stages h
  have hcached := resolver.stage_remembered context tier1
  have htier2 := @stage_runTier2 runtime resolver (resolver.remembered context tier1)
  have hwhole := hcached.trans (htier2.trans hlast)
  have hspec := mapTable_spec htier1
  refine ⟨tier1, htier1, ?_, ?_, ?_, ?_, ?_, ?_, ?_, ?_, ?_⟩
  · rw [Keeps.sources hwhole.keeps, hspec.sources]
  · intro m hm hsome
    exact Keeps.mem_of_resolved hwhole.keeps hm hsome
  · intro m hm hsome
    exact Keeps.mem_of_resolved (htier2.trans hlast).keeps hm hsome
  · intro m hm hsome
    exact Keeps.mem_of_resolved hlast.keeps hm hsome
  · exact Keeps.unresolved_sublist hcached.keeps
  · exact Keeps.unresolved_sublist htier2.keeps
  · -- another matcher that answers the same for the columns it is asked about
    intro scorer hdegraded hsame
    rw [← h]
    unfold resolve
    rw [show (resolver.withScorer scorer).fieldOverrides = resolver.fieldOverrides from rfl,
      htier1]
    have hremembered : (resolver.withScorer scorer).remembered context tier1 =
        resolver.remembered context tier1 := rfl
    have hcongr := runTier2_congr hsame
    simp only [bind, Except.bind, hremembered, hcongr]
    rw [show (resolver.withScorer scorer).scorer.degraded = resolver.scorer.degraded from hdegraded]
    rfl
  · intro request hasked
    rw [hrequest request hasked]
    exact ⟨rfl, by simp [requestFor]⟩
  · intro m hm
    have hgrounded := Keeps.all_grounded hwhole.keeps hspec.grounded m hm
    exact ⟨hgrounded.evidence, hgrounded.unresolved_iff⟩

/-- A resolver whose adjudicator answers twice about one column, and about one it
was not asked about. -/
def askingResolver : TieredResolver where
  scorer := sampleScorer
  adjudicator := some fun _ =>
    { fields := [⟨"Zzz", some "quantity", 4 / 5, "a count"⟩,
        ⟨"Zzz", some "net_amount", 4 / 5, "a sum"⟩, ⟨"Symbol", some "side", 1, "unasked"⟩]
      model := "fake" }

theorem resolve_escalation_unknown :
    ∃ outcome request tier1,
      askingResolver.resolve .ascii (ownPrices ["Symbol", "Zzz"]) ownContext = .ok outcome ∧
      outcome.request = some request ∧
      mapTable .ascii [] (ownPrices ["Symbol", "Zzz"]) = .ok tier1 ∧
      request.unresolvedHeaders = (unresolved (askingResolver.runTier2 .ascii
        (askingResolver.remembered ownContext tier1))).map Mapping.sourceField ∧
      outcome.mappings.map Mapping.sourceField = ["Symbol", "Zzz"] ∧
      outcome.mappings.map Mapping.canonicalField =
        [some "instrument_id", some "net_amount"] := by
  have heval : (askingResolver.resolve .ascii (ownPrices ["Symbol", "Zzz"])
      ownContext).toOption.map (fun outcome => decide (outcome.request.isSome ∧
        outcome.mappings.map Mapping.canonicalField =
          [some "instrument_id", some "net_amount"])) = some true := by decide +kernel
  obtain ⟨outcome, hrun, hseen⟩ := Fallible.ok_of_toOption heval
  obtain ⟨hasked, hfields⟩ := of_decide_eq_true hseen
  obtain ⟨request, hrequest⟩ := Option.isSome_iff_exists.mp hasked
  obtain ⟨tier1, htier1, hsources, _, _, _, _, _, _, hasks, _⟩ := resolve_escalation hrun
  exact ⟨outcome, request, tier1, hrun, hrequest, htier1, (hasks request hrequest).1, hsources,
    hfields⟩

end TieredResolver

end Harbormaster.Inspector
