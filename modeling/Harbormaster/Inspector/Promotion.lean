import Harbormaster.Foundation.Writes
import Harbormaster.Inspector.DeterministicFake

/-! # Promoted answers

What the adjudicator resolved may be written into the overrides of the client once a reviewer
has approved it. Tier 1 then gives those columns their fields and leaves the others as they
are, so that the layout is resolved as before without the adjudicator and without the cache.
-/

namespace Harbormaster.Inspector

open Ordered Ranking Offers

/-- A search for less finds the same if that satisfies it. -/
theorem find?_of_stronger {α : Type} {elements : List α} {strong weak : α → Bool}
    (himp : ∀ a ∈ elements, strong a = true → weak a = true)
    (hfound : ∀ a, elements.find? weak = some a → strong a = true) :
    elements.find? strong = elements.find? weak := by
  induction elements with
  | nil => rfl
  | cons first rest ih =>
      rw [List.find?_cons, List.find?_cons]
      cases hweak : weak first with
      | true =>
          rw [hfound first (List.find?_cons_of_pos hweak)]
      | false =>
          have hstrong : strong first = false := by
            by_contra h
            rw [himp first List.mem_cons_self (by simpa using h)] at hweak
            cases hweak
          rw [hstrong]
          refine ih (fun a ha => himp a (List.mem_cons_of_mem _ ha)) fun a ha => hfound a ?_
          rw [List.find?_cons, hweak]
          exact ha

variable {runtime : Runtime} {fieldOverrides approved : List (String × String)}
  {table : ParsedTable}

/-! ## More overrides -/

/-- Later overrides come first. -/
theorem overrideFor_append (hnonempty : ∀ pair ∈ approved, pair.2 ≠ "") (header : String) :
    overrideFor runtime (fieldOverrides ++ approved) header =
      (overrideFor runtime approved header).or (overrideFor runtime fieldOverrides header) := by
  unfold overrideFor overrideIndex
  rw [List.map_append, Dict.ofPairs_append, Dict.get?_write]
  cases hlater : (Dict.ofPairs (approved.map fun pair =>
      (normalizeHeader runtime pair.1, pair.2))).get? (normalizeHeader runtime header) with
  | none => rfl
  | some field =>
      obtain ⟨pair, hpair, heq⟩ := List.mem_map.mp (Dict.mem_of_get?_ofPairs hlater)
      obtain ⟨-, rfl⟩ := Prod.mk.inj heq
      rw [Option.some_or, Option.filter_some_pos (by simpa using hnonempty pair hpair),
        Option.some_or]

theorem namedField_append (hnonempty : ∀ pair ∈ approved, pair.2 ≠ "") (header : String) :
    namedField runtime (fieldOverrides ++ approved) header =
      (overrideFor runtime approved header).or (namedField runtime fieldOverrides header) := by
  unfold namedField
  rw [overrideFor_append hnonempty]
  cases overrideFor runtime approved header with
  | none => rfl
  | some field => rfl

theorem isDeferred_append (hnonempty : ∀ pair ∈ approved, pair.2 ≠ "") (header : String) :
    isDeferred runtime (fieldOverrides ++ approved) table header =
      ((overrideFor runtime approved header).isNone &&
        isDeferred runtime fieldOverrides table header) := by
  unfold isDeferred
  rw [overrideFor_append hnonempty]
  cases overrideFor runtime approved header with
  | none => rfl
  | some field => rfl

/-- The promoted columns have no field, and their fields no column. The column of the
instruments is not among them: by it the prices are told apart. -/
structure Promotable (runtime : Runtime) (approved : List (String × String))
    (table : ParsedTable) (fields : String → Option String) : Prop where
  nonempty : ∀ pair ∈ approved, pair.2 ≠ ""
  vacant : ∀ header ∈ table.headers, overrideFor runtime approved header ≠ none →
    fields header = none
  unused : ∀ header ∈ table.headers, ∀ field, overrideFor runtime approved header = some field →
    ∀ other ∈ table.headers, fields other ≠ some field
  instrument : ∀ header ∈ table.headers,
    overrideFor runtime approved header ≠ some "instrument_id"

theorem Promotable.of_extends {before after : String → Option String}
    (h : Promotable runtime approved table after) (hextends : Extends before after) :
    Promotable runtime approved table before where
  nonempty := h.nonempty
  vacant header hheader hpromoted := by
    refine Option.eq_none_iff_forall_ne_some.mpr fun field hfield => ?_
    have hafter := hextends header field hfield
    rw [h.vacant header hheader hpromoted] at hafter
    cases hafter
  unused header hheader field hpromoted other hother hfield :=
    h.unused header hheader field hpromoted other hother (hextends other field hfield)
  instrument := h.instrument

/-- The field that is promoted for a column. -/
def promotedField (runtime : Runtime) (approved : List (String × String)) (table : ParsedTable)
    (header : String) : Option String :=
  if header ∈ table.headers then overrideFor runtime approved header else none

theorem Promotable.pass_merge {given : String → Option String}
    (h : Promotable runtime approved table
      (pass table.headers (fuzzyOffer runtime) table.headers given)) :
    pass table.headers (fuzzyOffer runtime) table.headers
        (merge given (promotedField runtime approved table)) =
      merge (pass table.headers (fuzzyOffer runtime) table.headers given)
        (promotedField runtime approved table) := by
  refine Offers.pass_merge free_fuzzyOffer stable_fuzzyOffer table.headers_nodup
    (List.Subset.refl _) fun header hheader field hfield => ?_
  unfold promotedField at hfield
  rw [if_pos hheader] at hfield
  refine ⟨h.vacant header hheader (by rw [hfield]; exact Option.some_ne_none field), fun hmem => ?_⟩
  obtain ⟨other, hother, hused⟩ := mem_taken.mp hmem
  exact h.unused header hheader field hfield other hother hused

/-! ## Tier 1 with the promoted answers -/

namespace Promotable

variable {tier1 : List Mapping} (h : Promotable runtime approved table (fieldOf tier1))
  (htier1 : mapTable runtime fieldOverrides table = .ok tier1)

include h

theorem kept_of_field {header field : String} (hheader : header ∈ table.headers)
    (hfield : fieldOf tier1 header = some field) : overrideFor runtime approved header = none := by
  by_contra hpromoted
  rw [h.vacant header hheader hpromoted] at hfield
  cases hfield

include htier1

/-- A field that is not promoted goes to the same name. -/
theorem find?_named {field : String} (hfield : ∀ header ∈ table.headers,
    overrideFor runtime approved header ≠ some field) :
    table.headers.find? (fun header =>
        namedField runtime (fieldOverrides ++ approved) header = some field) =
      table.headers.find? fun header => namedField runtime fieldOverrides header = some field := by
  refine find?_of_stronger (fun header hheader hnamed => ?_) fun header hfirst => ?_
  · rw [decide_eq_true_eq, namedField_append h.nonempty, Option.or_eq_some_iff] at hnamed
    rw [decide_eq_true_eq]
    rcases hnamed with hpromoted | ⟨-, hnamed⟩
    · exact absurd hpromoted (hfield header hheader)
    · exact hnamed
  · have hgiven := (mapTable_field htier1 header field).mpr (Or.inl (Or.inr hfirst))
    have hkept := h.kept_of_field (List.mem_of_find?_eq_some hfirst) hgiven
    rw [decide_eq_true_eq, namedField_append h.nonempty, hkept, Option.none_or]
    simpa using List.find?_some hfirst

theorem namedBy_iff {header field : String} (hheader : header ∈ table.headers) :
    NamedBy runtime (fieldOverrides ++ approved) table.headers header field ↔
      NamedBy runtime fieldOverrides table.headers header field ∨
        overrideFor runtime approved header = some field := by
  have hunpromoted : ∀ other ∈ table.headers, fieldOf tier1 other = some field →
      ∀ header ∈ table.headers, overrideFor runtime approved header ≠ some field :=
    fun other hother hgiven header hheader hpromoted =>
      h.unused header hheader field hpromoted other hother hgiven
  constructor
  · rintro (⟨-, hoverride⟩ | hfirst)
    · rw [overrideFor_append h.nonempty, Option.or_eq_some_iff] at hoverride
      rcases hoverride with hpromoted | ⟨-, hoverride⟩
      · exact Or.inr hpromoted
      · exact Or.inl (Or.inl ⟨hheader, hoverride⟩)
    · have hnamed : namedField runtime (fieldOverrides ++ approved) header = some field := by
        simpa using List.find?_some hfirst
      rw [namedField_append h.nonempty, Option.or_eq_some_iff] at hnamed
      rcases hnamed with hpromoted | ⟨-, hnamed⟩
      · exact Or.inr hpromoted
      · -- some header had the field before, so that it is not promoted
        have hfound : (table.headers.find? fun header =>
            decide (namedField runtime fieldOverrides header = some field)).isSome :=
          List.find?_isSome.mpr ⟨header, hheader, decide_eq_true hnamed⟩
        obtain ⟨other, hother⟩ := Option.isSome_iff_exists.mp hfound
        have hgiven := (mapTable_field htier1 other field).mpr (Or.inl (Or.inr hother))
        rw [h.find?_named htier1 (hunpromoted other (List.mem_of_find?_eq_some hother) hgiven)]
          at hfirst
        exact Or.inl (Or.inr hfirst)
  · rintro (hnamed | hpromoted)
    · have hgiven := (mapTable_field htier1 header field).mpr (Or.inl hnamed)
      rcases hnamed with ⟨hmem, hoverride⟩ | hfirst
      · refine Or.inl ⟨hmem, ?_⟩
        rw [overrideFor_append h.nonempty, h.kept_of_field hheader hgiven, Option.none_or,
          hoverride]
      · right
        rw [h.find?_named htier1 (hunpromoted header hheader hgiven)]
        exact hfirst
    · exact Or.inl ⟨hheader, by rw [overrideFor_append h.nonempty, hpromoted, Option.some_or]⟩

theorem ratioOf_append : ratioOf runtime (fieldOverrides ++ approved) table =
    ratioOf runtime fieldOverrides table := by
  funext header
  rw [ratioOf, ratioOf, h.find?_named htier1 h.instrument]

omit htier1 in
theorem deferredHeaders_append : deferredHeaders runtime (fieldOverrides ++ approved) table =
    (deferredHeaders runtime fieldOverrides table).filter fun header =>
      (overrideFor runtime approved header).isNone := by
  rw [deferredHeaders, deferredHeaders, List.filter_filter]
  exact List.filter_congr fun header _ => isDeferred_append h.nonempty header

/-- The promoted columns win no price field. -/
theorem kept_of_winner {header field : String} (hprice : field ∈ priceFields)
    (hwinner : priceWinner runtime fieldOverrides table field = some header) :
    overrideFor runtime approved header = none := by
  have hgiven := (mapTable_field htier1 header field).mpr (Or.inr ⟨hprice, hwinner⟩)
  have hdeferred := (List.mem_filter.mp (List.argmax_mem hwinner)).1
  exact h.kept_of_field (List.mem_filter.mp hdeferred).1 hgiven

/-- Where the words of some column name a price field, the words of its winner do. -/
theorem any_namesPrice_append {field : String} (hprice : field ∈ priceFields) :
    (deferredHeaders runtime (fieldOverrides ++ approved) table).any (namesPrice runtime field) =
      (deferredHeaders runtime fieldOverrides table).any (namesPrice runtime field) := by
  rw [h.deferredHeaders_append, Bool.eq_iff_iff]
  constructor
  · intro hany
    obtain ⟨header, hheader, hnames⟩ := List.any_eq_true.mp hany
    exact List.any_eq_true.mpr ⟨header, (List.mem_filter.mp hheader).1, hnames⟩
  · intro hany
    obtain ⟨header, hheader, hnames⟩ := List.any_eq_true.mp hany
    have hcontends : header ∈ contenders runtime (ratioOf runtime fieldOverrides table)
        (deferredHeaders runtime fieldOverrides table) field := by
      refine List.mem_filter.mpr ⟨hheader, ?_⟩
      rw [contends, if_pos hany]
      exact hnames
    -- the winner has no override of its own, so it still names the price
    obtain ⟨winner, hwinner⟩ : ∃ winner,
        priceWinner runtime fieldOverrides table field = some winner := by
      refine Option.ne_none_iff_exists'.mp fun hnone => ?_
      rw [priceWinner, List.argmax_eq_none] at hnone
      exact List.ne_nil_of_mem hcontends hnone
    obtain ⟨hdeferred, hwins⟩ := List.mem_filter.mp (List.argmax_mem hwinner)
    rw [contends, if_pos hany] at hwins
    refine List.any_eq_true.mpr ⟨winner, List.mem_filter.mpr ⟨hdeferred, ?_⟩, hwins⟩
    rw [h.kept_of_winner htier1 hprice hwinner]
    rfl

/-- The prices are given to the same columns. -/
theorem priceWinner_append {field : String} (hprice : field ∈ priceFields) :
    priceWinner runtime (fieldOverrides ++ approved) table field =
      priceWinner runtime fieldOverrides table field := by
  have hany := h.any_namesPrice_append htier1 hprice
  have hfewer : contenders runtime (ratioOf runtime fieldOverrides table)
      (deferredHeaders runtime (fieldOverrides ++ approved) table) field =
        (contenders runtime (ratioOf runtime fieldOverrides table)
          (deferredHeaders runtime fieldOverrides table) field).filter fun header =>
            (overrideFor runtime approved header).isNone := by
    unfold contenders contends
    rw [hany, h.deferredHeaders_append, List.filter_filter, List.filter_filter]
    exact List.filter_congr fun header _ => Bool.and_comm _ _
  have hstanding : standing runtime (ratioOf runtime fieldOverrides table)
      (deferredHeaders runtime (fieldOverrides ++ approved) table) field =
        standing runtime (ratioOf runtime fieldOverrides table)
          (deferredHeaders runtime fieldOverrides table) field := by
    funext header
    rw [standing, standing, hany]
  -- fewer columns contend, and the winner is among those that are left
  rw [priceWinner, h.ratioOf_append htier1, hfewer, hstanding]
  cases hwinner : priceWinner runtime fieldOverrides table field with
  | some winner =>
      refine argmax_filter hwinner ?_
      rw [h.kept_of_winner htier1 hprice hwinner]
      rfl
  | none =>
      rw [priceWinner, List.argmax_eq_none] at hwinner
      rw [hwinner]
      rfl

/-- Tier 1 gives the promoted columns their fields, and the others what it gave them. -/
theorem mapTable_append {tier1' : List Mapping}
    (htier1' : mapTable runtime (fieldOverrides ++ approved) table = .ok tier1')
    {header : String} (hheader : header ∈ table.headers) :
    fieldOf tier1' header = (fieldOf tier1 header).or (overrideFor runtime approved header) := by
  refine Option.ext fun field => ?_
  rw [mapTable_field htier1', h.namedBy_iff htier1 hheader, Option.or_eq_some_iff,
    mapTable_field htier1]
  have hprices : (field ∈ priceFields ∧
      priceWinner runtime (fieldOverrides ++ approved) table field = some header) ↔
        field ∈ priceFields ∧ priceWinner runtime fieldOverrides table field = some header :=
    and_congr_right fun hprice => by rw [h.priceWinner_append htier1 hprice]
  rw [hprices]
  constructor
  · rintro ((hnamed | hpromoted) | hpriced)
    · exact Or.inl (Or.inl hnamed)
    · refine Or.inr ⟨h.vacant header hheader ?_, hpromoted⟩
      rw [hpromoted]
      exact Option.some_ne_none field
    · exact Or.inl (Or.inr hpriced)
  · rintro ((hnamed | hpriced) | ⟨-, hpromoted⟩)
    · exact Or.inl (Or.inl hnamed)
    · exact Or.inr hpriced
    · exact Or.inl (Or.inr hpromoted)

theorem exists_mapTable_append :
    ∃ tier1', mapTable runtime (fieldOverrides ++ approved) table = .ok tier1' := by
  refine exists_mapTable_eq_ok.mpr fun header hheader hoverride => ?_
  rw [overrideFor_append h.nonempty, Option.or_eq_none_iff] at hoverride
  exact exists_mapTable_eq_ok.mp ⟨tier1, htier1⟩ header hheader hoverride.2

theorem mapTable_merge {tier1' : List Mapping}
    (htier1' : mapTable runtime (fieldOverrides ++ approved) table = .ok tier1') :
    fieldOf tier1' = merge (fieldOf tier1) (promotedField runtime approved table) := by
  funext header
  unfold merge promotedField
  split
  next hheader => exact h.mapTable_append htier1 htier1' hheader
  next hheader =>
    rw [fieldOf_of_not_mem ((mapTable_spec htier1').sources ▸ hheader),
      fieldOf_of_not_mem ((mapTable_spec htier1).sources ▸ hheader), Option.none_or]

end Promotable

/-! ## Who decided -/

/-- A mapping of Tier 1: it is not learned, and of a column with an override it is human. -/
structure Mapping.Deterministic (runtime : Runtime) (fieldOverrides : List (String × String))
    (m : Mapping) : Prop where
  unlearned : m.tier ≠ .tierLlm
  human : overrideFor runtime fieldOverrides m.sourceField ≠ none → m.tier = .tierHuman

theorem mapHeader_deterministic {state next : Tier1State} {header : String}
    (h : mapHeader runtime fieldOverrides table state header = .ok next)
    (hstate : ∀ m ∈ state.mappings, m.Deterministic runtime fieldOverrides) :
    ∀ m ∈ next.mappings, m.Deterministic runtime fieldOverrides := by
  have hadd : ∀ m : Mapping, m.Deterministic runtime fieldOverrides →
      ∀ other ∈ (state.add m).mappings, other.Deterministic runtime fieldOverrides := by
    intro m hm other hother
    rcases List.mem_append.mp hother with hold | hnew
    · exact hstate other hold
    · exact List.mem_singleton.mp hnew ▸ hm
  unfold mapHeader at h
  split at h
  next override hoverride =>
    cases h
    exact hadd _ ⟨by simp, fun _ => rfl⟩
  next hoverride =>
    have hunmatched : ∀ evidence : String,
        (Mapping.undecided header evidence).Deterministic runtime fieldOverrides :=
      fun evidence => ⟨by simp [Mapping.undecided], fun h => absurd hoverride h⟩
    dsimp only at h
    split at h
    next hnone =>
      obtain ⟨price, -, h⟩ := Fallible.bind_eq_ok.mp h
      cases price with
      | true =>
          cases h
          exact hstate
      | false =>
          cases h
          exact hadd _ (hunmatched _)
    next hit hhit =>
      have hmappable := mappable_of_aliasLookup runtime hhit
      split at h
      next =>
        cases h
        exact hstate
      next =>
        split at h
        next =>
          cases h
          exact hadd _ ⟨by simp, fun h => absurd hoverride h⟩
        next htaken =>
          have hclaimed : hit ∈ state.claimed := by
            by_contra hfree
            exact htaken ⟨hmappable, hfree⟩
          rw [if_pos hclaimed] at h
          cases h
          exact hadd _ (hunmatched _)

theorem assignStructural_unlearned {basis : String} (taken : List String)
    (scored : List (String × ℚ)) :
    ∀ m ∈ assignStructural basis taken scored, m.tier ≠ .tierLlm := by
  induction scored generalizing taken with
  | nil => exact fun m hm => absurd hm List.not_mem_nil
  | cons entry rest ih =>
      obtain ⟨header, ratio⟩ := entry
      rw [assignStructural]
      split
      next => exact List.forall_mem_cons.mpr ⟨by simp, ih _⟩
      next =>
        split
        next => exact List.forall_mem_cons.mpr ⟨by simp, ih _⟩
        next => exact List.forall_mem_cons.mpr ⟨by simp [Mapping.undecided], ih _⟩

theorem assignNamed_unlearned {field fieldWords reason : String}
    {candidates : List (String × ℚ)} :
    ∀ m ∈ assignNamed runtime field fieldWords reason candidates, m.tier ≠ .tierLlm := by
  unfold assignNamed
  split
  next => exact fun m hm => absurd hm List.not_mem_nil
  next best score surplus hsome =>
    refine List.forall_mem_cons.mpr ⟨by simp, fun m hm => ?_⟩
    obtain ⟨_, _, rfl⟩ := List.mem_map.mp hm
    simp [Mapping.undecided]

theorem mapTable_deterministic {tier1 : List Mapping}
    (h : mapTable runtime fieldOverrides table = .ok tier1) :
    ∀ m ∈ tier1, m.Deterministic runtime fieldOverrides := by
  obtain ⟨state, hfold, -, hperm, -⟩ := mapTable_eq_ok h
  intro m hm
  rcases List.mem_append.mp (hperm.mem_iff.mp hm) with hnamed | hpriced
  · exact Fallible.foldlM_ok
      (motive := fun state => ∀ m ∈ state.mappings, m.Deterministic runtime fieldOverrides)
      (fun m hm => absurd hm List.not_mem_nil)
      (fun state header _ next hstate hnext => mapHeader_deterministic hnext hstate) hfold m hnamed
  · have hdeferred : m.sourceField ∈ state.deferredPrices :=
      (resolvePrices_sources table state.deferredPrices state.mappings).mem_iff.mp
        (List.mem_map_of_mem hpriced)
    rw [(passed_of_foldlM hfold).deferred] at hdeferred
    have hkept := (List.mem_filter.mp hdeferred).2
    unfold isDeferred at hkept
    have hoverride : overrideFor runtime fieldOverrides m.sourceField = none :=
      Option.isNone_iff_eq_none.mp (Bool.and_eq_true_iff.mp hkept).1
    refine ⟨?_, fun h => absurd hoverride h⟩
    rw [resolvePrices_eq] at hpriced
    rcases List.mem_append.mp hpriced with hwords | hvaries
    · rcases List.mem_append.mp hwords with hsettlement | htrade
      · exact assignNamed_unlearned m hsettlement
      · exact assignNamed_unlearned m htrade
    · exact assignStructural_unlearned _ _ m hvaries

/-! ## What is promoted -/

/-- The resolver with the approved answers among the overrides, with this cache and nobody
to ask. -/
def TieredResolver.promote (resolver : TieredResolver) (approved : List (String × String))
    (cache : TemplateCache) : TieredResolver :=
  { resolver with
    fieldOverrides := resolver.fieldOverrides ++ approved
    adjudicator := none
    cache := cache }

variable {resolver : TieredResolver} {adjudicator : Adjudicator} {context : TableContext}
  {cache : TemplateCache}
  {learned : List (String × String)}

/-- Answers may be promoted after the adjudicator was asked. -/
theorem promotable_eq_some {outcome : ResolutionOutcome}
    (h : (resolver.asking adjudicator resolver.cache).resolve runtime table context = .ok outcome)
    (hlearned : outcome.promotable = some learned) :
    resolver.cached context = none ∧
      ∃ mappings, resolver.settledLocally runtime table context = .ok mappings ∧
        outcome.mappings = adjudicated adjudicator table context mappings ∧
        learned = learnedFrom outcome.mappings := by
  obtain ⟨tier1, htier1, h⟩ := Fallible.bind_eq_ok.mp h
  dsimp only [TieredResolver.asking] at h
  split at h
  next hasked =>
    obtain rfl := Except.ok.inj h
    have huncached := Option.isNone_iff_eq_none.mp (Option.isSome_eq_false_iff.mp hasked.2)
    refine ⟨huncached, _, Fallible.bind_eq_ok.mpr ⟨tier1, htier1, rfl⟩, runTier3_mappings _, ?_⟩
    unfold TieredResolver.runTier3 at hlearned ⊢
    dsimp only at hlearned ⊢
    split at hlearned
    next hused =>
      rw [if_pos hused]
      exact (Option.some.inj hlearned).symm
    next => cases hlearned
  next =>
    obtain rfl := Except.ok.inj h
    cases hlearned

theorem mem_learnedFrom {mappings : List Mapping} {header field : String} :
    (header, field) ∈ learnedFrom mappings ↔ ∃ m ∈ mappings,
      m.sourceField = header ∧ m.tier = .tierLlm ∧ truthy m.canonicalField = some field := by
  unfold learnedFrom
  rw [List.mem_filterMap]
  constructor
  · rintro ⟨m, hm, hpair⟩
    split at hpair
    next htier =>
      obtain ⟨_, hfield, heq⟩ := Option.map_eq_some_iff.mp hpair
      obtain ⟨hsource, rfl⟩ := Prod.mk.inj heq
      exact ⟨m, hm, hsource, htier, hfield⟩
    next => cases hpair
  · rintro ⟨m, hm, rfl, htier, hfield⟩
    exact ⟨m, hm, by rw [if_pos htier, hfield]; rfl⟩

/-- A stage stamps what it resolves. -/
theorem Fair.stamped {change : List String → Mapping → Mapping} (hfair : Fair change) {tier : Tier}
    (htier : ∀ taken m, m.canonicalField = none → (change taken m).canonicalField ≠ none →
      (change taken m).tier = tier)
    {mappings : List Mapping} (hnodup : (mappings.map Mapping.sourceField).Nodup) {m : Mapping}
    (hm : m ∈ settleUnresolved change [] mappings) (hsome : m.canonicalField ≠ none) :
    m ∈ mappings ∨ fieldOf mappings m.sourceField = none ∧ m.tier = tier := by
  have hkeeps := (hfair.stage mappings).keeps
  have hsources := Keeps.sources hkeeps
  obtain ⟨before, hbefore, hsource⟩ : ∃ before ∈ mappings, before.sourceField = m.sourceField :=
    List.mem_map.mp (hsources ▸ List.mem_map_of_mem hm)
  have hnodupAfter : ((settleUnresolved change [] mappings).map Mapping.sourceField).Nodup :=
    hsources ▸ hnodup
  cases hfield : before.canonicalField with
  | some field =>
      have hkept := Keeps.mem_of_resolved hkeeps hbefore
        (by rw [hfield]; exact Option.some_ne_none field)
      exact Or.inl (List.inj_on_of_nodup_map hnodupAfter hkept hm hsource ▸ hbefore)
  | none =>
      have hturn := @settleUnresolved_turn change [] _ _ hbefore hnodup hfield
      have hsame := List.inj_on_of_nodup_map hnodupAfter hturn hm
        ((hfair.source _ before).trans hsource)
      refine Or.inr ⟨?_, ?_⟩
      · rw [← hsource, fieldOf_of_mem hnodup hbefore, hfield]
      · rw [← hsame] at hsome ⊢
        exact htier _ before hfield hsome

section Learned

variable (hfuzzy : resolver.scorer = fuzzyScorer) (hnames : NamesFields adjudicator)
  (hcached : resolver.cached context = none) {mappings tier1 : List Mapping}
  (htier1 : mapTable runtime resolver.fieldOverrides table = .ok tier1)
  (hlocal : resolver.settledLocally runtime table context = .ok mappings)

include hfuzzy hcached htier1 hlocal in
/-- Nothing is learned before the adjudicator is asked. -/
theorem settledLocally_unlearned {m : Mapping} (hm : m ∈ mappings)
    (hsome : m.canonicalField ≠ none) : m.tier ≠ .tierLlm := by
  have hnodup : (tier1.map Mapping.sourceField).Nodup :=
    (mapTable_spec htier1).sources ▸ table.headers_nodup
  rw [← settledLocally_of_uncached hcached htier1 hlocal, hfuzzy] at hm
  rcases (@fair_applyTier2 runtime fuzzyScorer).stamped
    (fun _ _ => tier_of_applyTier2) hnodup hm hsome with hbefore | ⟨-, htier⟩
  · exact (mapTable_deterministic htier1 m hbefore).unlearned
  · rw [htier]
    decide

include hfuzzy hnames hcached htier1 hlocal in
/-- What is learned: the fields of the columns that were left to the adjudicator. -/
theorem mem_learned_iff {header field : String} :
    (header, field) ∈ learnedFrom (adjudicated adjudicator table context mappings) ↔
      fieldOf mappings header = none ∧
        fieldOf (adjudicated adjudicator table context mappings) header = some field := by
  obtain ⟨hsources, hnamed, -⟩ := settledLocally_spec hfuzzy hlocal
  have hnodup := nodup_of_sources hsources
  have hnodupEnd :=
    nodup_of_sources (@adjudicated_spec _ context _ hnames _ hsources hnamed).1
  have hnamedEnd : Named (adjudicated adjudicator table context mappings) :=
    ((gives_applyTier3 (adjudicator (requestFor table context mappings)).model
      (answered_asMap hnames (requestFor table context mappings))).stage hnodup hnamed).2.1
  have hstamped := fun m => @Fair.stamped _ (fair_applyTier3 (adjudicator (requestFor table context
    mappings)).model (adjudicator (requestFor table context mappings)).asMap) .tierLlm
    (fun _ _ => tier_of_applyTier3) mappings hnodup m
  rw [mem_learnedFrom]
  constructor
  · rintro ⟨m, hm, rfl, htier, hfield⟩
    have hvalue := (truthy_eq_some.mp hfield).1
    have hsome : m.canonicalField ≠ none := by
      rw [hvalue]
      exact Option.some_ne_none field
    refine ⟨?_, (fieldOf_of_mem hnodupEnd hm).trans hvalue⟩
    rcases hstamped m hm hsome with hbefore | ⟨hnone, -⟩
    · exact absurd htier (settledLocally_unlearned hfuzzy hcached htier1 hlocal hbefore hsome)
    · exact hnone
  · rintro ⟨hnone, hfield⟩
    obtain ⟨m, hm, rfl, hvalue⟩ := (fieldOf_eq_some hnodupEnd).mp hfield
    have hsome : m.canonicalField ≠ none := by
      rw [hvalue]
      exact Option.some_ne_none field
    refine ⟨m, hm, rfl, ?_, ?_⟩
    · rcases hstamped m hm hsome with hbefore | ⟨-, htier⟩
      · rw [fieldOf_of_mem hnodup hbefore] at hnone
        exact absurd hnone hsome
      · exact htier
    · rw [hvalue]
      exact truthy_of_ne fun hempty => hnamedEnd m hm (hempty ▸ hvalue)

end Learned

/-- The approved answers are found under the headers that they were given for. -/
theorem overrideFor_approved {target : String → Option String}
    (hanswers : ∀ pair ∈ approved, pair.2 ≠ "" ∧ target pair.1 = some pair.2)
    (hforms : ∀ pair ∈ approved, ∀ header ∈ table.headers,
      normalizeHeader runtime header = normalizeHeader runtime pair.1 → header = pair.1)
    {header field : String} (hheader : header ∈ table.headers) :
    overrideFor runtime approved header = some field ↔ (header, field) ∈ approved := by
  have hwritten : ∀ value, (normalizeHeader runtime header, value) ∈ approved.map (fun pair =>
      (normalizeHeader runtime pair.1, pair.2)) ↔ (header, value) ∈ approved := by
    intro value
    rw [List.mem_map]
    constructor
    · rintro ⟨⟨source, field⟩, hpair, heq⟩
      obtain ⟨hform, rfl⟩ := Prod.mk.inj heq
      obtain rfl := hforms _ hpair header hheader hform.symm
      exact hpair
    · exact fun hpair => ⟨(header, value), hpair, rfl⟩
  unfold overrideFor overrideIndex
  rw [Option.filter_eq_some_iff]
  constructor
  · rintro ⟨hget, -⟩
    exact (hwritten field).mp (Dict.mem_of_get?_ofPairs hget)
  · intro hpair
    obtain ⟨hne, htarget⟩ := hanswers _ hpair
    refine ⟨Dict.get?_ofPairs_of_mem ((hwritten field).mpr hpair) fun other hother => ?_,
      by simpa using hne⟩
    have hother := (hanswers _ ((hwritten other).mp hother)).2
    exact Option.some.inj (hother.symm.trans htarget)

theorem exists_resolve_promote {mappings : List Mapping}
    (h : (resolver.promote approved cache).settledLocally runtime table context = .ok mappings) :
    ∃ outcome, (resolver.promote approved cache).resolve runtime table context = .ok outcome ∧
      outcome.mappings = mappings := by
  obtain ⟨tier1, htier1, h⟩ := Fallible.bind_eq_ok.mp h
  obtain rfl := Except.ok.inj h
  exact ⟨_, Fallible.bind_eq_ok.mpr ⟨tier1, htier1, rfl⟩, rfl⟩

/-- The ladder adds the approved answers to what it settles, as the decisions of a human. -/
theorem settledLocally_promote (hfuzzy : resolver.scorer = fuzzyScorer)
    (hcached : resolver.cached context = none)
    (hforgotten : (resolver.promote approved cache).cached context = none)
    {mappings : List Mapping}
    (hlocal : resolver.settledLocally runtime table context = .ok mappings)
    (h : Promotable runtime approved table (fieldOf mappings)) :
    ∃ mappings', (resolver.promote approved cache).settledLocally runtime table context =
        .ok mappings' ∧
      fieldOf mappings' = merge (fieldOf mappings) (promotedField runtime approved table) ∧
      ∀ m ∈ mappings', overrideFor runtime approved m.sourceField ≠ none →
        m.tier = .tierHuman := by
  obtain ⟨-, -, tier1, htier1, hfields⟩ := settledLocally_spec hfuzzy hlocal
  rw [hcached, startOf] at hfields
  rw [hfields] at h
  have hpromotable := h.of_extends extends_pass
  obtain ⟨tier1', htier1'⟩ := hpromotable.exists_mapTable_append htier1
  have hlocal' : (resolver.promote approved cache).settledLocally runtime table context =
      .ok ((resolver.promote approved cache).runTier2 runtime
        ((resolver.promote approved cache).remembered context tier1')) :=
    Fallible.bind_eq_ok.mpr ⟨tier1', htier1', rfl⟩
  refine ⟨_, hlocal', ?_, fun m hm hpromoted => ?_⟩
  · obtain ⟨-, -, first, hfirst, hfields'⟩ :=
      @settledLocally_spec runtime (resolver.promote approved cache) table context hfuzzy _ hlocal'
    obtain rfl := Except.ok.inj (htier1'.symm.trans hfirst)
    rw [hfields', hforgotten, startOf, hpromotable.mapTable_merge htier1 htier1', h.pass_merge,
      hfields]
  · have hsources := (mapTable_spec htier1').sources
    have hkeeps := (((resolver.promote approved cache).stage_remembered context tier1').trans
      (@TieredResolver.stage_runTier2 runtime (resolver.promote approved cache) _)).keeps
    obtain ⟨first, hfirst, hsource⟩ : ∃ first ∈ tier1', first.sourceField = m.sourceField :=
      List.mem_map.mp (Keeps.sources hkeeps ▸ List.mem_map_of_mem hm)
    have hheader : m.sourceField ∈ table.headers :=
      hsources ▸ hsource ▸ List.mem_map_of_mem hfirst
    obtain ⟨field, hfield⟩ := Option.ne_none_iff_exists'.mp hpromoted
    have hgiven : first.canonicalField = some field := by
      rw [← fieldOf_of_mem (hsources ▸ table.headers_nodup) hfirst, hsource,
        hpromotable.mapTable_append htier1 htier1' hheader,
        hpromotable.vacant _ hheader hpromoted, Option.none_or, hfield]
    have hkept := Keeps.mem_of_resolved hkeeps hfirst
      (by rw [hgiven]; exact Option.some_ne_none field)
    rw [← List.inj_on_of_nodup_map (Keeps.sources hkeeps ▸ hsources ▸ table.headers_nodup)
      hkept hm hsource]
    refine (mapTable_deterministic htier1' first hfirst).human ?_
    rw [hsource, overrideFor_append h.nonempty, hfield, Option.some_or]
    exact Option.some_ne_none field

/-- Answers of the adjudicator that a reviewer has approved may be written into the overrides
of the client, unless one of them is for the instruments or under a header that another
one is taken for. With nobody to ask and nothing cached for the layout, the same table is
then given the same fields, except that an answer that was not approved is missing; and what
was approved is human. -/
theorem resolve_promoted (runtime : Runtime) (resolver : TieredResolver)
    (hfuzzy : resolver.scorer = fuzzyScorer) (adjudicator : Adjudicator)
    (hnames : NamesFields adjudicator) (table : ParsedTable) (context : TableContext)
    (outcome : ResolutionOutcome)
    (h : (resolver.asking adjudicator resolver.cache).resolve runtime table context = .ok outcome)
    (learned : List (String × String)) (hlearned : outcome.promotable = some learned)
    (approved : List (String × String)) (happroved : approved ⊆ learned)
    (hforms : ∀ pair ∈ approved, ∀ header ∈ table.headers,
      normalizeHeader runtime header = normalizeHeader runtime pair.1 → header = pair.1)
    (hinstrument : ∀ pair ∈ approved, pair.2 ≠ "instrument_id") (cache : TemplateCache)
    (hforgotten : (resolver.promote approved cache).cached context = none) :
    ∃ outcome', (resolver.promote approved cache).resolve runtime table context = .ok outcome' ∧
      (∀ header ∈ table.headers, ∀ field, fieldOf outcome'.mappings header = some field ↔
        fieldOf outcome.mappings header = some field ∧
          ((header, field) ∈ learned → (header, field) ∈ approved)) ∧
      ∀ m ∈ outcome'.mappings, m.sourceField ∈ approved.map Prod.fst → m.tier = .tierHuman := by
  obtain ⟨hcached, mappings, hlocal, hend, hfrom⟩ := promotable_eq_some h hlearned
  obtain ⟨hsources, hnamed, tier1, htier1, -⟩ := settledLocally_spec hfuzzy hlocal
  have hadjudicated := (@adjudicated_spec _ context _ hnames _ hsources hnamed).2
  have hmem : ∀ header field, (header, field) ∈ learned ↔
      fieldOf mappings header = none ∧ fieldOf outcome.mappings header = some field := by
    intro header field
    rw [hfrom, hend]
    exact mem_learned_iff hfuzzy hnames hcached htier1 hlocal
  rw [← hend] at hadjudicated
  have hextends : Extends (fieldOf mappings) (fieldOf outcome.mappings) :=
    hadjudicated ▸ extends_pass
  have hanswers : ∀ pair ∈ approved,
      pair.2 ≠ "" ∧ fieldOf outcome.mappings pair.1 = some pair.2 := by
    intro pair hpair
    refine ⟨?_, ((hmem pair.1 pair.2).mp (happroved hpair)).2⟩
    obtain ⟨m, -, -, -, hvalue⟩ := mem_learnedFrom.mp (hfrom ▸ happroved hpair)
    exact (truthy_eq_some.mp hvalue).2
  have hoverride : ∀ header ∈ table.headers, ∀ field,
      overrideFor runtime approved header = some field ↔ (header, field) ∈ approved :=
    fun header hheader field => overrideFor_approved hanswers hforms hheader
  have hpromotable : Promotable runtime approved table (fieldOf mappings) := by
    refine ⟨fun pair hpair => (hanswers pair hpair).1, ?_, ?_, ?_⟩
    · intro header hheader hpromoted
      obtain ⟨field, hfield⟩ := Option.ne_none_iff_exists'.mp hpromoted
      exact ((hmem _ _).mp (happroved ((hoverride header hheader field).mp hfield))).1
    · -- what the adjudicator gave was free, so no settled column has it
      intro header hheader field hfield other hother hused
      obtain ⟨hnone, hgiven⟩ := (hmem _ _).mp
        (happroved ((hoverride header hheader field).mp hfield))
      rw [hadjudicated] at hgiven
      exact free_recalled.not_mem_of_pass table.headers_nodup hheader hnone hgiven
        (mem_taken.mpr ⟨other, hother, hused⟩)
    · intro header hheader hpromoted
      exact hinstrument _ ((hoverride header hheader _).mp hpromoted) rfl
  obtain ⟨mappings', hlocal', hfields, hhuman⟩ :=
    settledLocally_promote hfuzzy hcached hforgotten hlocal hpromotable
  obtain ⟨outcome', hrun, rfl⟩ := exists_resolve_promote hlocal'
  refine ⟨outcome', hrun, fun header hheader field => ?_, fun m hm hsource => ?_⟩
  · rw [hfields, merge, promotedField, if_pos hheader, Option.or_eq_some_iff,
      hoverride header hheader]
    constructor
    · rintro (hsettled | ⟨-, hpair⟩)
      · refine ⟨hextends header field hsettled, fun hpair => ?_⟩
        rw [((hmem _ _).mp hpair).1] at hsettled
        cases hsettled
      · exact ⟨(hanswers _ hpair).2, fun _ => hpair⟩
    · rintro ⟨hgiven, hkept⟩
      cases hsettled : fieldOf mappings header with
      | none => exact Or.inr ⟨rfl, hkept ((hmem _ _).mpr ⟨hsettled, hgiven⟩)⟩
      | some other => exact Or.inl ((hextends header other hsettled).symm.trans hgiven)
  · have hheader : m.sourceField ∈ table.headers :=
      (@settledLocally_spec runtime (resolver.promote approved cache) table context hfuzzy _
        hlocal').1 ▸ List.mem_map_of_mem hm
    obtain ⟨⟨header, field⟩, hpair, hsame⟩ := List.mem_map.mp hsource
    obtain rfl : header = m.sourceField := hsame
    refine hhuman m hm ?_
    rw [(hoverride _ hheader field).mpr hpair]
    exact Option.some_ne_none field

/-- The currencies are found again without the adjudicator; unless nothing is approved. -/
theorem resolve_promoted_terse : ∃ outcome outcome' unapproved,
    (terseResolver.asking (deterministicFake .ascii .ascii) terseResolver.cache).resolve .ascii
      terseTable terseContext = .ok outcome ∧
    (terseResolver.promote [("$", "currency")] .empty).resolve .ascii terseTable terseContext =
      .ok outcome' ∧
    (terseResolver.promote [] .empty).resolve .ascii terseTable terseContext = .ok unapproved ∧
    fieldOf outcome'.mappings "$" = fieldOf outcome.mappings "$" ∧
    fieldOf unapproved.mappings "$" ≠ some "currency" := by
  obtain ⟨outcome, request, hrun, -, hpromotable⟩ := terse_outcome
  obtain ⟨outcome', hrun', hfields, -⟩ := resolve_promoted .ascii terseResolver rfl
    (deterministicFake .ascii .ascii) namesFields_deterministicFake terseTable terseContext
    outcome hrun _ hpromotable [("$", "currency")] (by decide) (by decide) (by decide) .empty rfl
  obtain ⟨unapproved, hrefused, hkept, -⟩ := resolve_promoted .ascii terseResolver rfl
    (deterministicFake .ascii .ascii) namesFields_deterministicFake terseTable terseContext
    outcome hrun _ hpromotable [] (by decide) (by decide) (by decide) .empty rfl
  refine ⟨outcome, outcome', unapproved, hrun, hrun', hrefused, ?_, fun hfield => ?_⟩
  · refine Option.ext fun field => ?_
    rw [hfields "$" (by decide)]
    refine and_iff_left_of_imp fun _ hpair => hpair
  · exact absurd (((hkept "$" (by decide) _).mp hfield).2 List.mem_cons_self) List.not_mem_nil

end Harbormaster.Inspector
