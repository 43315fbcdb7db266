import Mathlib.Data.Fintype.EquivFin
import Harbormaster.Inspector.Classify
import Harbormaster.Inspector.Rounds
import Harbormaster.Inspector.Spelling

/-! # Replaying an adjudicated layout

What the adjudicator resolved is cached under the layout of the table, which disregards
how headers are spelled, and under the headers as they are written. With the fuzzy matcher
alone the cache gives the same fields the second time, although it comes before Tier 2; but
the headers have to be the same ones.
-/

namespace Harbormaster.Inspector

open Ordered Offers

/-! ## The ladder without its last tier -/

namespace TieredResolver

variable (runtime : Runtime) (resolver : TieredResolver)

/-- What is settled before the adjudicator is asked. -/
def settledLocally (table : ParsedTable) (context : TableContext) :
    Except Signal (List Mapping) := do
  let tier1 ← mapTable runtime resolver.fieldOverrides table
  return resolver.runTier2 runtime (resolver.remembered context tier1)

/-- The resolver with this adjudicator and this cache. -/
def asking (adjudicator : Adjudicator) (cache : TemplateCache) : TieredResolver :=
  { resolver with adjudicator := some adjudicator, cache := cache }

end TieredResolver

/-- What the adjudicator makes of the columns that are left. -/
def adjudicated (adjudicator : Adjudicator) (table : ParsedTable) (context : TableContext)
    (mappings : List Mapping) : List Mapping :=
  let result := adjudicator (requestFor table context mappings)
  settleUnresolved (applyTier3 result.model result.asMap) [] mappings

/-- The cache after the adjudicator was asked: what it resolved is kept under the layout. -/
def cacheAfter (adjudicator : Adjudicator) (table : ParsedTable) (context : TableContext)
    (mappings : List Mapping) (cache : TemplateCache) : TemplateCache :=
  if (unresolved mappings).length -
        (unresolved (adjudicated adjudicator table context mappings)).length ≠ 0 ∧
      context.templateFingerprint ≠ "" ∧ context.clientId ≠ "" then
    cache.set (context.templateFingerprint, context.clientId)
      (.ofPairs (learnedFrom (adjudicated adjudicator table context mappings)))
  else cache

/-- The fields that an adjudicator names are not empty. -/
def NamesFields (adjudicator : Adjudicator) : Prop :=
  ∀ request, ∀ f ∈ (adjudicator request).fields, f.canonicalField ≠ some ""

/-- Resolved after the first table with the cache that this left, the second table is given
the same fields. -/
def Replays (runtime : Runtime) (resolver : TieredResolver) (adjudicator : Adjudicator)
    (table table' : ParsedTable) (context context' : TableContext) (spell : String → String) :
    Prop :=
  ∀ outcome outcome' : ResolutionOutcome,
    (resolver.asking adjudicator resolver.cache).resolve runtime table context = .ok outcome →
    (resolver.asking adjudicator outcome.cache).resolve runtime table' context' = .ok outcome' →
    ∀ header ∈ table.headers,
      fieldOf outcome'.mappings (spell header) = fieldOf outcome.mappings header

variable {runtime : Runtime} {resolver : TieredResolver} {table table' : ParsedTable}
  {context context' : TableContext} {adjudicator : Adjudicator}

theorem answered_asMap (hnames : NamesFields adjudicator) (request : AdjudicationRequest)
    (header : String) : answered (adjudicator request).asMap header ≠ some "" := by
  intro h
  obtain ⟨answer, hanswer, hfield⟩ := Option.bind_eq_some_iff.mp h
  obtain ⟨f, hf, hpair⟩ := List.mem_map.mp (Dict.mem_of_get?_ofPairs hanswer)
  obtain ⟨-, rfl⟩ := Prod.mk.inj hpair
  exact hnames request f hf hfield

theorem named_mapTable {fieldOverrides : List (String × String)} {tier1 : List Mapping}
    (h : mapTable runtime fieldOverrides table = .ok tier1) : Named tier1 := by
  intro m hm hempty
  have hsources := (mapTable_spec h).sources
  have hfield := fieldOf_of_mem (hsources ▸ table.headers_nodup) hm
  rcases (mapTable_field h m.sourceField "").mp (hfield.trans hempty) with hnamed | ⟨hprice, -⟩
  · have hname : namedField runtime fieldOverrides m.sourceField = some "" := by
      rcases hnamed with ⟨-, hoverride⟩ | hfound
      · exact namedField_of_override hoverride
      · simpa using List.find?_some hfound
    unfold namedField at hname
    split at hname
    next override hoverride => exact override_ne_empty hoverride (Option.some.inj hname)
    next =>
      have halias := (Option.filter_eq_some_iff.mp hname).1
      exact mappable_ne_empty (mappable_of_aliasLookup runtime halias) rfl
  · exact absurd hprice (by decide)

/-! ## What is settled locally -/

/-- The fields of Tier 1 and the cache. -/
def startOf (headers : List String) (memory : Option (Dict String String))
    (given : String → Option String) : String → Option String :=
  match memory with
  | some learned => pass headers (recalled (learnedField learned)) headers given
  | none => given

theorem settledLocally_spec (hfuzzy : resolver.scorer = fuzzyScorer) {mappings : List Mapping}
    (h : resolver.settledLocally runtime table context = .ok mappings) :
    mappings.map Mapping.sourceField = table.headers ∧ Named mappings ∧
      ∃ tier1, mapTable runtime resolver.fieldOverrides table = .ok tier1 ∧
        fieldOf mappings = pass table.headers (fuzzyOffer runtime) table.headers
          (startOf table.headers (resolver.cached context) (fieldOf tier1)) := by
  obtain ⟨tier1, htier1, h⟩ := Fallible.bind_eq_ok.mp h
  obtain rfl := Except.ok.inj h
  have hsources := (mapTable_spec htier1).sources
  have hnodup : (tier1.map Mapping.sourceField).Nodup := hsources ▸ table.headers_nodup
  have hremembered : (resolver.remembered context tier1).map Mapping.sourceField =
        table.headers ∧
      Named (resolver.remembered context tier1) ∧
      fieldOf (resolver.remembered context tier1) =
        startOf table.headers (resolver.cached context) (fieldOf tier1) := by
    unfold TieredResolver.remembered startOf
    cases resolver.cached context with
    | none => exact ⟨hsources, named_mapTable htier1, rfl⟩
    | some learned =>
        rw [← hsources]
        exact (gives_applyLearned learned).stage hnodup (named_mapTable htier1)
  obtain ⟨hsources', hnamed, hstart⟩ := hremembered
  obtain ⟨hsourcesEnd, hnamedEnd, hend⟩ := (@gives_applyTier2 runtime).stage
    (hsources' ▸ table.headers_nodup) hnamed
  rw [hsources'] at hsourcesEnd hend
  unfold TieredResolver.runTier2
  rw [hfuzzy]
  exact ⟨hsourcesEnd, hnamedEnd, tier1, htier1, hstart ▸ hend⟩

theorem settledLocally_of_uncached (hcached : resolver.cached context = none)
    {mappings tier1 : List Mapping}
    (htier1 : mapTable runtime resolver.fieldOverrides table = .ok tier1)
    (h : resolver.settledLocally runtime table context = .ok mappings) :
    settleUnresolved (applyTier2 runtime resolver.scorer) [] tier1 = mappings := by
  obtain ⟨tier1', htier1', h⟩ := Fallible.bind_eq_ok.mp h
  obtain rfl := Except.ok.inj (htier1.symm.trans htier1')
  have hremembered : resolver.remembered context tier1 = tier1 := by
    unfold TieredResolver.remembered
    rw [hcached]
  rw [← Except.ok.inj h, hremembered, TieredResolver.runTier2]

theorem fuzzyOffer_respelled {first second : String}
    (h : normalizeHeader runtime first = normalizeHeader runtime second) (taken : List String) :
    fuzzyOffer runtime taken first = fuzzyOffer runtime taken second := by
  refine Option.ext fun field => ?_
  rw [fuzzyOffer_eq_some, fuzzyOffer_eq_some, h]

/-- Where the cache has nothing, tables that look alike to Tier 1 are settled alike. -/
theorem settledLocally_alike (hfuzzy : resolver.scorer = fuzzyScorer) {spell : String → String}
    (h : Respelled runtime table table' spell)
    (hsame : ∀ header ∈ table.headers, Alike (spell header) header)
    (hcached : resolver.cached context = none) (hcached' : resolver.cached context' = none)
    {mappings mappings' : List Mapping}
    (hlocal : resolver.settledLocally runtime table context = .ok mappings)
    (hlocal' : resolver.settledLocally runtime table' context' = .ok mappings') :
    ∀ header ∈ table.headers, fieldOf mappings' (spell header) = fieldOf mappings header := by
  obtain ⟨-, -, tier1, htier1, hfields⟩ := settledLocally_spec hfuzzy hlocal
  obtain ⟨-, -, tier1', htier1', hfields'⟩ := settledLocally_spec hfuzzy hlocal'
  rw [hfields, hfields', hcached, hcached', h.headers]
  exact pass_map (fun _ hfirst _ hsecond => h.injective hfirst hsecond) (List.Subset.refl _)
    (fun header hheader => h.mapTable_eq hsame htier1 htier1' hheader)
    fun values header hheader => fuzzyOffer_respelled (h.form header hheader) values

/-! ## What the adjudicator adds -/

theorem adjudicated_spec (hnames : NamesFields adjudicator) {mappings : List Mapping}
    (hsources : mappings.map Mapping.sourceField = table.headers) (hnamed : Named mappings) :
    (adjudicated adjudicator table context mappings).map Mapping.sourceField = table.headers ∧
      fieldOf (adjudicated adjudicator table context mappings) =
        pass table.headers (recalled (answered
          (adjudicator (requestFor table context mappings)).asMap)) table.headers
          (fieldOf mappings) := by
  have hnodup : (mappings.map Mapping.sourceField).Nodup := hsources ▸ table.headers_nodup
  obtain ⟨hsourcesEnd, -, hend⟩ := (gives_applyTier3
    (adjudicator (requestFor table context mappings)).model
    (answered_asMap hnames (requestFor table context mappings))).stage hnodup hnamed
  rw [hsources] at hsourcesEnd hend
  exact ⟨hsourcesEnd, hend⟩

theorem runTier3_mappings (outcome : ResolutionOutcome) :
    (TieredResolver.runTier3 adjudicator table context outcome).mappings =
      adjudicated adjudicator table context outcome.mappings := by
  unfold TieredResolver.runTier3
  dsimp only
  split <;> rfl

theorem runTier3_cache (outcome : ResolutionOutcome) :
    (TieredResolver.runTier3 adjudicator table context outcome).cache =
      cacheAfter adjudicator table context outcome.mappings outcome.cache := by
  unfold TieredResolver.runTier3
  dsimp only
  split
  next hused => exact (if_pos hused).symm
  next hidle => exact (if_neg hidle).symm

theorem cacheAfter_eq_or (mappings : List Mapping) (cache : TemplateCache) :
    cacheAfter adjudicator table context mappings cache = cache ∨
      cacheAfter adjudicator table context mappings cache =
        cache.set (context.templateFingerprint, context.clientId)
          (.ofPairs (learnedFrom (adjudicated adjudicator table context mappings))) := by
  unfold cacheAfter
  split
  next => exact Or.inr rfl
  next => exact Or.inl rfl

/-- A resolution with an adjudicator: it is asked unless the cache knows the layout or
nothing is left, and what it adds may be cached. -/
theorem resolve_eq_ok (hadjudicator : resolver.adjudicator = some adjudicator)
    {outcome : ResolutionOutcome}
    (h : resolver.resolve runtime table context = .ok outcome) :
    ∃ mappings, resolver.settledLocally runtime table context = .ok mappings ∧
      (((resolver.cached context).isSome ∨ unresolved mappings = []) ∧
          outcome.mappings = mappings ∧ outcome.cache = resolver.cache ∨
        resolver.cached context = none ∧ unresolved mappings ≠ [] ∧
          outcome.mappings = adjudicated adjudicator table context mappings ∧
          outcome.cache = cacheAfter adjudicator table context mappings resolver.cache) := by
  obtain ⟨tier1, htier1, h⟩ := Fallible.bind_eq_ok.mp h
  refine ⟨_, Fallible.bind_eq_ok.mpr ⟨tier1, htier1, rfl⟩, ?_⟩
  rw [hadjudicator] at h
  dsimp only at h
  generalize resolver.runTier2 runtime (resolver.remembered context tier1) = mappings at h ⊢
  split at h
  next hasked =>
    obtain rfl := Except.ok.inj h
    have hnone : resolver.cached context = none := by simpa using hasked.2
    exact Or.inr ⟨hnone, hasked.1, runTier3_mappings _, runTier3_cache _⟩
  next hquiet =>
    obtain rfl := Except.ok.inj h
    refine Or.inl ⟨?_, rfl, rfl⟩
    by_contra hasked
    rw [not_or] at hasked
    exact hquiet ⟨hasked.2, by simpa using hasked.1⟩

theorem exists_resolve (adjudicator : Adjudicator) {mappings : List Mapping}
    (h : resolver.settledLocally runtime table context = .ok mappings) :
    ∃ outcome, (resolver.asking adjudicator resolver.cache).resolve runtime table context =
      .ok outcome := by
  obtain ⟨tier1, htier1, -⟩ := Fallible.bind_eq_ok.mp h
  unfold TieredResolver.resolve
  dsimp only [TieredResolver.asking]
  rw [htier1]
  dsimp only [bind, Except.bind]
  split <;> exact ⟨_, rfl⟩

/-! ## Requests -/

/-- The request about a table whose columns have these fields. -/
def requestOf (table : ParsedTable) (context : TableContext) (fields : String → Option String) :
    AdjudicationRequest where
  clientId := context.clientId
  clientName := context.clientName
  sourceHint := context.sourceHint
  domain := context.domain
  templateFingerprint := context.templateFingerprint
  unresolvedHeaders := table.headers.filter fun header => fields header = none
  resolved := table.headers.filterMap fun header => (fields header).map fun field => (header, field)
  samples := (table.headers.filter fun header => fields header = none).map fun header =>
    (header, (table.column header).take sampleRows)

theorem requestOf_congr (context : TableContext) (fields : String → Option String)
    (hheaders : table'.headers = table.headers)
    (hcolumn : ∀ header ∈ table.headers, table'.column header = table.column header) :
    requestOf table' context fields = requestOf table context fields := by
  have hsamples : ((table.headers.filter fun header => fields header = none).map fun header =>
      (header, (table'.column header).take sampleRows)) =
        (table.headers.filter fun header => fields header = none).map fun header =>
          (header, (table.column header).take sampleRows) :=
    List.map_congr_left fun header hheader => by rw [hcolumn header (List.mem_filter.mp hheader).1]
  rw [requestOf, requestOf, hheaders, hsamples]

section Request

variable {mappings : List Mapping} (hsources : mappings.map Mapping.sourceField = table.headers)

include hsources

theorem nodup_of_sources : (mappings.map Mapping.sourceField).Nodup :=
  hsources ▸ table.headers_nodup

theorem unresolved_sources : (unresolved mappings).map Mapping.sourceField =
    table.headers.filter fun header => fieldOf mappings header = none := by
  rw [← hsources, List.filter_map]
  refine congrArg (List.map Mapping.sourceField) (List.filter_congr fun m hm => ?_)
  rw [Function.comp_apply, fieldOf_of_mem (nodup_of_sources hsources) hm]

theorem requestFor_eq (context : TableContext) :
    requestFor table context mappings = requestOf table context (fieldOf mappings) := by
  have hresolved : (mappings.filterMap fun m => m.canonicalField.map fun field =>
      (m.sourceField, field)) = table.headers.filterMap fun header =>
        (fieldOf mappings header).map fun field => (header, field) := by
    rw [← hsources, List.filterMap_map]
    refine List.filterMap_congr fun m hm => ?_
    rw [Function.comp_apply, fieldOf_of_mem (nodup_of_sources hsources) hm]
  have hsamples : ((unresolved mappings).map fun m =>
      (m.sourceField, (table.column m.sourceField).take sampleRows)) =
        ((unresolved mappings).map Mapping.sourceField).map fun header =>
          (header, (table.column header).take sampleRows) := by
    rw [List.map_map]
    rfl
  rw [requestFor, hresolved, hsamples, unresolved_sources hsources, requestOf]

theorem unresolved_eq_nil_iff :
    unresolved mappings = [] ↔ ∀ header ∈ table.headers, fieldOf mappings header ≠ none := by
  rw [← @List.map_eq_nil_iff _ _ Mapping.sourceField, unresolved_sources hsources,
    List.filter_eq_nil_iff]
  simp

end Request

theorem eq_of_map_eq {spell : String → String} {headers : List String}
    (h : headers.map spell = headers) : ∀ header ∈ headers, spell header = header :=
  List.map_inj_left.mp (h.trans (List.map_id headers).symm)

/-- A request tells the spelling of every header. -/
theorem eq_of_requestOf_eq {spell : String → String} {fields fields' : String → Option String}
    (h : Respelled runtime table table' spell)
    (hagree : ∀ header ∈ table.headers, fields' (spell header) = fields header)
    (hclient : context'.clientId = context.clientId)
    (hfingerprint : context'.templateFingerprint = context.templateFingerprint)
    (hrequest : requestOf table' context' fields' = requestOf table context fields) :
    (∀ header ∈ table.headers, spell header = header) ∧ context' = context := by
  constructor
  · have hleft := congrArg AdjudicationRequest.unresolvedHeaders hrequest
    have hresolved := congrArg (fun request => request.resolved.map Prod.fst) hrequest
    dsimp only [requestOf] at hleft hresolved
    have hfilter : table'.headers.filter (fun header => fields' header = none) =
        (table.headers.filter fun header => fields header = none).map spell := by
      rw [h.headers, List.filter_map]
      refine congrArg (List.map spell) (List.filter_congr fun header hheader => ?_)
      rw [Function.comp_apply, hagree header hheader]
    have hnames : (table'.headers.filterMap fun header =>
        (fields' header).map fun field => (header, field)).map Prod.fst =
          ((table.headers.filterMap fun header =>
            (fields header).map fun field => (header, field)).map Prod.fst).map spell := by
      rw [h.headers, List.filterMap_map, List.map_filterMap, List.map_filterMap,
        List.map_filterMap]
      refine List.filterMap_congr fun header hheader => ?_
      rw [Function.comp_apply, hagree header hheader]
      cases fields header <;> rfl
    rw [hfilter] at hleft
    rw [hnames] at hresolved
    intro header hheader
    cases hfield : fields header with
    | none =>
        exact eq_of_map_eq hleft header (List.mem_filter.mpr ⟨hheader, decide_eq_true hfield⟩)
    | some field =>
        refine eq_of_map_eq hresolved header (List.mem_map.mpr ⟨(header, field), ?_, rfl⟩)
        exact List.mem_filterMap.mpr ⟨header, hheader, by rw [hfield]; rfl⟩
  · have hname := congrArg AdjudicationRequest.clientName hrequest
    have hhint := congrArg AdjudicationRequest.sourceHint hrequest
    have hdomain := congrArg AdjudicationRequest.domain hrequest
    obtain ⟨clientId, clientName, sourceHint, domain, fingerprint⟩ := context
    dsimp only [requestOf] at hname hhint hdomain hclient hfingerprint
    subst hname hhint hdomain hclient hfingerprint
    rfl

/-! ## The cache -/

/-- Tables under respelled headers have the same layout. -/
theorem Respelled.templateFingerprint_eq {runtime : Runtime} {table table' : ParsedTable}
    {spell : String → String} (h : Respelled runtime table table' spell)
    (clientId : Option String) :
    templateFingerprint runtime clientId table'.headers =
      templateFingerprint runtime clientId table.headers := by
  have hforms : table'.headers.map (normalizeHeader runtime) =
      table.headers.map (normalizeHeader runtime) := by
    rw [h.headers, List.map_map]
    exact List.map_congr_left h.form
  rw [templateFingerprint, templateFingerprint, hforms]

theorem cached_eq (hclient : context'.clientId = context.clientId)
    (hfingerprint : context'.templateFingerprint = context.templateFingerprint) :
    resolver.cached context' = resolver.cached context := by
  rw [TieredResolver.cached, TieredResolver.cached, hclient, hfingerprint]

/-- What was put into the cache is found, if it says anything. -/
theorem cached_set {cache : TemplateCache} {learned : Dict String String} :
    (resolver.asking adjudicator (cache.set (context.templateFingerprint, context.clientId)
        learned)).cached context = none ∨
      (resolver.asking adjudicator (cache.set (context.templateFingerprint, context.clientId)
        learned)).cached context = some learned := by
  unfold TieredResolver.cached
  dsimp only [TieredResolver.asking]
  rw [Dict.get?_set, if_pos rfl]
  split
  next => exact Or.inl rfl
  next =>
    by_cases hempty : learned.entries = []
    · exact Or.inl (Option.filter_some_neg (by simpa using hempty))
    · exact Or.inr (Option.filter_some_pos (by simpa using hempty))

theorem fieldOf_eq_of_headers {mappings mappings' : List Mapping}
    (hsources : mappings.map Mapping.sourceField = table.headers)
    (hsources' : mappings'.map Mapping.sourceField = table.headers)
    (h : ∀ header ∈ table.headers, fieldOf mappings' header = fieldOf mappings header) :
    fieldOf mappings' = fieldOf mappings := by
  funext header
  by_cases hheader : header ∈ table.headers
  · exact h header hheader
  · rw [fieldOf_of_not_mem (hsources' ▸ hheader), fieldOf_of_not_mem (hsources ▸ hheader)]

/-! ## The same headers -/

theorem Respelled.unspelled {spell : String → String} (h : Respelled runtime table table' spell)
    (hspell : ∀ header ∈ table.headers, spell header = header) :
    Respelled runtime table table' id where
  headers := h.headers.trans (List.map_congr_left hspell)
  form _ _ := rfl
  column header hheader := by
    rw [← h.column header hheader, hspell header hheader, id]

theorem Respelled.headers_eq (h : Respelled runtime table table' id) :
    table'.headers = table.headers :=
  h.headers.trans (List.map_id _)

theorem Respelled.tier1_eq {fieldOverrides : List (String × String)}
    (h : Respelled runtime table table' id) {tier1 tier1' : List Mapping}
    (htier1 : mapTable runtime fieldOverrides table = .ok tier1)
    (htier1' : mapTable runtime fieldOverrides table' = .ok tier1') :
    fieldOf tier1' = fieldOf tier1 :=
  fieldOf_eq_of_headers (mapTable_spec htier1).sources
    ((mapTable_spec htier1').sources.trans h.headers_eq) fun _ hheader =>
      h.mapTable_eq (fun _ _ => ⟨rfl, Iff.rfl⟩) htier1 htier1' hheader

/-- Under the same headers the tables are settled alike, whatever is cached. -/
theorem settledLocally_same (hfuzzy : resolver.scorer = fuzzyScorer)
    (h : Respelled runtime table table' id) (hclient : context'.clientId = context.clientId)
    (hfingerprint : context'.templateFingerprint = context.templateFingerprint)
    {mappings mappings' : List Mapping}
    (hlocal : resolver.settledLocally runtime table context = .ok mappings)
    (hlocal' : resolver.settledLocally runtime table' context' = .ok mappings') :
    fieldOf mappings' = fieldOf mappings := by
  obtain ⟨-, -, tier1, htier1, hfields⟩ := settledLocally_spec hfuzzy hlocal
  obtain ⟨-, -, tier1', htier1', hfields'⟩ := settledLocally_spec hfuzzy hlocal'
  rw [hfields, hfields', h.headers_eq, h.tier1_eq htier1 htier1',
    cached_eq hclient hfingerprint]

/-- Where the headers are the same ones, the cache gives what the adjudicator gave; and
where it has nothing, the adjudicator is asked the same. -/
theorem replays_same (hfuzzy : resolver.scorer = fuzzyScorer) (hnames : NamesFields adjudicator)
    (hsame : Respelled runtime table table' id) (hcached : resolver.cached context = none)
    {mappings : List Mapping}
    (hlocal : resolver.settledLocally runtime table context = .ok mappings)
    (hleft : unresolved mappings ≠ []) {cache : TemplateCache}
    (hcache : cache = cacheAfter adjudicator table context mappings resolver.cache)
    {outcome' : ResolutionOutcome}
    (h : (resolver.asking adjudicator cache).resolve runtime table' context = .ok outcome') :
    fieldOf outcome'.mappings = fieldOf (adjudicated adjudicator table context mappings) := by
  obtain ⟨hsources, hnamed, tier1, htier1, hfields⟩ := settledLocally_spec hfuzzy hlocal
  obtain ⟨mappings', hlocal', hcase⟩ := resolve_eq_ok rfl h
  have hfuzzy' : (resolver.asking adjudicator cache).scorer = fuzzyScorer := hfuzzy
  obtain ⟨hsources', hnamed', tier1', htier1', hfields'⟩ := settledLocally_spec hfuzzy' hlocal'
  have hheaders := hsame.headers_eq
  rw [hcached] at hfields
  rw [hheaders, hsame.tier1_eq htier1 htier1'] at hfields'
  have hend := (@adjudicated_spec _ context _ hnames _ hsources hnamed).2
  have hmemory : (resolver.asking adjudicator cache).cached context = none ∨
      (resolver.asking adjudicator cache).cached context =
        some (.ofPairs (learnedFrom (adjudicated adjudicator table context mappings))) := by
    rcases @cacheAfter_eq_or _ context adjudicator mappings resolver.cache with hkept | hset
    · rw [hcache, hkept]
      exact Or.inl hcached
    · rw [hcache, hset]
      exact cached_set
  rcases hmemory with hnothing | hknown
  · rw [hnothing] at hfields'
    have hagree : fieldOf mappings' = fieldOf mappings := hfields'.trans hfields.symm
    have hrequest : requestFor table' context mappings' = requestFor table context mappings := by
      rw [requestFor_eq hsources', requestFor_eq hsources, hagree]
      exact requestOf_congr context _ hheaders hsame.column
    rcases hcase with ⟨hquiet | hnil, -⟩ | ⟨-, -, heq, -⟩
    · rw [hnothing] at hquiet
      cases hquiet
    · refine absurd ((unresolved_eq_nil_iff hsources).mpr fun header hheader => ?_) hleft
      rw [← hagree]
      exact (unresolved_eq_nil_iff hsources').mp hnil header (hheaders ▸ hheader)
    · rw [heq, (adjudicated_spec hnames hsources' hnamed').2, hrequest, hagree, hheaders, hend]
  · rcases hcase with ⟨-, heq, -⟩ | ⟨hnothing, -⟩
    · rw [hknown] at hfields'
      have hsettled := settledLocally_of_uncached hcached htier1 hlocal
      rw [hfuzzy] at hsettled
      have hnodup : (tier1.map Mapping.sourceField).Nodup :=
        (mapTable_spec htier1).sources ▸ table.headers_nodup
      rw [heq, hfields', hend, hfields]
      refine pass_recalled_pass free_fuzzyOffer stable_fuzzyOffer free_recalled table.headers_nodup
        fun header hheader hnone => ?_
      have hlearned := learnedField_eq (answered_asMap hnames (requestFor table context mappings))
        hnodup (named_mapTable htier1) hsettled
        (rfl : _ = adjudicated adjudicator table context mappings)
        ((mapTable_spec htier1).sources ▸ hheader) hnone
      rw [hlearned, hend, hfields]
      rfl
    · rw [hknown] at hnothing
      cases hnothing

/-! ## Tables that are settled alike -/

/-- The two tables get the same fields before the adjudicator is asked. -/
def SettledAlike (runtime : Runtime) (resolver : TieredResolver) (table table' : ParsedTable)
    (context context' : TableContext) (spell : String → String) : Prop :=
  ∀ mappings mappings', resolver.settledLocally runtime table context = .ok mappings →
    resolver.settledLocally runtime table' context' = .ok mappings' →
    ∀ header ∈ table.headers, fieldOf mappings' (spell header) = fieldOf mappings header

/-- The adjudicator is asked about the table. -/
def Asked (runtime : Runtime) (resolver : TieredResolver) (table : ParsedTable)
    (context : TableContext) : Prop :=
  resolver.cached context = none ∧
    ∃ mappings, resolver.settledLocally runtime table context = .ok mappings ∧
      unresolved mappings ≠ []

variable {spell : String → String}

theorem Respelled.unresolved_iff (h : Respelled runtime table table' spell)
    {mappings mappings' : List Mapping}
    (hsources : mappings.map Mapping.sourceField = table.headers)
    (hsources' : mappings'.map Mapping.sourceField = table'.headers)
    (hagree : ∀ header ∈ table.headers,
      fieldOf mappings' (spell header) = fieldOf mappings header) :
    unresolved mappings' = [] ↔ unresolved mappings = [] := by
  rw [unresolved_eq_nil_iff hsources, unresolved_eq_nil_iff hsources', h.headers,
    List.forall_mem_map]
  exact forall₂_congr fun header hheader => by rw [hagree header hheader]

/-- Tables that are settled alike are replayed, unless the adjudicator is asked about another
spelling. -/
theorem replays_of_settledAlike (hfuzzy : resolver.scorer = fuzzyScorer)
    (hnames : NamesFields adjudicator) (h : Respelled runtime table table' spell)
    (hclient : context'.clientId = context.clientId)
    (hfingerprint : context'.templateFingerprint = context.templateFingerprint)
    (halike : SettledAlike runtime resolver table table' context context' spell)
    (hasked : Asked runtime resolver table context →
      (∃ mappings', resolver.settledLocally runtime table' context' = .ok mappings') →
        (∀ header ∈ table.headers, spell header = header) ∧ context' = context) :
    Replays runtime resolver adjudicator table table' context context' spell := by
  intro outcome outcome' hrun hrun' header hheader
  obtain ⟨mappings, hlocal, hcase⟩ := resolve_eq_ok rfl hrun
  obtain ⟨mappings', hlocal', hcase'⟩ := resolve_eq_ok rfl hrun'
  rcases hcase with ⟨hquiet, heq, hcache⟩ | ⟨hcached, hleft, heq, hcache⟩
  · -- nothing was put into the cache, so that the second run starts as the first one did
    rw [hcache] at hlocal' hcase'
    have hagree := halike mappings mappings' hlocal hlocal'
    rcases hcase' with ⟨-, heq', -⟩ | ⟨hcached', hleft', -⟩
    · rw [heq, heq']
      exact hagree header hheader
    · rcases hquiet with hhit | hnil
      · rw [← cached_eq hclient hfingerprint] at hhit
        exact absurd hcached' (Option.isSome_iff_ne_none.mp hhit)
      · have hsources := (settledLocally_spec hfuzzy hlocal).1
        have hsources' := (settledLocally_spec hfuzzy hlocal').1
        exact absurd ((h.unresolved_iff hsources hsources' hagree).mpr hnil) hleft'
  · have hsettled : ∃ mappings', resolver.settledLocally runtime table' context' =
        .ok mappings' := by
      obtain ⟨tier1', htier1', -⟩ := Fallible.bind_eq_ok.mp hlocal'
      exact ⟨_, Fallible.bind_eq_ok.mpr ⟨tier1', htier1', rfl⟩⟩
    obtain ⟨hspell, rfl⟩ := hasked ⟨hcached, mappings, hlocal, hleft⟩ hsettled
    rw [hspell header hheader, heq,
      replays_same hfuzzy hnames (h.unspelled hspell) hcached hlocal hleft hcache hrun']

/-! ## Adjudicators that tell -/

/-- An adjudicator that answers some requests with nothing, and the others with one field. -/
def contrary (silent : AdjudicationRequest → Bool) (field : String) : Adjudicator := fun request =>
  { fields :=
      if silent request then []
      else request.unresolvedHeaders.map fun header => ⟨header, some field, 1, ""⟩
    model := "" }

theorem namesFields_contrary (silent : AdjudicationRequest → Bool) {field : String}
    (hfield : field ≠ "") : NamesFields (contrary silent field) := by
  intro request f hf
  unfold contrary at hf
  dsimp only at hf
  split at hf
  next => cases hf
  next =>
    obtain ⟨header, -, rfl⟩ := List.mem_map.mp hf
    exact fun h => hfield (Option.some.inj h)

theorem answered_contrary_of_silent {silent : AdjudicationRequest → Bool} {field : String}
    {request : AdjudicationRequest} (h : silent request = true) (header : String) :
    answered (contrary silent field request).asMap header = none := by
  have hfields : (contrary silent field request).fields = [] := if_pos h
  rw [AdjudicationResult.asMap, hfields]
  rfl

theorem answered_contrary {silent : AdjudicationRequest → Bool} {field : String}
    {request : AdjudicationRequest} (h : silent request = false) {header : String}
    (hheader : header ∈ request.unresolvedHeaders) :
    answered (contrary silent field request).asMap header = some field := by
  have hfields : (contrary silent field request).fields =
      request.unresolvedHeaders.map fun header => ⟨header, some field, 1, ""⟩ :=
    if_neg (by rw [h]; exact Bool.false_ne_true)
  have hpairs : (contrary silent field request).asMap =
      .ofPairs (request.unresolvedHeaders.map fun header =>
        (header, ⟨header, some field, 1, ""⟩)) := by
    rw [AdjudicationResult.asMap, hfields, List.map_map]
    rfl
  have hget : (contrary silent field request).asMap.get? header =
      some ⟨header, some field, 1, ""⟩ := by
    rw [hpairs]
    refine Dict.get?_ofPairs_of_mem (List.mem_map.mpr ⟨header, hheader, rfl⟩) fun other hother => ?_
    obtain ⟨_, -, hpair⟩ := List.mem_map.mp hother
    obtain ⟨rfl, rfl⟩ := Prod.mk.inj hpair
    rfl
  rw [answered, hget, Option.bind_some]

/-- An adjudicator that says nothing changes nothing. -/
theorem silent_resolve (hfuzzy : resolver.scorer = fuzzyScorer)
    (hnames : NamesFields adjudicator) {mappings : List Mapping}
    (hlocal : resolver.settledLocally runtime table context = .ok mappings)
    (hsilent : ∀ header,
      answered (adjudicator (requestFor table context mappings)).asMap header = none)
    {outcome : ResolutionOutcome}
    (h : (resolver.asking adjudicator resolver.cache).resolve runtime table context =
      .ok outcome) :
    fieldOf outcome.mappings = fieldOf mappings ∧ outcome.cache = resolver.cache := by
  obtain ⟨hsources, hnamed, -⟩ := settledLocally_spec hfuzzy hlocal
  obtain ⟨mappings', hlocal', hcase⟩ := resolve_eq_ok rfl h
  obtain rfl := Except.ok.inj (hlocal.symm.trans hlocal')
  rcases hcase with ⟨-, heq, hcache⟩ | ⟨-, -, heq, hcache⟩
  · rw [heq]
    exact ⟨rfl, hcache⟩
  · obtain ⟨hsourcesEnd, hend⟩ := @adjudicated_spec _ context _ hnames _ hsources hnamed
    have hsame : fieldOf (adjudicated adjudicator table context mappings) = fieldOf mappings :=
      hend.trans (pass_of_silent fun values header => recalled_of_none (hsilent header))
    have hleft : (unresolved (adjudicated adjudicator table context mappings)).map
        Mapping.sourceField = (unresolved mappings).map Mapping.sourceField := by
      rw [unresolved_sources hsourcesEnd, unresolved_sources hsources, hsame]
    have hcount : (unresolved (adjudicated adjudicator table context mappings)).length =
        (unresolved mappings).length := by
      rw [← List.length_map Mapping.sourceField, hleft, List.length_map]
    have hkept : cacheAfter adjudicator table context mappings resolver.cache = resolver.cache := by
      refine if_neg fun hused => hused.1 ?_
      rw [hcount, Nat.sub_self]
    exact ⟨by rw [heq, hsame], hcache.trans hkept⟩

/-- If every adjudicator is replayed, so is one that says nothing. -/
theorem settledAlike_of_replays (hfuzzy : resolver.scorer = fuzzyScorer)
    (hreplays : ∀ adjudicator, NamesFields adjudicator →
      Replays runtime resolver adjudicator table table' context context' spell) :
    SettledAlike runtime resolver table table' context context' spell := by
  intro mappings mappings' hlocal hlocal' header hheader
  let silent : AdjudicationRequest → Bool := fun _ => true
  have hnames : NamesFields (contrary silent "-") := namesFields_contrary silent (by decide)
  obtain ⟨outcome, hrun⟩ := exists_resolve (contrary silent "-") hlocal
  obtain ⟨hfields, hcache⟩ := silent_resolve hfuzzy hnames hlocal
    (fun header => answered_contrary_of_silent rfl header) hrun
  obtain ⟨outcome', hrun'⟩ := exists_resolve (contrary silent "-") hlocal'
  obtain ⟨hfields', -⟩ := silent_resolve hfuzzy hnames hlocal'
    (fun header => answered_contrary_of_silent rfl header) hrun'
  have hreplay := hreplays _ hnames outcome outcome' hrun (by rw [hcache]; exact hrun') header
    hheader
  rw [hfields, hfields'] at hreplay
  exact hreplay

theorem exists_fresh (mappings : List Mapping) (headers : List String) :
    ∃ fresh, fresh ≠ "" ∧ ∀ header ∈ headers, fieldOf mappings header ≠ some fresh := by
  obtain ⟨fresh, hfresh⟩ :=
    Infinite.exists_notMem_finset ("" :: headers.filterMap (fieldOf mappings)).toFinset
  rw [List.mem_toFinset, List.mem_cons, not_or] at hfresh
  refine ⟨fresh, hfresh.1, fun header hheader hfield => hfresh.2 ?_⟩
  exact List.mem_filterMap.mpr ⟨header, hheader, hfield⟩

/-- If every adjudicator is replayed, so is one that answers the second request only: there
may be no other request. -/
theorem same_of_replays (hfuzzy : resolver.scorer = fuzzyScorer)
    (h : Respelled runtime table table' spell) (hclient : context'.clientId = context.clientId)
    (hfingerprint : context'.templateFingerprint = context.templateFingerprint)
    (hreplays : ∀ adjudicator, NamesFields adjudicator →
      Replays runtime resolver adjudicator table table' context context' spell)
    (hasked : Asked runtime resolver table context) {mappings' : List Mapping}
    (hlocal' : resolver.settledLocally runtime table' context' = .ok mappings') :
    (∀ header ∈ table.headers, spell header = header) ∧ context' = context := by
  classical
  obtain ⟨hcached, mappings, hlocal, hleft⟩ := hasked
  have hagree := settledAlike_of_replays hfuzzy hreplays mappings mappings' hlocal hlocal'
  obtain ⟨hsources, -⟩ := settledLocally_spec hfuzzy hlocal
  obtain ⟨hsources', hnamed', -⟩ := settledLocally_spec hfuzzy hlocal'
  by_contra hother
  have hrequest : requestFor table' context' mappings' ≠ requestFor table context mappings := by
    intro heq
    rw [requestFor_eq hsources', requestFor_eq hsources] at heq
    exact hother (eq_of_requestOf_eq h hagree hclient hfingerprint heq)
  obtain ⟨fresh, hne, hfresh⟩ := exists_fresh mappings table.headers
  let silent : AdjudicationRequest → Bool := fun request =>
    decide (request = requestFor table context mappings)
  have hnames := namesFields_contrary silent hne
  obtain ⟨outcome, hrun⟩ := exists_resolve (contrary silent fresh) hlocal
  obtain ⟨hfields, hcache⟩ := silent_resolve hfuzzy hnames hlocal
    (fun header => answered_contrary_of_silent (decide_eq_true rfl) header) hrun
  obtain ⟨outcome', hrun'⟩ := exists_resolve (contrary silent fresh) hlocal'
  have hreplay := hreplays _ hnames outcome outcome' hrun (by rw [hcache]; exact hrun')
  rw [hfields] at hreplay
  -- the second resolution asks, and gives the fresh field to one of the columns
  obtain ⟨mappings₂, hlocal₂, hcase⟩ := resolve_eq_ok rfl hrun'
  obtain rfl := Except.ok.inj (hlocal'.symm.trans hlocal₂)
  have hleft' := fun hnil => hleft ((h.unresolved_iff hsources hsources' hagree).mp hnil)
  rcases hcase with ⟨hhit | hnil, -⟩ | ⟨-, -, heq, -⟩
  · have hcached' := (cached_eq hclient hfingerprint).trans hcached
    exact absurd hcached' (Option.isSome_iff_ne_none.mp hhit)
  · exact hleft' hnil
  · have hend := (@adjudicated_spec _ context' _ hnames _ hsources' hnamed').2
    rw [← heq] at hend
    obtain ⟨header, hheader, hnone⟩ :
        ∃ header ∈ table'.headers, fieldOf mappings' header = none := by
      by_contra hevery
      exact hleft' ((unresolved_eq_nil_iff hsources').mpr fun header hheader hnone =>
        hevery ⟨header, hheader, hnone⟩)
    have hanswered : answered (contrary silent fresh
        (requestFor table' context' mappings')).asMap header = some fresh := by
      refine answered_contrary (decide_eq_false hrequest) ?_
      rw [requestFor_eq hsources']
      exact List.mem_filter.mpr ⟨hheader, decide_eq_true hnone⟩
    obtain ⟨middle, -, hafter, hturn⟩ := @pass_turn _ _ _ table'.headers table'.headers
      (recalled (answered (contrary silent fresh (requestFor table' context' mappings')).asMap))
      (fieldOf mappings') header table'.headers_nodup hheader hnone
    rw [← hend] at hafter hturn
    have hgiven : ∃ other ∈ table'.headers, fieldOf outcome'.mappings other = some fresh := by
      by_cases hmem : fresh ∈ taken table'.headers middle
      · obtain ⟨other, hother, hvalue⟩ := mem_taken.mp hmem
        exact ⟨other, hother, hafter other fresh hvalue⟩
      · exact ⟨header, hheader, hturn.trans (recalled_of_not_mem hanswered hmem)⟩
    obtain ⟨other, hotherMem, hvalue⟩ := hgiven
    rw [h.headers] at hotherMem
    obtain ⟨first, hfirst, rfl⟩ := List.mem_map.mp hotherMem
    exact hfresh first hfirst ((hreplay first hfirst).symm.trans hvalue)

/-- Whatever the adjudicator answers, a table that differs only in how its headers are
spelled is given the fields of the first one with the cache that this left, exactly when
both are settled alike without the adjudicator and it is not asked about another spelling.
Tables with the same headers are settled alike; so are tables that look alike to Tier 1,
where the cache has nothing. -/
theorem replays_iff (runtime : Runtime) (resolver : TieredResolver)
    (hfuzzy : resolver.scorer = fuzzyScorer) (table table' : ParsedTable)
    (context context' : TableContext) (spell : String → String)
    (h : Respelled runtime table table' spell) (hclient : context'.clientId = context.clientId)
    (hfingerprint : context'.templateFingerprint = context.templateFingerprint) :
    ((∀ adjudicator, NamesFields adjudicator →
        Replays runtime resolver adjudicator table table' context context' spell) ↔
      SettledAlike runtime resolver table table' context context' spell ∧
        (Asked runtime resolver table context →
          (∃ mappings', resolver.settledLocally runtime table' context' = .ok mappings') →
            (∀ header ∈ table.headers, spell header = header) ∧ context' = context)) ∧
    ((∀ header ∈ table.headers, spell header = header) →
      SettledAlike runtime resolver table table' context context' spell) ∧
    ((∀ header ∈ table.headers, Alike (spell header) header) → resolver.cached context = none →
      SettledAlike runtime resolver table table' context context' spell) := by
  refine ⟨⟨fun hreplays => ?_, ?_⟩, ?_, ?_⟩
  · refine ⟨settledAlike_of_replays hfuzzy hreplays, fun hasked hsettled => ?_⟩
    obtain ⟨mappings', hlocal'⟩ := hsettled
    exact same_of_replays hfuzzy h hclient hfingerprint hreplays hasked hlocal'
  · rintro ⟨halike, hasked⟩ adjudicator hnames
    exact replays_of_settledAlike hfuzzy hnames h hclient hfingerprint halike hasked
  · intro hspell mappings mappings' hlocal hlocal' header hheader
    rw [settledLocally_same hfuzzy (h.unspelled hspell) hclient hfingerprint hlocal hlocal',
      hspell header hheader]
  · intro hsame hcached mappings mappings' hlocal hlocal'
    exact settledLocally_alike hfuzzy h hsame hcached
      ((cached_eq hclient hfingerprint).trans hcached) hlocal hlocal'

/-! ## A column of percentages -/

/-- The tables on ASCII text, with the digest of the layout. -/
def percentRuntime : Runtime := { Runtime.ascii with blake2b := fun _ => "85e6538dee492caf" }

def percentTable (header : String) : ParsedTable where
  headers := [header]
  rows := [.ofPairs [(header, "12.5")]]
  headers_nodup := List.nodup_singleton header

def percentContext (header : String) : TableContext :=
  { clientId := "CLNT001"
    templateFingerprint := templateFingerprint percentRuntime (some "CLNT001") [header] }

def percentResolver : TieredResolver := { scorer := fuzzyScorer }

/-- An adjudicator that takes every column for the quantity. -/
def quantityFinder : Adjudicator := contrary (fun _ => false) "quantity"

theorem respelled_percent :
    Respelled percentRuntime (percentTable "%") (percentTable "(%)") fun _ => "(%)" where
  headers := rfl
  form header hheader := by
    rw [List.mem_singleton.mp hheader]
    decide
  column header hheader := by
    rw [List.mem_singleton.mp hheader]
    decide

theorem percentContext_eq :
    (percentContext "(%)").templateFingerprint = (percentContext "%").templateFingerprint :=
  respelled_percent.templateFingerprint_eq (some "CLNT001")

theorem percent_outcomes :
    ∃ outcome outcome',
      (percentResolver.asking quantityFinder percentResolver.cache).resolve percentRuntime
        (percentTable "%") (percentContext "%") = .ok outcome ∧
      (percentResolver.asking quantityFinder outcome.cache).resolve percentRuntime
        (percentTable "(%)") (percentContext "(%)") = .ok outcome' ∧
      fieldOf outcome.mappings "%" = some "quantity" ∧
      fieldOf outcome'.mappings "(%)" = none := by
  have heval : ((percentResolver.asking quantityFinder percentResolver.cache).resolve
      percentRuntime (percentTable "%") (percentContext "%") >>= fun outcome =>
        (percentResolver.asking quantityFinder outcome.cache).resolve percentRuntime
          (percentTable "(%)") (percentContext "(%)") >>= fun outcome' =>
            Except.ok (fieldOf outcome.mappings "%", fieldOf outcome'.mappings "(%)")).toOption.map
      id = some (some "quantity", none) := by
    decide +kernel
  obtain ⟨fields, hrun, hfields⟩ := Fallible.ok_of_toOption heval
  obtain ⟨outcome, hfirst, hrun⟩ := Fallible.bind_eq_ok.mp hrun
  obtain ⟨outcome', hsecond, hpair⟩ := Fallible.bind_eq_ok.mp hrun
  obtain ⟨hfound, hlost⟩ := Prod.mk.inj ((Except.ok.inj hpair).trans hfields)
  exact ⟨outcome, outcome', hfirst, hsecond, hfound, hlost⟩

/-- The same file again, with its one header in parentheses: its column is lost. -/
theorem percent_not_replayed :
    Respelled percentRuntime (percentTable "%") (percentTable "(%)") (fun _ => "(%)") ∧
      (percentContext "(%)").clientId = (percentContext "%").clientId ∧
      (percentContext "(%)").templateFingerprint = (percentContext "%").templateFingerprint ∧
      percentResolver.scorer = fuzzyScorer ∧ NamesFields quantityFinder ∧
      ¬ Replays percentRuntime percentResolver quantityFinder (percentTable "%")
        (percentTable "(%)") (percentContext "%") (percentContext "(%)") fun _ => "(%)" := by
  refine ⟨respelled_percent, rfl, percentContext_eq, rfl,
    namesFields_contrary _ (by decide), fun hreplays => ?_⟩
  obtain ⟨outcome, outcome', hfirst, hsecond, hfound, hlost⟩ := percent_outcomes
  have hsame := hreplays outcome outcome' hfirst hsecond "%" List.mem_cons_self
  rw [hfound, hlost] at hsame
  cases hsame

/-- Under the header as it was the column is found again, and the other spelling is not
to blame for what comes before the adjudicator. -/
theorem percent_replayed :
    Replays percentRuntime percentResolver quantityFinder (percentTable "%")
        (percentTable "%") (percentContext "%") (percentContext "%") id ∧
      SettledAlike percentRuntime percentResolver (percentTable "%") (percentTable "(%)")
        (percentContext "%") (percentContext "(%)") fun _ => "(%)" := by
  have hid : Respelled percentRuntime (percentTable "%") (percentTable "%") id :=
    ⟨rfl, fun _ _ => rfl, fun _ _ => rfl⟩
  constructor
  · obtain ⟨hreplayed, halike, -⟩ := replays_iff percentRuntime percentResolver rfl _ _
      (percentContext "%") (percentContext "%") id hid rfl rfl
    exact hreplayed.mpr ⟨halike fun _ _ => rfl, fun _ _ => ⟨fun _ _ => rfl, rfl⟩⟩
      quantityFinder (namesFields_contrary _ (by decide))
  · obtain ⟨-, -, halike⟩ := replays_iff percentRuntime percentResolver rfl _ _
      (percentContext "%") (percentContext "(%)") _ respelled_percent rfl percentContext_eq
    have hcached : percentResolver.cached (percentContext "%") = none := by decide +kernel
    refine halike (fun header hheader => ?_) hcached
    rw [List.mem_singleton.mp hheader]
    exact ⟨by decide, by decide⟩

end Harbormaster.Inspector
