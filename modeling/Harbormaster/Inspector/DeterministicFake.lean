import Harbormaster.Inspector.Dates
import Harbormaster.Inspector.Replay

/-! # The offline adjudicator

`DeterministicFake` of the inspector stands in for the model: it decides by substrings of the
headers and, failing that, by the sample values. It keeps account of the fields that are
taken, and the ladder keeps its own; what follows is that the two agree.
-/

namespace Harbormaster.Inspector

open Ordered Offers

/-- The substrings that speak for a field, in the order in which they are tried. -/
def fakeRules : List (List String × String) :=
  [(["settl", "close", "mtm", "mark", "official", "eod"], "settlement_price"),
    (["exec", "fill", "deal", "traded", "lastpx", "avgpx"], "trade_price"),
    (["qty", "quantity", "unit", "share", "contract", "nominal", "volume"], "quantity"),
    (["net", "proceed", "consider", "cash", "amount", "money"], "net_amount"),
    (["gross", "principal"], "gross_amount"),
    (["mkt", "market", "valuation", "fair"], "market_value"),
    (["ccy", "curr"], "currency"),
    (["acct", "account", "portfolio", "custody", "book"], "account_id"),
    (["isin", "cusip", "sedol", "symbol", "ticker", "instrument", "security"], "instrument_id"),
    (["side", "buysell", "direction", "longshort"], "side"),
    (["trddt", "tradedate", "dealdate", "execdate"], "trade_date")]

/-- `str.isalpha` and `str.isupper`. -/
structure LetterTables where
  isalpha : String → Bool
  isupper : String → Bool

def LetterTables.ascii : LetterTables where
  isalpha text := text ≠ "" && text.toList.all Char.isAlpha
  isupper text := text.toList.any Char.isUpper && !text.toList.any Char.isLower

section Fake

variable (runtime : Runtime) (letters : LetterTables)

/-- The first free field that a substring of the header speaks for. -/
def decideByRule (taken : List String) (header : String) : Option (String × String) :=
  fakeRules.findSome? fun (tokens, field) =>
    if field ∈ taken then none
    else (tokens.find? fun token => within token (normalizeHeader runtime header)).map
      fun token => (field, "header contains " ++ quoted runtime token)

/-- `_from_samples`. -/
def decideBySamples (taken samples : List String) : Option (String × String) :=
  let values := (samples.filter fun s => strip s ≠ "").map strip
  if values = [] then none
  else if (values.all fun v => v.length = 3 && letters.isalpha v && letters.isupper v) ∧
      "currency" ∉ taken then
    some ("currency", "sample values are three-letter uppercase codes")
  else if (values.all fun v => (parseDate runtime v).isSome) ∧ "trade_date" ∉ taken then
    some ("trade_date", "sample values parse as dates")
  else none

/-- What is decided about one header, and why. -/
def decideHeader (samples : Dict String (List String)) (taken : List String) (header : String) :
    Option (String × String) :=
  (decideByRule runtime taken header).or
    (decideBySamples runtime letters taken ((samples.get? header).getD []))

/-- One header after the other; a field that was given is taken. -/
def decideHeaders (samples : Dict String (List String)) :
    List String → List String → List AdjudicatedField
  | _, [] => []
  | taken, header :: rest =>
      match decideHeader runtime letters samples taken header with
      | none =>
          ⟨header, none, 0, "no rule or sample evidence applied"⟩ ::
            decideHeaders samples taken rest
      | some (field, rationale) =>
          ⟨header, some field, 80 / 100, rationale⟩ :: decideHeaders samples (field :: taken) rest

/-- `DeterministicFake.adjudicate`. -/
def deterministicFake : Adjudicator := fun request =>
  { fields := decideHeaders runtime letters (.ofPairs request.samples)
      (request.resolved.map Prod.snd) request.unresolvedHeaders
    model := "deterministic-fake" }

end Fake

variable {runtime : Runtime} {letters : LetterTables}

/-! ## What is proposed -/

/-- A field that may be proposed: one of the canonical ones that is free. -/
def Proposable (taken : List String) (field : String) : Prop :=
  field ∈ mappableFields ∧ field ∉ taken

theorem proposable_of_rule {taken : List String} {header field why : String}
    (h : decideByRule runtime taken header = some (field, why)) : Proposable taken field := by
  have hfields : ∀ rule ∈ fakeRules, rule.2 ∈ mappableFields := by decide
  obtain ⟨⟨tokens, target⟩, hrule, hmatch⟩ := List.exists_of_findSome?_eq_some h
  dsimp only at hmatch
  split at hmatch
  next => cases hmatch
  next hfree =>
    obtain ⟨token, -, heq⟩ := Option.map_eq_some_iff.mp hmatch
    obtain ⟨rfl, -⟩ := Prod.mk.inj heq
    exact ⟨hfields _ hrule, hfree⟩

theorem proposable_of_samples {taken samples : List String} {field why : String}
    (h : decideBySamples runtime letters taken samples = some (field, why)) :
    Proposable taken field := by
  unfold decideBySamples at h
  dsimp only at h
  split at h
  next => cases h
  next =>
    split at h
    next hcodes =>
      obtain ⟨rfl, -⟩ := Prod.mk.inj (Option.some.inj h)
      exact ⟨by decide, hcodes.2⟩
    next =>
      split at h
      next hdates =>
        obtain ⟨rfl, -⟩ := Prod.mk.inj (Option.some.inj h)
        exact ⟨by decide, hdates.2⟩
      next => cases h

theorem proposable_of_header {samples : Dict String (List String)} {taken : List String}
    {header field why : String}
    (h : decideHeader runtime letters samples taken header = some (field, why)) :
    Proposable taken field := by
  rcases Option.or_eq_some_iff.mp h with hrule | ⟨-, hsamples⟩
  · exact proposable_of_rule hrule
  · exact proposable_of_samples hsamples

section Headers

variable {samples : Dict String (List String)} {taken headers : List String}

/-- Every header is answered, in the order in which they are asked about. -/
theorem decideHeaders_sources :
    (decideHeaders runtime letters samples taken headers).map AdjudicatedField.sourceField =
      headers := by
  induction headers generalizing taken with
  | nil => rfl
  | cons header rest ih =>
      rw [decideHeaders]
      split
      next => rw [List.map_cons, ih]
      next => rw [List.map_cons, ih]

theorem decideHeaders_proposable :
    ∀ f ∈ decideHeaders runtime letters samples taken headers, ∀ field,
      f.canonicalField = some field → Proposable taken field := by
  induction headers generalizing taken with
  | nil => exact fun f hf => absurd hf List.not_mem_nil
  | cons header rest ih =>
      rw [decideHeaders]
      split
      next =>
        rw [List.forall_mem_cons]
        exact ⟨fun field hfield => (Option.some_ne_none field hfield.symm).elim, ih⟩
      next given why hdecided =>
        rw [List.forall_mem_cons]
        refine ⟨fun field hfield => ?_, fun f hf field hfield => ?_⟩
        · obtain rfl := Option.some.inj hfield
          exact proposable_of_header hdecided
        · obtain ⟨hmappable, hfree⟩ := ih f hf field hfield
          exact ⟨hmappable, fun hmem => hfree (List.mem_cons_of_mem _ hmem)⟩

/-- No field is proposed twice. -/
theorem decideHeaders_distinct :
    ∀ f ∈ decideHeaders runtime letters samples taken headers,
      ∀ g ∈ decideHeaders runtime letters samples taken headers, ∀ field,
        f.canonicalField = some field → g.canonicalField = some field → g = f := by
  induction headers generalizing taken with
  | nil => exact fun f hf => absurd hf List.not_mem_nil
  | cons header rest ih =>
      rw [decideHeaders]
      split
      next =>
        intro f hf g hg field hfield hfield'
        rcases List.mem_cons.mp hf with rfl | hf
        · cases hfield
        · rcases List.mem_cons.mp hg with rfl | hg
          · cases hfield'
          · exact ih f hf g hg field hfield hfield'
      next given why hdecided =>
        have hlater : ∀ f ∈ decideHeaders runtime letters samples (given :: taken) rest,
            f.canonicalField ≠ some given := fun f hf hfield =>
          (decideHeaders_proposable f hf given hfield).2 List.mem_cons_self
        intro f hf g hg field hfield hfield'
        rcases List.mem_cons.mp hf with rfl | hf
        · obtain rfl := Option.some.inj hfield
          rcases List.mem_cons.mp hg with rfl | hg
          · rfl
          · exact absurd hfield' (hlater g hg)
        · rcases List.mem_cons.mp hg with rfl | hg
          · obtain rfl := Option.some.inj hfield'
            exact absurd hfield (hlater f hf)
          · exact ih f hf g hg field hfield hfield'

end Headers

theorem namesFields_deterministicFake : NamesFields (deterministicFake runtime letters) :=
  fun _ f hf hempty => mappable_ne_empty (decideHeaders_proposable f hf "" hempty).1 rfl

/-! ## What the ladder makes of it -/

variable {resolver : TieredResolver} {table : ParsedTable} {context : TableContext}

theorem Scorer.tryMatch_from (scorer : Scorer) {header field : String} {taken : List String}
    (h : (scorer.tryMatch runtime header taken).canonicalField = some field) :
    (scorer.fuzzy runtime header taken).1 = some field ∨
      (scorer.semantic header taken).1 = some field := by
  have hsettle : ∀ {preferred : String} {combined : ℚ} {evidence : String},
      (Scorer.tryMatch.settle preferred combined evidence).canonicalField = some field →
        preferred = field := by
    intro preferred combined evidence hsettled
    unfold Scorer.tryMatch.settle at hsettled
    split at hsettled
    next => cases hsettled
    next => exact Option.some.inj hsettled
  unfold Scorer.tryMatch at h
  dsimp only at h
  split at h
  next hsemantic =>
    split at h
    next found hfuzzy =>
      split at h
      next => cases h
      next => exact Or.inl (hfuzzy.trans h)
    next => cases h
  next preferred hsemantic =>
    split at h
    next => exact Or.inr (by rw [hsemantic, hsettle h])
    next =>
      split at h
      next =>
        split at h
        next found hfuzzy =>
          split at h
          next => cases h
          next => exact Or.inl (hfuzzy.trans h)
        next => cases h
      next => exact Or.inr (by rw [hsemantic, hsettle h])

theorem Scorer.tryMatch_ne_empty (scorer : Scorer) (header : String) (taken : List String) :
    (scorer.tryMatch runtime header taken).canonicalField ≠ some "" := by
  intro h
  rcases scorer.tryMatch_from h with hfuzzy | hsemantic
  · have hfields : ∀ candidate ∈ aliasCorpus, candidate.2 ≠ "" := by decide +kernel
    unfold Scorer.fuzzy at hfuzzy
    dsimp only at hfuzzy
    split at hfuzzy
    next => cases hfuzzy
    next =>
      split at hfuzzy
      next => cases hfuzzy
      next score index _ =>
        have hmem := List.get_mem (aliasCorpus.filter fun candidate => candidate.2 ∉ taken)
          (index.cast (List.length_map ..))
        exact hfields _ (List.mem_filter.mp hmem).1 (Option.some.inj hfuzzy)
  · unfold Scorer.semantic at hsemantic
    split at hsemantic
    next preferred score hbest =>
      split at hsemantic
      next => cases hsemantic
      next =>
        obtain rfl := Option.some.inj hsemantic
        exact absurd (scorer.best_described header "" (by rw [hbest])) (by decide)
    next => cases hsemantic

theorem gives_applyScorer (scorer : Scorer) : Gives (applyTier2 runtime scorer)
    fun taken header => (scorer.tryMatch runtime header taken).canonicalField where
  source := (fair_applyTier2 scorer).source
  field taken m hnone := by
    unfold applyTier2
    dsimp only
    split
    next hdeclined => exact hnone.trans hdeclined.symm
    next field hfield => exact hfield.symm
  nonempty taken header := scorer.tryMatch_ne_empty header taken

/-- What is settled before the adjudicator is asked names the columns of the table. -/
theorem settledLocally_named {mappings : List Mapping}
    (h : resolver.settledLocally runtime table context = .ok mappings) :
    mappings.map Mapping.sourceField = table.headers ∧ Named mappings := by
  obtain ⟨tier1, htier1, h⟩ := Fallible.bind_eq_ok.mp h
  obtain rfl := Except.ok.inj h
  have hsources := (mapTable_spec htier1).sources
  have hremembered : (resolver.remembered context tier1).map Mapping.sourceField =
      table.headers ∧ Named (resolver.remembered context tier1) := by
    unfold TieredResolver.remembered
    cases resolver.cached context with
    | none => exact ⟨hsources, named_mapTable htier1⟩
    | some learned =>
        obtain ⟨hkept, hnamed, -⟩ := (gives_applyLearned learned).stage
          (hsources ▸ table.headers_nodup) (named_mapTable htier1)
        exact ⟨hkept.trans hsources, hnamed⟩
  obtain ⟨hsources', hnamed⟩ := hremembered
  obtain ⟨hkept, hnamedEnd, -⟩ := (@gives_applyScorer runtime resolver.scorer).stage
    (hsources' ▸ table.headers_nodup) hnamed
  exact ⟨hkept.trans hsources', hnamedEnd⟩

/-- A resolution in which the adjudicator was asked. -/
theorem resolve_asked {adjudicator : Adjudicator} {outcome : ResolutionOutcome}
    (h : (resolver.asking adjudicator resolver.cache).resolve runtime table context = .ok outcome)
    {request : AdjudicationRequest} (hasked : outcome.request = some request) :
    ∃ mappings, resolver.settledLocally runtime table context = .ok mappings ∧
      request = requestFor table context mappings ∧
      outcome.mappings = adjudicated adjudicator table context mappings := by
  obtain ⟨tier1, htier1, h⟩ := Fallible.bind_eq_ok.mp h
  dsimp only [TieredResolver.asking] at h
  refine ⟨_, Fallible.bind_eq_ok.mpr ⟨tier1, htier1, rfl⟩, ?_⟩
  split at h
  next =>
    obtain rfl := Except.ok.inj h
    rw [TieredResolver.runTier3_request] at hasked
    exact ⟨(Option.some.inj hasked).symm, runTier3_mappings _⟩
  next =>
    obtain rfl := Except.ok.inj h
    cases hasked

section Answers

variable {adjudicator : Adjudicator} {mappings : List Mapping}
  (hsources : mappings.map Mapping.sourceField = table.headers)

include hsources

theorem mem_unresolvedHeaders {header : String} :
    header ∈ (requestFor table context mappings).unresolvedHeaders ↔
      header ∈ table.headers ∧ fieldOf mappings header = none := by
  rw [requestFor_eq hsources, requestOf, List.mem_filter, decide_eq_true_eq]

theorem mem_resolved {field : String} :
    field ∈ (requestFor table context mappings).resolved.map Prod.snd ↔
      ∃ header ∈ table.headers, fieldOf mappings header = some field := by
  rw [requestFor_eq hsources, requestOf, List.map_filterMap, List.mem_filterMap]
  constructor
  · rintro ⟨header, hheader, hfield⟩
    refine ⟨header, hheader, ?_⟩
    rw [Option.map_map] at hfield
    obtain ⟨_, hvalue, rfl⟩ := Option.map_eq_some_iff.mp hfield
    exact hvalue
  · rintro ⟨header, hheader, hfield⟩
    exact ⟨header, hheader, by rw [hfield]; rfl⟩

/-- Of one answer for each header, each is found under its header. -/
theorem answered_of_mem {fields : List AdjudicatedField} {model : String}
    (hfields : fields.map AdjudicatedField.sourceField =
      (requestFor table context mappings).unresolvedHeaders)
    {f : AdjudicatedField} (hf : f ∈ fields) :
    answered (AdjudicationResult.asMap ⟨fields, model⟩) f.sourceField = f.canonicalField := by
  have hnodup : (fields.map AdjudicatedField.sourceField).Nodup := by
    rw [hfields, requestFor_eq hsources]
    exact table.headers_nodup.filter _
  have hget : (AdjudicationResult.asMap ⟨fields, model⟩).get? f.sourceField = some f := by
    refine Dict.get?_ofPairs_of_mem (List.mem_map.mpr ⟨f, hf, rfl⟩) fun other hother => ?_
    obtain ⟨g, hg, hpair⟩ := List.mem_map.mp hother
    obtain ⟨hsource, rfl⟩ := Prod.mk.inj hpair
    exact List.inj_on_of_nodup_map hnodup hg hf hsource
  rw [answered, hget, Option.bind_some]

/-- Answers that name free fields, no two the same one, are all accepted. -/
theorem adjudicated_of_distinct (hnames : NamesFields adjudicator) (hnamed : Named mappings)
    (hfields : (adjudicator (requestFor table context mappings)).fields.map
      AdjudicatedField.sourceField = (requestFor table context mappings).unresolvedHeaders)
    (hfree : ∀ f ∈ (adjudicator (requestFor table context mappings)).fields, ∀ field,
      f.canonicalField = some field →
        field ∉ (requestFor table context mappings).resolved.map Prod.snd)
    (hdistinct : ∀ f ∈ (adjudicator (requestFor table context mappings)).fields,
      ∀ g ∈ (adjudicator (requestFor table context mappings)).fields, ∀ field,
        f.canonicalField = some field → g.canonicalField = some field → g = f) :
    ∀ f ∈ (adjudicator (requestFor table context mappings)).fields,
      fieldOf (adjudicated adjudicator table context mappings) f.sourceField =
        f.canonicalField := by
  have hfinal := (@adjudicated_spec _ context _ hnames _ hsources hnamed).2
  generalize hresult : adjudicator (requestFor table context mappings) = result
    at hfields hfree hdistinct hfinal
  have hanswered : ∀ f ∈ result.fields, answered result.asMap f.sourceField = f.canonicalField :=
    fun f hf => answered_of_mem hsources hfields hf
  have hasked : ∀ header ∈ table.headers, fieldOf mappings header = none →
      ∃ f ∈ result.fields, f.sourceField = header := fun header hheader hnone =>
    List.mem_map.mp (hfields ▸ (mem_unresolvedHeaders hsources).mpr ⟨hheader, hnone⟩)
  have hmerge : ∀ header, fieldOf mappings header = none →
      merge (fieldOf mappings) (answered result.asMap) header = answered result.asMap header := by
    intro header hnone
    rw [merge, hnone, Option.none_or]
  -- the answers are what one round offers: an offer is refused only when another column has
  -- the field, and no other column gets it
  have hround := @pass_recalled _ _ _ table.headers table.headers (fieldOf mappings) _
    (answered result.asMap) (merge (fieldOf mappings) (answered result.asMap))
    (List.Subset.refl _) (fun header field hfield => by rw [merge, hfield, Option.some_or])
    (fun header _ hnone => (hmerge header hnone).symm)
    fun header hheader hnone other hother field hfield hfield' => by
      obtain ⟨f, hf, rfl⟩ := hasked header hheader hnone
      rw [hmerge _ hnone, hanswered f hf] at hfield
      rcases Option.or_eq_some_iff.mp hfield' with hold | ⟨hopen, hnew⟩
      · exact absurd ((mem_resolved hsources).mpr ⟨other, hother, hold⟩) (hfree f hf field hfield)
      · obtain ⟨g, hg, rfl⟩ := hasked other hother hopen
        rw [hanswered g hg] at hnew
        rw [hdistinct f hf g hg field hfield hnew]
  intro f hf
  have hmem : f.sourceField ∈ (requestFor table context mappings).unresolvedHeaders :=
    hfields ▸ List.mem_map_of_mem hf
  obtain ⟨hheader, hnone⟩ := (mem_unresolvedHeaders hsources).mp hmem
  rw [hfinal, hround.2 _ hheader, hmerge _ hnone, hanswered f hf]

end Answers

/-- Whatever the offline adjudicator is asked, it answers about each column in turn, it
proposes canonical fields that no column has and no two of them twice, and the ladder
accepts each proposal. -/
theorem deterministicFake_accepted (runtime : Runtime) (letters : LetterTables)
    (resolver : TieredResolver) (table : ParsedTable) (context : TableContext)
    (outcome : ResolutionOutcome)
    (h : (resolver.asking (deterministicFake runtime letters) resolver.cache).resolve runtime table
      context = .ok outcome)
    (request : AdjudicationRequest) (hasked : outcome.request = some request) :
    (deterministicFake runtime letters request).fields.map AdjudicatedField.sourceField =
        request.unresolvedHeaders ∧
      ∀ f ∈ (deterministicFake runtime letters request).fields,
        fieldOf outcome.mappings f.sourceField = f.canonicalField ∧
        ∀ field, f.canonicalField = some field →
          field ∈ mappableFields ∧ field ∉ request.resolved.map Prod.snd ∧
          ∀ g ∈ (deterministicFake runtime letters request).fields,
            g.canonicalField = some field → g = f := by
  refine ⟨decideHeaders_sources, fun f hf => ⟨?_, fun field hfield => ?_⟩⟩
  · obtain ⟨mappings, hlocal, rfl, hmappings⟩ := resolve_asked h hasked
    obtain ⟨hsources, hnamed⟩ := settledLocally_named hlocal
    rw [hmappings]
    exact adjudicated_of_distinct hsources namesFields_deterministicFake hnamed
      decideHeaders_sources (fun g hg field hfield => (decideHeaders_proposable g hg field hfield).2)
      decideHeaders_distinct f hf
  · obtain ⟨hmappable, hfree⟩ := decideHeaders_proposable f hf field hfield
    exact ⟨hmappable, hfree, fun g hg hsame =>
      decideHeaders_distinct f hf g hg field hfield hsame⟩

/-! ## A header without letters -/

theorem terse_nodup : ["Isin", "$"].Nodup := by decide

def terseTable : ParsedTable where
  headers := ["Isin", "$"]
  rows := [.ofPairs [("Isin", "DE000BASF111"), ("$", "EUR")]]
  headers_nodup := terse_nodup

def terseContext : TableContext where
  clientId := "CLNT001"
  templateFingerprint := "85e6538dee492caf"

def terseResolver : TieredResolver := { scorer := fuzzyScorer }

/-- The dictionary knows nothing of it, but its sample is a code. -/
theorem terse_outcome : ∃ outcome request,
    (terseResolver.asking (deterministicFake .ascii .ascii) terseResolver.cache).resolve .ascii
      terseTable terseContext = .ok outcome ∧
    outcome.request = some request ∧
    outcome.promotable = some [("$", "currency")] := by
  have heval : ((terseResolver.asking (deterministicFake .ascii .ascii)
      terseResolver.cache).resolve .ascii terseTable terseContext).toOption.map
        (fun outcome => (outcome.request.isSome, outcome.promotable)) =
      some (true, some [("$", "currency")]) := by
    decide +kernel
  obtain ⟨outcome, hrun, heq⟩ := Fallible.ok_of_toOption heval
  obtain ⟨hrequest, hpromotable⟩ := Prod.mk.inj heq
  obtain ⟨request, hrequest⟩ := Option.isSome_iff_exists.mp hrequest
  exact ⟨outcome, request, hrun, hrequest, hpromotable⟩

theorem deterministicFake_accepted_terse : ∃ outcome request,
    (terseResolver.asking (deterministicFake .ascii .ascii) terseResolver.cache).resolve .ascii
      terseTable terseContext = .ok outcome ∧
    outcome.request = some request ∧
    ∀ f ∈ (deterministicFake .ascii .ascii request).fields,
      fieldOf outcome.mappings f.sourceField = f.canonicalField := by
  obtain ⟨outcome, request, hrun, hrequest, -⟩ := terse_outcome
  obtain ⟨-, haccepted⟩ := deterministicFake_accepted .ascii .ascii terseResolver terseTable
    terseContext outcome hrun request hrequest
  exact ⟨outcome, request, hrun, hrequest, fun f hf => (haccepted f hf).1⟩

end Harbormaster.Inspector
