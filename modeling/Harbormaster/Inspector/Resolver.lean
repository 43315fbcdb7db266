import Harbormaster.Inspector.Tier1

/-! # The escalation ladder

`mapping.resolver` of the inspector with the local matcher of Tier 2. The
similarity scores, the model behind the adjudicator and the template cache are
parameters; a matcher is asked about each column of a table once at most.
-/

namespace Harbormaster.Inspector

open Ordered Rounding

variable (runtime : Runtime)

/-! ## Tier 2 -/

/-- The fields the semantic matcher has a description of. -/
def describedFields : List String :=
  ["account_id", "account_name", "trade_id", "instrument_id", "instrument_type", "trade_date",
    "quantity", "trade_price", "settlement_price", "gross_amount", "net_amount", "market_value",
    "currency", "side", "source_system"]

/-- The two signals of the local matcher: `extractOne` of the fuzzy library, which
answers with one of the choices, and the embeddings. -/
structure Scorer where
  extractOne : String → (choices : List String) → Option (ℚ × Fin choices.length)
  best : String → Option String × ℚ
  degraded : Bool
  best_described : ∀ header field, (best header).1 = some field → field ∈ describedFields

theorem none_described (field : String) (h : none = some field) : field ∈ describedFields := nomatch h

structure LocalMatch where
  canonicalField : Option String
  confidence : ℚ
  evidence : String

def minAccept : ℚ := 72 / 100
def maxConfidence : ℚ := 88 / 100
def fuzzyWeight : ℚ := 55 / 100
def semanticWeight : ℚ := 45 / 100
def agreementBonus : ℚ := 6 / 100

/-- Every known alias paired with its field. -/
def aliasCorpus : List (String × String) :=
  fieldAliases.flatMap fun (field, aliases) =>
    (field, field) :: aliases.map fun name => (name, field)

namespace Scorer

variable (scorer : Scorer)

/-- The best alias of a field that is not taken. -/
def fuzzy (header : String) (taken : List String) : Option String × ℚ :=
  let normalized := normalizeHeader runtime header
  let candidates := aliasCorpus.filter fun candidate => candidate.2 ∉ taken
  if normalized = "" then (none, 0)
  else match scorer.extractOne normalized (candidates.map Prod.fst) with
    | none => (none, 0)
    | some (score, index) =>
        (some (candidates.get (index.cast (List.length_map ..))).2, score / 100)

/-- The embeddings' answer, unless it is taken. -/
def semantic (header : String) (taken : List String) : Option String × ℚ :=
  match scorer.best header with
  | (some field, score) => if field ∈ taken then (none, 0) else (some field, score)
  | (none, score) => (none, score)

/-- The answer of one signal alone. -/
def decline (evidence : String) : LocalMatch := ⟨none, 0, evidence⟩

/-- Resolve one header, or decline. -/
def tryMatch (header : String) (taken : List String) : LocalMatch :=
  let (fuzzyField, fuzzyScore) := scorer.fuzzy runtime header taken
  let (semanticField, semanticScore) := scorer.semantic header taken
  let alone := min (fuzzyScore * (92 / 100)) maxConfidence
  match semanticField with
  | none =>
      match fuzzyField with
      | some field =>
          if alone < minAccept then
            decline ("no local match above " ++ fixed 2 minAccept ++ " (best fuzzy " ++
              fixed 2 fuzzyScore ++
              (if scorer.degraded then ", semantic matcher unavailable" else "") ++ ")")
          else
            ⟨some field, roundTo 3 alone, "fuzzy match to alias vocabulary at " ++
              fixed 2 fuzzyScore ++
              (if scorer.degraded then " (semantic matcher unavailable)" else "")⟩
      | none =>
          decline ("no local match above " ++ fixed 2 minAccept ++ " (best fuzzy " ++
            fixed 2 fuzzyScore ++
            (if scorer.degraded then ", semantic matcher unavailable" else "") ++ ")")
  | some preferred =>
      if fuzzyField = some preferred then
        let combined := min (fuzzyWeight * fuzzyScore + semanticWeight * semanticScore +
          agreementBonus) maxConfidence
        settle preferred combined ("fuzzy and semantic agree on " ++ preferred ++ " (fuzzy " ++
          fixed 2 fuzzyScore ++ ", semantic " ++ fixed 2 semanticScore ++ ")")
      else if semanticScore ≤ fuzzyScore then
        match fuzzyField with
        | some field =>
            if alone < minAccept then decline "fuzzy and semantic disagree below threshold"
            else ⟨some field, roundTo 3 alone, "fuzzy match at " ++ fixed 2 fuzzyScore ++
              "; semantic preferred " ++ preferred ++ " at " ++ fixed 2 semanticScore⟩
        | none => decline "fuzzy and semantic disagree below threshold"
      else
        settle preferred (min (semanticScore * (92 / 100)) maxConfidence)
          ("semantic match at " ++ fixed 2 semanticScore ++ "; fuzzy preferred " ++
            fuzzyField.getD "None" ++ " at " ++ fixed 2 fuzzyScore)
where
  /-- Accept the semantic field above the threshold. -/
  settle (field : String) (combined : ℚ) (evidence : String) : LocalMatch :=
    if combined < minAccept then
      decline ("best local candidate " ++ field ++ " scored " ++ fixed 2 combined ++
        ", below the " ++ fixed 2 minAccept ++ " threshold")
    else ⟨some field, roundTo 3 combined, evidence⟩

end Scorer

/-! ## Tier 3 -/

/-- Everything the adjudicator is given about an unresolved column set. -/
structure AdjudicationRequest where
  clientId : String
  clientName : String
  sourceHint : String
  domain : String
  templateFingerprint : String
  unresolvedHeaders : List String
  resolved : List (String × String)
  samples : List (String × List String)

structure AdjudicatedField where
  sourceField : String
  canonicalField : Option String
  confidence : ℚ
  rationale : String

structure AdjudicationResult where
  fields : List AdjudicatedField
  model : String

def AdjudicationResult.asMap (result : AdjudicationResult) : Dict String AdjudicatedField :=
  .ofPairs (result.fields.map fun f => (f.sourceField, f))

/-- The Tier 3 seam. -/
abbrev Adjudicator := AdjudicationRequest → AdjudicationResult

/-- Adjudicated mappings by template fingerprint and client. -/
abbrev TemplateCache := Dict (String × String) (Dict String String)

/-! ## The ladder -/

/-- What is known about a table before its columns are mapped. -/
structure TableContext where
  clientId : String
  clientName : String := ""
  sourceHint : String := ""
  domain : String := "UNKNOWN"
  templateFingerprint : String := ""

structure TieredResolver where
  fieldOverrides : List (String × String) := []
  scorer : Scorer
  adjudicator : Option Adjudicator := none
  cache : TemplateCache := .empty

structure ResolutionOutcome where
  mappings : List Mapping
  tier2Used : Nat := 0
  tier3Used : Nat := 0
  cacheHit : Bool := false
  degraded : Bool := false
  promotable : Option (List (String × String)) := none
  /-- What was asked of the adjudicator, if it was asked. -/
  request : Option AdjudicationRequest := none
  cache : TemplateCache := .empty

/-- The fields assigned so far. -/
def claimed (mappings : List Mapping) : List String :=
  mappings.filterMap fun m => truthy m.canonicalField

def sampleRows : Nat := 5

/-- A change to the columns that are unresolved, one after the other. The change
sees the fields claimed at that moment. -/
def settleUnresolved (change : List String → Mapping → Mapping) :
    List Mapping → List Mapping → List Mapping
  | settled, [] => settled
  | settled, m :: rest =>
      let m := if m.canonicalField = none then change (claimed (settled ++ m :: rest)) m else m
      settleUnresolved change (settled ++ [m]) rest

/-- `_apply` on one column: a learned field that is free. -/
def applyLearned (learned : Dict String String) (taken : List String) (m : Mapping) : Mapping :=
  match truthy (learned.get? m.sourceField) with
  | some candidate =>
      if candidate ∉ taken then
        { m with
          canonicalField := some candidate
          tier := .tierLlm
          confidence := 80 / 100
          evidence := "cached adjudication for this template" }
      else m
  | none => m

/-- `_run_tier2` on one column. -/
def applyTier2 (scorer : Scorer) (taken : List String) (m : Mapping) : Mapping :=
  let answer := scorer.tryMatch runtime m.sourceField taken
  match answer.canonicalField with
  | none => { m with evidence := m.evidence ++ "; tier2: " ++ answer.evidence }
  | some field =>
      { m with
        canonicalField := some field
        tier := .tierLocal
        confidence := answer.confidence
        evidence := answer.evidence }

/-- `_run_tier3` on one column. -/
def applyTier3 (model : String) (answers : Dict String AdjudicatedField) (taken : List String)
    (m : Mapping) : Mapping :=
  match answers.get? m.sourceField with
  | none => { m with evidence := m.evidence ++ "; tier3 declined" }
  | some answer =>
      match answer.canonicalField with
      | none => { m with evidence := m.evidence ++ "; tier3 declined" }
      | some field =>
          if field ∈ taken then
            { m with evidence := m.evidence ++ "; tier3 proposed " ++ field ++
                " but it was already assigned" }
          else
            { m with
              canonicalField := some field
              tier := .tierLlm
              confidence := answer.confidence
              evidence := model ++ ": " ++ answer.rationale }

def unresolved (mappings : List Mapping) : List Mapping :=
  mappings.filter fun m => m.canonicalField = none

/-- What the adjudicator is asked about the columns left. -/
def requestFor (table : ParsedTable) (context : TableContext) (mappings : List Mapping) :
    AdjudicationRequest where
  clientId := context.clientId
  clientName := context.clientName
  sourceHint := context.sourceHint
  domain := context.domain
  templateFingerprint := context.templateFingerprint
  unresolvedHeaders := (unresolved mappings).map Mapping.sourceField
  resolved := mappings.filterMap fun m => m.canonicalField.map fun field => (m.sourceField, field)
  samples := (unresolved mappings).map fun m =>
    (m.sourceField, (table.column m.sourceField).take sampleRows)

/-- What is remembered for the next file of this layout. -/
def learnedFrom (mappings : List Mapping) : List (String × String) :=
  mappings.filterMap fun m =>
    if m.tier = .tierLlm then (truthy m.canonicalField).map fun field => (m.sourceField, field)
    else none

namespace TieredResolver

variable (resolver : TieredResolver)

/-- The cached mapping of this layout, if it says anything. -/
def cached (context : TableContext) : Option (Dict String String) :=
  if context.templateFingerprint = "" ∨ context.clientId = "" then none
  else (resolver.cache.get? (context.templateFingerprint, context.clientId)).filter
    fun learned => learned.entries ≠ []

/-- A layout that was adjudicated before costs nothing the second time. -/
def remembered (context : TableContext) (tier1 : List Mapping) : List Mapping :=
  match resolver.cached context with
  | some learned => settleUnresolved (applyLearned learned) [] tier1
  | none => tier1

/-- Tier 2 on the columns that Tier 1 and the cache left. -/
def runTier2 (mappings : List Mapping) : List Mapping :=
  settleUnresolved (applyTier2 runtime resolver.scorer) [] mappings

/-- Tier 3 on the columns the earlier tiers declined. -/
def runTier3 (adjudicator : Adjudicator) (table : ParsedTable) (context : TableContext)
    (outcome : ResolutionOutcome) : ResolutionOutcome :=
  let request := requestFor table context outcome.mappings
  let result := adjudicator request
  let mappings := settleUnresolved (applyTier3 result.model result.asMap) [] outcome.mappings
  let used := (unresolved outcome.mappings).length - (unresolved mappings).length
  let learned := learnedFrom mappings
  if used ≠ 0 ∧ context.templateFingerprint ≠ "" ∧ context.clientId ≠ "" then
    { outcome with
      mappings := mappings
      tier3Used := used
      promotable := some learned
      request := some request
      cache := outcome.cache.set (context.templateFingerprint, context.clientId)
        (.ofPairs learned) }
  else { outcome with mappings := mappings, tier3Used := used, request := some request }

/-- Run the full escalation for one table. -/
def resolve (table : ParsedTable) (context : TableContext) : Except Signal ResolutionOutcome := do
  let tier1 ← mapTable runtime resolver.fieldOverrides table
  let remembered := resolver.remembered context tier1
  let mappings := resolver.runTier2 runtime remembered
  let outcome : ResolutionOutcome :=
    { mappings := mappings
      tier2Used := (unresolved remembered).length - (unresolved mappings).length
      cacheHit := (resolver.cached context).isSome
      degraded := resolver.scorer.degraded
      cache := resolver.cache }
  match resolver.adjudicator with
  | some adjudicator =>
      if unresolved mappings ≠ [] ∧ outcome.cacheHit = false then
        return runTier3 adjudicator table context outcome
      else return outcome
  | none => return outcome

end TieredResolver

end Harbormaster.Inspector
