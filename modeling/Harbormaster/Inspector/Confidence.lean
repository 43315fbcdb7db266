import Harbormaster.Inspector.Attribution
import Harbormaster.Inspector.Tier1
import Harbormaster.Inspector.ValueDate

/-! # One confidence score

`confidence` of the inspector: the judgements about the client, the date and the
columns are weighed into one score, which decides where the arrival goes. The
source computes in doubles; every operation is rounded by a given arithmetic.
-/

namespace Harbormaster.Inspector

open Rounding

variable (runtime : Runtime)

inductive Disposition where
  | dispatched | quarantined | rejected
deriving DecidableEq, Repr

def weightClient : ℚ := 35 / 100
def weightValueDate : ℚ := 35 / 100
def weightMapping : ℚ := 30 / 100

theorem dispatch_default_unit : (0 : ℚ) ≤ 85 / 100 ∧ (85 / 100 : ℚ) ≤ 1 := by decide +kernel

theorem quarantine_default_unit : (0 : ℚ) ≤ 60 / 100 ∧ (60 / 100 : ℚ) ≤ 1 := by decide +kernel

/-- The thresholds, which the environment may set within the unit interval. -/
structure Thresholds where
  dispatch : ℚ := 85 / 100
  quarantine : ℚ := 60 / 100
  dispatch_unit : 0 ≤ dispatch ∧ dispatch ≤ 1 := by
    first | exact dispatch_default_unit | decide +kernel
  quarantine_unit : 0 ≤ quarantine ∧ quarantine ≤ 1 := by
    first | exact quarantine_default_unit | decide +kernel

/-- The composed confidence and the routing decision it implies. -/
structure Score where
  overall : ℚ
  client : ℚ
  valueDate : ℚ
  mappingCoverage : ℚ
  disposition : Disposition
  reasons : List String := []
  unmappedRequired : List String := []
deriving DecidableEq

/-- The mapping of a field, of several the last one. -/
def mappingOf (mappings : List Mapping) (field : String) : Option Mapping :=
  (mappings.filter fun m => m.canonicalField = some field).getLast?

/-- The required fields that are not mapped. -/
def missingFields (mappings : List Mapping) (domain : Domain) : List String :=
  (requiredByDomain domain).filter fun field => (mappingOf mappings field).isNone

variable (arithmetic : Arithmetic)

/-- What the mapped fields earn, one field after the other. -/
def earnedWeight (mappings : List Mapping) (required : List String) : ℚ :=
  required.foldl (fun earned field =>
    match mappingOf mappings field with
    | none => earned
    | some m =>
        arithmetic.add earned
          (arithmetic.mul (fieldWeight field) (arithmetic.round m.confidence))) 0

/-- Weighted coverage of the fields this domain actually requires. The weights are
small integers, whose sum is exact. -/
def mappingCoverage (mappings : List Mapping) (domain : Domain) : ℚ :=
  let required := requiredByDomain domain
  if required = [] then 1
  else
    arithmetic.roundTo 4
      (arithmetic.div (earnedWeight arithmetic mappings required) (required.map fieldWeight).sum)

/-- The three judgements in the weights of their consequences. -/
def weighted (client valueDate coverage : ℚ) : ℚ :=
  arithmetic.add
    (arithmetic.add (arithmetic.mul (arithmetic.round weightClient) client)
      (arithmetic.mul (arithmetic.round weightValueDate) valueDate))
    (arithmetic.mul (arithmetic.round weightMapping) coverage)

/-- Decide the disposition. Some conditions disqualify regardless of the score. -/
def route (thresholds : Thresholds) (overall : ℚ) (attribution : Attribution)
    (valueDate : Resolution) (missing : List String) : Disposition :=
  let dispatch := arithmetic.round thresholds.dispatch
  let quarantine := arithmetic.round thresholds.quarantine
  if attribution.resolved = false ∨ valueDate.resolved = none then
    if arithmetic.div quarantine 2 ≤ overall then .quarantined else .rejected
  else if missing ≠ [] then .quarantined
  else if dispatch ≤ overall then .dispatched
  else if quarantine ≤ overall then .quarantined
  else .rejected

/-- The reasons about the client. -/
def clientReasons (attribution : Attribution) : List String :=
  match attribution.clientId with
  | none => ["client could not be determined: " ++ join "; " attribution.evidence]
  | some clientId =>
      if attribution.conflict then
        ["conflicting evidence for client " ++ clientId ++ ": " ++ join "; " attribution.evidence]
      else []

/-- What a disagreement between filename and contents is reported as. -/
def disagreement (valueDate : Resolution) : List String :=
  if valueDate.mismatchFlagged then ["value-date disagreement: " ++ valueDate.notes] else []

/-- A confidence below 0.7. -/
def weak (confidence : ℚ) : Bool := arithmetic.round confidence < arithmetic.round (7 / 10)

/-- The reasons about the value date. -/
def dateReasons (valueDate : Resolution) : List String :=
  if valueDate.resolved = none then ["value date could not be determined"]
  else disagreement valueDate ++
    (if weak arithmetic valueDate.confidence then
      ["value date rests on weak evidence (" ++ valueDate.method ++ ", confidence " ++
        fixed 2 (arithmetic.round valueDate.confidence) ++ ")"]
    else [])

/-- The reasons about the columns. -/
def mappingReasons (mappings : List Mapping) (domain : Domain) : List String :=
  ((missingFields mappings domain).map fun field =>
    "required field " ++ quoted runtime field ++ " for domain " ++ domain.text ++
      " was not mapped") ++
  (mappings.filterMap fun m => do
    let field ← m.canonicalField
    if field ∈ requiredByDomain domain ∧ weak arithmetic m.confidence then
      some (field ++ " mapped from " ++ quoted runtime m.sourceField ++ " on weak evidence: " ++
        m.evidence)
    else none) ++
  (mappings.filterMap fun m =>
    if m.canonicalField = none ∧ "price".toList <:+: runtime.lower m.evidence.toList then
      some ("price column " ++ quoted runtime m.sourceField ++ " left unassigned: " ++ m.evidence)
    else none)

/-- Combine the three judgements and decide the disposition. A dispatched arrival
keeps only what was said about its date. -/
def compose (thresholds : Thresholds) (attribution : Attribution) (valueDate : Resolution)
    (mappings : List Mapping) (domain : Domain) : Score :=
  let coverage := mappingCoverage arithmetic mappings domain
  let missing := missingFields mappings domain
  let clientConf := arithmetic.round attribution.confidence
  let dateConf := if valueDate.resolved.isSome then arithmetic.round valueDate.confidence else 0
  let overall := arithmetic.roundTo 4 (weighted arithmetic clientConf dateConf coverage)
  let disposition := route arithmetic thresholds overall attribution valueDate missing
  let reasons := clientReasons attribution ++ dateReasons arithmetic valueDate ++
    mappingReasons runtime arithmetic mappings domain
  { overall := overall
    client := clientConf
    valueDate := dateConf
    mappingCoverage := coverage
    disposition := disposition
    reasons := if disposition = .dispatched then
        reasons.filter fun reason => startsWith reason "value-date disagreement"
      else reasons
    unmappedRequired := missing }

theorem dispatched_of_compose {thresholds : Thresholds} {attribution : Attribution}
    {valueDate : Resolution} {mappings : List Mapping} {domain : Domain}
    (h : (compose runtime arithmetic thresholds attribution valueDate mappings domain).disposition =
      .dispatched) :
    attribution.resolved = true ∧ valueDate.resolved ≠ none ∧
      missingFields mappings domain = [] := by
  obtain ⟨overall, hroute⟩ : ∃ overall, route arithmetic thresholds overall attribution valueDate
    (missingFields mappings domain) = .dispatched := ⟨_, h⟩
  unfold route at hroute
  dsimp only at hroute
  split at hroute
  next => split at hroute <;> cases hroute
  next hresolved =>
    push Not at hresolved
    split at hroute
    next => cases hroute
    next hmissing =>
      exact ⟨by simpa using hresolved.1, hresolved.2, not_not.mp hmissing⟩

end Harbormaster.Inspector
