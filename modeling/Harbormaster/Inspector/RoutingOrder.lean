import Harbormaster.Inspector.Dispatch

/-! # More evidence for the columns

What happens to the disposition when one mapping becomes more confident, and when
one more required field is mapped. The score does not fall, but an arrival with a
required field unmapped is never rejected, and a complete one may be.
-/

namespace Harbormaster.Inspector

open Rounding

variable {runtime : Runtime} {domain : Domain} {mappings mappings' : List Mapping}

/-- The dispositions from the worst to the best. -/
def Disposition.rank : Disposition → Nat
  | .rejected => 0
  | .quarantined => 1
  | .dispatched => 2

/-- The confidence of one mapping is raised. -/
inductive MoreConfident : List Mapping → List Mapping → Prop where
  | intro (before after : List Mapping) (m : Mapping) (confidence : ℚ)
      (hraise : m.confidence ≤ confidence) :
      MoreConfident (before ++ m :: after) (before ++ { m with confidence := confidence } :: after)

/-- A required field that was unmapped is mapped: to a column that no required
field had, or to one that was not listed. -/
inductive Assigned (domain : Domain) : List Mapping → List Mapping → Prop where
  | column (before after : List Mapping) (m m' : Mapping) (field : String)
      (hrequired : field ∈ requiredByDomain domain)
      (hunmapped : mappingOf (before ++ m :: after) field = none)
      (hfree : ∀ other ∈ requiredByDomain domain, m.canonicalField ≠ some other)
      (hsource : m'.sourceField = m.sourceField) (hfield : m'.canonicalField = some field)
      (hconfidence : 0 ≤ m'.confidence) :
      Assigned domain (before ++ m :: after) (before ++ m' :: after)
  | added (before after : List Mapping) (m' : Mapping) (field : String)
      (hrequired : field ∈ requiredByDomain domain)
      (hunmapped : mappingOf (before ++ after) field = none)
      (hfield : m'.canonicalField = some field) (hconfidence : 0 ≤ m'.confidence) :
      Assigned domain (before ++ after) (before ++ m' :: after)

/-! ## The mapping of a field -/

theorem mappingOf_append (before after : List Mapping) (field : String) :
    mappingOf (before ++ after) field = (mappingOf after field).or (mappingOf before field) := by
  unfold mappingOf
  rw [List.filter_append, List.getLast?_append]

theorem mappingOf_singleton (m : Mapping) (field : String) :
    mappingOf [m] field = if m.canonicalField = some field then some m else none := by
  unfold mappingOf
  rw [List.filter_singleton]
  by_cases hfield : m.canonicalField = some field
  · simp [hfield]
  · simp [hfield]

theorem mappingOf_middle (before after : List Mapping) (m : Mapping) (field : String) :
    mappingOf (before ++ m :: after) field =
      (mappingOf after field).or ((if m.canonicalField = some field then some m else none).or
        (mappingOf before field)) := by
  rw [← List.singleton_append, ← List.append_assoc, mappingOf_append, mappingOf_append,
    mappingOf_singleton]

/-- How sure the mapping of a field is; a field that is not mapped counts nothing. -/
def confidenceOf (mappings : List Mapping) (field : String) : ℚ :=
  ((mappingOf mappings field).map Mapping.confidence).getD 0

/-- No required field has lost its mapping or confidence. -/
structure Stronger (domain : Domain) (mappings mappings' : List Mapping) : Prop where
  mapped : ∀ field ∈ requiredByDomain domain, mappingOf mappings' field = none →
    mappingOf mappings field = none
  confidence : ∀ field ∈ requiredByDomain domain,
    confidenceOf mappings field ≤ confidenceOf mappings' field

theorem MoreConfident.mappingOf_eq_none (h : MoreConfident mappings mappings') (field : String) :
    mappingOf mappings' field = none ↔ mappingOf mappings field = none := by
  obtain ⟨before, after, m, confidence, -⟩ := h
  rw [mappingOf_middle, mappingOf_middle]
  by_cases hfield : m.canonicalField = some field
  · simp [hfield]
  · simp [hfield]

theorem MoreConfident.stronger (h : MoreConfident mappings mappings') (domain : Domain) :
    Stronger domain mappings mappings' := by
  refine ⟨fun field _ => (h.mappingOf_eq_none field).mp, fun field _ => ?_⟩
  obtain ⟨before, after, m, confidence, hraise⟩ := h
  unfold confidenceOf
  rw [mappingOf_middle, mappingOf_middle]
  cases mappingOf after field with
  -- the last mapping of a field counts, so the raised one does not
  | some later => exact le_rfl
  | none =>
      by_cases hfield : m.canonicalField = some field
      · simpa [hfield] using hraise
      · simp [hfield]

/-- What is assigned leaves the other required fields as they were. -/
theorem Assigned.mappingOf_eq (h : Assigned domain mappings mappings') :
    ∃ field ∈ requiredByDomain domain, mappingOf mappings field = none ∧
      (∃ m', mappingOf mappings' field = some m' ∧ 0 ≤ m'.confidence) ∧
      ∀ other ∈ requiredByDomain domain, other ≠ field →
        mappingOf mappings' other = mappingOf mappings other := by
  cases h with
  | column before after m m' field hrequired hunmapped hfree hsource hfield hconfidence =>
      refine ⟨field, hrequired, hunmapped, ⟨m', ?_, hconfidence⟩, fun other hother hne => ?_⟩
      · rw [mappingOf_middle, Option.or_eq_none_iff] at hunmapped
        rw [mappingOf_middle, hunmapped.1, if_pos hfield]
        rfl
      · have hother' : m'.canonicalField ≠ some other := by
          rw [hfield]
          exact fun hsame => hne (Option.some.inj hsame).symm
        rw [mappingOf_middle, mappingOf_middle, if_neg hother', if_neg (hfree other hother)]
  | added before after m' field hrequired hunmapped hfield hconfidence =>
      refine ⟨field, hrequired, hunmapped, ⟨m', ?_, hconfidence⟩, fun other hother hne => ?_⟩
      · rw [mappingOf_append, Option.or_eq_none_iff] at hunmapped
        rw [mappingOf_middle, hunmapped.1, if_pos hfield]
        rfl
      · have hother' : m'.canonicalField ≠ some other := by
          rw [hfield]
          exact fun hsame => hne (Option.some.inj hsame).symm
        rw [mappingOf_middle, mappingOf_append, if_neg hother']
        rfl

theorem Assigned.stronger (h : Assigned domain mappings mappings') :
    Stronger domain mappings mappings' := by
  obtain ⟨field, -, hunmapped, ⟨m', hm', hconfidence⟩, hothers⟩ := h.mappingOf_eq
  constructor
  · intro other hother hnone
    by_cases hsame : other = field
    · rw [hsame, hunmapped]
    · rw [← hothers other hother hsame, hnone]
  · intro other hother
    unfold confidenceOf
    by_cases hsame : other = field
    · rw [hsame, hunmapped, hm']
      exact hconfidence
    · rw [hothers other hother hsame]

/-! ## The score -/

variable (arithmetic : Arithmetic)

/-- What one more field earns is representable. -/
theorem round_earnedWeight (mappings : List Mapping) (required : List String) :
    arithmetic.round (earnedWeight arithmetic mappings required) =
      earnedWeight arithmetic mappings required := by
  unfold earnedWeight
  refine List.foldlRecOn (motive := fun earned => arithmetic.round earned = earned) required _
    arithmetic.round_zero ?_
  intro earned hearned field _
  cases mappingOf mappings field with
  | none => exact hearned
  | some m => exact arithmetic.round_round _

namespace Stronger

variable (h : Stronger domain mappings mappings')
include h

theorem earnedWeight_le {required : List String} (hrequired : required ⊆ requiredByDomain domain) :
    earnedWeight arithmetic mappings required ≤ earnedWeight arithmetic mappings' required := by
  induction required using List.reverseRecOn with
  | nil => exact le_rfl
  | append_singleton required field ih =>
      have hfield : field ∈ requiredByDomain domain := hrequired (by simp)
      have hbefore := ih fun other hother => hrequired (by simp [hother])
      have hconfidence := h.confidence field hfield
      have hround := round_earnedWeight arithmetic mappings required
      unfold earnedWeight at hbefore hround ⊢
      unfold confidenceOf at hconfidence
      rw [List.foldl_append, List.foldl_append, List.foldl_cons, List.foldl_cons, List.foldl_nil,
        List.foldl_nil]
      cases hmapping' : mappingOf mappings' field with
      | none =>
          rw [h.mapped field hfield hmapping']
          exact hbefore
      | some m' =>
          rw [hmapping'] at hconfidence
          have hweight := (fieldWeight_pos field).le
          cases hmapping : mappingOf mappings field with
          | none =>
              -- an unmapped field is passed over, and a mapped one adds nothing negative
              rw [hmapping] at hconfidence
              have hshare : 0 ≤
                  arithmetic.mul (fieldWeight field) (arithmetic.round m'.confidence) :=
                Arithmetic.round_nonneg (mul_nonneg hweight (Arithmetic.round_nonneg hconfidence))
              dsimp only
              rw [← hround]
              exact arithmetic.mono (le_add_of_le_of_nonneg hbefore hshare)
          | some m =>
              rw [hmapping] at hconfidence
              exact Arithmetic.add_mono hbefore
                (Arithmetic.mul_mono_right hweight (arithmetic.mono hconfidence))

theorem coverage_le :
    mappingCoverage arithmetic mappings domain ≤ mappingCoverage arithmetic mappings' domain := by
  unfold mappingCoverage
  dsimp only
  split
  next => exact le_rfl
  next hrequired =>
    refine Arithmetic.roundTo_mono 4 (Arithmetic.div_mono_left ?_ (totalWeight_pos hrequired).le)
    exact h.earnedWeight_le arithmetic (List.Subset.refl _)

theorem missing_eq_nil (hmissing : missingFields mappings domain = []) :
    missingFields mappings' domain = [] := by
  rw [missingFields, List.filter_eq_nil_iff] at hmissing ⊢
  intro field hfield hnone
  rw [Option.isNone_iff_eq_none] at hnone
  exact hmissing field hfield (Option.isNone_iff_eq_none.mpr (h.mapped field hfield hnone))

theorem overall_le (runtime : Runtime) (thresholds : Thresholds) (attribution : Attribution)
    (valueDate : Resolution) :
    (compose runtime arithmetic thresholds attribution valueDate mappings domain).overall ≤
      (compose runtime arithmetic thresholds attribution valueDate mappings' domain).overall := by
  have hweight : 0 ≤ arithmetic.round weightMapping :=
    Arithmetic.round_nonneg (by norm_num [weightMapping])
  have hshare := @Arithmetic.mul_mono_right arithmetic _ _ _ hweight (h.coverage_le arithmetic)
  exact Arithmetic.roundTo_mono 4 (Arithmetic.add_mono le_rfl hshare)

end Stronger

theorem MoreConfident.missingFields_eq (h : MoreConfident mappings mappings') (domain : Domain) :
    missingFields mappings' domain = missingFields mappings domain := by
  refine List.filter_congr fun field _ => ?_
  rw [Bool.eq_iff_iff, Option.isNone_iff_eq_none, Option.isNone_iff_eq_none]
  exact h.mappingOf_eq_none field

/-- Where an arrival goes whose columns are all mapped. -/
def routeMapped (thresholds : Thresholds) (overall : ℚ) : Disposition :=
  if arithmetic.round thresholds.dispatch ≤ overall then .dispatched
  else if arithmetic.round thresholds.quarantine ≤ overall then .quarantined
  else .rejected

variable {arithmetic}

theorem routeMapped_le (thresholds : Thresholds) {overall overall' : ℚ} (h : overall ≤ overall') :
    (routeMapped arithmetic thresholds overall).rank ≤
      (routeMapped arithmetic thresholds overall').rank := by
  unfold routeMapped
  by_cases hdispatch : arithmetic.round thresholds.dispatch ≤ overall
  · rw [if_pos hdispatch, if_pos (hdispatch.trans h)]
  · rw [if_neg hdispatch]
    by_cases hquarantine : arithmetic.round thresholds.quarantine ≤ overall
    · rw [if_pos hquarantine, if_pos (hquarantine.trans h)]
      split
      next => decide
      next => exact le_rfl
    · rw [if_neg hquarantine]
      exact Nat.zero_le _

theorem routeMapped_rank_lt {thresholds : Thresholds}
    (hle : thresholds.quarantine ≤ thresholds.dispatch) (overall : ℚ) :
    (routeMapped arithmetic thresholds overall).rank < Disposition.quarantined.rank ↔
      overall < arithmetic.round thresholds.quarantine := by
  unfold routeMapped
  by_cases hquarantine : arithmetic.round thresholds.quarantine ≤ overall
  · rw [if_pos hquarantine, iff_false_right (not_lt.mpr hquarantine)]
    split
    next => decide
    next => exact lt_irrefl _
  · have hlow := not_le.mp hquarantine
    rw [if_neg (not_le.mpr (hlow.trans_le (arithmetic.mono hle))), if_neg hquarantine]
    exact iff_of_true (by decide) hlow

/-- The order of two dispositions of one client and one date. -/
theorem route_rank_lt {thresholds : Thresholds} (hle : thresholds.quarantine ≤ thresholds.dispatch)
    {overall overall' : ℚ} (hoverall : overall ≤ overall') (attribution : Attribution)
    (valueDate : Resolution) {missing missing' : List String}
    (hmissing : missing = [] → missing' = []) :
    (route arithmetic thresholds overall' attribution valueDate missing').rank <
        (route arithmetic thresholds overall attribution valueDate missing).rank ↔
      attribution.resolved = true ∧ valueDate.resolved ≠ none ∧ missing ≠ [] ∧ missing' = [] ∧
        overall' < arithmetic.round thresholds.quarantine := by
  unfold route
  dsimp only
  by_cases hheld : attribution.resolved = false ∨ valueDate.resolved = none
  · have hopen : ¬ (attribution.resolved = true ∧ valueDate.resolved ≠ none) := by
      rintro ⟨hclient, hdate⟩
      exact hheld.elim (fun h => by rw [h] at hclient; cases hclient) hdate
    rw [if_pos hheld, if_pos hheld]
    refine iff_of_false (not_lt.mpr ?_) fun hall => hopen ⟨hall.1, hall.2.1⟩
    split
    next hreached =>
      rw [if_pos (hreached.trans hoverall)]
    next => exact Nat.zero_le _
  · have hopen : attribution.resolved = true ∧ valueDate.resolved ≠ none := by
      push Not at hheld
      exact ⟨eq_true_of_ne_false hheld.1, hheld.2⟩
    rw [if_neg hheld, if_neg hheld]
    by_cases hcomplete : missing = []
    · rw [if_neg (not_not.mpr hcomplete), if_neg (not_not.mpr (hmissing hcomplete))]
      exact iff_of_false (not_lt.mpr (routeMapped_le thresholds hoverall)) fun hall =>
        hall.2.2.1 hcomplete
    · rw [if_pos hcomplete]
      by_cases hcomplete' : missing' = []
      · rw [if_neg (not_not.mpr hcomplete')]
        refine (routeMapped_rank_lt hle overall').trans ?_
        exact ⟨fun hlow => ⟨hopen.1, hopen.2, hcomplete, hcomplete', hlow⟩, fun hall =>
          hall.2.2.2.2⟩
      · rw [if_pos hcomplete']
        exact iff_of_false (lt_irrefl _) fun hall => hcomplete' hall.2.2.2.1

/-! ## The disposition -/

/-- What stronger columns lose, if anything. -/
theorem Stronger.rank_lt (h : Stronger domain mappings mappings') (runtime : Runtime)
    {thresholds : Thresholds} (hle : thresholds.quarantine ≤ thresholds.dispatch)
    (attribution : Attribution) (valueDate : Resolution) :
    (compose runtime arithmetic thresholds attribution valueDate mappings'
        domain).disposition.rank <
        (compose runtime arithmetic thresholds attribution valueDate mappings
          domain).disposition.rank ↔
      attribution.resolved = true ∧ valueDate.resolved ≠ none ∧
        missingFields mappings domain ≠ [] ∧ missingFields mappings' domain = [] ∧
        (compose runtime arithmetic thresholds attribution valueDate mappings' domain).overall <
          arithmetic.round thresholds.quarantine :=
  route_rank_lt hle (h.overall_le arithmetic runtime thresholds attribution valueDate) attribution
    valueDate h.missing_eq_nil

/-- A raised confidence never lowers the disposition. A required field that is mapped
lowers it exactly when it was the last one, client and date are known, and the
score of the complete arrival is below the threshold of a quarantine. -/
theorem routing_in_evidence (runtime : Runtime) (arithmetic : Arithmetic) (thresholds : Thresholds)
    (hle : thresholds.quarantine ≤ thresholds.dispatch) (attribution : Attribution)
    (valueDate : Resolution) (domain : Domain) (mappings mappings' : List Mapping) :
    (MoreConfident mappings mappings' →
      (compose runtime arithmetic thresholds attribution valueDate mappings
          domain).disposition.rank ≤
        (compose runtime arithmetic thresholds attribution valueDate mappings'
          domain).disposition.rank) ∧
    (Assigned domain mappings mappings' →
      ((compose runtime arithmetic thresholds attribution valueDate mappings'
            domain).disposition.rank <
          (compose runtime arithmetic thresholds attribution valueDate mappings
            domain).disposition.rank ↔
        attribution.resolved = true ∧ valueDate.resolved ≠ none ∧
          missingFields mappings' domain = [] ∧
          (compose runtime arithmetic thresholds attribution valueDate mappings' domain).overall <
            arithmetic.round thresholds.quarantine)) := by
  constructor
  · intro hraised
    refine not_lt.mp fun hless => ?_
    obtain ⟨-, -, hmissing, hcomplete, -⟩ :=
      ((hraised.stronger domain).rank_lt runtime hle attribution valueDate).mp hless
    exact hmissing (hraised.missingFields_eq domain ▸ hcomplete)
  · intro hassigned
    have hmissing : missingFields mappings domain ≠ [] := by
      obtain ⟨field, hrequired, hunmapped, -⟩ := hassigned.mappingOf_eq
      have hfield : field ∈ missingFields mappings domain :=
        List.mem_filter.mpr ⟨hrequired, Option.isNone_iff_eq_none.mpr hunmapped⟩
      exact List.ne_nil_of_mem hfield
    rw [hassigned.stronger.rank_lt runtime hle, and_iff_right hmissing]

/-- A cash statement of a disputed client, dated by its arrival. -/
def disputed : Attribution where
  clientId := some "CLNT001"
  confidence := confConflict
  conflict := true

def arrivalDated : Resolution where
  resolved := some 739856
  method := methodArrival
  confidence := confArrival

def cashColumn (header field : String) : Mapping where
  sourceField := header
  canonicalField := some field
  tier := .tierLocal
  confidence := 80 / 100
  evidence := "closest alias"

def cashColumns : List Mapping :=
  [cashColumn "Acct Ref" "account_id", cashColumn "Ccy Cd" "currency"]

def amountColumn : Mapping := cashColumn "Net Amt Due" "net_amount"

theorem amountColumn_assigned :
    Assigned .cash (cashColumns ++ [.undecided "Net Amt Due" "no alias match"])
      (cashColumns ++ [amountColumn]) :=
  .column cashColumns [] (.undecided "Net Amt Due" "no alias match") amountColumn "net_amount"
    (by decide) rfl (fun _ _ => nofun) rfl rfl (by norm_num [amountColumn, cashColumn])

/-- The last required field is mapped, and the arrival is rejected. -/
theorem mapped_and_rejected :
    Assigned .cash (cashColumns ++ [.undecided "Net Amt Due" "no alias match"])
        (cashColumns ++ [amountColumn]) ∧
      (compose .ascii .double {} disputed arrivalDated
        (cashColumns ++ [.undecided "Net Amt Due" "no alias match"]) .cash).disposition =
          .quarantined ∧
      (compose .ascii .double {} disputed arrivalDated (cashColumns ++ [amountColumn])
        .cash).disposition = .rejected := by
  refine ⟨amountColumn_assigned, by decide, by decide +kernel⟩

/-- The same arrival, and a more confident amount. -/
theorem routing_in_evidence_cash :
    (compose .ascii .double {} disputed arrivalDated (cashColumns ++ [amountColumn])
          .cash).disposition.rank ≤
        (compose .ascii .double {} disputed arrivalDated
          (cashColumns ++ [{ amountColumn with confidence := 1 }]) .cash).disposition.rank ∧
      (compose .ascii .double {} disputed arrivalDated (cashColumns ++ [amountColumn])
          .cash).disposition.rank <
        (compose .ascii .double {} disputed arrivalDated
          (cashColumns ++ [.undecided "Net Amt Due" "no alias match"]) .cash).disposition.rank := by
  have hle : ({} : Thresholds).quarantine ≤ ({} : Thresholds).dispatch := by
    change (60 / 100 : ℚ) ≤ 85 / 100
    norm_num
  refine ⟨(routing_in_evidence .ascii .double {} hle disputed arrivalDated .cash _ _).1
    (.intro cashColumns [] amountColumn 1 (by norm_num [amountColumn, cashColumn])), ?_⟩
  refine ((routing_in_evidence .ascii .double {} hle disputed arrivalDated .cash _ _).2
    amountColumn_assigned).mpr ⟨rfl, nofun, rfl, ?_⟩
  decide +kernel

end Harbormaster.Inspector
