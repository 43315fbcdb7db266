import Harbormaster.Inspector.Classify
import Harbormaster.Inspector.Escalation
import Harbormaster.Inspector.Resolution
import Mathlib.Algebra.Order.BigOperators.Group.List

/-! # What a dispatch rests on

The confidence of every stage is bounded: a conflict about the client and a date
taken from the time of arrival keep the composed score below the threshold of a
dispatch, whatever the other stages say. Behind a dispatched classification there
is therefore an undisputed client, a date that was read, and a mapping with
evidence for every field that its domain requires.
-/

namespace Harbormaster.Inspector

open Ordered Rounding

variable {runtime : Runtime}

/-! ## Mappings -/

/-- The confidence of a mapping is at most one. -/
def Mapping.Bounded (m : Mapping) : Prop := m.confidence ≤ 1

theorem bounded_undecided (header evidence : String) :
    (Mapping.undecided header evidence).Bounded :=
  zero_le_one

/-- What a change of unresolved columns preserves holds of all columns. -/
theorem settleUnresolved_forall {motive : Mapping → Prop} {change : List String → Mapping → Mapping}
    (hchange : ∀ taken m, motive m → motive (change taken m)) (settled rest : List Mapping)
    (hsettled : ∀ m ∈ settled, motive m) (hrest : ∀ m ∈ rest, motive m) :
    ∀ m ∈ settleUnresolved change settled rest, motive m := by
  induction rest generalizing settled with
  | nil => exact hsettled
  | cons m rest ih =>
      obtain ⟨hm, hrest⟩ := List.forall_mem_cons.mp hrest
      rw [settleUnresolved]
      refine ih _ ?_ hrest
      intro other hother
      rcases List.mem_append.mp hother with hother | hother
      · exact hsettled other hother
      · rw [List.mem_singleton.mp hother]
        split
        next => exact hchange _ m hm
        next => exact hm

/-! ### Tier 1 -/

section Tier1

variable {fieldOverrides : List (String × String)} {table : ParsedTable}

theorem mapHeader_bounded {state next : Tier1State} {header : String}
    (hstate : ∀ m ∈ state.mappings, m.Bounded)
    (h : mapHeader runtime fieldOverrides table state header = .ok next) :
    ∀ m ∈ next.mappings, m.Bounded := by
  have hadd : ∀ m : Mapping, m.Bounded → ∀ other ∈ (state.add m).mappings, other.Bounded := by
    intro m hm other hother
    rcases List.mem_append.mp hother with hother | hother
    · exact hstate other hother
    · rw [List.mem_singleton.mp hother]
      exact hm
  have hunmatched : ∀ {next}, (do
      if ← looksLikePriceColumn runtime header (table.column header) then
        return state.defer header
      return state.add (.undecided header "no alias match") : Except Signal Tier1State) = .ok next →
        ∀ m ∈ next.mappings, m.Bounded := by
    intro next h
    obtain ⟨price, _, h⟩ := Fallible.bind_eq_ok.mp h
    cases price with
    | true =>
        cases h
        exact hstate
    | false =>
        cases h
        exact hadd _ (bounded_undecided _ _)
  unfold mapHeader at h
  split at h
  next =>
    cases h
    exact hadd _ le_rfl
  next =>
    dsimp only at h
    split at h
    next => exact hunmatched h
    next =>
      split at h
      next =>
        cases h
        exact hstate
      next =>
        split at h
        next =>
          cases h
          exact hadd _ le_rfl
        next =>
          split at h
          next =>
            cases h
            exact hadd _ (bounded_undecided _ _)
          next => exact hunmatched h

theorem assignNamed_bounded (field fieldWords reason : String) (candidates : List (String × ℚ)) :
    ∀ m ∈ assignNamed runtime field fieldWords reason candidates, m.Bounded := by
  unfold assignNamed
  split
  next => exact fun m hm => absurd hm List.not_mem_nil
  next best score surplus _ =>
    rw [List.forall_mem_cons]
    refine ⟨by simp only [Mapping.Bounded]; norm_num, fun m hm => ?_⟩
    obtain ⟨_, _, rfl⟩ := List.mem_map.mp hm
    exact bounded_undecided _ _

theorem priceConf_le (strength : ℚ) : priceConf strength ≤ 1 := by
  refine (roundTo_mono 3 (min_le_right _ _)).trans ?_
  exact (roundTo_le 900 (by norm_num)).trans (by norm_num)

theorem assignStructural_bounded (basis : String) (taken : List String)
    (scored : List (String × ℚ)) : ∀ m ∈ assignStructural basis taken scored, m.Bounded := by
  induction scored generalizing taken with
  | nil => exact fun m hm => absurd hm List.not_mem_nil
  | cons entry rest ih =>
      obtain ⟨header, ratio⟩ := entry
      unfold assignStructural
      split
      next => exact List.forall_mem_cons.mpr ⟨priceConf_le _, ih _⟩
      next =>
        split
        next => exact List.forall_mem_cons.mpr ⟨priceConf_le _, ih _⟩
        next => exact List.forall_mem_cons.mpr ⟨bounded_undecided _ _, ih _⟩

theorem mem_of_inSourceOrder {headers : List String} {mappings : List Mapping} {m : Mapping}
    (h : m ∈ inSourceOrder headers mappings) : m ∈ mappings := by
  obtain ⟨header, _, hget⟩ := List.mem_filterMap.mp h
  rw [Dict.get?_ofPairs] at hget
  obtain ⟨pair, hfind, rfl⟩ := Option.map_eq_some_iff.mp hget
  obtain ⟨m, hm, rfl⟩ := List.mem_map.mp (List.mem_reverse.mp (List.mem_of_find?_eq_some hfind))
  exact hm

theorem mapTable_bounded {mappings : List Mapping}
    (h : mapTable runtime fieldOverrides table = .ok mappings) : ∀ m ∈ mappings, m.Bounded := by
  obtain ⟨state, hfold, h⟩ := Fallible.bind_eq_ok.mp h
  obtain rfl := Except.ok.inj h
  have hstate : ∀ m ∈ state.mappings, m.Bounded :=
    Fallible.foldlM_ok (motive := fun state : Tier1State => ∀ m ∈ state.mappings, m.Bounded)
      (fun m hm => absurd hm List.not_mem_nil)
      (fun _ _ _ _ hstate hstep => mapHeader_bounded hstate hstep) hfold
  intro m hm
  rcases List.mem_append.mp (mem_of_inSourceOrder hm) with hnamed | hpriced
  · exact hstate m hnamed
  · rcases List.mem_append.mp hpriced with hworded | hvaried
    · rcases List.mem_append.mp hworded with hsettlement | htrade
      · exact assignNamed_bounded _ _ _ _ m hsettlement
      · exact assignNamed_bounded _ _ _ _ m htrade
    · exact assignStructural_bounded _ _ _ m hvaried

end Tier1

/-! ### The ladder -/

theorem applyLearned_bounded (learned : Dict String String) (taken : List String) (m : Mapping)
    (h : m.Bounded) : (applyLearned learned taken m).Bounded := by
  unfold applyLearned
  split
  next =>
    split
    next => simp only [Mapping.Bounded]; norm_num
    next => exact h
  next => exact h

/-- The local matcher is never sure. -/
theorem Scorer.tryMatch_le (scorer : Scorer) (header : String) (taken : List String) :
    (scorer.tryMatch runtime header taken).confidence ≤ 1 := by
  have hround : ∀ value : ℚ, value ≤ maxConfidence → roundTo 3 value ≤ 1 := by
    intro value hvalue
    exact (roundTo_le 880 (hvalue.trans (by norm_num [maxConfidence]))).trans (by norm_num)
  have hsettle : ∀ (preferred : String) (combined : ℚ) (evidence : String),
      combined ≤ maxConfidence →
        (Scorer.tryMatch.settle preferred combined evidence).confidence ≤ 1 := by
    intro preferred combined evidence hcombined
    unfold Scorer.tryMatch.settle
    split
    next => exact zero_le_one
    next => exact hround _ hcombined
  unfold Scorer.tryMatch
  dsimp only
  split
  next =>
    split
    · split
      · exact zero_le_one
      · exact hround _ (min_le_right _ _)
    · exact zero_le_one
  next =>
    split
    next => exact hsettle _ _ _ (min_le_right _ _)
    next =>
      split
      next =>
        split
        · split
          · exact zero_le_one
          · exact hround _ (min_le_right _ _)
        · exact zero_le_one
      next => exact hsettle _ _ _ (min_le_right _ _)

theorem applyTier2_bounded (scorer : Scorer) (taken : List String) (m : Mapping) (h : m.Bounded) :
    (applyTier2 runtime scorer taken m).Bounded := by
  unfold applyTier2
  dsimp only
  split
  next => exact h
  next => exact scorer.tryMatch_le _ _

/-- The adjudicator gives no confidence above one. -/
def AdjudicationResult.Bounded (result : AdjudicationResult) : Prop :=
  ∀ field ∈ result.fields, field.confidence ≤ 1

theorem applyTier3_bounded {result : AdjudicationResult} (hresult : result.Bounded)
    (taken : List String) (m : Mapping) (h : m.Bounded) :
    (applyTier3 result.model result.asMap taken m).Bounded := by
  unfold applyTier3
  split
  next => exact h
  next answer hanswer =>
    split
    next => exact h
    next =>
      split
      next => exact h
      next =>
        rw [AdjudicationResult.asMap, Dict.get?_ofPairs] at hanswer
        obtain ⟨pair, hfind, rfl⟩ := Option.map_eq_some_iff.mp hanswer
        obtain ⟨field, hfield, rfl⟩ :=
          List.mem_map.mp (List.mem_reverse.mp (List.mem_of_find?_eq_some hfind))
        exact hresult field hfield

theorem runTier3_bounded {adjudicator : Adjudicator}
    (hadjudicator : ∀ request, (adjudicator request).Bounded) (table : ParsedTable)
    (context : TableContext) {outcome : ResolutionOutcome}
    (houtcome : ∀ m ∈ outcome.mappings, m.Bounded) :
    ∀ m ∈ (TieredResolver.runTier3 adjudicator table context outcome).mappings, m.Bounded := by
  have hsettled := settleUnresolved_forall
    (applyTier3_bounded (hadjudicator (requestFor table context outcome.mappings))) []
    outcome.mappings (fun m hm => absurd hm List.not_mem_nil) houtcome
  unfold TieredResolver.runTier3
  dsimp only
  split
  · exact hsettled
  · exact hsettled

theorem TieredResolver.resolve_bounded {resolver : TieredResolver} {table : ParsedTable}
    {context : TableContext} {outcome : ResolutionOutcome}
    (hadjudicator : ∀ adjudicator ∈ resolver.adjudicator, ∀ request,
      (adjudicator request).Bounded)
    (h : resolver.resolve runtime table context = .ok outcome) :
    ∀ m ∈ outcome.mappings, m.Bounded := by
  obtain ⟨tier1, htier1, h⟩ := Fallible.bind_eq_ok.mp h
  have hnone : ∀ m ∈ ([] : List Mapping), m.Bounded := fun m hm => absurd hm List.not_mem_nil
  have hremembered : ∀ m ∈ resolver.remembered context tier1, m.Bounded := by
    unfold remembered
    split
    next learned _ =>
      exact settleUnresolved_forall (applyLearned_bounded learned) _ _ hnone
        (mapTable_bounded htier1)
    next => exact mapTable_bounded htier1
  have htier2 : ∀ m ∈ resolver.runTier2 runtime (resolver.remembered context tier1), m.Bounded :=
    settleUnresolved_forall (applyTier2_bounded resolver.scorer) _ _ hnone hremembered
  dsimp only at h
  split at h
  next adjudicator hadjudicating =>
    split at h
    next =>
      obtain rfl := Except.ok.inj h
      exact runTier3_bounded (hadjudicator adjudicator hadjudicating) table context htier2
    next =>
      obtain rfl := Except.ok.inj h
      exact htier2
  next =>
    obtain rfl := Except.ok.inj h
    exact htier2

/-! ## The client -/

/-- An attribution is never certain, and in conflict it is weak. -/
theorem attributeFile_le (filename : String) (headers : List String) (rows : List Row)
    (registry : Registry) :
    (attributeFile runtime filename headers rows registry).confidence ≤ confBothAgree ∧
      ((attributeFile runtime filename headers rows registry).conflict = true →
        (attributeFile runtime filename headers rows registry).confidence ≤ confConflict) := by
  unfold attributeFile
  dsimp only
  split
  next => exact ⟨by norm_num [confBothAgree, confConflict], fun _ => le_rfl⟩
  next =>
    split
    next =>
      split
      next => exact ⟨le_rfl, by simp [build]⟩
      next => exact ⟨by norm_num [build, confBothAgree, confConflict], fun _ => le_rfl⟩
    next => exact ⟨by norm_num [build, confBothAgree, confAccountMatch], by simp [build]⟩
    next => exact ⟨by norm_num [build, confBothAgree, confFilenameMatch], by simp [build]⟩
    next => exact ⟨by norm_num [confBothAgree, confNone], by simp⟩

/-! ## The value date -/

/-- The date was read: from the value dates of the rows, from their trade dates, or
from the filename. -/
inductive Dated (runtime : Runtime) (table : ParsedTable) (name : String) (calendar : Calendar)
    (hints : List String) (resolution : Resolution) : Prop where
  | explicit (day : Day)
      (hday : day ∈
        columnDates runtime table.rows (findValueDateColumn runtime table.headers hints))
      (hresolved : resolution.resolved = some (calendar.roll day))
      (hmethod : resolution.method = methodContentExplicit)
  | inferred (day : Day)
      (hday : day ∈ columnDates runtime table.rows (findTradeDateColumn runtime table.headers))
      (hresolved : resolution.resolved = some (calendar.roll (calendar.addBusinessDays day 1)))
      (hmethod : resolution.method = methodContentInferred)
  | filename (day : Day) (hday : dateFromFilename runtime name = some day)
      (hresolved : resolution.resolved = some (calendar.roll day))
      (hmethod : resolution.method = methodFilename)

/-- A resolution is never certain, and weak unless its date was read. -/
theorem resolve_dated (table : ParsedTable) (name : String) (today : Day) (calendar : Calendar)
    (hints : List String) :
    let resolution := resolve runtime table.headers table.rows name today calendar hints
    resolution.confidence ≤ confContentExplicit ∧
      (Dated runtime table name calendar hints resolution ∨
        resolution.confidence ≤ confArrival) := by
  have hexplicit : confContentExplicit = (970 : Nat) / 10 ^ 3 := by norm_num [confContentExplicit]
  have hinferred : confContentInferred = (850 : Nat) / 10 ^ 3 := by norm_num [confContentInferred]
  have hfilename : confFilename = (700 : Nat) / 10 ^ 3 := by norm_num [confFilename]
  have harrival : confArrival = (550 : Nat) / 10 ^ 3 := by norm_num [confArrival]
  intro resolution
  unfold resolution resolve
  dsimp only
  split
  next first rest hdates =>
    refine ⟨finish_le _ _ _ _ hexplicit _ _ _ _, .inl (.explicit (winner first rest) ?_ rfl rfl)⟩
    exact hdates ▸ winner_mem first rest
  next =>
    split
    next first rest hdates =>
      refine ⟨(finish_le _ _ _ _ hinferred _ _ _ _).trans ?_, .inl ?_⟩
      · norm_num [confContentInferred, confContentExplicit]
      · have hmem := winner_mem first rest
        rw [← hdates] at hmem
        obtain ⟨day, hday, hnext⟩ := List.mem_map.mp hmem
        exact .inferred day hday (by rw [hnext]; rfl) rfl
    next =>
      split
      next day hday =>
        refine ⟨(finish_le _ _ _ _ hfilename _ _ _ _).trans ?_, .inl ?_⟩
        · norm_num [confFilename, confContentExplicit]
        · have hwinner : winner day [] = day := List.mem_singleton.mp (winner_mem day [])
          exact .filename day hday (by rw [← hwinner]; rfl) rfl
      next =>
        refine ⟨(finish_le _ _ _ _ harrival _ _ _ _).trans ?_,
          .inr (finish_le _ _ _ _ harrival _ _ _ _)⟩
        norm_num [confArrival, confContentExplicit]

/-! ## The score -/

theorem fieldWeight_pos (field : String) : 0 < fieldWeight field := by
  unfold fieldWeight
  split_ifs <;> norm_num

variable {arithmetic : Arithmetic}

theorem fieldWeight_natCast (field : String) : ∃ n : Nat, fieldWeight field = n ∧ n ≤ 3 := by
  unfold fieldWeight
  split_ifs
  · exact ⟨3, by norm_num, le_rfl⟩
  · exact ⟨2, by norm_num, by norm_num⟩
  · exact ⟨1, by norm_num, by norm_num⟩

/-- Bounded mappings earn at most the weights of the fields. -/
theorem foldl_earned_le {mappings : List Mapping} (h : ∀ m ∈ mappings, m.Bounded)
    (required : List String) {earned : ℚ} {n : Nat} (hearned : earned ≤ n)
    (hsmall : n + 3 * required.length < 2 ^ 53) :
    required.foldl (fun earned field =>
      match mappingOf mappings field with
      | none => earned
      | some m =>
          arithmetic.add earned
            (arithmetic.mul (fieldWeight field) (arithmetic.round m.confidence))) earned ≤
      n + (required.map fieldWeight).sum := by
  induction required generalizing earned n with
  | nil => simpa using hearned
  | cons field rest ih =>
      obtain ⟨weight, hweight, hthree⟩ := fieldWeight_natCast field
      rw [List.length_cons] at hsmall
      rw [List.foldl_cons, List.map_cons, List.sum_cons, ← add_assoc, hweight, ← Nat.cast_add]
      refine ih ?_ (by omega)
      cases hmapping : mappingOf mappings field with
      | none => exact hearned.trans (by exact_mod_cast Nat.le_add_right n weight)
      | some m =>
          have hconfidence : arithmetic.round m.confidence ≤ 1 := Arithmetic.round_le_one
            (h m (List.mem_filter.mp (List.mem_of_getLast? hmapping)).1)
          have hshare : arithmetic.mul weight (arithmetic.round m.confidence) ≤ weight :=
            Arithmetic.round_le_natCast
              (mul_le_of_le_one_right (Nat.cast_nonneg weight) hconfidence) (by omega)
          refine Arithmetic.round_le_natCast ?_ (by omega)
          push_cast
          exact add_le_add hearned hshare

theorem totalWeight_pos {required : List String} (h : required ≠ []) :
    0 < (required.map fieldWeight).sum := by
  refine List.sum_pos _ (fun weight hweight => ?_) (by simpa using h)
  obtain ⟨field, _, rfl⟩ := List.mem_map.mp hweight
  exact fieldWeight_pos field

/-- Bounded mappings earn no more than there is. -/
theorem earned_share_le {mappings : List Mapping} (h : ∀ m ∈ mappings, m.Bounded) {domain : Domain}
    (hrequired : requiredByDomain domain ≠ []) :
    arithmetic.div (earnedWeight arithmetic mappings (requiredByDomain domain))
      ((requiredByDomain domain).map fieldWeight).sum ≤ 1 := by
  have hlength : (requiredByDomain domain).length ≤ 7 := by cases domain <;> decide
  have hearned := @foldl_earned_le arithmetic _ h (requiredByDomain domain) 0 0
    (by rw [Nat.cast_zero]) (by omega)
  rw [Nat.cast_zero, zero_add] at hearned
  exact Arithmetic.round_le_one ((div_le_one (totalWeight_pos hrequired)).mpr hearned)

/-- Bounded mappings cover at most everything. -/
theorem mappingCoverage_le {mappings : List Mapping} (h : ∀ m ∈ mappings, m.Bounded)
    (domain : Domain) : mappingCoverage arithmetic mappings domain ≤ 1 := by
  unfold mappingCoverage
  dsimp only
  split
  next => exact le_rfl
  next hrequired =>
    have hbound : _ ≤ ((10000 : Int) : ℚ) / 10 ^ 4 :=
      (@earned_share_le arithmetic _ h _ hrequired).trans (by norm_num)
    exact Arithmetic.round_le_one ((roundTo_le 10000 hbound).trans (by norm_num))

/-- What the composed score of a dispatch has reached. -/
theorem threshold_of_compose {thresholds : Thresholds} {attribution : Attribution}
    {valueDate : Resolution} {mappings : List Mapping} {domain : Domain}
    (h : (compose runtime arithmetic thresholds attribution valueDate mappings domain).disposition =
      .dispatched) :
    arithmetic.round thresholds.dispatch ≤ arithmetic.roundTo 4 (weighted arithmetic
      (arithmetic.round attribution.confidence) (arithmetic.round valueDate.confidence)
      (mappingCoverage arithmetic mappings domain)) := by
  obtain ⟨hclient, hdate, hmissing⟩ := dispatched_of_compose runtime arithmetic h
  have hroute : route arithmetic thresholds (arithmetic.roundTo 4 (weighted arithmetic
      (arithmetic.round attribution.confidence) (arithmetic.round valueDate.confidence)
      (mappingCoverage arithmetic mappings domain)))
      attribution valueDate (missingFields mappings domain) = .dispatched := by
    simpa only [compose, Option.isSome_iff_ne_none.mpr hdate, if_true] using h
  rw [route, if_neg (by simp [hclient, hdate]), if_neg (not_not.mpr hmissing)] at hroute
  split at hroute
  next hreached => exact hreached
  next => split at hroute <;> cases hroute

/-- Parts of at most so many units of the twentieth binary digit are weighed together. -/
theorem weighted_le {client valueDate coverage : ℚ} (c d : Nat) (hclient : client ≤ c / 2 ^ 20)
    (hdate : valueDate ≤ d / 2 ^ 20) (hcoverage : coverage ≤ 1) (hc : c ≤ 2 ^ 20)
    (hd : d ≤ 2 ^ 20)
    (hsum : 367002 * c / 2 ^ 20 + 367002 * d / 2 ^ 20 + 314575 ≤ 880279) :
    weighted arithmetic (arithmetic.round client) (arithmetic.round valueDate) coverage ≤
      (880279 : Nat) / 2 ^ 20 := by
  have hshare := @Arithmetic.mul_round_le arithmetic _ _ _ _ 20 (by norm_num)
    (by norm_num [weightClient])
    (by norm_num [weightClient] : weightClient ≤ (367002 : Nat) / 2 ^ 20) hclient (by norm_num) hc
  have hshare' := @Arithmetic.mul_round_le arithmetic _ _ _ _ 20 (by norm_num)
    (by norm_num [weightValueDate])
    (by norm_num [weightValueDate] : weightValueDate ≤ (367002 : Nat) / 2 ^ 20) hdate
    (by norm_num) hd
  have hweight : arithmetic.round weightMapping ≤ (314573 : Nat) / 2 ^ 20 :=
    Arithmetic.round_le (by norm_num [weightMapping]) (by norm_num) (by norm_num)
  have hshare'' : arithmetic.mul (arithmetic.round weightMapping) coverage ≤
      (314573 : Nat) / 2 ^ 20 := by
    refine Arithmetic.round_le (le_trans ?_ hweight) (by norm_num) (by norm_num)
    exact mul_le_of_le_one_right (Arithmetic.round_nonneg (by norm_num [weightMapping])) hcoverage
  have hfirst := @Arithmetic.add_round_le arithmetic _ _ _ _ _ hshare hshare' (by norm_num)
    (by omega)
  refine (Arithmetic.add_round_le hfirst hshare'' (by norm_num) (by omega)).trans ?_
  refine div_le_div_of_nonneg_right (Nat.cast_le.mpr ?_) (by positivity)
  omega

/-- Neither a conflict nor a weak date leaves room for a dispatch. -/
theorem strong_of_reached {client valueDate coverage threshold : ℚ}
    (hreached : arithmetic.round threshold ≤ arithmetic.roundTo 4 (weighted arithmetic
      (arithmetic.round client) (arithmetic.round valueDate) coverage))
    (hthreshold : 84 / 100 ≤ threshold) (hclient : client ≤ confBothAgree)
    (hdate : valueDate ≤ confContentExplicit) (hcoverage : coverage ≤ 1) :
    confConflict < client ∧ confArrival < valueDate := by
  -- 0.8395 rounded up and 0.84 rounded down are different binary fractions
  have hlow : ¬ weighted arithmetic (arithmetic.round client) (arithmetic.round valueDate)
      coverage ≤ (880279 : Nat) / 2 ^ 20 := by
    intro hsum
    have hdecimals : weighted arithmetic (arithmetic.round client) (arithmetic.round valueDate)
        coverage ≤ ((8395 : Int) : ℚ) / 10 ^ 4 := hsum.trans (by norm_num)
    have hround : arithmetic.roundTo 4 (weighted arithmetic (arithmetic.round client)
        (arithmetic.round valueDate) coverage) ≤ (880280 : Nat) / 2 ^ 20 :=
      Arithmetic.round_le ((roundTo_le 8395 hdecimals).trans (by norm_num)) (by norm_num)
        (by norm_num)
    have hleast : (880803 : Nat) / 2 ^ 20 ≤ arithmetic.round threshold :=
      Arithmetic.le_round ((by norm_num : _ ≤ (84 : ℚ) / 100).trans hthreshold) (by norm_num)
        (by norm_num)
    have habsurd := (hleast.trans hreached).trans hround
    norm_num at habsurd
  simp only [confBothAgree, confContentExplicit, confConflict, confArrival] at *
  constructor
  · by_contra hweak
    exact hlow (weighted_le 471860 1017119 ((not_lt.mp hweak).trans (by norm_num))
      (hdate.trans (by norm_num)) hcoverage (by norm_num) (by norm_num) (by norm_num))
  · by_contra hweak
    exact hlow (weighted_le 1038091 576717 (hclient.trans (by norm_num))
      ((not_lt.mp hweak).trans (by norm_num)) hcoverage (by norm_num) (by norm_num) (by norm_num))

/-! ## Dispatch -/

/-- What stands behind a classification that is dispatched. -/
structure Supported (runtime : Runtime) (shared : FileInspector.Shared) (c : Classification) :
    Prop where
  client : ∃ clientId, c.clientId = some clientId ∧ c.attribution.clientId = some clientId
  undisputed : c.attribution.conflict = false
  dated : Dated runtime c.table shared.name shared.calendar shared.hints c.valueDate
  mapped : ∀ field ∈ requiredByDomain c.domain, ∃ m ∈ c.mappings,
    m.canonicalField = some field ∧ m.evidence ≠ ""

section Dispatch

variable {inspector : FileInspector} {arrivalId name : String} {parser : Parser} {table : ParsedTable}
variable {shared : FileInspector.Shared}

/-- The ladder keeps the evidence of Tier 1. -/
theorem TieredResolver.resolve_grounded {resolver : TieredResolver} {context : TableContext}
    {outcome : ResolutionOutcome} (h : resolver.resolve runtime table context = .ok outcome) :
    ∀ m ∈ outcome.mappings, m.Grounded := by
  obtain ⟨tier1, htier1, hladder, _⟩ := resolve_stages h
  apply Keeps.all_grounded hladder.keeps
  apply Keeps.all_grounded (resolver.stage_runTier2 _).keeps
  apply Keeps.all_grounded (resolver.stage_remembered context tier1).keeps
  exact (mapTable_spec htier1).grounded

/-- The mappings that all parts of a file share are bounded and have evidence. -/
theorem mappings_of_prepare
    (hadjudicator : ∀ adjudicator ∈ inspector.adjudicator, ∀ request,
      (adjudicator request).Bounded)
    (h : inspector.prepare runtime arrivalId parser table name = .ok shared) :
    (∀ m ∈ shared.mappings, m.Bounded) ∧ ∀ m ∈ shared.mappings, m.Grounded := by
  unfold FileInspector.prepare at h
  dsimp only at h
  split at h
  next =>
    obtain ⟨outcome, houtcome, h⟩ := Fallible.bind_eq_ok.mp h
    obtain ⟨⟨agrees, note⟩, _, h⟩ := Fallible.bind_eq_ok.mp h
    have hresolve := Fallible.mapError_eq_ok.mp houtcome
    dsimp only at h
    split at h
    next =>
      cases h
      exact ⟨TieredResolver.resolve_bounded hadjudicator hresolve,
        TieredResolver.resolve_grounded hresolve⟩
    next => cases h
  next => cases h

/-- A field that is not missing has a mapping. -/
theorem mapped_of_missingFields {mappings : List Mapping} {domain : Domain}
    (h : missingFields mappings domain = []) :
    ∀ field ∈ requiredByDomain domain, ∃ m ∈ mappings, m.canonicalField = some field := by
  intro field hfield
  have hmapped := List.filter_eq_nil_iff.mp h field hfield
  rw [Option.isNone_iff_eq_none] at hmapped
  obtain ⟨m, hlast⟩ := Option.ne_none_iff_exists'.mp hmapped
  obtain ⟨hm, hsame⟩ := List.mem_filter.mp (List.mem_of_getLast? hlast)
  exact ⟨m, hm, of_decide_eq_true hsame⟩

/-- The remark on a part changes nothing of its date. -/
theorem Dated.remarked {calendar : Calendar} {hints : List String} {resolution : Resolution}
    (h : Dated runtime table name calendar hints resolution) (notes : String) :
    Dated runtime table name calendar hints { resolution with notes := notes } := by
  cases h with
  | explicit day hday hresolved hmethod => exact .explicit day hday hresolved hmethod
  | inferred day hday hresolved hmethod => exact .inferred day hday hresolved hmethod
  | filename day hday hresolved hmethod => exact .filename day hday hresolved hmethod

/-- Whatever is dispatched at a threshold of at least 0.84 is supported. -/
theorem dispatched_supported (clock : Nat → Day)
    (hadjudicator : ∀ adjudicator ∈ inspector.adjudicator, ∀ request,
      (adjudicator request).Bounded)
    (hthreshold : 84 / 100 ≤ inspector.thresholds.dispatch)
    (hprepare : inspector.prepare runtime arrivalId parser table name = .ok shared) :
    ∀ c ∈ inspector.classifyParts runtime shared table clock,
      c.score.disposition = .dispatched → Supported runtime shared c := by
  obtain ⟨hattribution, _⟩ := prepare_ok hprepare
  obtain ⟨hbounded, hgrounded⟩ := mappings_of_prepare hadjudicator hprepare
  intro c hc hdispatched
  obtain ⟨part, index, remark, total, rfl⟩ := mem_classifyParts hc
  obtain ⟨hclient, _, hmissing⟩ := dispatched_of_compose runtime _ hdispatched
  have hsure := @attributeFile_le runtime name table.headers table.rows inspector.registry
  rw [← FileInspector.attribution, ← hattribution] at hsure
  obtain ⟨hdate, hread⟩ := @resolve_dated runtime part shared.name (clock index)
    shared.calendar shared.hints
  obtain ⟨hundisputed, hstrong⟩ := strong_of_reached (threshold_of_compose hdispatched) hthreshold
    hsure.1 hdate (mappingCoverage_le hbounded _)
  constructor
  · obtain ⟨clientId, hclientId⟩ := Option.isSome_iff_exists.mp hclient
    exact ⟨clientId, hclientId, hclientId⟩
  · by_contra hconflict
    have hconflict : shared.attribution.conflict = true := eq_true_of_ne_false hconflict
    exact absurd (hsure.2 hconflict) (not_le.mpr hundisputed)
  · exact (hread.resolve_right (not_le.mpr hstrong)).remarked _
  · intro field hfield
    obtain ⟨m, hm, hmapped⟩ := mapped_of_missingFields hmissing field hfield
    exact ⟨m, hm, hmapped, (hgrounded m hm).evidence⟩

/-- The sample inspector with a model that knows no column. -/
def adjudicatedInspector (table : ParsedTable) : FileInspector :=
  { sampleInspector table with
    adjudicator := some fun request =>
      { fields := request.unresolvedHeaders.map fun header =>
          { sourceField := header, canonicalField := none, confidence := 1, rationale := "unknown" }
        model := "adjudicator" } }

theorem dispatched_supported_statement :
    ∃ shared c, (adjudicatedInspector (sampleStatement "Value Date" ["2026-08-27"])).prepare .ascii
        "arr-1" (sampleParser (sampleStatement "Value Date" ["2026-08-27"]))
        (sampleStatement "Value Date" ["2026-08-27"]) "statement.csv" = .ok shared ∧
      c.score.disposition = .dispatched ∧ Supported .ascii shared c := by
  generalize htable : sampleStatement "Value Date" ["2026-08-27"] = table
  have heval : ((adjudicatedInspector table).prepare .ascii "arr-1" (sampleParser table) table
      "statement.csv").toOption.map (fun shared =>
        ((adjudicatedInspector table).classifyParts .ascii shared table fun _ => 739860).any
          fun c => c.score.disposition = .dispatched) = some true := by
    subst htable
    decide +kernel
  obtain ⟨shared, hprepare, hany⟩ := Fallible.ok_of_toOption heval
  obtain ⟨c, hc, hdispatched⟩ := List.any_eq_true.mp hany
  have hdispatched := of_decide_eq_true hdispatched
  have hadjudicator : ∀ adjudicator ∈ (adjudicatedInspector table).adjudicator, ∀ request,
      (adjudicator request).Bounded := by
    intro adjudicator hsome request field hfield
    obtain rfl := Option.some.inj hsome
    obtain ⟨header, _, rfl⟩ := List.mem_map.mp hfield
    exact le_rfl
  have hthreshold : 84 / 100 ≤ (adjudicatedInspector table).thresholds.dispatch := by
    change (84 / 100 : ℚ) ≤ 85 / 100
    norm_num
  exact ⟨shared, c, hprepare, hdispatched,
    dispatched_supported _ hadjudicator hthreshold hprepare c hc hdispatched⟩

end Dispatch

end Harbormaster.Inspector
