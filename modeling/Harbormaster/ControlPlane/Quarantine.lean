import Harbormaster.ControlPlane.Convergence
import Harbormaster.Inspector.Classify

/-! # The review queue of split arrivals

Every sub-batch of an arrival is projected to the one row of that arrival, and each
overwrites the classification of the one before. So the row, and with it the place
in the review queue, is that of whichever sub-batch comes last, and any message
that is the last of its topic and partition may come last.
-/

namespace Harbormaster.ControlPlane

open Delivery Keyed

/-! ## What the inspector publishes -/

section Published

open Inspector

/-- Quarantined arrivals go to the review queue, not to the berthmaster. -/
def topicFor (disposition : Disposition) : String :=
  if disposition = .dispatched then topicArrivalsClassified else topicArrivalsQuarantine

/-- The message of a classification, on the partition of its slot. -/
def published (partitionFor : String → Nat) (classification : Classification)
    (classifiedAt : Instant) (json : String) : Delivered where
  message :=
    let message := some { classified := toProto classification, classifiedAt, json }
    if topicFor classification.score.disposition = topicArrivalsClassified then
      .arrivalsClassified message
    else .arrivalsQuarantine message
  partition := partitionFor
    ((truthy classification.clientId).getD "UNKNOWN" ++ ":" ++ classification.domain.text ++ ":" ++
      classification.valueDate.resolvedIso)

end Published

/-! ## What a message says about an arrival -/

/-- The classification of an arrival. -/
def classifies (arrivalId : String) (delivered : Delivered) : Option ClassifiedMessage :=
  match delivered.message with
  | .arrivalsClassified (some message) | .arrivalsQuarantine (some message) =>
      if message.classified.arrivalId = arrivalId then some message else none
  | _ => none

/-- A sub-batch that a reviewer has to decide on. -/
def ClassifiedMessage.isHeld (message : ClassifiedMessage) : Bool :=
  message.classified.disposition = .quarantined || message.classified.disposition = .rejected

variable (castDate : String → Option Day)

/-- The resolved value date is a date or empty. -/
def ClassifiedMessage.Dated (message : ClassifiedMessage) : Prop :=
  message.classified.valueDate.resolved ≠ "" →
    (castDate message.classified.valueDate.resolved).isSome

/-- The row of an arrival after a message about it. -/
def overwrite (message : ClassifiedMessage) (row : ArrivalRow) : ArrivalRow :=
  match toDateOrNull castDate message.classified.valueDate.resolved with
  | .ok valueDate => classify message valueDate row
  | .error _ => row

variable {castDate} {board : Board} {arrivalId : String} {deliveries : List Delivered}

/-- What a projected classification leaves of the row of an arrival. -/
theorem projected_lookup (board : Board) (message : ClassifiedMessage) (arrivalId : String) :
    (orSkip board (projectClassified castDate board message)).arrivals.lookup arrivalId =
      if message.classified.arrivalId = arrivalId then
        (board.arrivals.lookup arrivalId).map (overwrite castDate message)
      else board.arrivals.lookup arrivalId := by
  unfold projectClassified overwrite
  cases hdate : toDateOrNull castDate message.classified.valueDate.resolved with
  | error cause =>
      change board.arrivals.lookup arrivalId = _
      rw [Option.map_id', ite_self]
  | ok valueDate =>
      change (orSkip board (if _ then _ else _)).arrivals.lookup arrivalId = _
      by_cases hid : message.classified.arrivalId = arrivalId
      · subst hid
        rw [if_pos rfl]
        cases hrow : board.arrivals.lookup message.classified.arrivalId with
        | none =>
            -- the failed projection leaves the board without a row
            rw [Option.isNone_none, if_pos rfl]
            exact hrow
        | some row =>
            rw [Option.isNone_some, if_neg Bool.false_ne_true]
            change (board.arrivals.modify _ _).lookup _ = _
            rw [Table.lookup_modify_self, hrow]
      · rw [if_neg hid]
        split
        · rfl
        · exact Table.lookup_modify_of_ne _ _ (Ne.symm hid)

/-- What the inspector publishes is dated. -/
theorem dated_published {partitionFor : String → Nat} {classification : Inspector.Classification}
    {classifiedAt : Instant} {json : String} {message : ClassifiedMessage}
    (hcast : ∀ date : Civil.Date, (castDate date.isoformat).isSome)
    (hday : ∀ day, classification.valueDate.resolved = some day →
      ∃ date : Civil.Date, date.ordinal = day)
    (h : classifies arrivalId (published partitionFor classification classifiedAt json) =
      some message) :
    message.Dated castDate := by
  have hwire : message.classified = Inspector.toProto classification := by
    unfold classifies published at h
    dsimp only at h
    split at h
    next hmessage =>
      split at hmessage
      · cases hmessage
        split at h
        · cases h
          rfl
        · cases h
      · cases hmessage
    next hmessage =>
      split at hmessage
      · cases hmessage
      · cases hmessage
        split at h
        · cases h
          rfl
        · cases h
    next => cases h
  unfold ClassifiedMessage.Dated
  rw [hwire]
  change classification.valueDate.resolvedIso ≠ "" → _
  unfold Inspector.toProto Inspector.Resolution.resolvedIso
  cases hresolved : classification.valueDate.resolved with
  | none => exact fun hne => absurd rfl hne
  | some day =>
      intro _
      obtain ⟨date, rfl⟩ := hday day hresolved
      change (castDate (Inspector.isoformat date.ordinal)).isSome
      rw [Inspector.isoformat_ordinal]
      exact hcast date

/-! ## Runs -/

/-- What one message does to the row of an arrival. -/
theorem arrivals_handle (board : Board) (delivered : Delivered) (arrivalId : String) :
    (handle castDate board delivered).arrivals.lookup arrivalId =
      match classifies arrivalId delivered with
      | none => board.arrivals.lookup arrivalId
      | some message => (board.arrivals.lookup arrivalId).map (overwrite castDate message) := by
  rcases handle_cases board delivered with ⟨message, hmessage, hnext⟩ | ⟨message, hmessage, hnext⟩ |
    ⟨message, hmessage, hnext⟩ | ⟨message, hmessage, hnext⟩ | ⟨hmessage, hnext⟩
  · have hclassifies : classifies arrivalId delivered =
        if message.classified.arrivalId = arrivalId then some message else none := by
      obtain hmessage | hmessage := hmessage
      · simp [classifies, hmessage]
      · simp [classifies, hmessage]
    rw [hnext, hclassifies, projected_lookup]
    split <;> rfl
  · rw [hnext, assignment_spec]
    cases castDate message.valueDate with
    | none => simp [classifies, hmessage]
    | some valueDate => simp [classifies, hmessage]
  · rw [hnext]
    simp [projectSuperseded, classifies, hmessage]
  · rw [hnext, alert_spec]
    cases castDate message.valueDate with
    | none => simp [classifies, hmessage]
    | some valueDate => simp [classifies, hmessage]
  · rw [hnext]
    obtain ⟨message, partition⟩ := delivered
    dsimp only at hmessage
    fin_cases hmessage <;> rfl

theorem reviews_handle (board : Board) (delivered : Delivered) :
    (handle castDate board delivered).reviews = board.reviews := by
  rcases handle_cases board delivered with ⟨message, _, hnext⟩ | ⟨message, _, hnext⟩ |
    ⟨message, _, hnext⟩ | ⟨message, _, hnext⟩ | ⟨_, hnext⟩
  · rw [hnext, (classified_frame board message).2.2]
  · rw [hnext, assignment_spec]
    cases castDate message.valueDate <;> rfl
  · rw [hnext]
    rfl
  · rw [hnext, alert_spec]
    cases castDate message.valueDate <;> rfl
  · rw [hnext]

theorem reviews_project (board : Board) (deliveries : List Delivered) :
    (project castDate board deliveries).reviews = board.reviews := by
  induction deliveries generalizing board with
  | nil => rfl
  | cons delivered rest ih =>
      change (project castDate (handle castDate board delivered) rest).reviews = _
      rw [ih, reviews_handle]

theorem arrivals_project (board : Board) (deliveries : List Delivered) (arrivalId : String) :
    (project castDate board deliveries).arrivals.lookup arrivalId =
      (board.arrivals.lookup arrivalId).map fun row =>
        (deliveries.filterMap (classifies arrivalId)).foldl
          (fun row message => overwrite castDate message row) row := by
  induction deliveries generalizing board with
  | nil => exact Option.map_id'.symm
  | cons delivered rest ih =>
      change (project castDate (handle castDate board delivered) rest).arrivals.lookup _ = _
      rw [ih, arrivals_handle]
      cases hmessage : classifies arrivalId delivered with
      | none => simp [hmessage]
      | some message => simp [hmessage, Function.comp_def]

/-- The cast of a dated classification succeeds. -/
theorem ClassifiedMessage.Dated.overwrite_eq {message : ClassifiedMessage}
    (h : message.Dated castDate) :
    ∃ valueDate, overwrite castDate message = classify message valueDate := by
  have hcast : ∃ valueDate,
      toDateOrNull castDate message.classified.valueDate.resolved = .ok valueDate := by
    unfold toDateOrNull
    split
    · exact ⟨none, rfl⟩
    next hne =>
      obtain ⟨day, hday⟩ := Option.isSome_iff_exists.mp (h hne)
      exact ⟨some day, by unfold toDate; rw [hday]; rfl⟩
  obtain ⟨valueDate, hdate⟩ := hcast
  refine ⟨valueDate, ?_⟩
  funext row
  unfold overwrite
  rw [hdate]

/-- It overwrites all that an earlier classification has written. -/
theorem overwrite_overwrite {message : ClassifiedMessage} (h : message.Dated castDate)
    (earlier : ClassifiedMessage) (row : ArrivalRow) :
    overwrite castDate message (overwrite castDate earlier row) =
      overwrite castDate message row := by
  obtain ⟨valueDate, heq⟩ := h.overwrite_eq
  rw [heq]
  unfold overwrite
  split <;> rfl

/-- The row of an arrival is written by the last message about it. -/
theorem arrivals_project_dated {row : ArrivalRow}
    (hrow : board.arrivals.lookup arrivalId = some row)
    (hdated : ∀ message ∈ deliveries.filterMap (classifies arrivalId), message.Dated castDate) :
    (project castDate board deliveries).arrivals.lookup arrivalId =
      some (((deliveries.filterMap (classifies arrivalId)).getLast?.map fun message =>
        overwrite castDate message row).getD row) := by
  rw [arrivals_project, hrow, Option.map_some,
    foldl_overwrite fun message hmem => overwrite_overwrite (hdated message hmem)]

/-! ## The queue -/

/-- A row is listed when it is held and nobody has reviewed it. -/
theorem mem_quarantine (board : Board) (arrivalId : String) :
    arrivalId ∈ board.quarantine.map Prod.fst ↔
      ∃ row, board.arrivals.lookup arrivalId = some row ∧ row.isHeld = true ∧
        board.reviews.lookup arrivalId = none := by
  rw [List.mem_map]
  constructor
  · rintro ⟨⟨id, row⟩, hmem, rfl⟩
    obtain ⟨hrow, hheld⟩ := (Table.mem_select _ _ _ _).mp
      ((List.perm_insertionSort _ _).mem_iff.mp hmem)
    rw [Bool.and_eq_true, Option.isNone_iff_eq_none] at hheld
    exact ⟨row, hrow, hheld.1, hheld.2⟩
  · rintro ⟨row, hrow, hheld, hreview⟩
    refine ⟨(arrivalId, row), (List.perm_insertionSort _ _).mem_iff.mpr ?_, rfl⟩
    apply (Table.mem_select _ _ _ _).mpr
    exact ⟨hrow, by simp [hheld, hreview]⟩

theorem dispositionName_quarantined {disposition : ArrivalDisposition} :
    dispositionName disposition = "QUARANTINED" ↔ disposition = .quarantined := by
  cases disposition with
  | unrecognized number =>
      refine iff_of_false (fun h => ?_) nofun
      apply @not_mem_toString 'Q' (by decide) (by decide) number
      change _ ∈ (dispositionName (.unrecognized number)).toList
      rw [h]
      decide
  | _ => decide

theorem dispositionName_rejected {disposition : ArrivalDisposition} :
    dispositionName disposition = "REJECTED" ↔ disposition = .rejected := by
  cases disposition with
  | unrecognized number =>
      refine iff_of_false (fun h => ?_) nofun
      apply @not_mem_toString 'R' (by decide) (by decide) number
      change _ ∈ (dispositionName (.unrecognized number)).toList
      rw [h]
      decide
  | _ => decide

/-- A row is held when its classification is. -/
theorem isHeld_overwrite {message : ClassifiedMessage} (h : message.Dated castDate)
    (row : ArrivalRow) : (overwrite castDate message row).isHeld = message.isHeld := by
  obtain ⟨valueDate, heq⟩ := h.overwrite_eq
  rw [heq]
  simp [ArrivalRow.isHeld, ClassifiedMessage.isHeld, classify, dispositionName_quarantined,
    dispositionName_rejected]

/-! ## Split arrivals -/

/-- The last message about an arrival in each topic and partition. -/
def lastAt (arrivalId : String) (deliveries : List Delivered) (p : String × Nat) :
    Option ClassifiedMessage :=
  ((ofPlace Delivered.place deliveries p).filterMap (classifies arrivalId)).getLast?

/-- An unreviewed arrival with a sub-batch that a reviewer has to decide on. -/
def AwaitsReview (board : Board) (arrivalId : String) (deliveries : List Delivered) : Prop :=
  board.reviews.lookup arrivalId = none ∧
    ∃ message ∈ deliveries.filterMap (classifies arrivalId), message.isHeld = true

/-- In every order of the messages the row of the arrival ends the same, and the
arrival is in the review queue if it awaits a review. -/
def StaysVisible (castDate : String → Option Day) (board : Board) (arrivalId : String)
    (deliveries : List Delivered) : Prop :=
  ∀ other, SameLog Delivered.place deliveries other →
    (project castDate board other).arrivals.lookup arrivalId =
        (project castDate board deliveries).arrivals.lookup arrivalId ∧
      (AwaitsReview board arrivalId deliveries →
        arrivalId ∈ (project castDate board other).quarantine.map Prod.fst)

/-- The last messages of all topics and partitions write the same row, and one that
is held if the arrival awaits a review. -/
structure LastAgree (castDate : String → Option Day) (board : Board) (arrivalId : String)
    (row : ArrivalRow) (deliveries : List Delivered) : Prop where
  same : ∀ p q message other, lastAt arrivalId deliveries p = some message →
    lastAt arrivalId deliveries q = some other →
      overwrite castDate message row = overwrite castDate other row
  held : AwaitsReview board arrivalId deliveries →
    ∀ p message, lastAt arrivalId deliveries p = some message → message.isHeld = true

/-- What any order of the messages leaves of the row of the arrival. -/
theorem lookup_of_sameLog {other : List Delivered} {row : ArrivalRow}
    (hrow : board.arrivals.lookup arrivalId = some row)
    (hdated : ∀ message ∈ deliveries.filterMap (classifies arrivalId), message.Dated castDate)
    (hsame : SameLog Delivered.place deliveries other) :
    (deliveries.filterMap (classifies arrivalId) = [] ∧
        (project castDate board other).arrivals.lookup arrivalId = some row) ∨
      ∃ p message, lastAt arrivalId deliveries p = some message ∧
        (project castDate board other).arrivals.lookup arrivalId =
          some (overwrite castDate message row) := by
  have hmem : ∀ message, message ∈ other.filterMap (classifies arrivalId) ↔
      message ∈ deliveries.filterMap (classifies arrivalId) := by
    intro message
    simp only [List.mem_filterMap, hsame.mem_iff]
  have hend := arrivals_project_dated hrow fun message h => hdated message ((hmem message).mp h)
  -- no message is about the arrival, or the last of them is the last of its place
  cases hlast : (other.filterMap (classifies arrivalId)).getLast? with
  | none =>
      rw [hlast] at hend
      left
      constructor
      · rw [List.getLast?_eq_none_iff] at hlast
        apply List.eq_nil_iff_forall_not_mem.mpr
        intro message h
        rw [← hmem, hlast] at h
        cases h
      · exact hend
  | some message =>
      rw [hlast] at hend
      right
      obtain ⟨p, hp⟩ := exists_last_iff.mp ⟨other, hsame, hlast⟩
      exact ⟨p, message, hp, hend⟩

/-- A split arrival stays visible exactly when the messages that may come last say
the same of it. -/
theorem staysVisible_iff {row : ArrivalRow} (hrow : board.arrivals.lookup arrivalId = some row)
    (hdated : ∀ message ∈ deliveries.filterMap (classifies arrivalId), message.Dated castDate) :
    StaysVisible castDate board arrivalId deliveries ↔
      LastAgree castDate board arrivalId row deliveries := by
  have hlate : ∀ p message, lastAt arrivalId deliveries p = some message →
      message ∈ deliveries.filterMap (classifies arrivalId) := by
    intro p message h
    obtain ⟨d, hd, hmessage⟩ := List.mem_filterMap.mp (List.mem_of_getLast? h)
    exact List.mem_filterMap.mpr ⟨d, List.mem_of_mem_filter hd, hmessage⟩
  constructor
  · intro h
    -- a message that is the last of its place comes last in some order
    have hends : ∀ p message, lastAt arrivalId deliveries p = some message →
        ∃ other, SameLog Delivered.place deliveries other ∧
          (project castDate board other).arrivals.lookup arrivalId =
            some (overwrite castDate message row) := by
      intro p message hp
      obtain ⟨other, hsame, hlast⟩ := exists_last_iff.mpr ⟨p, hp⟩
      have hend := @arrivals_project_dated castDate board arrivalId other row hrow (by
        intro message hmessage
        apply hdated
        simpa only [List.mem_filterMap, hsame.mem_iff] using hmessage)
      rw [hlast] at hend
      exact ⟨other, hsame, hend⟩
    constructor
    · intro p q message message' hp hq
      obtain ⟨other, hsame, hend⟩ := hends p message hp
      obtain ⟨other', hsame', hend'⟩ := hends q message' hq
      have heq := (h other hsame).1.trans (h other' hsame').1.symm
      rw [hend, hend'] at heq
      exact Option.some.inj heq
    · intro hawaits p message hp
      obtain ⟨other, hsame, hend⟩ := hends p message hp
      obtain ⟨row', hrow', hheld, _⟩ := (mem_quarantine _ _).mp ((h other hsame).2 hawaits)
      rw [hend] at hrow'
      cases hrow'
      rw [← isHeld_overwrite (hdated message (hlate p message hp)) row]
      exact hheld
  · intro h other hsame
    have hself := @lookup_of_sameLog castDate board arrivalId deliveries deliveries row hrow hdated
      fun p => rfl
    rcases lookup_of_sameLog hrow hdated hsame with ⟨hnone, hend⟩ | ⟨p, message, hp, hend⟩
    · rcases hself with ⟨_, hend'⟩ | ⟨q, message', hq, _⟩
      · refine ⟨hend.trans hend'.symm, ?_⟩
        rintro ⟨_, message, hmem, _⟩
        rw [hnone] at hmem
        cases hmem
      · have hmem := hlate q message' hq
        rw [hnone] at hmem
        cases hmem
    · constructor
      · rcases hself with ⟨hnone, _⟩ | ⟨q, message', hq, hend'⟩
        · have hmem := hlate p message hp
          rw [hnone] at hmem
          cases hmem
        · rw [hend, hend', h.same p q message message' hp hq]
      · intro hawaits
        apply (mem_quarantine _ _).mpr
        refine ⟨_, hend, ?_, ?_⟩
        · rw [isHeld_overwrite (hdated message (hlate p message hp))]
          exact h.held hawaits p message hp
        · rw [reviews_project]
          exact hawaits.1

/-! ## A statement of two days -/

/-- A sub-batch of a statement of two days. -/
def samplePart (index : Nat) (disposition : Inspector.Disposition) : Inspector.Classification where
  arrivalId := "arr-1"
  sourceFormat := "csv"
  clientId := some "CLNT004"
  attribution := { clientId := some "CLNT004", confidence := 1 }
  valueDate := { resolved := some (739855 + index), method := "content", confidence := 1 }
  domain := .trade
  mappings := []
  score := {
    overall := 1, client := 1, valueDate := 1, mappingCoverage := 1, disposition := disposition }
  table := { headers := [], rows := [], headers_nodup := .nil }
  templateFingerprint := "tf_1"
  subBatchIndex := index
  subBatchTotal := 2

/-- Its messages on a bus of one partition. -/
def sampleMessages (first second : Inspector.Disposition) : List Delivered :=
  [published (fun _ => 0) (samplePart 0 first) 5 "part 1",
    published (fun _ => 0) (samplePart 1 second) 6 "part 2"]

theorem dated_sampleMessages (first second : Inspector.Disposition) :
    ∀ message ∈ (sampleMessages first second).filterMap (classifies "arr-1"),
      message.Dated isoDate := by
  have hcast : ∀ date : Civil.Date, (isoDate date.isoformat).isSome := by
    intro date
    unfold isoDate
    rw [Civil.parseIso_isoformat]
    rfl
  intro message hmessage
  obtain ⟨d, hd, h⟩ := List.mem_filterMap.mp hmessage
  rcases List.mem_cons.mp hd with rfl | hd
  · apply dated_published hcast _ h
    intro day hday
    cases hday
    exact ⟨⟨2026, 8, 27, by decide, by decide, by decide⟩, by decide⟩
  · obtain rfl := List.mem_singleton.mp hd
    apply dated_published hcast _ h
    intro day hday
    cases hday
    exact ⟨⟨2026, 8, 28, by decide, by decide, by decide⟩, by decide⟩

def sampleBoard : Board where
  arrivals := (∅ : Table String ArrivalRow).insert "arr-1" {
    contentSha256 := "c1", originalName := "trades.csv", ingress := "folder"
    uri := "fs://landing/trades.csv", sizeBytes := 10, detectedAt := 1 }

theorem staysVisible_sample :
    StaysVisible isoDate sampleBoard "arr-1" (sampleMessages .quarantined .rejected) := by
  have hrow : ∃ row, sampleBoard.arrivals.lookup "arr-1" = some row :=
    Option.isSome_iff_exists.mp (by decide)
  obtain ⟨row, hrow⟩ := hrow
  -- both messages are in the review topic, and the second is the last there
  have hlast : ∀ p message,
      lastAt "arr-1" (sampleMessages .quarantined .rejected) p = some message →
        message = { classified := Inspector.toProto (samplePart 1 .rejected), classifiedAt := 6
                    json := "part 2" } := by
    intro p message h
    by_cases hp : (topicArrivalsQuarantine, 0) = p
    · subst hp
      cases h
      rfl
    · have hnone : ofPlace Delivered.place (sampleMessages .quarantined .rejected) p = [] := by
        apply List.filter_eq_nil_iff.mpr
        intro d hd hplace
        fin_cases hd
        · exact hp (of_decide_eq_true hplace)
        · exact hp (of_decide_eq_true hplace)
      unfold lastAt at h
      rw [hnone] at h
      cases h
  apply (staysVisible_iff hrow (dated_sampleMessages _ _)).mpr
  constructor
  · intro p q message other hp hq
    rw [hlast p message hp, hlast q other hq]
  · intro _ p message hp
    rw [hlast p message hp]
    rfl

/-- The held part is overwritten by the dispatched one and leaves the review queue;
in the other order it stays. -/
theorem held_part_overwritten :
    AwaitsReview sampleBoard "arr-1" (sampleMessages .quarantined .dispatched) ∧
      (project isoDate sampleBoard (sampleMessages .quarantined .dispatched)).quarantine = [] ∧
      (project isoDate sampleBoard
        (sampleMessages .quarantined .dispatched).reverse).quarantine.map Prod.fst = ["arr-1"] ∧
      ¬ StaysVisible isoDate sampleBoard "arr-1" (sampleMessages .quarantined .dispatched) := by
  have hawaits : AwaitsReview sampleBoard "arr-1" (sampleMessages .quarantined .dispatched) :=
    ⟨by decide, _, List.mem_cons_self, by decide⟩
  have hgone : (project isoDate sampleBoard
      (sampleMessages .quarantined .dispatched)).quarantine = [] := by decide +kernel
  refine ⟨hawaits, hgone, by decide +kernel, fun h => ?_⟩
  have hlisted := (h _ fun p => rfl).2 hawaits
  rw [hgone] at hlisted
  cases hlisted

end Harbormaster.ControlPlane
