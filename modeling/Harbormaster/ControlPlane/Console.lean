import Harbormaster.ControlPlane.Quarantine
import Harbormaster.ControlPlane.ReviewDecision
import Harbormaster.Arrival.Dedupe
import Harbormaster.Foundation.Growth

/-! # The operations console

What writes the tables of the board, in any order: arrivals that are recorded, messages that
are projected, alerts that are acknowledged and rulings on quarantined arrivals. None of
them takes back what another has written, and a person is told at most once that an alert
or an arrival was theirs to settle.
-/

namespace Harbormaster.ControlPlane

open Keyed Settlement

/-! ## The tables -/

/-- The tables, where the reviews are those of the desk. -/
structure Console where
  arrivals : Table String ArrivalRow := ∅
  assignments : Table String AssignmentRow := ∅
  alerts : Table String AlertRow := ∅
  desk : Desk := {}

/-- What the queries of the board read of a review. -/
def ReviewRow.review (row : ReviewRow) : Review := ⟨row.reviewer, row.decision⟩

def Console.board (console : Console) : Board where
  arrivals := console.arrivals
  assignments := console.assignments
  alerts := console.alerts
  reviews := console.desk.reviews.mapRows ReviewRow.review

/-! ## Arrivals -/

/-- The row of an arrival before it is classified. -/
def arrivalRow (row : Arrival.Record) : ArrivalRow where
  contentSha256 := row.sha256
  originalName := row.originalName
  ingress := row.ingress
  uri := row.uri
  sizeBytes := row.size
  detectedAt := row.detectedAt

/-- The insertion of `SQLDeduper.Record`: neither a stored identifier nor a stored content of
the same name is inserted again. -/
def recordArrival (arrivals : Table String ArrivalRow) (row : Arrival.Record) :
    Table String ArrivalRow :=
  if (arrivals.select fun _ stored =>
      stored.contentSha256 = row.sha256 && stored.originalName = row.originalName) ≠ [] then arrivals
  else arrivals.upsert (fun stored _ => stored) row.arrivalId (arrivalRow row)

/-- The columns of an arrival that are written once. -/
def ArrivalRow.file (row : ArrivalRow) : String × String × String × String × Int × Instant :=
  (row.contentSha256, row.originalName, row.ingress, row.uri, row.sizeBytes, row.detectedAt)

/-! ## Alerts -/

/-- A request to acknowledge an alert, and what it meets. A malformed body is `none`. -/
structure AcknowledgeRequest where
  alertId : String
  reviewer : Option String
  execution : Insertion := .done
  acknowledgedAt : Instant := 0
deriving DecidableEq

inductive AcknowledgeError where
  | execute (cause : String)
  | notFound
deriving DecidableEq

def AlertRow.isOpen (row : AlertRow) : Bool := row.acknowledgedAt.isNone

def AlertRow.acknowledge (reviewer : String) (acknowledgedAt : Instant) (row : AlertRow) :
    AlertRow :=
  -- the update asks for `acknowledged_at IS NULL`
  if row.isOpen then
    { row with acknowledgedAt := some acknowledgedAt, acknowledgedBy := some reviewer }
  else row

/-- `AcknowledgeAlert`. -/
def acknowledgeAlert (alerts : Table String AlertRow) (alertId reviewer : String)
    (execution : Insertion) (acknowledgedAt : Instant) :
    Table String AlertRow × Option AcknowledgeError :=
  let acknowledged := alerts.modify alertId (AlertRow.acknowledge reviewer acknowledgedAt)
  match execution with
  | .failed cause => (alerts, some (.execute cause))
  | .unconfirmed cause => (acknowledged, some (.execute cause))
  | .done =>
      (acknowledged, if (alerts.lookup alertId).any AlertRow.isOpen then none else some .notFound)

/-- `fail`, for the errors of `AcknowledgeAlert`. -/
def AcknowledgeError.reply : AcknowledgeError → Reply
  | .notFound => ⟨404, [("error", "not found")]⟩
  | .execute _ => ⟨500, [("error", "internal error")]⟩

/-- `postAcknowledge`. -/
def postAcknowledge (alerts : Table String AlertRow) (request : AcknowledgeRequest) :
    Table String AlertRow × Reply :=
  match request.reviewer with
  | none => (alerts, ⟨400, [("error", "malformed alert acknowledgement body")]⟩)
  | some reviewer =>
      if reviewer = "" then
        (alerts, ⟨400, [("error", "acknowledging an alert requires a named reviewer")]⟩)
      else
        let (alerts, error) := acknowledgeAlert alerts request.alertId reviewer request.execution
          request.acknowledgedAt
        match error with
        | some error => (alerts, error.reply)
        | none => (alerts, ⟨200, [("status", "acknowledged")]⟩)

/-! ## Steps -/

inductive Action where
  | arrival (row : Arrival.Record)
  | message (delivered : Delivered)
  | acknowledge (request : AcknowledgeRequest)
  | decide (request : DecisionRequest)

section Steps

variable (castDate : String → Option Day) (quote : String → String)

def Console.step (console : Console) : Action → Console
  | .arrival row => { console with arrivals := recordArrival console.arrivals row }
  | .message delivered =>
      let board := handle castDate console.board delivered
      { console with
        arrivals := board.arrivals
        assignments := board.assignments
        alerts := board.alerts }
  | .acknowledge request =>
      { console with alerts := (postAcknowledge console.alerts request).1 }
  | .decide request => { console with desk := (postDecision quote console.desk request).1 }

def Console.run (console : Console) (actions : List Action) : Console :=
  actions.foldl (Console.step castDate quote) console

/-- Who is told that an alert is acknowledged. -/
def acknowledges (alertId : String) (console : Console) : Action → Option (Instant × Option String)
  | .acknowledge request =>
      if request.alertId = alertId ∧ (postAcknowledge console.alerts request).2.status = 200 then
        some (request.acknowledgedAt, request.reviewer)
      else none
  | _ => none

/-- The ruling on an arrival that is said to be recorded. -/
def rules (arrivalId : String) (console : Console) : Action → Option ReviewRow
  | .decide request =>
      if request.arrivalId = arrivalId ∧
          ((postDecision quote console.desk request).2.status = 200 ∨
            (postDecision quote console.desk request).2.status = 202) then
        request.body.map fun d => d.row request.decidedAt
      else none
  | _ => none

end Steps

/-! ## What is never taken back -/

/-- An arrival keeps its file. -/
def ArrivalRow.SameFile (row row' : ArrivalRow) : Prop := row'.file = row.file

/-- An assignment may be voided, once. -/
def AssignmentRow.MayBecome (row row' : AssignmentRow) : Prop :=
  row' = row ∨ row.voidedAt = none ∧ ∃ voidedAt voidedBy,
    row' = { row with voidedAt := some voidedAt, voidedBy := some voidedBy }

/-- An alert may be acknowledged, once. -/
def AlertRow.MayBecome (row row' : AlertRow) : Prop :=
  row' = row ∨ row.acknowledgedAt = none ∧ ∃ acknowledgedAt acknowledgedBy,
    row' = { row with
      acknowledgedAt := some acknowledgedAt, acknowledgedBy := some acknowledgedBy }

/-- Nothing of the one console is missing in the other, and what was settled is settled
the same. -/
structure Console.Grows (before after : Console) : Prop where
  arrivals : before.arrivals.Grows ArrivalRow.SameFile after.arrivals
  assignments : before.assignments.Grows AssignmentRow.MayBecome after.assignments
  alerts : before.alerts.Grows AlertRow.MayBecome after.alerts
  reviews : before.desk.reviews.Grows Eq after.desk.reviews
  topic : before.desk.topic <+: after.desk.topic

theorem ArrivalRow.sameFile_refl (row : ArrivalRow) : row.SameFile row := rfl

theorem AssignmentRow.mayBecome_refl (row : AssignmentRow) : row.MayBecome row := Or.inl rfl

theorem AlertRow.mayBecome_refl (row : AlertRow) : row.MayBecome row := Or.inl rfl

theorem AssignmentRow.mayBecome_trans (row row' row'' : AssignmentRow) (h : row.MayBecome row')
    (hnext : row'.MayBecome row'') : row.MayBecome row'' := by
  rcases h with rfl | ⟨hopen, voidedAt, voidedBy, rfl⟩
  · exact hnext
  · rcases hnext with rfl | ⟨hopen', -⟩
    · exact Or.inr ⟨hopen, voidedAt, voidedBy, rfl⟩
    · cases hopen'

theorem AlertRow.mayBecome_trans (row row' row'' : AlertRow) (h : row.MayBecome row')
    (hnext : row'.MayBecome row'') : row.MayBecome row'' := by
  rcases h with rfl | ⟨hopen, acknowledgedAt, acknowledgedBy, rfl⟩
  · exact hnext
  · rcases hnext with rfl | ⟨hopen', -⟩
    · exact Or.inr ⟨hopen, acknowledgedAt, acknowledgedBy, rfl⟩
    · cases hopen'

theorem AssignmentRow.mayBecome_void (message : BerthSuperseded) (row : AssignmentRow) :
    row.MayBecome (row.void message) := by
  unfold AssignmentRow.void
  by_cases hopen : row.voidedAt = none
  · rw [if_pos hopen]
    exact Or.inr ⟨hopen, message.emittedAt, message.supersededBy, rfl⟩
  · rw [if_neg hopen]
    exact row.mayBecome_refl

theorem AlertRow.mayBecome_acknowledge (reviewer : String) (acknowledgedAt : Instant)
    (row : AlertRow) : row.MayBecome (row.acknowledge reviewer acknowledgedAt) := by
  unfold AlertRow.acknowledge
  by_cases hopen : row.isOpen = true
  · rw [if_pos hopen]
    exact Or.inr ⟨Option.isNone_iff_eq_none.mp hopen, acknowledgedAt, reviewer, rfl⟩
  · rw [if_neg hopen]
    exact row.mayBecome_refl

namespace Console

variable {castDate : String → Option Day} {quote : String → String}

theorem grows_refl (console : Console) : console.Grows console where
  arrivals := Table.grows_refl ArrivalRow.sameFile_refl _
  assignments := Table.grows_refl AssignmentRow.mayBecome_refl _
  alerts := Table.grows_refl AlertRow.mayBecome_refl _
  reviews := Table.grows_refl (@rfl _) _
  topic := List.prefix_refl _

theorem Grows.trans {before middle after : Console} (h : before.Grows middle)
    (hnext : middle.Grows after) : before.Grows after where
  arrivals := h.arrivals.trans (fun _ _ _ hrow hnext => hnext.trans hrow) hnext.arrivals
  assignments := h.assignments.trans AssignmentRow.mayBecome_trans hnext.assignments
  alerts := h.alerts.trans AlertRow.mayBecome_trans hnext.alerts
  reviews := h.reviews.trans (fun _ _ _ => Eq.trans) hnext.reviews
  topic := h.topic.trans hnext.topic

/-! ## Steps -/

theorem grows_recordArrival (arrivals : Table String ArrivalRow) (row : Arrival.Record) :
    arrivals.Grows ArrivalRow.SameFile (recordArrival arrivals row) := by
  unfold recordArrival
  split
  · exact Table.grows_refl ArrivalRow.sameFile_refl _
  · exact Table.grows_upsert ArrivalRow.sameFile_refl _ _ _

theorem grows_projectClassified (board : Board) (message : ClassifiedMessage) :
    board.arrivals.Grows ArrivalRow.SameFile
      (orSkip board (projectClassified castDate board message)).arrivals := by
  intro arrivalId row hrow
  rw [projected_lookup, hrow]
  split
  · refine ⟨overwrite castDate message row, rfl, ?_⟩
    unfold overwrite
    split <;> rfl
  · exact ⟨row, rfl, rfl⟩

/-- A projected message adds rows, classifies arrivals and voids assignments. -/
theorem grows_handle (board : Board) (delivered : Delivered) :
    board.arrivals.Grows ArrivalRow.SameFile
        (handle castDate board delivered).arrivals ∧
      board.assignments.Grows AssignmentRow.MayBecome
        (handle castDate board delivered).assignments ∧
      board.alerts.Grows AlertRow.MayBecome (handle castDate board delivered).alerts := by
  have harrivals := Table.grows_refl ArrivalRow.sameFile_refl board.arrivals
  have hassignments := Table.grows_refl AssignmentRow.mayBecome_refl board.assignments
  have halerts := Table.grows_refl AlertRow.mayBecome_refl board.alerts
  rcases @handle_cases castDate board delivered with ⟨message, -, hnext⟩ | ⟨message, -, hnext⟩ |
    ⟨message, -, hnext⟩ | ⟨message, -, hnext⟩ | ⟨-, hnext⟩
  · rw [hnext]
    refine ⟨grows_projectClassified board message, ?_, ?_⟩
    · rw [(classified_frame board message).1]
      exact hassignments
    · rw [(classified_frame board message).2.1]
      exact halerts
  · rw [hnext, assignment_spec]
    cases castDate message.valueDate with
    | none => exact ⟨harrivals, hassignments, halerts⟩
    | some valueDate =>
        exact ⟨harrivals, Table.grows_upsert AssignmentRow.mayBecome_refl _ _ _, halerts⟩
  · rw [hnext]
    exact ⟨harrivals, Table.grows_modify AssignmentRow.mayBecome_refl
      (AssignmentRow.mayBecome_void message) _ _, halerts⟩
  · rw [hnext, alert_spec]
    cases castDate message.valueDate with
    | none => exact ⟨harrivals, hassignments, halerts⟩
    | some valueDate =>
        exact ⟨harrivals, hassignments, Table.grows_upsert AlertRow.mayBecome_refl _ _ _⟩
  · rw [hnext]
    exact ⟨harrivals, hassignments, halerts⟩

theorem grows_recordReview (reviews : Table String ReviewRow) (arrivalId : String)
    (d : ReviewDecision) (insertion : Insertion) (decidedAt : Instant) :
    reviews.Grows Eq
      (recordReview reviews arrivalId d insertion decidedAt).1 := by
  by_cases hvalid : d.Valid
  · rw [recordReview_of_valid hvalid]
    cases insertion with
    | failed cause => exact Table.grows_refl (@rfl _) _
    | unconfirmed cause => exact Table.grows_upsert (@rfl _) _ _ _
    | done => exact Table.grows_upsert (@rfl _) _ _ _
  · obtain ⟨error, herror, -⟩ := @recordReview_of_not_valid arrivalId reviews d insertion
      decidedAt hvalid
    rw [herror]
    exact Table.grows_refl (@rfl _) _

/-- A ruling adds at most a review and its message. -/
theorem grows_postDecision (desk : Desk) (request : DecisionRequest) :
    desk.reviews.Grows Eq (postDecision quote desk request).1.reviews ∧
      desk.topic <+: (postDecision quote desk request).1.topic := by
  unfold postDecision
  cases request.body with
  | none => exact ⟨Table.grows_refl (@rfl _) _, List.prefix_refl _⟩
  | some d =>
      have hgrows := grows_recordReview desk.reviews request.arrivalId d request.insertion
        request.decidedAt
      dsimp only
      cases (recordReview desk.reviews request.arrivalId d request.insertion
        request.decidedAt).2 with
      | some error => cases error <;> exact ⟨hgrows, List.prefix_refl _⟩
      | none =>
          cases request.encodes with
          | false => exact ⟨hgrows, List.prefix_refl _⟩
          | true =>
              cases request.publication with
              | failed => exact ⟨hgrows, List.prefix_refl _⟩
              | unconfirmed => exact ⟨hgrows, List.prefix_append _ _⟩
              | done => exact ⟨hgrows, List.prefix_append _ _⟩

theorem grows_postAcknowledge (alerts : Table String AlertRow) (request : AcknowledgeRequest) :
    alerts.Grows AlertRow.MayBecome (postAcknowledge alerts request).1 := by
  have hrefl := Table.grows_refl AlertRow.mayBecome_refl alerts
  unfold postAcknowledge
  cases request.reviewer with
  | none => exact hrefl
  | some reviewer =>
      dsimp only
      split
      · exact hrefl
      · have hgrows := Table.grows_modify AlertRow.mayBecome_refl
          (AlertRow.mayBecome_acknowledge reviewer request.acknowledgedAt) alerts request.alertId
        unfold acknowledgeAlert
        cases request.execution with
        | failed cause => exact hrefl
        | unconfirmed cause => exact hgrows
        | done =>
            dsimp only
            split
            · exact hgrows
            · exact hgrows

theorem grows_step (console : Console) (action : Action) :
    console.Grows (console.step castDate quote action) := by
  cases action with
  | arrival row => exact { grows_refl console with arrivals := grows_recordArrival _ row }
  | message delivered =>
      obtain ⟨harrivals, hassignments, halerts⟩ :=
        @grows_handle castDate console.board delivered
      exact { grows_refl console with
        arrivals := harrivals
        assignments := hassignments
        alerts := halerts }
  | acknowledge request =>
      exact { grows_refl console with alerts := grows_postAcknowledge _ request }
  | decide request =>
      obtain ⟨hreviews, htopic⟩ := @grows_postDecision quote console.desk request
      exact { grows_refl console with
        reviews := hreviews
        topic := htopic }

theorem grows_run (console : Console) (actions : List Action) :
    console.Grows (console.run castDate quote actions) := by
  induction actions generalizing console with
  | nil => exact console.grows_refl
  | cons action rest ih => exact (grows_step console action).trans (ih _)

/-! ## Who is told -/

/-- When an alert was acknowledged, and by whom. -/
def acknowledgement (alertId : String) (console : Console) : Option (Instant × Option String) :=
  (console.alerts.lookup alertId).bind fun row =>
    row.acknowledgedAt.map fun acknowledgedAt => (acknowledgedAt, row.acknowledgedBy)

def ruling (arrivalId : String) (console : Console) : Option ReviewRow :=
  console.desk.reviews.lookup arrivalId

/-- A request is told that it has acknowledged the alert only if it has. -/
theorem postAcknowledge_told {alerts : Table String AlertRow} {request : AcknowledgeRequest}
    (h : (postAcknowledge alerts request).2.status = 200) :
    ∃ row reviewer, alerts.lookup request.alertId = some row ∧ row.isOpen = true ∧
      request.reviewer = some reviewer ∧
        (postAcknowledge alerts request).1.lookup request.alertId =
          some (row.acknowledge reviewer request.acknowledgedAt) := by
  unfold postAcknowledge at h ⊢
  cases hreviewer : request.reviewer with
  | none => simp [hreviewer] at h
  | some reviewer =>
      rw [hreviewer] at h
      dsimp only at h ⊢
      by_cases hempty : reviewer = ""
      · simp [hempty] at h
      · rw [if_neg hempty] at h ⊢
        unfold acknowledgeAlert at h ⊢
        cases hexecution : request.execution with
        | failed cause => simp [hexecution, AcknowledgeError.reply] at h
        | unconfirmed cause => simp [hexecution, AcknowledgeError.reply] at h
        | done =>
            rw [hexecution] at h
            dsimp only at h ⊢
            by_cases hopen : (alerts.lookup request.alertId).any AlertRow.isOpen = true
            · obtain ⟨row, hrow, hself⟩ := Option.any_eq_true _ _ |>.mp hopen
              rw [if_pos hopen]
              refine ⟨row, reviewer, hrow, hself, rfl, ?_⟩
              rw [Table.lookup_modify_self, hrow, Option.map_some]
            · rw [if_neg hopen] at h
              simp [AcknowledgeError.reply] at h

/-- A request is told that its ruling is recorded only if it is. -/
theorem postDecision_told {desk : Desk} {request : DecisionRequest}
    (h : (postDecision quote desk request).2.status = 200 ∨
      (postDecision quote desk request).2.status = 202) :
    ∃ d : ReviewDecision, request.body = some d ∧
      desk.reviews.lookup request.arrivalId = none ∧
        (postDecision quote desk request).1.reviews.lookup request.arrivalId =
          some (d.row request.decidedAt) := by
  unfold postDecision at h ⊢
  cases hbody : request.body with
  | none => simp [hbody] at h
  | some d =>
      rw [hbody] at h
      dsimp only at h ⊢
      refine ⟨d, rfl, ?_⟩
      by_cases hvalid : d.Valid
      · rw [recordReview_of_valid hvalid] at h ⊢
        cases hinsertion : request.insertion with
        | failed cause => simp [hinsertion] at h
        | unconfirmed cause => simp [hinsertion] at h
        | done =>
            rw [hinsertion] at h
            dsimp only at h ⊢
            cases hrow : desk.reviews.lookup request.arrivalId with
            | some row => simp [hrow] at h
            | none =>
                refine ⟨rfl, ?_⟩
                have hstored : (desk.reviews.upsert (fun row _ => row) request.arrivalId
                    (d.row request.decidedAt)).lookup request.arrivalId =
                      some (d.row request.decidedAt) := by
                  rw [Table.lookup_upsert_self, hrow]
                cases request.encodes with
                | false => exact hstored
                | true => cases request.publication <;> exact hstored
      · obtain ⟨error, herror, hother⟩ := @recordReview_of_not_valid request.arrivalId
          desk.reviews d request.insertion request.decidedAt hvalid
        rw [herror] at h
        cases error with
        | alreadyReviewed => exact absurd rfl hother
        | unknownDecision | noReviewer | noCorrection | record => simp at h

theorem settles_acknowledgement (alertId : String) :
    Settles (Console.step castDate quote) (acknowledgement alertId) (acknowledges alertId) where
  keeps console action answer h := by
    obtain ⟨row, hrow, hanswer⟩ := Option.bind_eq_some_iff.mp h
    obtain ⟨row', hrow', rfl | ⟨hopen, -⟩⟩ :=
      (@grows_step castDate quote console action).alerts alertId row hrow
    · rw [acknowledgement, hrow']
      exact hanswer
    · rw [hopen] at hanswer
      cases hanswer
  told console action answer h := by
    cases action with
    | arrival | message | decide => cases h
    | acknowledge request =>
        unfold acknowledges at h
        dsimp only at h
        split at h
        next htold =>
          obtain ⟨rfl, hstatus⟩ := htold
          obtain ⟨row, reviewer, hrow, hopen, hreviewer, hnext⟩ := postAcknowledge_told hstatus
          cases h
          constructor
          · rw [acknowledgement, hrow, Option.bind_some,
              Option.isNone_iff_eq_none.mp hopen, Option.map_none]
          · change ((postAcknowledge console.alerts request).1.lookup _).bind _ = _
            rw [hnext, AlertRow.acknowledge, if_pos hopen, hreviewer]
            rfl
        next => cases h

theorem settles_ruling (arrivalId : String) :
    Settles (Console.step castDate quote) (ruling arrivalId) (rules quote arrivalId) where
  keeps console action row h := by
    obtain ⟨row', hrow', rfl⟩ := (@grows_step castDate quote console action).reviews arrivalId row h
    exact hrow'
  told console action row h := by
    cases action with
    | arrival | message | acknowledge => cases h
    | decide request =>
        unfold rules at h
        dsimp only at h
        split at h
        next htold =>
          obtain ⟨rfl, hstatus⟩ := htold
          obtain ⟨d, hbody, hnone, hnext⟩ := postDecision_told hstatus
          rw [hbody] at h
          cases h
          exact ⟨hnone, hnext⟩
        next => cases h

/-- A reviewed arrival is not in the review queue. -/
theorem not_mem_quarantine_of_ruling {console : Console} {arrivalId : String} {row : ReviewRow}
    (h : console.ruling arrivalId = some row) :
    arrivalId ∉ console.board.quarantine.map Prod.fst := by
  rw [mem_quarantine]
  rintro ⟨-, -, -, hnone⟩
  change (console.desk.reviews.mapRows ReviewRow.review).lookup arrivalId = none at hnone
  rw [Table.lookup_mapRows, show console.desk.reviews.lookup arrivalId = some row from h] at hnone
  cases hnone

/-- However requests and messages interleave, at most one person is told to have acknowledged
an alert and at most one to have ruled on an arrival; what they were told stays true, and the
arrival does not come back to the review queue, whatever is projected afterwards. -/
theorem told_once (castDate : String → Option Day) (quote : String → String) (console : Console)
    (actions : List Action) (id : String) :
    (answers (Console.step castDate quote) (acknowledges id) console actions = [] ∨
        ∃ answer, answers (Console.step castDate quote) (acknowledges id) console actions =
            [answer] ∧
          (console.run castDate quote actions).acknowledgement id = some answer) ∧
      (answers (Console.step castDate quote) (rules quote id) console actions = [] ∨
        ∃ row, answers (Console.step castDate quote) (rules quote id) console actions = [row] ∧
          (console.run castDate quote actions).ruling id = some row ∧
            id ∉ (console.run castDate quote actions).board.quarantine.map Prod.fst) := by
  refine ⟨(settles_acknowledgement id).answers_once console actions, ?_⟩
  rcases (@settles_ruling castDate quote id).answers_once console actions with
    hnone | ⟨row, hrow, hruling⟩
  · exact Or.inl hnone
  · exact Or.inr ⟨row, hrow, hruling, not_mem_quarantine_of_ruling hruling⟩

end Console

end Harbormaster.ControlPlane
