import Harbormaster.ControlPlane.Projector

/-! # Review decisions

`postDecision` of `go/internal/web` records the ruling of a reviewer and publishes it.
The ruling is stored first; when it is not published afterwards, nothing publishes it
later, and the next request is told that the arrival has been reviewed.
-/

namespace Harbormaster.ControlPlane

open Keyed

/-! ## Requests -/

/-- A reviewer's ruling on a quarantined arrival. A map is given in the order in which it
is gone through. -/
structure ReviewDecision where
  reviewer : String
  decision : String
  correctedClientId : String := ""
  correctedValueDate : String := ""
  correctedMappings : List (String × String) := []
  promoteToDictionary : Bool := false
  notes : String := ""
deriving DecidableEq

/-- How a statement of the database ends; one whose end is not confirmed has been
carried out. -/
inductive Insertion where
  | done
  | failed (cause : String)
  | unconfirmed (cause : String)
deriving DecidableEq

/-- How the broker takes a message; one whose receipt is not confirmed is on the topic. -/
inductive Publication where
  | done
  | failed
  | unconfirmed
deriving DecidableEq

/-- A request about an arrival, and what it meets. A malformed body is `none`. -/
structure DecisionRequest where
  arrivalId : String
  body : Option ReviewDecision
  insertion : Insertion := .done
  decidedAt : Instant := 0
  encodes : Bool := true
  publishedAt : Instant := 0
  publication : Publication := .done
deriving DecidableEq

structure Reply where
  status : Nat
  body : List (String × String)
deriving DecidableEq

/-! ## Recording -/

/-- The closed set a reviewer may submit. -/
def validDecisions : List String := ["APPROVE", "CORRECT", "REJECT"]

structure Corrections where
  clientId : String
  valueDate : String
  mappings : List (String × String)
  promote : Bool
  notes : String
deriving DecidableEq

structure ReviewRow where
  reviewer : String
  decision : String
  corrections : Corrections
  decidedAt : Instant
deriving DecidableEq

def ReviewDecision.row (d : ReviewDecision) (decidedAt : Instant) : ReviewRow where
  reviewer := d.reviewer
  decision := d.decision
  corrections :=
    { clientId := d.correctedClientId
      valueDate := d.correctedValueDate
      mappings := d.correctedMappings
      promote := d.promoteToDictionary
      notes := d.notes }
  decidedAt := decidedAt

inductive ReviewError where
  | unknownDecision (decision : String)
  | noReviewer
  | noCorrection
  | record (cause : String)
  | alreadyReviewed
deriving DecidableEq

/-- The text of an error; `quote` writes a text in quotation marks. -/
def ReviewError.text (quote : String → String) : ReviewError → String
  | .unknownDecision decision => "web: unknown decision " ++ quote decision
  | .noReviewer => "web: a review decision must name its reviewer"
  | .noCorrection => "web: a CORRECT decision must carry at least one correction"
  | .record cause => "web: record review: " ++ cause
  | .alreadyReviewed => "web: arrival already reviewed"

/-- A correction without anything corrected. -/
def ReviewDecision.isEmptyCorrection (d : ReviewDecision) : Bool :=
  d.decision = "CORRECT" && d.correctedClientId = "" && d.correctedValueDate = "" &&
    d.correctedMappings.isEmpty

/-- `RecordReview`. The row of an arrival is never replaced. -/
def recordReview (reviews : Table String ReviewRow) (arrivalId : String) (d : ReviewDecision)
    (insertion : Insertion) (decidedAt : Instant) :
    Table String ReviewRow × Option ReviewError :=
  let stored := reviews.upsert (fun row _ => row) arrivalId (d.row decidedAt)
  if d.decision ∉ validDecisions then (reviews, some (.unknownDecision d.decision))
  else if d.reviewer = "" then (reviews, some .noReviewer)
  else if d.isEmptyCorrection then (reviews, some .noCorrection)
  else match insertion with
    | .failed cause => (reviews, some (.record cause))
    | .unconfirmed cause => (stored, some (.record cause))
    | .done => (stored, if (reviews.lookup arrivalId).isSome then some .alreadyReviewed else none)

/-! ## Publishing -/

/-- The mapping of one column, corrected by hand. -/
structure CorrectedMapping where
  sourceField : String
  canonicalField : String
  tier : String := "RESOLUTION_TIER_HUMAN"
  confidence : Rat := 1
  evidence : String
deriving DecidableEq

structure ReviewMessage where
  arrivalId : String
  reviewer : String
  decision : String
  correctedClientId : String
  correctedValueDate : String
  promoteToDictionary : Bool
  notes : String
  decidedAt : Instant
  correctedMappings : List CorrectedMapping
deriving DecidableEq

def ReviewDecision.message (d : ReviewDecision) (arrivalId : String) (decidedAt : Instant) :
    ReviewMessage where
  arrivalId := arrivalId
  reviewer := d.reviewer
  decision := d.decision
  correctedClientId := d.correctedClientId
  correctedValueDate := d.correctedValueDate
  promoteToDictionary := d.promoteToDictionary
  notes := d.notes
  decidedAt := decidedAt
  correctedMappings := d.correctedMappings.map fun (source, canonical) =>
    { sourceField := source
      canonicalField := canonical
      evidence := "corrected by " ++ d.reviewer }

/-- The reviews that are stored, and the messages on the topic of the decisions. -/
structure Desk where
  reviews : Table String ReviewRow := ∅
  topic : List ReviewMessage := []

variable (quote : String → String)

/-- `postDecision`. -/
def postDecision (desk : Desk) (request : DecisionRequest) : Desk × Reply :=
  match request.body with
  | none => (desk, ⟨400, [("error", "malformed decision body")]⟩)
  | some d =>
      let (reviews, error) :=
        recordReview desk.reviews request.arrivalId d request.insertion request.decidedAt
      let desk := { desk with reviews }
      match error with
      | some .alreadyReviewed =>
          (desk, ⟨409, [("error", "this arrival has already been reviewed")]⟩)
      | some error => (desk, ⟨400, [("error", error.text quote)]⟩)
      | none =>
          if !request.encodes then (desk, ⟨500, [("error", "internal error")]⟩)
          else
            let published := { desk with
              topic := desk.topic ++ [d.message request.arrivalId request.publishedAt] }
            let unsent := [("status", "recorded"),
              ("warning", "decision saved but not yet published downstream")]
            match request.publication with
            | .failed => (desk, ⟨202, unsent⟩)
            | .unconfirmed => (published, ⟨202, unsent⟩)
            | .done => (published, ⟨200, [("status", "recorded")]⟩)

/-! ## What a request does -/

/-- The ruling passes the checks of `RecordReview`. -/
structure ReviewDecision.Valid (d : ReviewDecision) : Prop where
  decision : d.decision ∈ validDecisions
  reviewer : d.reviewer ≠ ""
  corrected : d.isEmptyCorrection = false

namespace DecisionRequest

/-- The request stores a valid ruling on the arrival, if there is none. -/
def Stores (arrivalId : String) (request : DecisionRequest) : Prop :=
  request.arrivalId = arrivalId ∧ (∃ d, request.body = some d ∧ d.Valid) ∧
    ∀ cause, request.insertion ≠ .failed cause

/-- The database says whether the request stored a ruling on the arrival. -/
def Confirmed (arrivalId : String) (request : DecisionRequest) : Prop :=
  request.arrivalId = arrivalId ∧ (∃ d, request.body = some d ∧ d.Valid) ∧
    request.insertion = .done

/-- What the request stores reaches the topic. -/
def Publishes (request : DecisionRequest) : Prop :=
  request.insertion = .done ∧ request.encodes = true ∧ request.publication ≠ .failed

end DecisionRequest

section Steps

variable {quote : String → String} {desk : Desk} {request : DecisionRequest} {arrivalId : String}

theorem recordReview_of_valid {reviews : Table String ReviewRow} {d : ReviewDecision}
    {insertion : Insertion} {decidedAt : Instant} (h : d.Valid) :
    recordReview reviews arrivalId d insertion decidedAt =
      match insertion with
      | .failed cause => (reviews, some (.record cause))
      | .unconfirmed cause =>
          (reviews.upsert (fun row _ => row) arrivalId (d.row decidedAt), some (.record cause))
      | .done =>
          (reviews.upsert (fun row _ => row) arrivalId (d.row decidedAt),
            if (reviews.lookup arrivalId).isSome then some .alreadyReviewed else none) := by
  unfold recordReview
  dsimp only
  rw [if_neg (not_not.mpr h.decision), if_neg h.reviewer, h.corrected]
  rfl

theorem recordReview_of_not_valid {reviews : Table String ReviewRow} {d : ReviewDecision}
    {insertion : Insertion} {decidedAt : Instant} (h : ¬ d.Valid) :
    ∃ error, recordReview reviews arrivalId d insertion decidedAt = (reviews, some error) ∧
      error ≠ .alreadyReviewed := by
  by_cases hdecision : d.decision ∈ validDecisions
  · by_cases hreviewer : d.reviewer = ""
    · refine ⟨.noReviewer, ?_, nofun⟩
      simp [recordReview, hdecision, hreviewer]
    · cases hempty : d.isEmptyCorrection with
      | true =>
          refine ⟨.noCorrection, ?_, nofun⟩
          simp [recordReview, hdecision, hreviewer, hempty]
      | false => exact absurd ⟨hdecision, hreviewer, hempty⟩ h
  · refine ⟨.unknownDecision d.decision, ?_, nofun⟩
    simp [recordReview, hdecision]

/-- A ruling is said to be recorded, or to have been recorded before. -/
def Reply.Acknowledges (reply : Reply) : Prop := reply.status = 200 ∨ reply.status = 409

/-- A request that stores nothing changes nothing. -/
theorem postDecision_idle (h : ∀ arrivalId, ¬ request.Stores arrivalId) :
    (postDecision quote desk request).1 = desk ∧
      ¬ (postDecision quote desk request).2.Acknowledges := by
  unfold postDecision
  cases hbody : request.body with
  | none => exact ⟨rfl, by simp [Reply.Acknowledges]⟩
  | some d =>
      dsimp only
      by_cases hvalid : d.Valid
      · cases hinsertion : request.insertion with
        | failed cause =>
            rw [recordReview_of_valid hvalid]
            exact ⟨rfl, by simp [Reply.Acknowledges]⟩
        | unconfirmed | done =>
            exact absurd ⟨rfl, ⟨d, hbody, hvalid⟩, by simp [hinsertion]⟩ (h request.arrivalId)
      · obtain ⟨error, herror, hother⟩ := @recordReview_of_not_valid request.arrivalId
          desk.reviews d request.insertion request.decidedAt hvalid
        rw [herror]
        cases error with
        | alreadyReviewed => exact absurd rfl hother
        | unknownDecision | noReviewer | noCorrection | record =>
            exact ⟨rfl, by simp [Reply.Acknowledges]⟩

/-- A request about a reviewed arrival leaves its row and publishes nothing. -/
theorem postDecision_reviewed {row : ReviewRow}
    (hrow : desk.reviews.lookup request.arrivalId = some row) :
    (∀ other, (postDecision quote desk request).1.reviews.lookup other =
        desk.reviews.lookup other) ∧
      (postDecision quote desk request).1.topic = desk.topic ∧
      ((postDecision quote desk request).2.Acknowledges ↔
        request.Confirmed request.arrivalId) := by
  by_cases hstores : request.Stores request.arrivalId
  · obtain ⟨-, ⟨d, hbody, hvalid⟩, hinsertion⟩ := hstores
    have hlookup : ∀ other, (desk.reviews.upsert (fun row _ => row) request.arrivalId
        (d.row request.decidedAt)).lookup other = desk.reviews.lookup other := by
      intro other
      by_cases hother : other = request.arrivalId
      · rw [hother, Table.lookup_upsert_self, hrow]
      · exact Table.lookup_upsert_of_ne _ _ _ hother
    unfold postDecision
    rw [hbody]
    dsimp only
    rw [recordReview_of_valid hvalid]
    cases hcase : request.insertion with
    | failed cause => exact absurd hcase (hinsertion cause)
    | unconfirmed cause =>
        refine ⟨hlookup, rfl, ?_⟩
        simp [Reply.Acknowledges, DecisionRequest.Confirmed, hcase]
    | done =>
        dsimp only
        rw [hrow]
        refine ⟨hlookup, rfl, iff_of_true (Or.inr rfl) ⟨rfl, ⟨d, hbody, hvalid⟩, hcase⟩⟩
  · obtain ⟨hdesk, hreply⟩ := @postDecision_idle quote desk request fun arrivalId h =>
      hstores (h.1.symm ▸ h)
    rw [hdesk]
    refine ⟨fun _ => rfl, rfl, iff_of_false hreply fun hconfirmed => hstores ?_⟩
    exact ⟨rfl, hconfirmed.2.1, by simp [hconfirmed.2.2]⟩

/-- The first ruling on an arrival is stored, whether or not it is published. -/
theorem postDecision_first (hrow : desk.reviews.lookup request.arrivalId = none)
    (hstores : request.Stores request.arrivalId) :
    ∃ d : ReviewDecision,
      (postDecision quote desk request).1.reviews =
        desk.reviews.upsert (fun row _ => row) request.arrivalId (d.row request.decidedAt) ∧
      (request.Publishes → (postDecision quote desk request).1.topic =
        desk.topic ++ [d.message request.arrivalId request.publishedAt]) ∧
      (¬ request.Publishes → (postDecision quote desk request).1.topic = desk.topic ∧
        ¬ (postDecision quote desk request).2.Acknowledges) := by
  obtain ⟨-, ⟨d, hbody, hvalid⟩, hinsertion⟩ := hstores
  refine ⟨d, ?_⟩
  unfold postDecision
  rw [hbody]
  dsimp only
  rw [recordReview_of_valid hvalid]
  unfold DecisionRequest.Publishes
  cases hcase : request.insertion with
  | failed cause => exact absurd hcase (hinsertion cause)
  | unconfirmed cause => simp [Reply.Acknowledges]
  | done =>
      dsimp only
      rw [hrow]
      cases request.encodes with
      | false => simp [Reply.Acknowledges]
      | true => cases request.publication <;> simp [Reply.Acknowledges]

end Steps

/-! ## Runs -/

/-- A message says what is recorded. -/
def ReviewRow.AnnouncedBy (row : ReviewRow) (arrivalId : String) (message : ReviewMessage) :
    Prop :=
  ∃ d : ReviewDecision, ∃ decidedAt publishedAt,
    row = d.row decidedAt ∧ message = d.message arrivalId publishedAt

namespace Desk

/-- What is recorded about the arrival is on the topic. -/
def Announced (desk : Desk) (arrivalId : String) : Prop :=
  ∃ row, desk.reviews.lookup arrivalId = some row ∧
    ∃ message ∈ desk.topic, row.AnnouncedBy arrivalId message

/-- Nothing on the topic is about the arrival. -/
def Silent (desk : Desk) (arrivalId : String) : Prop :=
  ∀ message ∈ desk.topic, message.arrivalId ≠ arrivalId

end Desk

/-- Whenever a request about the arrival is told that a ruling is recorded, that ruling has
been published. -/
def NeverStranded (arrivalId : String) : Desk → List DecisionRequest → Prop
  | _, [] => True
  | desk, request :: rest =>
      (request.arrivalId = arrivalId → (postDecision quote desk request).2.Acknowledges →
        (postDecision quote desk request).1.Announced arrivalId) ∧
      NeverStranded arrivalId (postDecision quote desk request).1 rest

/-- The first ruling on the arrival that is stored is published, or the database answers no
request about the arrival after it. -/
def FirstPublished (arrivalId : String) : List DecisionRequest → Prop
  | [] => True
  | request :: rest =>
      (request.Stores arrivalId →
        request.Publishes ∨ ∀ later ∈ rest, ¬ later.Confirmed arrivalId) ∧
      (¬ request.Stores arrivalId → FirstPublished arrivalId rest)

section Runs

variable {quote : String → String} {desk : Desk} {request : DecisionRequest} {arrivalId : String}

theorem Desk.Silent.of_topic {next : Desk} (h : desk.Silent arrivalId)
    (htopic : next.topic = desk.topic) : next.Silent arrivalId := by
  rw [Desk.Silent, htopic]
  exact h

/-- A request about another arrival keeps all there is about this one. -/
theorem postDecision_other (h : request.arrivalId ≠ arrivalId) :
    (postDecision quote desk request).1.reviews.lookup arrivalId = desk.reviews.lookup arrivalId ∧
      desk.topic ⊆ (postDecision quote desk request).1.topic ∧
      (desk.Silent arrivalId → (postDecision quote desk request).1.Silent arrivalId) := by
  by_cases hstores : request.Stores request.arrivalId
  · cases hrow : desk.reviews.lookup request.arrivalId with
    | some row =>
        obtain ⟨hlookup, htopic, -⟩ := @postDecision_reviewed quote desk request row hrow
        refine ⟨hlookup arrivalId, ?_, fun hsilent => hsilent.of_topic htopic⟩
        rw [htopic]
        exact List.Subset.refl _
    | none =>
        obtain ⟨d, hreviews, hsent, hunsent⟩ := @postDecision_first quote desk request hrow hstores
        rw [hreviews, Table.lookup_upsert_of_ne _ _ _ (Ne.symm h)]
        by_cases hpublishes : request.Publishes
        · rw [hsent hpublishes]
          refine ⟨rfl, List.subset_append_left _ _, fun hsilent message hmem => ?_⟩
          rw [hsent hpublishes] at hmem
          rcases List.mem_append.mp hmem with hold | hnew
          · exact hsilent message hold
          · rw [List.mem_singleton.mp hnew]
            exact h
        · obtain ⟨htopic, -⟩ := hunsent hpublishes
          refine ⟨rfl, ?_, fun hsilent => hsilent.of_topic htopic⟩
          rw [htopic]
          exact List.Subset.refl _
  · have hidle : ∀ arrivalId, ¬ request.Stores arrivalId := fun _ hother =>
      hstores (hother.1.symm ▸ hother)
    rw [(@postDecision_idle quote desk request hidle).1]
    exact ⟨rfl, List.Subset.refl _, id⟩

/-- Once announced, a ruling stays announced. -/
theorem announced_postDecision (h : desk.Announced arrivalId) :
    (postDecision quote desk request).1.Announced arrivalId := by
  obtain ⟨row, hrow, message, hmem, hannounced⟩ := h
  by_cases harrival : request.arrivalId = arrivalId
  · obtain ⟨hlookup, htopic, -⟩ := @postDecision_reviewed quote desk request row (harrival ▸ hrow)
    exact ⟨row, (hlookup arrivalId).trans hrow, message, htopic ▸ hmem, hannounced⟩
  · obtain ⟨hlookup, htopic, -⟩ := @postDecision_other quote desk request arrivalId harrival
    exact ⟨row, hlookup.trans hrow, message, htopic hmem, hannounced⟩

theorem neverStranded_of_announced {requests : List DecisionRequest}
    (h : desk.Announced arrivalId) : NeverStranded quote arrivalId desk requests := by
  induction requests generalizing desk with
  | nil => trivial
  | cons request rest ih =>
      have hnext := @announced_postDecision quote desk request arrivalId h
      exact ⟨fun _ _ => hnext, ih hnext⟩

theorem Desk.Silent.not_announced (h : desk.Silent arrivalId) : ¬ desk.Announced arrivalId := by
  rintro ⟨row, -, message, hmem, d, decidedAt, publishedAt, -, rfl⟩
  exact h _ hmem rfl

/-- A ruling that was stored and not published is stranded by the next request that the
database answers. -/
theorem neverStranded_of_silent {requests : List DecisionRequest}
    (hrow : (desk.reviews.lookup arrivalId).isSome) (hsilent : desk.Silent arrivalId) :
    NeverStranded quote arrivalId desk requests ↔
      ∀ request ∈ requests, ¬ request.Confirmed arrivalId := by
  induction requests generalizing desk with
  | nil => exact iff_of_true trivial fun _ h => absurd h List.not_mem_nil
  | cons request rest ih =>
      rw [List.forall_mem_cons]
      unfold NeverStranded
      obtain ⟨row, hlookup⟩ := Option.isSome_iff_exists.mp hrow
      by_cases harrival : request.arrivalId = arrivalId
      · subst harrival
        obtain ⟨hsame, htopic, hreply⟩ := @postDecision_reviewed quote desk request row hlookup
        have hsilent' := hsilent.of_topic htopic
        rw [ih (by rw [hsame]; exact hrow) hsilent', hreply]
        refine and_congr_left fun _ => ?_
        exact ⟨fun h hconfirmed => hsilent'.not_announced (h rfl hconfirmed),
          fun h _ hconfirmed => absurd hconfirmed h⟩
      · obtain ⟨hsame, -, hstill⟩ := @postDecision_other quote desk request arrivalId harrival
        rw [ih (by rw [hsame]; exact hrow) (hstill hsilent)]
        refine and_congr_left fun _ => ?_
        exact iff_of_true (fun h => absurd h harrival) fun h => harrival h.1

theorem neverStranded_of_unreviewed {requests : List DecisionRequest}
    (hrow : desk.reviews.lookup arrivalId = none) (hsilent : desk.Silent arrivalId) :
    NeverStranded quote arrivalId desk requests ↔ FirstPublished arrivalId requests := by
  induction requests generalizing desk with
  | nil => exact Iff.rfl
  | cons request rest ih =>
      unfold NeverStranded FirstPublished
      by_cases hstores : request.Stores arrivalId
      · obtain rfl := hstores.1
        obtain ⟨d, hreviews, hsent, hunsent⟩ := @postDecision_first quote desk request hrow hstores
        have hstored : (postDecision quote desk request).1.reviews.lookup request.arrivalId =
            some (d.row request.decidedAt) := by
          rw [hreviews, Table.lookup_upsert_self, hrow]
        simp only [hstores, not_true_eq_false, true_imp_iff, false_imp_iff, and_true]
        by_cases hpublishes : request.Publishes
        · have hannounced : (postDecision quote desk request).1.Announced request.arrivalId :=
            ⟨_, hstored, _, hsent hpublishes ▸ List.mem_append_right _ (List.mem_singleton_self _),
              d, _, _, rfl, rfl⟩
          exact iff_of_true ⟨fun _ => hannounced, neverStranded_of_announced hannounced⟩
            (Or.inl hpublishes)
        · obtain ⟨htopic, hreply⟩ := hunsent hpublishes
          have hsilent' := hsilent.of_topic htopic
          rw [neverStranded_of_silent (by rw [hstored]; rfl) hsilent']
          simp only [hreply, hpublishes, false_imp_iff, true_and, false_or]
      · simp only [hstores, false_imp_iff, not_false_eq_true, true_imp_iff, true_and]
        by_cases harrival : request.arrivalId = arrivalId
        · have hidle : ∀ other, ¬ request.Stores other := fun other hother =>
            hstores (harrival ▸ hother.1.symm ▸ hother)
          obtain ⟨hsame, hreply⟩ := @postDecision_idle quote desk request hidle
          rw [hsame, ih hrow hsilent]
          exact and_iff_right fun _ h => absurd h hreply
        · obtain ⟨hsame, -, hstill⟩ := @postDecision_other quote desk request arrivalId harrival
          rw [ih (hsame.trans hrow) (hstill hsilent)]
          exact and_iff_right fun h => absurd h harrival

/-- In a run from an empty desk every acknowledged ruling has been published exactly when the
first one stored is, or no later request is answered by the database. -/
theorem neverStranded_iff (quote : String → String) (arrivalId : String)
    (requests : List DecisionRequest) :
    NeverStranded quote arrivalId {} requests ↔ FirstPublished arrivalId requests :=
  neverStranded_of_unreviewed rfl fun _ h => absurd h List.not_mem_nil

/-- The broker refuses the ruling, and the reviewer asks again. -/
def refusedThenRetried : List DecisionRequest :=
  let ruling : ReviewDecision := { reviewer := "ops.lead", decision := "APPROVE" }
  [{ arrivalId := "arr-1", body := some ruling, publication := .failed },
    { arrivalId := "arr-1", body := some ruling }]

/-- The retry is told that the arrival has been reviewed, and the topic is empty. -/
theorem retry_stranded : ¬ NeverStranded id "arr-1" {} refusedThenRetried := by
  intro h
  obtain ⟨row, -, message, hmem, -⟩ := h.2.1 rfl (Or.inr rfl)
  cases hmem

end Runs

end Harbormaster.ControlPlane
