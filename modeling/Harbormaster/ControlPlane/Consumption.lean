import Harbormaster.Bus.Consumer
import Harbormaster.ControlPlane.Quarantine

/-! # The board under redelivery

The projector is handed the messages of its topics again after every failure. Stored
assignments and alerts stay as they were first written, classifications are overwritten, and
a void is repeated: so the board is the one of a run in which every message is handed over
once, except that an assignment with several voids may name another one of them.
-/

namespace Harbormaster.ControlPlane

open Bus Delivery Keyed Redelivery

/-! ## Boards that agree -/

/-- An assignment without the details of its void, and whether it is voided. -/
def AssignmentRow.standing (row : AssignmentRow) : AssignmentRow × Bool :=
  ({ row with voidedAt := none, voidedBy := none }, row.voidedAt.isSome)

/-- Two boards agree, but for the details of voids. -/
structure SameStanding (board other : Board) : Prop where
  arrivals : ∀ id, board.arrivals.lookup id = other.arrivals.lookup id
  assignments : ∀ id, (board.assignments.lookup id).map AssignmentRow.standing =
    (other.assignments.lookup id).map AssignmentRow.standing
  alerts : ∀ id, board.alerts.lookup id = other.alerts.lookup id
  reviews : board.reviews = other.reviews

theorem standing_withdrawn (row : AssignmentRow) (void : Option BerthSuperseded) :
    (withdrawn row void).standing = (row.standing.1, row.standing.2 || void.isSome) := by
  cases void with
  | none => simp [withdrawn, AssignmentRow.standing]
  | some message =>
      unfold withdrawn AssignmentRow.void AssignmentRow.standing
      cases hvoided : row.voidedAt with
      | none => simp
      | some moment => simp [hvoided]

/-- What a run leaves of an assignment that was not stored before. -/
theorem assignments_project_new {castDate : String → Option Day} {board : Board} {id : String}
    (h : board.assignments.lookup id = none) (deliveries : List Delivered) :
    (project castDate board deliveries).assignments.lookup id =
      (deliveries.findSome? (creates castDate id)).map fun row => withdrawn row
        ((deliveries.dropWhile fun d => (creates castDate id d).isNone).findSome? (voids id)) := by
  induction deliveries generalizing board with
  | nil => exact h
  | cons delivered rest ih =>
      have hnext := @assignments_handle castDate board delivered id
      rw [h] at hnext
      change (project castDate (handle castDate board delivered) rest).assignments.lookup id = _
      rw [List.findSome?_cons]
      cases hcreates : creates castDate id delivered with
      | none =>
          rw [hcreates] at hnext
          rw [ih hnext, List.dropWhile_cons_of_pos (by rw [hcreates]; rfl)]
      | some row =>
          rw [hcreates] at hnext
          have hself : voids id delivered = none := by
            -- a message that creates a row is no void
            unfold creates at hcreates
            unfold voids
            split at hcreates
            next hmessage => rw [hmessage]
            next => cases hcreates
          have hstop : (delivered :: rest).dropWhile (fun d => (creates castDate id d).isNone) =
              delivered :: rest :=
            List.dropWhile_cons_of_neg (by simp [hcreates])
          rw [assignments_project_of_some hnext, hstop, List.findSome?_cons, hself]
          rfl

/-! ## Topics -/

/-- On these topics the last reading of a message counts. -/
def isLate (topic : String) : Bool :=
  topic = topicArrivalsClassified || topic = topicArrivalsQuarantine ||
    topic = topicBerthSuperseded

variable {castDate : String → Option Day} {id : String} {delivered : Delivered}

theorem not_late_of_creates (h : creates castDate id delivered ≠ none) :
    isLate delivered.message.topic = false := by
  unfold creates at h
  split at h
  next message hmessage =>
    rw [hmessage]
    exact (by decide : isLate topicBerthAssigned = false)
  next => exact absurd rfl h

theorem not_late_of_alerts (h : alerts castDate id delivered ≠ none) :
    isLate delivered.message.topic = false := by
  unfold alerts at h
  split at h
  next message hmessage =>
    rw [hmessage]
    exact (by decide : isLate topicAlertsMissing = false)
  next => exact absurd rfl h

theorem late_of_voids (h : voids id delivered ≠ none) :
    isLate delivered.message.topic = true := by
  unfold voids at h
  split at h
  next message hmessage =>
    rw [hmessage]
    exact (by decide : isLate topicBerthSuperseded = true)
  next => exact absurd rfl h

theorem late_of_classifies (h : classifies id delivered ≠ none) :
    isLate delivered.message.topic = true := by
  unfold classifies at h
  split at h
  next message hmessage =>
    rw [hmessage]
    exact (by decide : isLate topicArrivalsClassified = true)
  next message hmessage =>
    rw [hmessage]
    exact (by decide : isLate topicArrivalsQuarantine = true)
  next => exact absurd rfl h

/-! ## Reading the log again -/

/-- The cast of the value date of a classification succeeds. -/
def ClassifiedMessage.isCast (castDate : String → Option Day) (message : ClassifiedMessage) :
    Bool :=
  message.classified.valueDate.resolved = "" ||
    (castDate message.classified.valueDate.resolved).isSome

/-- The classification that is written. -/
def written (castDate : String → Option Day) (id : String) (delivered : Delivered) :
    Option ClassifiedMessage :=
  (classifies id delivered).filter (ClassifiedMessage.isCast castDate)

theorem dated_of_isCast {message : ClassifiedMessage} (h : message.isCast castDate = true) :
    message.Dated castDate := by
  intro hne
  unfold ClassifiedMessage.isCast at h
  rw [Bool.or_eq_true, decide_eq_true_eq] at h
  exact h.resolve_left hne

theorem overwrite_of_not_isCast {message : ClassifiedMessage}
    (h : message.isCast castDate = false) (row : ArrivalRow) :
    overwrite castDate message row = row := by
  unfold ClassifiedMessage.isCast at h
  rw [Bool.or_eq_false_iff, decide_eq_false_iff_not] at h
  have herror : toDateOrNull castDate message.classified.valueDate.resolved =
      .error .invalidDate := by
    unfold toDateOrNull toDate
    rw [if_neg h.1]
    cases hcast : castDate message.classified.valueDate.resolved with
    | none => rfl
    | some day =>
        rw [hcast] at h
        cases h.2
  unfold overwrite
  rw [herror]

theorem late_of_written (h : written castDate id delivered ≠ none) :
    isLate delivered.message.topic = true := by
  refine @late_of_classifies id delivered fun hnone => h ?_
  rw [written, hnone, Option.filter_none]

/-- The row of an arrival is written by the last message about it whose date can be cast. -/
theorem arrivals_project_last (board : Board) (deliveries : List Delivered) (id : String) :
    (project castDate board deliveries).arrivals.lookup id =
      (board.arrivals.lookup id).map fun row =>
        ((deliveries.filterMap (written castDate id)).getLast?.map fun message =>
          overwrite castDate message row).getD row := by
  rw [arrivals_project]
  refine congrArg (fun write => (board.arrivals.lookup id).map write) (funext fun row => ?_)
  induction deliveries using List.reverseRecOn with
  | nil => rfl
  | append_singleton front delivered ih =>
      rw [List.filterMap_append, List.filterMap_append, List.foldl_append, ih]
      cases hmessage : classifies id delivered with
      | none =>
          have hwritten : written castDate id delivered = none := by
            rw [written, hmessage, Option.filter_none]
          simp [hmessage, hwritten]
      | some message =>
          have hself : [delivered].filterMap (classifies id) = [message] := by simp [hmessage]
          rw [hself, List.foldl_cons, List.foldl_nil]
          cases hcast : message.isCast castDate with
          | false =>
              have hwritten : written castDate id delivered = none := by
                rw [written, hmessage, Option.filter_some_neg (by simpa using hcast)]
              have hnone : [delivered].filterMap (written castDate id) = [] := by simp [hwritten]
              rw [overwrite_of_not_isCast hcast, hnone, List.append_nil]
          | true =>
              have hwritten : written castDate id delivered = some message := by
                rw [written, hmessage, Option.filter_some_pos hcast]
              have hlast : [delivered].filterMap (written castDate id) = [message] := by
                simp [hwritten]
              rw [hlast, List.getLast?_concat]
              cases (front.filterMap (written castDate id)).getLast? with
              | none => rfl
              | some earlier => exact overwrite_overwrite (dated_of_isCast hcast) earlier row

/-! ## Reading the log again -/

variable {log : String × Nat → List Delivered}

/-- What a record's message says, if it is there. -/
def tells {β : Type} (log : String × Nat → List Delivered) (answer : Delivered → Option β)
    (record : (String × Nat) × Nat) : Option β :=
  ((log record.1)[record.2]?).bind answer

theorem filterMap_received {β : Type} (answer : Delivered → Option β)
    (records : List ((String × Nat) × Nat)) :
    (ConsumerGroup.received log records).filterMap answer =
      records.filterMap (tells log answer) := by
  rw [ConsumerGroup.received, List.filterMap_filterMap]
  rfl

theorem findSome?_received {β : Type} (answer : Delivered → Option β)
    (records : List ((String × Nat) × Nat)) :
    (ConsumerGroup.received log records).findSome? answer =
      records.findSome? (tells log answer) := by
  rw [← List.head?_filterMap, ← List.head?_filterMap, filterMap_received]

/-- The messages of a partition are of its topic. -/
def Placed (log : String × Nat → List Delivered) : Prop :=
  ∀ p, ∀ delivered ∈ log p, delivered.place = p

theorem late_of_tells {β : Type} {answer : Delivered → Option β} {kind : Bool}
    (hplaced : Placed log)
    (h : ∀ delivered, answer delivered ≠ none → isLate delivered.message.topic = kind)
    {record : (String × Nat) × Nat} (htells : tells log answer record ≠ none) :
    isLate record.1.1 = kind := by
  obtain ⟨value, hvalue⟩ := Option.ne_none_iff_exists'.mp htells
  obtain ⟨delivered, hdelivered, hanswer⟩ := Option.bind_eq_some_iff.mp hvalue
  rw [← hplaced record.1 delivered (List.mem_of_getElem? hdelivered)]
  exact h delivered (by rw [hanswer]; exact Option.some_ne_none value)

theorem ofPlace_received (hplaced : Placed log) (records : List ((String × Nat) × Nat))
    (p : String × Nat) :
    ofPlace Delivered.place (ConsumerGroup.received log records) p =
      ConsumerGroup.received log (records.filter fun record => record.1 = p) := by
  rw [ofPlace, ConsumerGroup.received, ConsumerGroup.received, List.filter_filterMap,
    List.filterMap_filter]
  refine List.filterMap_congr fun record _ => ?_
  cases hdelivered : (log record.1)[record.2]? with
  | none => simp
  | some delivered =>
      rw [← hplaced record.1 delivered (List.mem_of_getElem? hdelivered)]
      simp [Option.filter_some]

/-- Whether an assignment is voided does not depend on which readings are kept, as long as
they are the first ones of assignments and the last ones of voids. -/
theorem voided_once (hplaced : Placed log) (records : List ((String × Nat) × Nat)) (id : String) :
    (((ConsumerGroup.received log (once (fun record => isLate record.1.1) records)).dropWhile
        fun d => (creates castDate id d).isNone).findSome? (voids id)).isSome =
      (((ConsumerGroup.received log records).dropWhile
        fun d => (creates castDate id d).isNone).findSome? (voids id)).isSome := by
  have hnone : (fun record : (String × Nat) × Nat =>
      ((log record.1)[record.2]?).all fun d => (creates castDate id d).isNone) =
        fun record => (tells log (creates castDate id) record).isNone := by
    funext record
    unfold tells
    cases (log record.1)[record.2]? <;> rfl
  have hreceived : ∀ records : List ((String × Nat) × Nat),
      (((ConsumerGroup.received log records).dropWhile
        fun d => (creates castDate id d).isNone).findSome? (voids id)).isSome = true ↔
          ∃ record ∈ records.dropWhile fun record =>
            (tells log (creates castDate id) record).isNone, tells log (voids id) record ≠ none := by
    intro records
    rw [ConsumerGroup.received, List.dropWhile_filterMap, hnone]
    change ((ConsumerGroup.received log _).findSome? (voids id)).isSome = true ↔ _
    rw [findSome?_received, List.findSome?_isSome_iff]
    exact exists_congr fun record => and_congr_right fun _ => Option.isSome_iff_ne_none
  rw [Bool.eq_iff_iff, hreceived, hreceived]
  refine exists_congr fun record => and_congr_left fun hvoids => ?_
  have hlate : isLate record.1.1 = true :=
    late_of_tells hplaced (fun delivered => late_of_voids) hvoids
  have hearly : ∀ record, tells log (creates castDate id) record ≠ none →
      isLate record.1.1 = false :=
    fun record => late_of_tells hplaced fun delivered => not_late_of_creates
  refine mem_dropWhile_once (fun other _ hother => hearly other ?_) ?_ hlate
  · rwa [Option.isNone_eq_false_iff, Option.isSome_iff_ne_none] at hother
  · by_contra hcreates
    rw [Bool.not_eq_true, Option.isNone_eq_false_iff, Option.isSome_iff_ne_none] at hcreates
    rw [hearly record hcreates] at hlate
    cases hlate

/-- What is read again changes the board as if one reading of each message was kept. -/
theorem sameStanding_received (hplaced : Placed log) (records : List ((String × Nat) × Nat))
    (board : Board) :
    SameStanding (project castDate board (ConsumerGroup.received log records))
      (project castDate board
        (ConsumerGroup.received log (once (fun record => isLate record.1.1) records))) := by
  constructor
  · intro id
    rw [arrivals_project_last, arrivals_project_last, filterMap_received, filterMap_received,
      getLast?_once fun record _ htells => ?_]
    exact late_of_tells hplaced (fun delivered => late_of_written) htells
  · intro id
    have hvoided : ((ConsumerGroup.received log
        (once (fun record => isLate record.1.1) records)).findSome? (voids id)).isSome =
          ((ConsumerGroup.received log records).findSome? (voids id)).isSome := by
      rw [findSome?_received, findSome?_received, isSome_findSome?_once]
    cases hrow : board.assignments.lookup id with
    | some row =>
        rw [assignments_project_of_some hrow, assignments_project_of_some hrow, Option.map_some,
          Option.map_some, standing_withdrawn, standing_withdrawn, hvoided]
    | none =>
        rw [assignments_project_new hrow, assignments_project_new hrow, findSome?_received,
          findSome?_received, findSome?_once fun record _ htells => ?_, Option.map_map,
          Option.map_map]
        · refine congrArg (fun read => Option.map read _) (funext fun row => ?_)
          rw [Function.comp_apply, Function.comp_apply, standing_withdrawn, standing_withdrawn,
            voided_once hplaced]
        · exact late_of_tells hplaced (fun delivered => not_late_of_creates) htells
  · intro id
    rw [alerts_project, alerts_project, findSome?_received, findSome?_received,
      findSome?_once fun record _ htells => ?_]
    exact late_of_tells hplaced (fun delivered => not_late_of_alerts) htells
  · rw [reviews_project, reviews_project]

/-- Once the projector has caught up, the kept readings are its topics in order. -/
theorem once_in_order (hplaced : Placed log) {meets : List (Meets (String × Nat))}
    {group : ConsumerGroup (String × Nat)}
    (hrun : ConsumerGroup.run (fun p => (log p).length) {} meets = some group)
    (hcaught : group.CaughtUp fun p => (log p).length) (p : String × Nat) :
    ofPlace Delivered.place (ConsumerGroup.received log
      (once (fun record => isLate record.1.1) group.handled)) p = log p := by
  obtain ⟨⟨reached, hsound⟩, -⟩ := ConsumerGroup.sound_initial.run hrun
  rw [ofPlace_received hplaced]
  exact hsound.received_once hcaught (fun p => isLate p.1) p

/-- Whatever else fails while the projector consumes, and however often it starts again: if
the database executes its statements, then once it has caught up its board is that of a run in
which every message is projected once, in the order of its partition, but for the details of
voids. -/
theorem board_read_again (castDate : String → Option Day) (log : String × Nat → List Delivered)
    (hplaced : Placed log) (meets : List (Meets (String × Nat)))
    (group : ConsumerGroup (String × Nat))
    (hrun : ConsumerGroup.run (fun p => (log p).length) {} meets = some group)
    (hcaught : group.CaughtUp fun p => (log p).length) (board : Board)
    (readings : List (Delivered × Bool))
    (hreadings : readings.map Prod.fst = ConsumerGroup.received log group.handled)
    (hexecuted : ∀ reading ∈ readings, reading.2 = true) :
    ∃ deliveries : List Delivered,
      (∀ p, ofPlace Delivered.place deliveries p = log p) ∧
      SameStanding (projectAttempts castDate board readings)
        (project castDate board deliveries) := by
  rw [projectAttempts_eq, List.filter_eq_self.mpr hexecuted, hreadings]
  exact ⟨ConsumerGroup.received log (once (fun record => isLate record.1.1) group.handled),
    once_in_order hplaced hrun hcaught, sameStanding_received hplaced group.handled board⟩

/-! ## An assignment and its void, handed over twice -/

def sampleLog (p : String × Nat) : List Delivered :=
  if p = sampleAssigned.place then [sampleAssigned]
  else if p = sampleVoid.place then [sampleVoid]
  else []

theorem placed_sampleLog : Placed sampleLog := by
  intro p delivered hmem
  unfold sampleLog at hmem
  split at hmem
  next hp => rw [List.mem_singleton.mp hmem, hp]
  next =>
    split at hmem
    next hp => rw [List.mem_singleton.mp hmem, hp]
    next => cases hmem

/-- The projector stops before it commits, and starts again. -/
def restarted : List (Meets (String × Nat)) :=
  [.newConsumer, .polled [(sampleAssigned.place, 0), (sampleVoid.place, 0)], .handled, .handled,
    .stopped, .newConsumer, .polled [(sampleVoid.place, 0), (sampleAssigned.place, 0)], .handled,
    .handled, .committed]

theorem restarted_caughtUp :
    ∃ group, ConsumerGroup.run (fun p => (sampleLog p).length) {} restarted = some group ∧
      group.CaughtUp fun p => (sampleLog p).length := by
  obtain ⟨group, hrun, hcommitted⟩ : ∃ group,
      ConsumerGroup.run (fun p => (sampleLog p).length) {} restarted = some group ∧
        group.committed = Function.update (Function.update (fun _ => 0) sampleVoid.place 1)
          sampleAssigned.place 1 := ⟨_, rfl, rfl⟩
  refine ⟨group, hrun, fun p => ?_⟩
  rw [hcommitted]
  change _ = (sampleLog p).length
  unfold sampleLog
  by_cases hassigned : p = sampleAssigned.place
  · rw [hassigned, Function.update_self, if_pos rfl]
    rfl
  · rw [Function.update_of_ne hassigned, if_neg hassigned]
    by_cases hvoid : p = sampleVoid.place
    · rw [hvoid, Function.update_self, if_pos rfl]
      rfl
    · rw [Function.update_of_ne hvoid, if_neg hvoid]
      rfl

theorem board_read_again_restarted :
    ∃ group, ConsumerGroup.run (fun p => (sampleLog p).length) {} restarted = some group ∧
      ∃ deliveries : List Delivered,
        (∀ p, ofPlace Delivered.place deliveries p = sampleLog p) ∧
        SameStanding (projectAttempts isoDate {}
            ((ConsumerGroup.received sampleLog group.handled).map fun delivered =>
              (delivered, true)))
          (project isoDate {} deliveries) := by
  obtain ⟨group, hrun, hcaught⟩ := restarted_caughtUp
  refine ⟨group, hrun,
    board_read_again isoDate sampleLog placed_sampleLog restarted group hrun hcaught {} _ ?_ ?_⟩
  · rw [List.map_map]
    exact List.map_id _
  · intro reading hreading
    obtain ⟨delivered, _, rfl⟩ := List.mem_map.mp hreading
    rfl

end Harbormaster.ControlPlane
