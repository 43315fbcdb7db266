import Harbormaster.ControlPlane.Console
import Harbormaster.ControlPlane.Consumption

/-! # The headline counts and the posture

`Summary` counts the rows of the board, and `Posture` turns the counts into what an operator
should do next. Reading the topics again does not change the counts, and the console is clear
exactly when there is nothing to do. The rate is taken as the exact quotient, and how it is
written in percent is a parameter.
-/

namespace Harbormaster.ControlPlane

open Bus Delivery Keyed Redelivery

/-! ## Counts -/

/-- The headline count set for the board. -/
structure Summary where
  arrivals : Nat
  dispatched : Nat
  quarantined : Nat
  rejected : Nat
  assignments : Nat
  openAlerts : Nat
  mismatches : Nat
  quarantineRate : Rat := 0
deriving DecidableEq

def ArrivalRow.hasDisposition (disposition : String) (row : ArrivalRow) : Bool :=
  row.disposition = some disposition

def AssignmentRow.isVoided (row : AssignmentRow) : Bool := row.voidedAt.isSome

/-- The arrivals with a disposition. -/
def Board.countArrivals (board : Board) (condition : ArrivalRow → Bool) : Nat :=
  (board.arrivals.select fun _ => condition).length

/-- `Store.Summary`. -/
def Board.summary (board : Board) : Summary :=
  let counts : Summary := {
    arrivals := board.countArrivals fun _ => true
    dispatched := board.countArrivals (ArrivalRow.hasDisposition "DISPATCHED")
    quarantined := board.countArrivals (ArrivalRow.hasDisposition "QUARANTINED")
    rejected := board.countArrivals (ArrivalRow.hasDisposition "REJECTED")
    assignments := (board.assignments.select fun _ row => !row.isVoided).length
    openAlerts := (board.alerts.select fun _ => AlertRow.isOpen).length
    mismatches := board.countArrivals ArrivalRow.mismatchFlagged }
  let classified := counts.dispatched + counts.quarantined + counts.rejected
  if classified > 0 then
    { counts with quarantineRate := (counts.quarantined : Rat) / (classified : Rat) }
  else counts

/-! ## The posture -/

def quarantineRateTarget : Rat := 5 / 100

structure OperationalPosture where
  level : String
  label : String
  action : String
  rationale : List String
  quarantineRateTarget : Rat
deriving DecidableEq

section Posture

variable (percent : Rat → String)

def Summary.postureRationale (s : Summary) : List String :=
  (if s.openAlerts > 0 then ["open missing-file alerts: " ++ toString s.openAlerts] else []) ++
  (if s.quarantined > 0 then ["review queue: " ++ toString s.quarantined] else []) ++
  (if s.rejected > 0 then ["rejected arrivals: " ++ toString s.rejected] else []) ++
  (if s.mismatches > 0 then ["value-date disagreements: " ++ toString s.mismatches] else []) ++
  (if s.quarantineRate > 0 then ["quarantine rate: " ++ percent s.quarantineRate ++
    "% (target " ++ percent quarantineRateTarget ++ "%)"] else [])

/-- What the posture starts from. -/
def clearPosture : OperationalPosture where
  level := "CLEAR"
  label := "Clear"
  action := "No operator action is waiting in the console."
  rationale := []
  quarantineRateTarget := quarantineRateTarget

/-- The next operational action, without its rationale. -/
def Summary.status (s : Summary) : OperationalPosture :=
  if s.openAlerts > 0 then
    { clearPosture with
      level := "INCIDENT"
      label := "Action required"
      action := "Acknowledge missing-file alerts and contact the producing system owner." }
  else if s.quarantineRate > quarantineRateTarget then
    { clearPosture with
      level := "ATTENTION"
      label := "Rate above target"
      action := "Review held files and promote confirmed mappings into the dictionary." }
  else if s.quarantined > 0 then
    { clearPosture with
      level := "ATTENTION"
      label := "Review needed"
      action := "Open the review queue and record decisions for held files." }
  else if s.rejected > 0 then
    { clearPosture with
      level := "ATTENTION"
      label := "Rejected files"
      action := "Inspect rejected arrivals and confirm the producer has the expected format." }
  else if s.mismatches > 0 then
    { clearPosture with
      level := "ATTENTION"
      label := "Schedule drift"
      action := "Inspect value-date disagreements for late upstream batches." }
  else clearPosture

def Summary.posture (s : Summary) : OperationalPosture :=
  let rationale := s.postureRationale percent
  { s.status with
    rationale := if rationale = [] then ["no open alerts or queued reviews"] else rationale }

/-- Shown when the tables cannot be read. -/
def degradedPosture : OperationalPosture where
  level := "DEGRADED"
  label := "Projection unavailable"
  action := "Check Postgres connectivity and replay the projector once the store is back."
  rationale := ["summary query failed"]
  quarantineRateTarget := quarantineRateTarget

end Posture

/-! ## Boards that agree have the same counts -/

theorem countArrivals_congr {board other : Board} (condition : ArrivalRow → Bool)
    (h : ∀ id, board.arrivals.lookup id = other.arrivals.lookup id) :
    board.countArrivals condition = other.countArrivals condition :=
  Table.length_select_congr fun id => by rw [h]

theorem SameStanding.summary_eq {board other : Board} (h : SameStanding board other) :
    board.summary = other.summary := by
  have hassignments : (board.assignments.select fun _ row => !row.isVoided).length =
      (other.assignments.select fun _ row => !row.isVoided).length := by
    refine Table.length_select_congr fun id => ?_
    have hstanding : ∀ row : Option AssignmentRow, (row.any fun row => !row.isVoided) =
        (row.map AssignmentRow.standing).any fun standing => !standing.2 := fun row => by
      cases row <;> rfl
    rw [hstanding, hstanding, h.assignments]
  have halerts : (board.alerts.select fun _ => AlertRow.isOpen).length =
      (other.alerts.select fun _ => AlertRow.isOpen).length :=
    Table.length_select_congr fun id => by rw [h.alerts]
  unfold Board.summary
  simp only [countArrivals_congr _ h.arrivals, hassignments, halerts]

/-- However often the topics are read again, no row is counted twice: the headline counts, the
posture and the review queue are those of a run in which every message is projected once, in
the order of its partition. -/
theorem summary_read_again (castDate : String → Option Day) (percent : Rat → String)
    (log : String × Nat → List Delivered) (hplaced : Placed log)
    (meets : List (Meets (String × Nat))) (group : ConsumerGroup (String × Nat))
    (hrun : ConsumerGroup.run (fun p => (log p).length) {} meets = some group)
    (hcaught : group.CaughtUp fun p => (log p).length) (board : Board) :
    ∃ deliveries : List Delivered,
      (∀ p, ofPlace Delivered.place deliveries p = log p) ∧
      (project castDate board (ConsumerGroup.received log group.handled)).summary =
        (project castDate board deliveries).summary ∧
      (project castDate board (ConsumerGroup.received log group.handled)).summary.posture percent =
        (project castDate board deliveries).summary.posture percent ∧
      ∀ arrivalId,
        arrivalId ∈ (project castDate board
            (ConsumerGroup.received log group.handled)).quarantine.map Prod.fst ↔
          arrivalId ∈ (project castDate board deliveries).quarantine.map Prod.fst := by
  have hagree := @sameStanding_received castDate log hplaced group.handled board
  refine ⟨ConsumerGroup.received log (once (fun record => isLate record.1.1) group.handled),
    once_in_order hplaced hrun hcaught, hagree.summary_eq, ?_, fun arrivalId => ?_⟩
  · rw [hagree.summary_eq]
  · rw [mem_quarantine, mem_quarantine, hagree.arrivals, hagree.reviews]

theorem summary_read_again_restarted :
    ∃ group, ConsumerGroup.run (fun p => (sampleLog p).length) {} restarted = some group ∧
      ∃ deliveries : List Delivered,
        (∀ p, ofPlace Delivered.place deliveries p = sampleLog p) ∧
        (project isoDate {} (ConsumerGroup.received sampleLog group.handled)).summary =
          (project isoDate {} deliveries).summary ∧
        (project isoDate {} (ConsumerGroup.received sampleLog group.handled)).summary.posture
            (fun _ => "0") =
          (project isoDate {} deliveries).summary.posture (fun _ => "0") ∧
        ∀ arrivalId,
          arrivalId ∈ (project isoDate {}
              (ConsumerGroup.received sampleLog group.handled)).quarantine.map Prod.fst ↔
            arrivalId ∈ (project isoDate {} deliveries).quarantine.map Prod.fst := by
  obtain ⟨group, hrun, hcaught⟩ := restarted_caughtUp
  exact ⟨group, hrun, summary_read_again isoDate (fun _ => "0") sampleLog placed_sampleLog
    restarted group hrun hcaught {}⟩

/-! ## When there is nothing to do -/

section Posture

variable {percent : Rat → String} {board : Board}

/-- The counts, and the rate that is computed from them. -/
theorem summary_spec (board : Board) :
    board.summary.quarantined = board.countArrivals (ArrivalRow.hasDisposition "QUARANTINED") ∧
      board.summary.rejected = board.countArrivals (ArrivalRow.hasDisposition "REJECTED") ∧
      board.summary.openAlerts = (board.alerts.select fun _ => AlertRow.isOpen).length ∧
      board.summary.mismatches = board.countArrivals ArrivalRow.mismatchFlagged ∧
      (board.summary.quarantined = 0 → board.summary.quarantineRate = 0) := by
  unfold Board.summary
  dsimp only
  split
  · refine ⟨rfl, rfl, rfl, rfl, fun hnone => ?_⟩
    change board.countArrivals _ = 0 at hnone
    rw [hnone, Nat.cast_zero, zero_div]
  · exact ⟨rfl, rfl, rfl, rfl, fun _ => rfl⟩

/-- The status is clear when nothing is counted that would change it. -/
theorem status_clear_iff {s : Summary} (hrate : s.quarantined = 0 → s.quarantineRate = 0) :
    s.status.level = "CLEAR" ↔
      s.openAlerts = 0 ∧ s.quarantined = 0 ∧ s.rejected = 0 ∧ s.mismatches = 0 := by
  unfold Summary.status
  by_cases halerts : s.openAlerts > 0
  · rw [if_pos halerts]
    exact iff_of_false (by decide) (by omega)
  rw [if_neg halerts]
  by_cases hhigh : s.quarantineRate > quarantineRateTarget
  · rw [if_pos hhigh]
    refine iff_of_false (by decide) ?_
    rintro ⟨-, hnone, -⟩
    -- without quarantined arrivals the rate is zero
    rw [hrate hnone] at hhigh
    unfold quarantineRateTarget at hhigh
    norm_num at hhigh
  rw [if_neg hhigh]
  by_cases hquarantined : s.quarantined > 0
  · rw [if_pos hquarantined]
    exact iff_of_false (by decide) (by omega)
  rw [if_neg hquarantined]
  by_cases hrejected : s.rejected > 0
  · rw [if_pos hrejected]
    exact iff_of_false (by decide) (by omega)
  rw [if_neg hrejected]
  by_cases hmismatches : s.mismatches > 0
  · rw [if_pos hmismatches]
    exact iff_of_false (by decide) (by omega)
  · rw [if_neg hmismatches]
    exact iff_of_true rfl (by omega)

theorem countArrivals_eq_zero {condition : ArrivalRow → Bool} :
    board.countArrivals condition = 0 ↔
      ∀ id row, board.arrivals.lookup id = some row → condition row = false :=
  Table.length_select_eq_zero

theorem status_incident_iff {s : Summary} : s.status.level = "INCIDENT" ↔ s.openAlerts ≠ 0 := by
  unfold Summary.status
  by_cases halerts : s.openAlerts > 0
  · rw [if_pos halerts]
    exact iff_of_true rfl (by omega)
  · rw [if_neg halerts]
    refine iff_of_false ?_ (by omega)
    split
    · decide
    · split
      · decide
      · split
        · decide
        · split <;> decide

/-- A rationale is given for everything that is counted. -/
theorem postureRationale_eq_nil {s : Summary}
    (hrate : s.quarantined = 0 → s.quarantineRate = 0) :
    s.postureRationale percent = [] ↔
      s.openAlerts = 0 ∧ s.quarantined = 0 ∧ s.rejected = 0 ∧ s.mismatches = 0 := by
  have hnil : ∀ (condition : Prop) [Decidable condition] (text : String),
      (if condition then [text] else []) = [] ↔ ¬ condition := by
    intro condition _ text
    split
    next h => exact iff_of_false (List.cons_ne_nil _ _) (not_not_intro h)
    next h => exact iff_of_true rfl h
  unfold Summary.postureRationale
  rw [List.append_eq_nil_iff, List.append_eq_nil_iff, List.append_eq_nil_iff,
    List.append_eq_nil_iff, hnil, hnil, hnil, hnil, hnil]
  constructor
  · rintro ⟨⟨⟨⟨halerts, hquarantined⟩, hrejected⟩, hmismatches⟩, -⟩
    omega
  · rintro ⟨halerts, hquarantined, hrejected, hmismatches⟩
    refine ⟨⟨⟨⟨by omega, by omega⟩, by omega⟩, by omega⟩, ?_⟩
    rw [hrate hquarantined]
    exact lt_irrefl 0

/-- A posture that was computed is not taken for one that could not be. -/
theorem posture_ne_degraded (s : Summary) : s.posture percent ≠ degradedPosture := by
  intro h
  have hlevel : s.status.level = "DEGRADED" := congrArg OperationalPosture.level h
  unfold Summary.status at hlevel
  split_ifs at hlevel <;> simp [clearPosture] at hlevel

/-- The console is clear exactly when no alert is open and no arrival is held or at odds with
its file name, and then the review queue is empty and the rationale says so; an incident is
an open alert. -/
theorem posture_clear_iff (percent : Rat → String) (board : Board) :
    ((board.summary.posture percent).level = "CLEAR" ↔
      (∀ id row, board.alerts.lookup id = some row → row.isOpen = false) ∧
        ∀ id row, board.arrivals.lookup id = some row →
          row.isHeld = false ∧ row.mismatchFlagged = false) ∧
      ((board.summary.posture percent).level = "CLEAR" → board.quarantine = []) ∧
      ((board.summary.posture percent).level = "CLEAR" →
        (board.summary.posture percent).rationale = ["no open alerts or queued reviews"]) ∧
      ((board.summary.posture percent).level = "INCIDENT" ↔
        ∃ id row, board.alerts.lookup id = some row ∧ row.isOpen = true) := by
  obtain ⟨hquarantined, hrejected, halerts, hmismatches, hrate⟩ := summary_spec board
  have hlevel : (board.summary.posture percent).level = board.summary.status.level := rfl
  have hclear : board.summary.status.level = "CLEAR" ↔
      (∀ id row, board.alerts.lookup id = some row → row.isOpen = false) ∧
        ∀ id row, board.arrivals.lookup id = some row →
          row.isHeld = false ∧ row.mismatchFlagged = false := by
    rw [status_clear_iff hrate, halerts, hquarantined, hrejected, hmismatches,
      Table.length_select_eq_zero, countArrivals_eq_zero, countArrivals_eq_zero,
      countArrivals_eq_zero]
    refine and_congr_right fun _ => ?_
    constructor
    · rintro ⟨hquarantined, hrejected, hmismatches⟩ id row hrow
      refine ⟨?_, hmismatches id row hrow⟩
      have hfirst := hquarantined id row hrow
      have hsecond := hrejected id row hrow
      unfold ArrivalRow.hasDisposition at hfirst hsecond
      rw [ArrivalRow.isHeld, hfirst, hsecond]
      rfl
    · intro h
      refine ⟨fun id row hrow => ?_, fun id row hrow => ?_, fun id row hrow => (h id row hrow).2⟩
      · exact (Bool.or_eq_false_iff.mp (h id row hrow).1).1
      · exact (Bool.or_eq_false_iff.mp (h id row hrow).1).2
  rw [hlevel]
  refine ⟨hclear, fun h => ?_, fun h => ?_, ?_⟩
  · rw [← List.map_eq_nil_iff, List.eq_nil_iff_forall_not_mem]
    intro arrivalId hmem
    obtain ⟨row, hrow, hheld, -⟩ := (mem_quarantine _ _).mp hmem
    rw [((hclear.mp h).2 arrivalId row hrow).1] at hheld
    cases hheld
  · have hnil := (@postureRationale_eq_nil percent _ hrate).mpr ((status_clear_iff hrate).mp h)
    exact if_pos hnil
  · rw [status_incident_iff, halerts, ne_eq, Table.length_select_eq_zero]
    simp only [not_forall, Bool.not_eq_false, exists_prop]

end Posture

end Harbormaster.ControlPlane
