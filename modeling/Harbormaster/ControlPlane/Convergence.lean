import Harbormaster.ControlPlane.Projector
import Harbormaster.Foundation.Civil
import Harbormaster.Foundation.Fallible
import Mathlib.Tactic.FinCases

/-! # Convergence of the projections

A stored assignment and a stored alert stay, and an assignment is withdrawn once.
So the tables are settled by the first message about each row, when every void is
projected after the assignment it names. A void that comes first finds no row and
is lost.
-/

namespace Harbormaster.ControlPlane

open Delivery Keyed

variable (castDate : String → Option Day)

/-! ## What a message says about a row -/

/-- The row a message creates for an assignment. -/
def creates (id : String) (delivered : Delivered) : Option AssignmentRow :=
  match delivered.message with
  | .berthAssigned (some message) =>
      if message.assignmentId = id then
        (castDate message.valueDate).map (assignmentRow message)
      else none
  | _ => none

/-- The void of an assignment. -/
def voids (id : String) (delivered : Delivered) : Option BerthSuperseded :=
  match delivered.message with
  | .berthSuperseded (some message) => if message.assignmentId = id then some message else none
  | _ => none

/-- The row a message creates for an alert. -/
def alerts (id : String) (delivered : Delivered) : Option AlertRow :=
  match delivered.message with
  | .alertsMissing (some message) =>
      if alertId message = id then (castDate message.valueDate).map (alertRow message) else none
  | _ => none

/-- A row after its first void. -/
def withdrawn (row : AssignmentRow) : Option BerthSuperseded → AssignmentRow
  | none => row
  | some message => row.void message

variable {castDate}

/-! ## One message -/

/-- A classification changes the row of its arrival only. -/
theorem classified_frame (board : Board) (message : ClassifiedMessage) :
    (orSkip board (projectClassified castDate board message)).assignments = board.assignments ∧
      (orSkip board (projectClassified castDate board message)).alerts = board.alerts ∧
      (orSkip board (projectClassified castDate board message)).reviews = board.reviews := by
  cases hnext : projectClassified castDate board message with
  | error cause => exact ⟨rfl, rfl, rfl⟩
  | ok next =>
      obtain ⟨valueDate, _, hrest⟩ := Fallible.bind_eq_ok.mp hnext
      split at hrest
      · cases hrest
      · cases hrest
        exact ⟨rfl, rfl, rfl⟩

theorem assignment_spec (board : Board) (message : BerthAssigned) :
    orSkip board (projectAssignment castDate board message) =
      match castDate message.valueDate with
      | none => board
      | some valueDate => { board with
          assignments := board.assignments.upsert (fun stored _ => stored) message.assignmentId
            (assignmentRow message valueDate) } := by
  unfold projectAssignment toDate
  cases castDate message.valueDate <;> rfl

theorem alert_spec (board : Board) (message : MissingFileAlert) :
    orSkip board (projectAlert castDate board message) =
      match castDate message.valueDate with
      | none => board
      | some valueDate => { board with
          alerts := board.alerts.upsert (fun stored _ => stored) (alertId message)
            (alertRow message valueDate) } := by
  unfold projectAlert toDate
  cases castDate message.valueDate <;> rfl

/-- An insert that leaves a stored row alone. -/
theorem lookup_keep {ρ : Type} (table : Table String ρ) (key id : String) (row : ρ) :
    (table.upsert (fun stored _ => stored) key row).lookup id =
      (table.lookup id).or (if key = id then some row else none) := by
  by_cases hkey : key = id
  · subst hkey
    rw [Table.lookup_upsert_self, if_pos rfl]
    cases table.lookup key <;> rfl
  · rw [Table.lookup_upsert_of_ne _ _ _ (Ne.symm hkey), if_neg hkey, Option.or_none]

/-- The message of a kind of the projector's topics, or one that cannot be decoded. -/
theorem handle_cases (board : Board) (delivered : Delivered) :
    (∃ message, (delivered.message = .arrivalsClassified (some message) ∨
        delivered.message = .arrivalsQuarantine (some message)) ∧
      handle castDate board delivered = orSkip board (projectClassified castDate board message)) ∨
    (∃ message, delivered.message = .berthAssigned (some message) ∧
      handle castDate board delivered = orSkip board (projectAssignment castDate board message)) ∨
    (∃ message, delivered.message = .berthSuperseded (some message) ∧
      handle castDate board delivered = projectSuperseded board message) ∨
    (∃ message, delivered.message = .alertsMissing (some message) ∧
      handle castDate board delivered = orSkip board (projectAlert castDate board message)) ∨
    (delivered.message ∈ [.arrivalsClassified none, .arrivalsQuarantine none, .berthAssigned none,
        .berthSuperseded none, .alertsMissing none] ∧
      handle castDate board delivered = board) := by
  obtain ⟨message, partition⟩ := delivered
  cases message with
  | arrivalsClassified message =>
      cases message with
      | none => exact .inr (.inr (.inr (.inr ⟨by simp, rfl⟩)))
      | some message => exact .inl ⟨message, .inl rfl, rfl⟩
  | arrivalsQuarantine message =>
      cases message with
      | none => exact .inr (.inr (.inr (.inr ⟨by simp, rfl⟩)))
      | some message => exact .inl ⟨message, .inr rfl, rfl⟩
  | berthAssigned message =>
      cases message with
      | none => exact .inr (.inr (.inr (.inr ⟨by simp, rfl⟩)))
      | some message => exact .inr (.inl ⟨message, rfl, rfl⟩)
  | berthSuperseded message =>
      cases message with
      | none => exact .inr (.inr (.inr (.inr ⟨by simp, rfl⟩)))
      | some message => exact .inr (.inr (.inl ⟨message, rfl, rfl⟩))
  | alertsMissing message =>
      cases message with
      | none => exact .inr (.inr (.inr (.inr ⟨by simp, rfl⟩)))
      | some message => exact .inr (.inr (.inr (.inl ⟨message, rfl, rfl⟩)))

/-- What one message does to the row of an assignment. -/
theorem assignments_handle (board : Board) (delivered : Delivered) (id : String) :
    (handle castDate board delivered).assignments.lookup id =
      match board.assignments.lookup id with
      | none => creates castDate id delivered
      | some row => some (withdrawn row (voids id delivered)) := by
  have hunchanged : board.assignments.lookup id = match board.assignments.lookup id with
      | none => none
      | some row => some row := by cases board.assignments.lookup id <;> rfl
  rcases handle_cases board delivered with ⟨message, hmessage, hnext⟩ | ⟨message, hmessage, hnext⟩ |
    ⟨message, hmessage, hnext⟩ | ⟨message, hmessage, hnext⟩ | ⟨hmessage, hnext⟩
  · rw [hnext, (classified_frame board message).1]
    obtain hmessage | hmessage := hmessage
    · simpa [creates, voids, hmessage, withdrawn] using hunchanged
    · simpa [creates, voids, hmessage, withdrawn] using hunchanged
  · rw [hnext, assignment_spec]
    cases hdate : castDate message.valueDate with
    | none => simpa [creates, voids, hmessage, hdate, withdrawn] using hunchanged
    | some valueDate =>
        dsimp only
        rw [lookup_keep]
        cases hstored : board.assignments.lookup id with
        | none => simp [creates, hmessage, hdate]
        | some row => simp [voids, hmessage, withdrawn]
  · rw [hnext]
    change (board.assignments.modify _ _).lookup id = _
    by_cases hid : message.assignmentId = id
    · subst hid
      rw [Table.lookup_modify_self]
      cases board.assignments.lookup message.assignmentId <;>
        simp [creates, voids, hmessage, withdrawn]
    · rw [Table.lookup_modify_of_ne _ _ (Ne.symm hid)]
      simpa [creates, voids, hmessage, hid, withdrawn] using hunchanged
  · rw [hnext, alert_spec]
    cases castDate message.valueDate with
    | none => simpa [creates, voids, hmessage, withdrawn] using hunchanged
    | some valueDate => simpa [creates, voids, hmessage, withdrawn] using hunchanged
  · rw [hnext]
    obtain ⟨message, partition⟩ := delivered
    dsimp only at hmessage
    fin_cases hmessage <;> exact hunchanged

/-- What one message does to the row of an alert. -/
theorem alerts_handle (board : Board) (delivered : Delivered) (id : String) :
    (handle castDate board delivered).alerts.lookup id =
      (board.alerts.lookup id).or (alerts castDate id delivered) := by
  rcases handle_cases board delivered with ⟨message, hmessage, hnext⟩ | ⟨message, hmessage, hnext⟩ |
    ⟨message, hmessage, hnext⟩ | ⟨message, hmessage, hnext⟩ | ⟨hmessage, hnext⟩
  · rw [hnext, (classified_frame board message).2.1]
    obtain hmessage | hmessage := hmessage
    · simp [alerts, hmessage]
    · simp [alerts, hmessage]
  · rw [hnext, assignment_spec]
    cases castDate message.valueDate with
    | none => simp [alerts, hmessage]
    | some valueDate => simp [alerts, hmessage]
  · rw [hnext]
    simp [projectSuperseded, alerts, hmessage]
  · rw [hnext, alert_spec]
    cases hdate : castDate message.valueDate with
    | none => simp [alerts, hmessage, hdate]
    | some valueDate =>
        dsimp only
        rw [lookup_keep]
        simp [alerts, hmessage, hdate]
  · rw [hnext]
    obtain ⟨message, partition⟩ := delivered
    dsimp only at hmessage
    fin_cases hmessage <;> simp [alerts]

/-- A row that was withdrawn stays as it is. -/
theorem withdrawn_withdrawn (row : AssignmentRow) (first second : Option BerthSuperseded)
    (h : first = none → second = none) :
    withdrawn (withdrawn row first) second = withdrawn row first := by
  cases first with
  | none =>
      rw [h rfl]
      rfl
  | some message =>
      cases second with
      | none => rfl
      | some other =>
          unfold withdrawn AssignmentRow.void
          by_cases hvoided : row.voidedAt = none
          · simp [hvoided]
          · simp [hvoided]

/-! ## Runs -/

theorem alerts_project (board : Board) (deliveries : List Delivered) (id : String) :
    (project castDate board deliveries).alerts.lookup id =
      (board.alerts.lookup id).or (deliveries.findSome? (alerts castDate id)) := by
  induction deliveries generalizing board with
  | nil => simp [project]
  | cons delivered rest ih =>
      change (project castDate (handle castDate board delivered) rest).alerts.lookup id = _
      rw [ih, alerts_handle, Option.or_assoc, List.findSome?_cons]
      cases alerts castDate id delivered with
      | none => rfl
      | some row => rfl

/-- A stored assignment is changed by its first void only. -/
theorem assignments_project_of_some {board : Board} {id : String} {row : AssignmentRow}
    (h : board.assignments.lookup id = some row) (deliveries : List Delivered) :
    (project castDate board deliveries).assignments.lookup id =
      some (withdrawn row (deliveries.findSome? (voids id))) := by
  induction deliveries generalizing board row with
  | nil => exact h
  | cons delivered rest ih =>
      have hnext := @assignments_handle castDate board delivered id
      rw [h] at hnext
      have hrest := ih hnext
      change (project castDate (handle castDate board delivered) rest).assignments.lookup id = _
      rw [hrest, List.findSome?_cons]
      cases hvoid : voids id delivered with
      | none => rfl
      | some message =>
          rw [withdrawn_withdrawn row (some message) _ nofun]

theorem assignments_project_of_none {board : Board} {id : String}
    (h : board.assignments.lookup id = none) {deliveries : List Delivered}
    (hnone : ∀ delivered ∈ deliveries, creates castDate id delivered = none) :
    (project castDate board deliveries).assignments.lookup id = none := by
  induction deliveries generalizing board with
  | nil => exact h
  | cons delivered rest ih =>
      obtain ⟨hfirst, hrest⟩ := List.forall_mem_cons.mp hnone
      have hnext := @assignments_handle castDate board delivered id
      rw [h] at hnext
      exact ih (hnext.trans hfirst) hrest

/-- Every void of an assignment that is not stored yet is projected after a message
that stores it, if there is one. -/
def VoidsFollow (castDate : String → Option Day) (board : Board) (deliveries : List Delivered) :
    Prop :=
  ∀ id, board.assignments.lookup id = none →
    ∀ before delivered after, deliveries = before ++ delivered :: after →
      voids id delivered ≠ none → (∃ d ∈ deliveries, creates castDate id d ≠ none) →
        ∃ d ∈ before, creates castDate id d ≠ none

/-- Voids follow when no assignment is stored after the first of them. -/
theorem voidsFollow_append {board : Board} {early late : List Delivered}
    (hearly : ∀ id, ∀ d ∈ early, voids id d = none)
    (hlate : ∀ id, ∀ d ∈ late, creates castDate id d = none) :
    VoidsFollow castDate board (early ++ late) := by
  intro id _ before delivered after hsplit hvoid hcreated
  obtain ⟨d, hd, hcreates⟩ := hcreated
  have hd : d ∈ early := by
    cases List.mem_append.mp hd with
    | inl hd => exact hd
    | inr hd => exact absurd (hlate id d hd) hcreates
  obtain ⟨middle, hbefore, _⟩ | ⟨middle, hfront, hback⟩ := List.append_eq_append_iff.mp hsplit
  · exact ⟨d, by rw [hbefore]; exact List.mem_append_left _ hd, hcreates⟩
  · cases middle with
    | nil =>
        rw [List.append_nil] at hfront
        exact ⟨d, hfront ▸ hd, hcreates⟩
    | cons first rest =>
        obtain ⟨rfl, _⟩ := List.cons.inj hback
        exact absurd (hearly id delivered (by rw [hfront]; simp)) hvoid

/-- What a run leaves of an assignment whose voids follow it. -/
theorem assignments_project {board : Board} {deliveries : List Delivered}
    (h : VoidsFollow castDate board deliveries) (id : String) :
    (project castDate board deliveries).assignments.lookup id =
      ((board.assignments.lookup id).or (deliveries.findSome? (creates castDate id))).map
        fun row => withdrawn row (deliveries.findSome? (voids id)) := by
  cases hstored : board.assignments.lookup id with
  | some row => exact assignments_project_of_some hstored deliveries
  | none =>
      rw [Option.none_or]
      cases hcreated : deliveries.findSome? (creates castDate id) with
      | none =>
          exact assignments_project_of_none hstored (List.findSome?_eq_none_iff.mp hcreated)
      | some row =>
          obtain ⟨before, delivered, after, hsplit, hrow, hbefore⟩ :=
            List.findSome?_eq_some_iff.mp hcreated
          -- before the first creation there is neither a row nor a void
          have hnovoid : ∀ d ∈ before, voids id d = none := by
            intro d hd
            by_contra hvoid
            obtain ⟨early, late, rfl⟩ := List.append_of_mem hd
            obtain ⟨d', hd', hcreates⟩ := h id hstored early d (late ++ delivered :: after)
              (by rw [hsplit]; simp) hvoid
              ⟨delivered, by simp [hsplit], by rw [hrow]; nofun⟩
            exact hcreates (hbefore d' (List.mem_append_left _ hd'))
          have hself : voids id delivered = none := by
            -- a message that creates a row is no void
            unfold creates at hrow
            unfold voids
            split at hrow
            next hmessage => rw [hmessage]
            next => cases hrow
          have hearly := assignments_project_of_none hstored hbefore
          have hnext := @assignments_handle castDate (project castDate board before) delivered id
          rw [hearly] at hnext
          have hlate := @assignments_project_of_some castDate _ _ _ (hnext.trans hrow) after
          have hrun : project castDate board deliveries =
              project castDate (handle castDate (project castDate board before) delivered) after := by
            rw [hsplit]
            exact List.foldl_append
          rw [hrun, hlate, hsplit, List.findSome?_append,
            List.findSome?_eq_none_iff.mpr hnovoid, Option.none_or, List.findSome?_cons, hself]
          rfl

/-- Two boards agree on the assignments and the alerts. -/
structure SameTables (board other : Board) : Prop where
  assignments : ∀ id, board.assignments.lookup id = other.assignments.lookup id
  alerts : ∀ id, board.alerts.lookup id = other.alerts.lookup id

/-- The messages of one topic about one row are on one partition. -/
structure OnePartition (castDate : String → Option Day) (deliveries : List Delivered) : Prop where
  assigned : ∀ id, ∀ d ∈ deliveries, ∀ d' ∈ deliveries, creates castDate id d ≠ none →
    creates castDate id d' ≠ none → d.place = d'.place
  superseded : ∀ id, ∀ d ∈ deliveries, ∀ d' ∈ deliveries, voids id d ≠ none →
    voids id d' ≠ none → d.place = d'.place
  alert : ∀ id, ∀ d ∈ deliveries, ∀ d' ∈ deliveries, alerts castDate id d ≠ none →
    alerts castDate id d' ≠ none → d.place = d'.place

/-- Two runs over the same log in which every void follows its assignment end with
the same tables, and projecting the log once more, in any order, changes nothing. -/
theorem projection_converges {board : Board} {deliveries other : List Delivered}
    (hsame : SameLog Delivered.place deliveries other)
    (hpartition : OnePartition castDate deliveries)
    (hfollow : VoidsFollow castDate board deliveries)
    (hfollow' : VoidsFollow castDate board other) :
    SameTables (project castDate board deliveries) (project castDate board other) ∧
      ∀ again, SameLog Delivered.place deliveries again →
        SameTables (project castDate (project castDate board deliveries) again)
          (project castDate board deliveries) := by
  refine ⟨⟨?_, ?_⟩, fun again hagain => ⟨?_, ?_⟩⟩
  · intro id
    rw [assignments_project hfollow, assignments_project hfollow',
      hsame.findSome?_eq (hpartition.assigned id), hsame.findSome?_eq (hpartition.superseded id)]
  · intro id
    rw [alerts_project, alerts_project, hsame.findSome?_eq (hpartition.alert id)]
  · -- a stored row keeps its first void, and a row that never came up stays away
    intro id
    have hend := assignments_project hfollow id
    cases hrow : (project castDate board deliveries).assignments.lookup id with
    | none =>
        rw [hrow] at hend
        have hnone := (Option.or_eq_none_iff.mp (Option.map_eq_none_iff.mp hend.symm)).2
        apply assignments_project_of_none hrow
        intro d hd
        exact List.findSome?_eq_none_iff.mp hnone d (hagain.mem_iff.mpr hd)
    | some row =>
        rw [assignments_project_of_some hrow]
        rw [hrow] at hend
        obtain ⟨first, _, hfirst⟩ := Option.map_eq_some_iff.mp hend.symm
        rw [← hfirst, hagain.findSome?_eq (hpartition.superseded id),
          withdrawn_withdrawn _ _ _ fun h => h]
  · intro id
    rw [alerts_project, alerts_project, ← hagain.findSome?_eq (hpartition.alert id), Option.or_assoc,
      Option.or_self]

/-! ## One assignment, its void and an alert -/

/-- The cast on the texts the services write. -/
def isoDate (text : String) : Option Day := (Civil.parseIso text).map Civil.Date.ordinal

def sampleAssigned : Delivered where
  message := .berthAssigned (some {
    assignmentId := "01A", emittedAt := 0, clientId := "CLNT004", domain := .trade
    valueDate := "2026-08-28", side1 := { arrivalId := "arr-1" }, side2 := { arrivalId := "arr-2" }
    expectationId := "EXP", confidence := 1, supersedes := "", notes := "" })
  partition := 3

def sampleVoid : Delivered where
  message := .berthSuperseded (some {
    assignmentId := "01A", supersededBy := "arr-3", reason := "correction", emittedAt := 5 })
  partition := 3

def sampleAlert : Delivered where
  message := .alertsMissing (some {
    clientId := "CLNT004", domain := .cash, valueDate := "2026-08-28", expectationId := "EXP-2"
    missingSide := .externalClient, deadline := 7, emittedAt := 8 })
  partition := 1

theorem sample_sameLog :
    SameLog Delivered.place [sampleAssigned, sampleVoid, sampleAlert]
      [sampleAlert, sampleAssigned, sampleVoid] := by
  intro p
  by_cases halert : sampleAlert.place = p
  · subst halert
    decide
  · simp [ofPlace, List.filter_cons, halert]

theorem projection_converges_sample :
    SameTables (project isoDate {} [sampleAssigned, sampleVoid, sampleAlert])
      (project isoDate {} [sampleAlert, sampleAssigned, sampleVoid]) := by
  have hassigned : ∀ id, ∀ d ∈ [sampleAssigned, sampleVoid, sampleAlert],
      creates isoDate id d ≠ none → d = sampleAssigned := by
    intro id d hd hcreates
    fin_cases hd
    · rfl
    · exact absurd rfl hcreates
    · exact absurd rfl hcreates
  have hvoid : ∀ id, ∀ d ∈ [sampleAssigned, sampleVoid, sampleAlert],
      voids id d ≠ none → d = sampleVoid := by
    intro id d hd hvoids
    fin_cases hd
    · exact absurd rfl hvoids
    · rfl
    · exact absurd rfl hvoids
  have halert : ∀ id, ∀ d ∈ [sampleAssigned, sampleVoid, sampleAlert],
      alerts isoDate id d ≠ none → d = sampleAlert := by
    intro id d hd halerts
    fin_cases hd
    · exact absurd rfl halerts
    · exact absurd rfl halerts
    · rfl
  refine (projection_converges sample_sameLog ?_ ?_ ?_).1
  · constructor
    · intro id d hd d' hd' h h'
      rw [hassigned id d hd h, hassigned id d' hd' h']
    · intro id d hd d' hd' h h'
      rw [hvoid id d hd h, hvoid id d' hd' h']
    · intro id d hd d' hd' h h'
      rw [halert id d hd h, halert id d' hd' h']
  · apply @voidsFollow_append isoDate {} [sampleAssigned] [sampleVoid, sampleAlert]
    · simp [voids, sampleAssigned]
    · simp [creates, sampleVoid, sampleAlert]
  · apply @voidsFollow_append isoDate {} [sampleAlert, sampleAssigned] [sampleVoid]
    · simp [voids, sampleAlert, sampleAssigned]
    · simp [creates, sampleVoid]

/-- The void is projected first, finds no row and is lost. -/
theorem void_first_lost :
    SameLog Delivered.place [sampleAssigned, sampleVoid] [sampleVoid, sampleAssigned] ∧
      ¬ SameTables (project isoDate {} [sampleAssigned, sampleVoid])
        (project isoDate {} [sampleVoid, sampleAssigned]) ∧
      ¬ SameTables (project isoDate (project isoDate {} [sampleVoid, sampleAssigned])
          [sampleVoid, sampleAssigned])
        (project isoDate {} [sampleVoid, sampleAssigned]) := by
  refine ⟨?_, fun h => ?_, fun h => ?_⟩
  · intro p
    by_cases hvoid : sampleVoid.place = p
    · subst hvoid
      decide
    · simp [ofPlace, List.filter_cons, hvoid]
  · exact absurd (h.assignments "01A") (by decide +kernel)
  · exact absurd (h.assignments "01A") (by decide +kernel)

end Harbormaster.ControlPlane
