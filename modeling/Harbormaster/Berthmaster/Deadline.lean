import Harbormaster.Berthmaster.Run
import Harbormaster.Regular

/-! # The window and the deadline

The window is measured backwards from the present day, the deadline forwards
from the value date. On a calendar without a closed month the two steps are
adjoint, so that both measurements draw the same line.
-/

namespace Harbormaster

namespace Berthmaster

open Effect Program

variable {machine : Machine} {clientId valueDate : String} {calendar : Calendar} {valueDay : Day}

theorem Machine.windowDays_pos (machine : Machine) (clientId : String) :
    0 < machine.windowDays clientId := by
  unfold Machine.windowDays
  split
  next client _ =>
    split
    next h => exact h
    next => exact machine.fallback_pos
  next => exact machine.fallback_pos

theorem Machine.deadlineFor_eq (hdate : parseDate valueDate = .ok valueDay)
    (hcalendar : machine.calendarFor clientId = .ok calendar) :
    machine.deadlineFor clientId valueDate =
      .ok ((calendar.addBusinessDays valueDay (machine.windowDays clientId)).midnight +
        (23 * 60 + 59) * microsPerMinute) := by
  unfold Machine.deadlineFor
  rw [hdate, hcalendar]
  rfl

/-- The deadline falls on the last day of the late window. -/
theorem truncate_lastMinute (day : Day) :
    (day.midnight + (23 * 60 + 59) * microsPerMinute : Instant).truncate = day := by
  have hdiv : ∀ day : Int, (day * 86400000000 + 86340000000) / 86400000000 = day := by omega
  exact hdiv day

/-- Up to the present day, the window admits the dates whose deadline day is not
past. -/
theorem Machine.inWindow_iff (hregular : calendar.Regular) {today : Day}
    (hpast : valueDay ≤ today) :
    machine.inWindow calendar clientId valueDay today = true ↔
      today ≤ calendar.addBusinessDays valueDay (machine.windowDays clientId) := by
  have hwindow := machine.windowDays_pos clientId
  have hlatest : valueDay ≤ calendar.addBusinessDays today (machine.windowDays clientId) :=
    hpast.trans (calendar.le_addBusinessDays today hwindow.le)
  unfold Machine.inWindow
  rw [Bool.and_eq_true, decide_eq_true_eq, decide_eq_true_eq, and_iff_left hlatest]
  exact hregular.addBusinessDays_neg_le_iff hwindow valueDay today

/-- On the value date itself the date is within the window. -/
theorem inWindow_self (machine : Machine) (calendar : Calendar) (clientId : String) (day : Day) :
    machine.inWindow calendar clientId day day = true := by
  have hwindow := machine.windowDays_pos clientId
  unfold Machine.inWindow
  rw [Bool.and_eq_true, decide_eq_true_eq, decide_eq_true_eq]
  exact ⟨calendar.addBusinessDays_neg_le day (neg_lt_zero.mpr hwindow),
    calendar.le_addBusinessDays day hwindow.le⟩

theorem truncate_midnight (day : Day) : (day.midnight).truncate = day := by
  unfold Day.midnight Instant.truncate
  exact Int.mul_ediv_cancel day (by decide)

/-- What `accepts` answers at a clock reading. -/
theorem Machine.accepts_run (hdate : parseDate valueDate = .ok valueDay)
    (hcalendar : machine.calendarFor clientId = .ok calendar) {script : Script Choice}
    {choice : Choice} (hscript : script 0 = some choice) (world : World) :
    ((machine.accepts clientId valueDate).run perform script world).2 =
      .value (machine.inWindow calendar clientId valueDay choice.clock.truncate) := by
  have hprogram : machine.accepts clientId valueDate =
      .call .now fun clock =>
        .done (machine.inWindow calendar clientId valueDay (Instant.truncate clock)) := by
    unfold Machine.accepts
    rw [hdate, hcalendar]
    rfl
  rw [hprogram, Program.run, hscript]
  rfl

/-- The window measured backwards and the deadline measured forwards agree: a
value date that is not in the future is accepted up to and on the day of its
deadline. -/
theorem accepts_until_deadline :
    (∀ calendar : Calendar, calendar.Regular → ∀ window : Int, 1 ≤ window →
      ∀ valueDay today : Day, valueDay ≤ today →
        (calendar.addBusinessDays today (-window) ≤ valueDay ↔
          today ≤ calendar.addBusinessDays valueDay window)) ∧
    ∀ (machine : Machine) (clientId valueDate : String) (calendar : Calendar) (valueDay : Day),
      machine.calendarFor clientId = .ok calendar → calendar.Regular →
      parseDate valueDate = .ok valueDay →
      ∀ (world : World) (script : Script Choice) (choice : Choice), script 0 = some choice →
        valueDay ≤ choice.clock.truncate →
        ∃ deadline accepted, machine.deadlineFor clientId valueDate = .ok deadline ∧
          ((machine.accepts clientId valueDate).run perform script world).2 = .value accepted ∧
          (accepted = true ↔ choice.clock.truncate ≤ deadline.truncate) := by
  refine ⟨fun calendar hregular window hwindow valueDay today _ =>
    hregular.addBusinessDays_neg_le_iff hwindow valueDay today, ?_⟩
  intro machine clientId valueDate calendar valueDay hcalendar hregular hdate world script choice
    hscript hpast
  refine ⟨_, _, Machine.deadlineFor_eq hdate hcalendar,
    Machine.accepts_run hdate hcalendar hscript world, ?_⟩
  rw [truncate_lastMinute]
  exact Machine.inWindow_iff hregular hpast

/-- A value date on the plain calendar, seen from the following Saturday. -/
theorem accepts_until_deadline_saturday :
    ({ calendarId := "US_EQUITY" } : Calendar).addBusinessDays 739857 (-2) ≤ 739856 ∧
    ∃ deadline accepted,
      sampleMachine.deadlineFor "CLNT001" "2026-08-28" = .ok deadline ∧
      ((sampleMachine.accepts "CLNT001" "2026-08-28").run perform
        (fun _ => some { clock := sampleClock + microsPerDay, id := sampleIdA })
        World.initial).2 = .value accepted ∧ accepted = true := by
  have hregular := Calendar.regular_of_weekend "US_EQUITY"
  refine ⟨(accepts_until_deadline.1 _ hregular 2 (by decide) 739856 739857 (by decide)).mpr
    (by decide), ?_⟩
  obtain ⟨deadline, accepted, hdeadline, hrun, hiff⟩ :=
    accepts_until_deadline.2 sampleMachine "CLNT001" "2026-08-28" { calendarId := "US_EQUITY" }
      739856 rfl hregular (by decide +kernel) World.initial
      (fun _ => some { clock := sampleClock + microsPerDay, id := sampleIdA }) _ rfl
      (by decide)
  refine ⟨deadline, accepted, hdeadline, hrun, hiff.mpr ?_⟩
  have heq : sampleMachine.deadlineFor "CLNT001" "2026-08-28" =
      .ok (Day.midnight 739860 + (23 * 60 + 59) * microsPerMinute) := by
    decide +kernel
  rw [heq] at hdeadline
  cases hdeadline
  decide

end Berthmaster

end Harbormaster
