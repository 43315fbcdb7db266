import Harbormaster.Berthmaster.Deadline
import Harbormaster.Berthmaster.Operations
import Harbormaster.Foundation.Fallible

/-! # One alert for each slot

`Overdue` marks the slots it returns, and a marked slot is not returned again. An
arrival that is accepted after the deadline can take the mark away: the window
is measured in days and closes at midnight, the deadline is one minute earlier.
-/

namespace Harbormaster.Berthmaster

open Effect Program

/-- The slot is passed over by `Overdue`. -/
def Slot.settled (slot : Slot) : Prop :=
  slot.state = .stateAssigned ∨ slot.state = .stateMissing

variable (machine : Machine)

/-- An arrival that is accepted for a slot which was settled before its deadline
passed leaves it with both sides. -/
def OnTime (session : Session) (move : Move) : Prop :=
  ∀ arrival slot expectation, move.operation = .apply arrival →
    machine.admits move.clock arrival = .ok expectation →
    session.world.state.get arrival.key = some slot → Slot.settled slot →
    slot.deadline < move.clock → Completes session.world.state arrival

/-- No slot was returned twice, and those returned are settled and overdue. -/
structure Once (session : Session) (clock : Instant) : Prop where
  nodup : (reported session.answers).Nodup
  settled : ∀ key ∈ reported session.answers, ∃ slot, session.world.state.get key = some slot ∧
    Slot.settled slot ∧ slot.deadline < clock

theorem once_initial (clock : Instant) : Once Session.initial clock where
  nodup := List.nodup_nil
  settled := fun _ h => absurd h List.not_mem_nil

section Steps

variable {machine} {slots : SlotTable}

/-- Writing a routed slot back keeps the deadline of the stored one. -/
theorem Routed.get_put {accepted : Instant} {arrival : Arrival} {outcome : Outcome}
    {slot placed : Slot} (h : Routed machine slots accepted arrival outcome slot placed)
    {stored : Slot} (hstored : slots.get arrival.key = some stored) :
    ∃ next, (slots.put outcome.slot).get arrival.key = some next ∧
      next.state = (if placed.complete then .stateAssigned else .statePartial) ∧
      next.deadline = stored.deadline := by
  have hslot : slot = stored := by
    rcases h.found with hfound | ⟨hnone, _⟩
    · exact Option.some.inj (hfound.symm.trans hstored)
    · rw [hstored] at hnone
      cases hnone
  subst hslot
  have hput := SlotTable.get_put_self slots outcome.slot
  rw [h.slot_key, hstored] at hput
  refine ⟨_, hput, ?_, ?_⟩
  · rw [h.slot_eq]
    rfl
  · rw [h.slot_eq]
    rcases h.sides with ⟨_, rfl⟩ | ⟨_, rfl⟩ <;> rfl

/-- An operation on time keeps the overdue slots that are settled as they are. -/
theorem Transition.settled {clock : Instant} {operation : Operation} {slots' : SlotTable}
    {ending : Ending Failure Answer} (h : Transition machine slots clock operation slots' ending)
    {key : Key} {slot : Slot} (hslot : slots.get key = some slot) (hsettled : Slot.settled slot)
    (hontime : ∀ arrival expectation, operation = .apply arrival → arrival.key = key →
      machine.admits clock arrival = .ok expectation → Completes slots arrival) :
    ∃ next, slots'.get key = some next ∧ Slot.settled next ∧ next.deadline = slot.deadline := by
  cases h with
  | @routed arrival outcome opened hroute =>
      obtain ⟨found, placed, hrouted⟩ := routed_of_route hroute
      by_cases hkey : arrival.key = key
      · subst hkey
        obtain ⟨expectation, hadmits⟩ := hrouted.admitted
        have hcompletes := hontime arrival expectation rfl rfl hadmits
        have hcomplete : placed.complete = true :=
          hrouted.assign_eq ▸ hrouted.completes_iff.mp hcompletes
        obtain ⟨next, hnext, hstate, hdeadline⟩ := hrouted.get_put hslot
        rw [if_pos hcomplete] at hstate
        exact ⟨next, hnext, .inl hstate, hdeadline⟩
      · have hother : key ≠ outcome.slot.key := fun heq => hkey (hrouted.slot_key ▸ heq.symm)
        exact ⟨slot, (SlotTable.get_put_of_ne _ _ hother).trans hslot, hsettled, rfl⟩
  | refused => exact ⟨slot, hslot, hsettled, rfl⟩
  | unknown _ => exact ⟨slot, hslot, hsettled, rfl⟩
  | @recorded key' assignmentId stored hstored =>
      have hstoredKey : stored.key = key' := SlotTable.get_key slots hstored
      have hkey' : (stamped stored assignmentId).key = key' := hstoredKey
      by_cases hkey : key = key'
      · subst hkey
        have hput := SlotTable.get_put_self slots (stamped stored assignmentId)
        rw [hkey', hstored] at hput
        rw [hstored] at hslot
        cases hslot
        exact ⟨_, hput, .inl rfl, rfl⟩
      · exact ⟨slot, (SlotTable.get_put_of_ne _ _ (hkey' ▸ hkey)).trans hslot, hsettled, rfl⟩
  | @swept due hselected _ =>
      rcases get_markDeeds hselected key with ⟨other, hother, hkey, _⟩ | ⟨_, hsame⟩
      · -- a selected slot is neither assigned nor missing
        have hstored := hselected.stored other hother
        rw [hkey, hslot] at hstored
        cases hstored
        have hwaiting := hselected.waiting slot hother
        exact absurd hsettled (not_or.mpr hwaiting)
      · exact ⟨slot, hsame.trans hslot, hsettled, rfl⟩

theorem map_key_marked (due : List Slot) : (due.map marked).map Slot.key = due.map Slot.key := by
  rw [List.map_map]
  rfl

/-- What an operation returns as overdue is a selection, which it settles. -/
theorem Transition.reported {clock : Instant} {operation : Operation} {slots' : SlotTable}
    {ending : Ending Failure Answer}
    (h : Transition machine slots clock operation slots' ending) :
    (reported [(operation, ending)]).Nodup ∧
      ∀ key ∈ Berthmaster.reported [(operation, ending)],
        (∃ slot, slots.get key = some slot ∧ ¬ Slot.settled slot) ∧
          ∃ slot, slots'.get key = some slot ∧ Slot.settled slot ∧ slot.deadline < clock := by
  cases h with
  | routed opened hroute => exact ⟨List.nodup_nil, fun _ h => absurd h List.not_mem_nil⟩
  | refused => exact ⟨List.nodup_nil, fun _ h => absurd h List.not_mem_nil⟩
  | unknown hnone => exact ⟨List.nodup_nil, fun _ h => absurd h List.not_mem_nil⟩
  | recorded hslot => exact ⟨List.nodup_nil, fun _ h => absurd h List.not_mem_nil⟩
  | @swept due hselected hdue =>
      have hreported : Berthmaster.reported [(.overdue, .value (.overdue (due.map marked)))] =
          due.map Slot.key := (List.append_nil _).trans (map_key_marked due)
      rw [hreported]
      refine ⟨hselected.nodup, fun key hkey => ?_⟩
      obtain ⟨slot, hslot, rfl⟩ := List.mem_map.mp hkey
      refine ⟨⟨slot, hselected.stored slot hslot, not_or.mpr (hselected.waiting slot hslot)⟩, ?_⟩
      rcases get_markDeeds hselected slot.key with ⟨other, hother, hsame, hget⟩ | ⟨hnot, _⟩
      · exact ⟨marked other, hget, .inr rfl, hdue other hother⟩
      · exact absurd hkey hnot

end Steps

variable {machine}

theorem Once.step {session : Session} {clock : Instant} (h : Once session clock) {move : Move}
    (hclock : clock ≤ move.clock) (hontime : OnTime machine session move) :
    Once (session.step machine move) move.clock := by
  have htransition := transition machine session move
  obtain ⟨hnodup, hnew⟩ := htransition.reported
  refine ⟨?_, fun key hkey => ?_⟩
  · rw [Session.step_answers, reported_append, List.nodup_append]
    refine ⟨h.nodup, hnodup, fun key hkey other hother heq => ?_⟩
    -- what was returned before is settled, what is returned now was not
    obtain ⟨slot, hslot, hsettled, _⟩ := h.settled key hkey
    obtain ⟨⟨slot', hslot', hunsettled⟩, _⟩ := hnew other hother
    rw [← heq, hslot] at hslot'
    cases hslot'
    exact hunsettled hsettled
  · rw [Session.step_answers, reported_append, List.mem_append] at hkey
    rcases hkey with hbefore | hnow
    · obtain ⟨slot, hslot, hsettled, hdeadline⟩ := h.settled key hbefore
      have hpast := hdeadline.trans_le hclock
      obtain ⟨next, hnext, hstill, hsame⟩ := htransition.settled hslot hsettled
        fun arrival expectation hmove hkey' hadmits =>
          hontime arrival slot expectation hmove hadmits (hkey' ▸ hslot) hsettled hpast
      exact ⟨next, hnext, hstill, hsame ▸ hpast⟩
    · exact (hnew key hnow).2

theorem Once.run {session : Session} {clock : Instant} (h : Once session clock)
    {moves : List Move} (hstart : ∀ move ∈ moves, clock ≤ move.clock)
    (hclock : moves.Pairwise fun earlier later => earlier.clock ≤ later.clock)
    (hontime : Along (Session.step machine) (OnTime machine) session moves) :
    (reported (session.run machine moves).answers).Nodup := by
  induction moves generalizing session clock with
  | nil => exact h.nodup
  | cons move rest ih =>
      rw [List.pairwise_cons] at hclock
      exact ih (h.step (hstart move List.mem_cons_self) hontime.1) hclock.1 hclock.2 hontime.2

/-- On a clock that does not go back, `Overdue` returns each slot at most once,
provided that an arrival accepted for a settled slot after its deadline completes
the slot. -/
theorem overdue_once (machine : Machine) (moves : List Move)
    (hclock : moves.Pairwise fun earlier later => earlier.clock ≤ later.clock)
    (hontime : Along (Session.step machine) (OnTime machine) Session.initial moves) :
    (reported (Session.initial.run machine moves).answers).Nodup := by
  cases moves with
  | nil => exact List.nodup_nil
  | cons move rest =>
      refine (once_initial move.clock).run (fun later hlater => ?_) hclock hontime
      rcases List.mem_cons.mp hlater with rfl | hrest
      · exact le_rfl
      · exact (List.pairwise_cons.mp hclock).1 later hrest

/-! ## When an arrival comes late -/

/-- The deadline of every stored slot is that of its value date. -/
def Scheduled (machine : Machine) (slots : SlotTable) : Prop :=
  ∀ key slot, slots.get key = some slot →
    machine.deadlineFor key.clientId key.valueDate = .ok slot.deadline

theorem Scheduled.slotFor {slots : SlotTable} (h : Scheduled machine slots) {opened : Instant}
    {arrival : Arrival} {expectation : Expectation} {slot : Slot}
    (hslot : machine.slotFor slots opened arrival expectation = .ok slot) :
    machine.deadlineFor arrival.clientId arrival.valueDate = .ok slot.deadline := by
  unfold Machine.slotFor at hslot
  split at hslot
  next stored hstored =>
    cases hslot
    exact h arrival.key _ hstored
  next _ =>
    obtain ⟨deadline, hdeadline, hopen⟩ := Fallible.bind_eq_ok.mp hslot
    cases hopen
    exact hdeadline

theorem Scheduled.transition {slots slots' : SlotTable} (h : Scheduled machine slots)
    {clock : Instant} {operation : Operation} {ending : Ending Failure Answer}
    (htransition : Transition machine slots clock operation slots' ending) :
    Scheduled machine slots' := by
  cases htransition with
  | @routed arrival outcome opened hroute =>
      intro key slot hslot
      obtain ⟨found, placed, hrouted⟩ := routed_of_route hroute
      by_cases hkey : key = outcome.slot.key
      · obtain ⟨expectation, _, hrest⟩ := Fallible.bind_eq_ok.mp hroute
        obtain ⟨opened', hopened', hreceive⟩ := Fallible.bind_eq_ok.mp hrest
        obtain ⟨placed', reason, hplace, rfl⟩ := Slot.receive_eq_ok hreceive
        have hdeadline : placed'.deadline = opened'.deadline := by
          rcases Slot.placeSide_eq_ok hplace with ⟨_, rfl⟩ | ⟨_, rfl⟩ <;> rfl
        have hwritten : slot.deadline = placed'.deadline := by
          rw [hkey, SlotTable.get_put_self] at hslot
          have hsettle := congrArg Slot.deadline (Slot.settle_slot placed'
            (opened'.state = .stateAssigned) reason)
          split at hslot <;> cases hslot <;> exact hsettle
        rw [hkey, hrouted.slot_key, hwritten, hdeadline]
        exact h.slotFor hopened'
      · exact h key slot ((SlotTable.get_put_of_ne _ _ hkey).symm.trans hslot)
  | refused => exact h
  | unknown _ => exact h
  | @recorded key' assignmentId stored hstored =>
      intro key slot hslot
      have hstoredKey : stored.key = key' := SlotTable.get_key slots hstored
      have hkey' : (stamped stored assignmentId).key = key' := hstoredKey
      by_cases hkey : key = key'
      · subst hkey
        have hput := SlotTable.get_put_self slots (stamped stored assignmentId)
        rw [hkey', hstored] at hput
        rw [hput] at hslot
        cases hslot
        exact h key stored hstored
      · exact h key slot ((SlotTable.get_put_of_ne _ _ (hkey' ▸ hkey)).symm.trans hslot)
  | @swept due hselected _ =>
      intro key slot hslot
      rcases get_markDeeds hselected key with ⟨other, hother, rfl, hget⟩ | ⟨_, hsame⟩
      · rw [hget] at hslot
        cases hslot
        exact h other.key other (hselected.stored other hother)
      · exact h key slot (hsame.symm.trans hslot)

theorem scheduled_run (moves : List Move) :
    Scheduled machine (Session.initial.run machine moves).world.state := by
  refine List.foldlRecOn (motive := fun session => Scheduled machine session.world.state) moves
    (Session.step machine) (fun key slot hslot => ?_) fun session h move _ =>
      h.transition (transition machine session move)
  rw [show Session.initial.world.state = ∅ from rfl, SlotTable.get_empty] at hslot
  cases hslot

/-- On a calendar without a closed month, an arrival accepted after the deadline
of its slot comes in the last minute of the deadline's day. -/
theorem late_in_last_minute (moves : List Move) {arrival : Arrival} {slot : Slot}
    {calendar : Calendar} {expectation : Expectation} {clock : Instant}
    (hcalendar : machine.calendarFor arrival.clientId = .ok calendar)
    (hregular : calendar.Regular) (hadmits : machine.admits clock arrival = .ok expectation)
    (hslot : (Session.initial.run machine moves).world.state.get arrival.key = some slot)
    (hlate : slot.deadline < clock) : clock < slot.deadline + microsPerMinute := by
  obtain ⟨valueDay, hdate, hrest⟩ := Fallible.bind_eq_ok.mp hadmits
  obtain ⟨calendar', hcalendar', hwindow⟩ := Fallible.bind_eq_ok.mp hrest
  cases hcalendar.symm.trans hcalendar'
  have hinside : machine.inWindow calendar arrival.clientId valueDay clock.truncate = true := by
    by_contra hout
    rw [if_neg hout] at hwindow
    cases hwindow
  have hdeadline : slot.deadline =
      (calendar.addBusinessDays valueDay (machine.windowDays arrival.clientId)).midnight +
        (23 * 60 + 59) * microsPerMinute :=
    Except.ok.inj ((scheduled_run moves arrival.key slot hslot).symm.trans
      (Machine.deadlineFor_eq hdate hcalendar))
  have hforward : valueDay ≤
      calendar.addBusinessDays valueDay (machine.windowDays arrival.clientId) :=
    calendar.le_addBusinessDays valueDay (machine.windowDays_pos _).le
  have hlast : slot.deadline.truncate =
      calendar.addBusinessDays valueDay (machine.windowDays arrival.clientId) := by
    rw [hdeadline]
    exact truncate_lastMinute _
  have hpast : slot.deadline.truncate ≤ clock.truncate :=
    Int.ediv_le_ediv (by decide) hlate.le
  rw [hlast] at hpast
  have htoday := (Machine.inWindow_iff hregular (hforward.trans hpast)).mp hinside
  rw [hdeadline]
  generalize calendar.addBusinessDays valueDay (machine.windowDays arrival.clientId) = last
    at htoday
  have hmidnight : ∀ clock last : Int, clock / 86400000000 ≤ last →
      clock < last * 86400000000 + (23 * 60 + 59) * 60000000 + 60000000 := by omega
  exact hmidnight clock last htoday

/-! ## The last minute -/

def sampleDelivery (arrivalId side : String) : Arrival :=
  ⟨arrivalId, "CLNT001", "TRADE", "2026-08-28", side⟩

/-- The deadline of the sample slot, on the second business day. -/
def sampleDeadline : Instant := Day.midnight 739860 + (23 * 60 + 59) * microsPerMinute

/-- A slot is returned as overdue, and the file that was missing comes within the
same minute. -/
def completedMoves : List Move :=
  [calmMove (.apply (sampleDelivery "A1" sideInternalGl)) sampleClock,
    calmMove .overdue (sampleDeadline + 10000000),
    calmMove (.apply (sampleDelivery "A2" sideExternalClient)) (sampleDeadline + 20000000),
    calmMove .overdue (sampleDeadline + 30000000)]

theorem overdue_once_completed :
    (reported (Session.initial.run sampleMachine completedMoves).answers).Nodup := by
  refine overdue_once sampleMachine completedMoves (by decide +kernel) ⟨?_, ?_, ?_, ?_, trivial⟩
  · intro arrival slot expectation hmove _ hslot
    rw [show Session.initial.world.state = ∅ from rfl, SlotTable.get_empty] at hslot
    cases hslot
  · intro arrival slot expectation hmove
    cases hmove
  · intro arrival slot expectation hmove _ _ _ _
    cases hmove
    decide +kernel
  · intro arrival slot expectation hmove
    cases hmove

/-- The same, but a replacement comes instead of the file that was missing. -/
def replacedMoves : List Move :=
  [calmMove (.apply (sampleDelivery "A1" sideInternalGl)) sampleClock,
    calmMove .overdue (sampleDeadline + 10000000),
    calmMove (.apply (sampleDelivery "A2" sideInternalGl)) (sampleDeadline + 20000000),
    calmMove .overdue (sampleDeadline + 30000000)]

/-- `Overdue` returns one slot twice. -/
theorem overdue_twice :
    (replacedMoves.Pairwise fun earlier later => earlier.clock ≤ later.clock) ∧
      ¬ (reported (Session.initial.run sampleMachine replacedMoves).answers).Nodup := by
  have hreported : reported (Session.initial.run sampleMachine replacedMoves).answers =
      [sampleKey, sampleKey] := by
    decide +kernel
  rw [hreported]
  exact ⟨by decide +kernel, by decide⟩

end Harbormaster.Berthmaster
