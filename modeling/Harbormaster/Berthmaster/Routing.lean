import Harbormaster.Berthmaster.Machine

/-! # Routing as a function

What `apply` decides, as a function of the slot table and the two clock readings
it takes. The inversion of a successful routing says everything that is known
about the slot it hands on.
-/

namespace Harbormaster.Berthmaster

namespace Machine

variable (machine : Machine)

/-- The expectation an arrival is routed to at a given moment, or why it is not. -/
def admits (accepted : Instant) (arrival : Arrival) : Except SlotError Expectation := do
  let valueDay ← parseDate arrival.valueDate
  let calendar ← machine.calendarFor arrival.clientId
  if machine.inWindow calendar arrival.clientId valueDay accepted.truncate then
    machine.expectation arrival
  else
    .error (.outsideWindow arrival.valueDate arrival.clientId
      (machine.windowDays arrival.clientId))

/-- The slot an arrival finds: the stored one, or one opened for it. -/
def slotFor (slots : SlotTable) (opened : Instant) (arrival : Arrival)
    (expectation : Expectation) : Except SlotError Slot :=
  match slots.get arrival.key with
  | some slot => .ok slot
  | none => do
      let deadline ← machine.deadlineFor arrival.clientId arrival.valueDate
      return openSlot arrival expectation opened deadline

/-- What `apply` returns when no component fails. -/
def route (slots : SlotTable) (accepted opened : Instant) (arrival : Arrival) :
    Except SlotError Outcome := do
  let expectation ← machine.admits accepted arrival
  let slot ← machine.slotFor slots opened arrival expectation
  slot.receive arrival

end Machine

/-- A slot that was opened for an arrival and holds nothing yet. -/
structure Fresh (slot : Slot) : Prop where
  state : slot.state = .stateOpen
  side1 : slot.side1Arrival = ""
  side2 : slot.side2Arrival = ""
  assignmentId : slot.assignmentId = ""

/-- The arrival would leave its slot with both sides. -/
def Completes (slots : SlotTable) (arrival : Arrival) : Prop :=
  ∃ slot placed reason, slots.get arrival.key = some slot ∧
    slot.placeSide arrival = .ok (placed, reason) ∧ placed.complete = true

instance (slots : SlotTable) (arrival : Arrival) : Decidable (Completes slots arrival) :=
  match hget : slots.get arrival.key with
  | none => isFalse fun ⟨_, _, _, hstored, _⟩ => by rw [hget] at hstored; cases hstored
  | some slot =>
      match hplace : slot.placeSide arrival with
      | .error _ => isFalse fun ⟨_, _, _, hstored, hplaced, _⟩ => by
          rw [hget] at hstored
          cases hstored
          rw [hplace] at hplaced
          cases hplaced
      | .ok (placed, reason) =>
          if hcomplete : placed.complete = true then
            isTrue ⟨slot, placed, reason, hget, hplace, hcomplete⟩
          else isFalse fun ⟨_, _, _, hstored, hplaced, hcomplete'⟩ => by
            rw [hget] at hstored
            cases hstored
            rw [hplace] at hplaced
            cases hplaced
            exact hcomplete hcomplete'

/-- A successful routing: the slot it found, the slot with the arrival on its
side, and the outcome. -/
structure Routed (machine : Machine) (slots : SlotTable) (accepted : Instant)
    (arrival : Arrival) (outcome : Outcome) (slot placed : Slot) : Prop where
  admitted : ∃ expectation, machine.admits accepted arrival = .ok expectation
  key : slot.key = arrival.key
  found : slots.get arrival.key = some slot ∨ (slots.get arrival.key = none ∧ Fresh slot)
  sides : (arrival.side = sideInternalGl ∧
      placed = { slot with side1Arrival := arrival.arrivalId }) ∨
    (arrival.side = sideExternalClient ∧
      placed = { slot with side2Arrival := arrival.arrivalId })
  slot_eq : outcome.slot =
    { placed with state := if placed.complete then .stateAssigned else .statePartial }
  assign_eq : outcome.assign = placed.complete
  supersedes_eq : outcome.supersedes =
    if placed.complete && slot.state = .stateAssigned then slot.assignmentId else ""

namespace Routed

variable {machine : Machine} {slots : SlotTable} {accepted opened : Instant}
variable {arrival : Arrival} {outcome : Outcome} {slot placed : Slot}

theorem placed_key (h : Routed machine slots accepted arrival outcome slot placed) :
    placed.key = arrival.key := by
  rcases h.sides with ⟨_, rfl⟩ | ⟨_, rfl⟩
  · exact h.key
  · exact h.key

theorem placed_assignmentId (h : Routed machine slots accepted arrival outcome slot placed) :
    placed.assignmentId = slot.assignmentId := by
  rcases h.sides with ⟨_, rfl⟩ | ⟨_, rfl⟩ <;> rfl

theorem slot_key (h : Routed machine slots accepted arrival outcome slot placed) :
    outcome.slot.key = arrival.key := by
  rw [h.slot_eq]
  exact h.placed_key

/-- An arrival leaves its slot assigned only with both sides. -/
theorem complete_of_assigned (h : Routed machine slots accepted arrival outcome slot placed)
    (hassigned : outcome.slot.state = .stateAssigned) : outcome.slot.complete = true := by
  rw [h.slot_eq] at hassigned ⊢
  by_contra hincomplete
  change ¬ placed.complete = true at hincomplete
  change (if placed.complete then SlotState.stateAssigned else .statePartial) = _ at hassigned
  rw [if_neg hincomplete] at hassigned
  cases hassigned

theorem placeSide_eq (h : Routed machine slots accepted arrival outcome slot placed) :
    ∃ reason, slot.placeSide arrival = .ok (placed, reason) := by
  rcases h.sides with ⟨hside, rfl⟩ | ⟨hside, rfl⟩
  · exact ⟨_, by rw [Slot.placeSide, if_pos hside]⟩
  · have hother : arrival.side ≠ sideInternalGl := by
      rw [hside]
      decide
    exact ⟨_, by rw [Slot.placeSide, if_neg hother, if_pos hside]⟩

theorem completes_iff (h : Routed machine slots accepted arrival outcome slot placed) :
    Completes slots arrival ↔ outcome.assign = true := by
  obtain ⟨reason, hplace⟩ := h.placeSide_eq
  rw [h.assign_eq]
  constructor
  · rintro ⟨stored, placed', reason', hstored, hplace', hcomplete⟩
    rcases h.found with hfound | ⟨hnone, _⟩
    · rw [hstored] at hfound
      cases hfound
      rw [hplace] at hplace'
      cases hplace'
      exact hcomplete
    · rw [hstored] at hnone
      cases hnone
  · intro hcomplete
    rcases h.found with hfound | ⟨_, hfresh⟩
    · exact ⟨slot, placed, reason, hfound, hplace, hcomplete⟩
    · exfalso
      rcases h.sides with ⟨_, rfl⟩ | ⟨_, rfl⟩ <;>
        simp [Slot.complete, hfresh.side1, hfresh.side2] at hcomplete

end Routed

theorem slotFor_eq_ok {machine : Machine} {slots : SlotTable} {opened : Instant}
    {arrival : Arrival} {expectation : Expectation} {slot : Slot}
    (h : machine.slotFor slots opened arrival expectation = .ok slot) :
    slot.key = arrival.key ∧
      (slots.get arrival.key = some slot ∨ (slots.get arrival.key = none ∧ Fresh slot)) := by
  unfold Machine.slotFor at h
  split at h
  next stored hstored =>
    cases h
    exact ⟨SlotTable.get_key slots hstored, .inl hstored⟩
  next hnone =>
    cases hdeadline : machine.deadlineFor arrival.clientId arrival.valueDate with
    | error cause =>
        rw [hdeadline] at h
        cases h
    | ok deadline =>
        rw [hdeadline] at h
        cases h
        exact ⟨rfl, .inr ⟨hnone, rfl, rfl, rfl, rfl⟩⟩

/-- Everything a successful routing says. -/
theorem routed_of_route {machine : Machine} {slots : SlotTable} {accepted opened : Instant}
    {arrival : Arrival} {outcome : Outcome}
    (h : machine.route slots accepted opened arrival = .ok outcome) :
    ∃ slot placed, Routed machine slots accepted arrival outcome slot placed := by
  unfold Machine.route at h
  cases hadmits : machine.admits accepted arrival with
  | error cause =>
      rw [hadmits] at h
      cases h
  | ok expectation =>
  rw [hadmits] at h
  change (machine.slotFor slots opened arrival expectation >>= _) = _ at h
  cases hslot : machine.slotFor slots opened arrival expectation with
  | error cause =>
      rw [hslot] at h
      cases h
  | ok slot =>
  rw [hslot] at h
  obtain ⟨placed, reason, hplace, rfl⟩ := Slot.receive_eq_ok h
  have hplaced := Slot.placeSide_eq_ok hplace
  obtain ⟨hkey, hfound⟩ := slotFor_eq_ok hslot
  refine ⟨slot, placed, ⟨_, hadmits⟩, hkey, hfound, hplaced, Slot.settle_slot _ _ _,
    Slot.settle_assign _ _ _, ?_⟩
  rw [Slot.settle_supersedes]
  rcases hplaced with ⟨_, rfl⟩ | ⟨_, rfl⟩ <;> rfl

/-- An arrival that is admitted is refused only for its side. -/
theorem unknownSide_of_route {machine : Machine} {slots : SlotTable}
    {accepted opened : Instant} {arrival : Arrival} {cause : SlotError}
    {expectation : Expectation} (hadmits : machine.admits accepted arrival = .ok expectation)
    (h : machine.route slots accepted opened arrival = .error cause) :
    arrival.side ≠ sideInternalGl ∧ arrival.side ≠ sideExternalClient := by
  have hdeadline : ∃ deadline,
      machine.deadlineFor arrival.clientId arrival.valueDate = .ok deadline := by
    unfold Machine.admits at hadmits
    unfold Machine.deadlineFor
    cases hday : parseDate arrival.valueDate with
    | error cause =>
        rw [hday] at hadmits
        cases hadmits
    | ok valueDay =>
        rw [hday] at hadmits
        cases hcalendar : machine.calendarFor arrival.clientId with
        | error cause =>
            rw [hcalendar] at hadmits
            cases hadmits
        | ok calendar => exact ⟨_, rfl⟩
  obtain ⟨deadline, hdeadline⟩ := hdeadline
  have hslot : ∃ slot, machine.slotFor slots opened arrival expectation = .ok slot := by
    unfold Machine.slotFor
    rw [hdeadline]
    split
    · exact ⟨_, rfl⟩
    · exact ⟨_, rfl⟩
  obtain ⟨slot, hslot⟩ := hslot
  unfold Machine.route at h
  rw [hadmits] at h
  change (machine.slotFor slots opened arrival expectation >>= _) = _ at h
  rw [hslot] at h
  change slot.receive arrival = _ at h
  refine ⟨fun hside => ?_, fun hside => ?_⟩
  · rw [Slot.receive, Slot.placeSide, if_pos hside] at h
    cases h
  · have hother : arrival.side ≠ sideInternalGl := by
      rw [hside]
      decide
    rw [Slot.receive, Slot.placeSide, if_neg hother, if_pos hside] at h
    cases h

end Harbormaster.Berthmaster
