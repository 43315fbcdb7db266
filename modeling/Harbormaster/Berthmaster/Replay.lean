import Harbormaster.Berthmaster.Run

/-! # Redelivery of a handled message

The handler does not tell a replay from a correction. Handling a message again
is without effect exactly where routing refuses it, or where the stored slot is
still partial and holds the message on its side.
-/

namespace Harbormaster.Berthmaster

open Effect Program

/-- The slot table and the berth messages are as before. -/
structure Unchanged (world world' : World) : Prop where
  slots : ∀ key, world'.state.get key = world.state.get key
  berths : ∀ partition, berthLog partition world'.journal = berthLog partition world.journal

/-- The arrival is refused by routing, or its slot is partial, holds it already
and stays incomplete. -/
def Absorbed (machine : Machine) (accepted : Instant) (slots : SlotTable) (arrival : Arrival) :
    Prop :=
  (∀ expectation, machine.admits accepted arrival ≠ .ok expectation) ∨
  (arrival.side ≠ sideInternalGl ∧ arrival.side ≠ sideExternalClient) ∨
  ¬ Completes slots arrival ∧ ∃ slot, slots.get arrival.key = some slot ∧
    slot.state = .statePartial ∧
    (arrival.arrivalId = "" ∨ slot.arrivalOn arrival.side = arrival.arrivalId)

variable {machine : Machine} {slots : SlotTable} {accepted opened : Instant}
variable {arrival : Arrival} {outcome : Outcome} {slot placed : Slot}

/-- Writing an incomplete slot back changes nothing when it was partial and held
the arrival. -/
theorem Routed.over_eq_self (h : Routed machine slots accepted arrival outcome slot placed)
    (hwaiting : outcome.assign = false) :
    outcome.slot.over slot = slot ↔ slot.state = .statePartial ∧
      (arrival.arrivalId = "" ∨ slot.arrivalOn arrival.side = arrival.arrivalId) := by
  have hincomplete : placed.complete = false := h.assign_eq ▸ hwaiting
  rw [h.slot_eq, hincomplete, if_neg Bool.false_ne_true, ← coalesce_eq_stored]
  obtain ⟨key, state, expectationId, side1, side2, assignmentId, openedAt, deadline⟩ := slot
  rcases h.sides with ⟨hside, rfl⟩ | ⟨hside, rfl⟩
  · simp [Slot.over, Slot.arrivalOn, hside, eq_comm]
  · have hother : arrival.side ≠ sideInternalGl := by
      rw [hside]
      decide
    simp [Slot.over, Slot.arrivalOn, hother, eq_comm]

/-- Storing an incomplete slot leaves every slot as it was exactly when the
arrival is held already. -/
theorem Routed.put_unchanged (h : Routed machine slots accepted arrival outcome slot placed)
    (hwaiting : outcome.assign = false) :
    (∀ key, (slots.put outcome.slot).get key = slots.get key) ↔
      ∃ stored, slots.get arrival.key = some stored ∧ stored.state = .statePartial ∧
        (arrival.arrivalId = "" ∨ stored.arrivalOn arrival.side = arrival.arrivalId) := by
  have hkey := h.slot_key
  have hself := SlotTable.get_put_self slots outcome.slot
  rw [hkey] at hself
  rcases h.found with hfound | ⟨hnone, _⟩
  · rw [hfound] at hself
    have hover := h.over_eq_self hwaiting
    constructor
    · intro hsame
      rw [hsame, hfound] at hself
      exact ⟨slot, hfound, hover.mp (Option.some.inj hself).symm⟩
    · rintro ⟨stored, hstored, hheld⟩ key
      rw [hfound] at hstored
      cases hstored
      by_cases hother : key = arrival.key
      · rw [hother, hself, hfound]
        exact congrArg some (hover.mpr hheld)
      · exact SlotTable.get_put_of_ne slots outcome.slot (hkey ▸ hother)
  · rw [hnone] at hself
    constructor
    · intro hsame
      rw [hsame, hnone] at hself
      cases hself
    · rintro ⟨stored, hstored, _⟩
      rw [hnone] at hstored
      cases hstored

theorem successor_ne_nil (supersedes id : String) : successor supersedes id ≠ [] := by
  unfold successor
  split <;> exact List.cons_ne_nil _ _

/-- The deeds of a handled message change nothing exactly when it is absorbed. -/
theorem handlePlan_unchanged (classified : ArrivalClassified) (readings : Readings)
    (hdispatched : classified.disposition = .dispatched) :
    ((∀ key, ((handlePlan machine slots readings (some classified)).1.foldl enact slots).get key =
        slots.get key) ∧
      ∀ partition, berthLog partition (handlePlan machine slots readings (some classified)).1 =
        []) ↔ Absorbed machine readings.accepted slots (arrivalOf classified) := by
  have hnot : ¬ classified.disposition ≠ .dispatched := not_not.mpr hdispatched
  simp only [handlePlan, if_neg hnot]
  cases hroute : machine.route slots readings.accepted readings.opened (arrivalOf classified) with
  | error cause =>
      dsimp only
      refine ⟨fun _ => ?_, fun _ => ?_⟩
      · cases hadmits : machine.admits readings.accepted (arrivalOf classified) with
        | error cause => exact .inl fun expectation h => by rw [hadmits] at h; cases h
        | ok expectation => exact .inr (.inl (unknownSide_of_route hadmits hroute))
      · split
        · exact ⟨fun _ => rfl, fun _ => rfl⟩
        · exact ⟨fun _ => rfl, fun _ => rfl⟩
  | ok outcome =>
      dsimp only
      obtain ⟨slot, placed, hrouted⟩ := routed_of_route hroute
      obtain ⟨expectation, hadmits⟩ := hrouted.admitted
      have hknown : ¬ ((arrivalOf classified).side ≠ sideInternalGl ∧
          (arrivalOf classified).side ≠ sideExternalClient) := by
        rintro ⟨hgl, hclient⟩
        rcases hrouted.sides with ⟨hside, _⟩ | ⟨hside, _⟩
        · exact hgl hside
        · exact hclient hside
      cases hassign : outcome.assign with
      | true =>
          have hcompletes := hrouted.completes_iff.mpr hassign
          constructor
          · rintro ⟨_, hsilent⟩
            have hlog := hsilent outcome.slot.key.text
            rw [berthLog_routedDeeds, if_pos ⟨hassign, rfl⟩] at hlog
            exact absurd hlog (successor_ne_nil _ _)
          · rintro (hrefused | hunknown | ⟨hwaiting, _⟩)
            · exact absurd hadmits (hrefused expectation)
            · exact absurd hunknown hknown
            · exact absurd hcompletes hwaiting
      | false =>
          have hwaiting : ¬ Completes slots (arrivalOf classified) := by
            rw [hrouted.completes_iff, hassign]
            exact Bool.false_ne_true
          have hdeeds : routedDeeds slots classified outcome readings =
              [.stored outcome.slot, .audited (slotUpdated (arrivalOf classified) outcome)] := by
            rw [routedDeeds, hassign]
            rfl
          rw [hdeeds]
          constructor
          · rintro ⟨hslots, _⟩
            exact .inr (.inr ⟨hwaiting, (hrouted.put_unchanged hassign).mp hslots⟩)
          · rintro (hrefused | hunknown | ⟨_, hheld⟩)
            · exact absurd hadmits (hrefused expectation)
            · exact absurd hunknown hknown
            · exact ⟨(hrouted.put_unchanged hassign).mpr hheld, fun _ => rfl⟩

/-- Handling a message again, after any run in which it was handled before and
any further steps, changes nothing exactly when it is absorbed. -/
theorem redelivery_unchanged_iff (machine : Machine) (before between : List Turn)
    (classified : ArrivalClassified) (handled replay : Script Choice) (clock : Instant)
    (hdispatched : classified.disposition = .dispatched) (hsteady : Steady replay)
    (hclock : (replay 0).map Choice.clock = some clock) :
    let message := Step.handle (some classified)
    let world := runAll machine World.initial (before ++ [(message, handled)] ++ between)
    Unchanged world (advance machine world (message, replay)) ↔
      Absorbed machine clock world.state (arrivalOf classified) := by
  intro message world
  obtain ⟨readings, count, hfirst, hworld⟩ :=
    advance_handle_steady machine world (some classified) hsteady
  obtain ⟨first, hturn, rfl⟩ := Option.map_eq_some_iff.mp hclock
  rw [← hfirst first hturn, ← handlePlan_unchanged classified readings hdispatched]
  constructor
  · rintro ⟨hslots, hberths⟩
    rw [hworld.state] at hslots
    refine ⟨hslots, fun partition => ?_⟩
    have hlog := hberths partition
    rw [hworld.journal, berthLog_append] at hlog
    exact List.self_eq_append_right.mp hlog.symm
  · rintro ⟨hslots, hsilent⟩
    refine ⟨?_, fun partition => ?_⟩
    · rw [hworld.state]
      exact hslots
    · rw [hworld.journal, berthLog_append, hsilent, List.append_nil]

/-- A first side that is still waiting is absorbed when it comes again. -/
theorem redelivery_unchanged_waiting :
    let message := Step.handle (some (sampleArrival "A1" .internalGl))
    let world := runAll sampleMachine World.initial
      ([] ++ [(message, sampleScript sampleIdA)] ++ [(.sweep, sampleScript sampleIdA)])
    Unchanged world (advance sampleMachine world (message, sampleScript sampleIdB)) := by
  intro message world
  refine (redelivery_unchanged_iff sampleMachine [] [(.sweep, sampleScript sampleIdA)]
    (sampleArrival "A1" .internalGl) (sampleScript sampleIdA) (sampleScript sampleIdB)
    sampleClock rfl (sampleScript_steady sampleIdB) rfl).mpr (.inr (.inr ⟨?_, ?_⟩))
  · decide +kernel
  · have hstored : (world.state.get sampleKey).map (fun slot => (slot.state,
        slot.side1Arrival)) = some (.statePartial, "A1") := by
      decide +kernel
    obtain ⟨slot, hslot, hpair⟩ := Option.map_eq_some_iff.mp hstored
    obtain ⟨hstate, hside⟩ := Prod.mk.inj hpair
    exact ⟨slot, hslot, hstate, .inr hside⟩

/-- The second side, handled to its end and delivered again, voids the
assignment and publishes another. -/
theorem redelivery_not_absorbed :
    let message := Step.handle (some (sampleArrival "A2" .externalClient))
    let world := runAll sampleMachine World.initial
      [(.handle (some (sampleArrival "A1" .internalGl)), sampleScript sampleIdA)]
    let handled := execute sampleMachine world (message, sampleScript sampleIdA)
    handled.2 = .value () ∧ ¬ Unchanged handled.1
      (advance sampleMachine handled.1 (message, sampleScript sampleIdB)) := by
  intro message world handled
  refine ⟨by decide +kernel, fun hunchanged => ?_⟩
  have hbefore : (berthLog sampleKey.text handled.1.journal).length = 1 := by decide +kernel
  have hafter : (berthLog sampleKey.text (advance sampleMachine handled.1
      (message, sampleScript sampleIdB)).journal).length = 3 := by
    decide +kernel
  rw [hunchanged.berths, hbefore] at hafter
  cases hafter

end Harbormaster.Berthmaster
