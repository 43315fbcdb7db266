import Harbormaster.Berthmaster.Run

/-! # The messages behind the sides of a slot

A slot keeps only the arrival id of each side. In every run, however its turns end,
it is that of the message last stored on the side, and an assignment names the
messages that are stored on the sides when it is published.
-/

namespace Harbormaster.Berthmaster

open Effect Program

/-! ## The sides in the slot table -/

/-- The arrival on a side of a slot. -/
def arrivalOn (slot : Slot) (side : String) : String :=
  if side = sideInternalGl then slot.side1Arrival
  else if side = sideExternalClient then slot.side2Arrival
  else ""

def arrivalAt (slots : SlotTable) (key : Key) (side : String) : String :=
  ((slots.get key).map fun slot => arrivalOn slot side).getD ""

theorem arrivalOn_over (slot stored : Slot) (side : String) :
    arrivalOn (slot.over stored) side = coalesce (arrivalOn slot side) (arrivalOn stored side) := by
  unfold arrivalOn
  split
  · rfl
  · split
    · rfl
    · rfl

theorem arrivalAt_put (slots : SlotTable) (slot : Slot) (key : Key) (side : String) :
    arrivalAt (slots.put slot) key side =
      if slot.key = key then coalesce (arrivalOn slot side) (arrivalAt slots key side)
      else arrivalAt slots key side := by
  unfold arrivalAt
  split
  next hkey =>
    subst hkey
    rw [get_storedAfter, storedAfter]
    cases hstored : slots.get slot.key with
    | none =>
        change arrivalOn slot side = coalesce (arrivalOn slot side) ""
        unfold coalesce
        split
        next hempty => exact hempty
        next => rfl
    | some stored => exact arrivalOn_over slot stored side
  next hkey => rw [SlotTable.get_put_of_ne slots slot (Ne.symm hkey)]

/-- Deeds that store only the sides that are there already change none. -/
theorem arrivalAt_foldl {slots : SlotTable} {deeds : List Deed}
    (h : ∀ slot, .stored slot ∈ deeds → ∀ side, arrivalOn slot side = arrivalAt slots slot.key side)
    (key : Key) (side : String) :
    arrivalAt (deeds.foldl enact slots) key side = arrivalAt slots key side := by
  induction deeds generalizing slots with
  | nil => rfl
  | cons deed rest ih =>
      have hsame : ∀ key side, arrivalAt (enact slots deed) key side = arrivalAt slots key side := by
        intro key side
        cases deed with
        | stored slot =>
            change arrivalAt (slots.put slot) key side = _
            rw [arrivalAt_put]
            split
            next hkey => rw [h slot List.mem_cons_self side, hkey, coalesce_self]
            next => rfl
        | audited entry => rfl
        | published message => rfl
      rw [List.foldl_cons, ih, hsame]
      intro slot hslot side
      rw [hsame]
      exact h slot (List.mem_cons_of_mem _ hslot) side

/-! ## The turns of a run -/

variable (machine : Machine) (key : Key) (side : String)

/-- What a turn adds to the journal. -/
def newDeeds (world : World) (turn : Turn) : List Deed :=
  (advance machine world turn).journal.drop world.journal.length

def Deed.isStored : Deed → Bool
  | .stored _ => true
  | _ => false

/-- The message that a turn stores on a side of a slot. -/
def storesOn (world : World) (turn : Turn) : Option ArrivalClassified :=
  match turn.1 with
  | .handle (some classified) =>
      if (arrivalOf classified).key = key ∧ (arrivalOf classified).side = side ∧
          classified.arrivalId ≠ "" ∧ (newDeeds machine world turn).any Deed.isStored then
        some classified
      else none
  | _ => none

/-- The message last stored on a side of a slot in a run. -/
def storedOn (turns : List Turn) : Option ArrivalClassified :=
  (turns.foldl (fun (state : World × Option ArrivalClassified) turn =>
    (advance machine state.1 turn, (storesOn machine key side state.1 turn).or state.2))
    (World.initial, none)).2

/-- A turn publishes an assignment. -/
def Publishes (world : World) (turn : Turn) (assigned : BerthAssigned) : Prop :=
  ∃ partition, assigned ∈ assignments partition (newDeeds machine world turn)

variable {machine key side}

theorem newDeeds_of_reached {world : World} {turn : Turn} {count : Nat} {done : List Deed}
    (h : Reached world count done (advance machine world turn)) :
    newDeeds machine world turn = done := by
  rw [newDeeds, h.journal, List.drop_left]

section Routed

variable {slots : SlotTable} {accepted : Instant} {arrival : Arrival} {outcome : Outcome}
variable {slot placed : Slot}

/-- A routed arrival is on its side, and the other side is as it was. -/
theorem Routed.arrivalOn_slot (h : Routed machine slots accepted arrival outcome slot placed)
    (side : String) :
    arrivalOn outcome.slot side =
      if arrival.side = side then arrival.arrivalId else arrivalAt slots arrival.key side := by
  have hplaced : arrivalOn outcome.slot side = arrivalOn placed side := by
    rw [h.slot_eq]
    rfl
  have hstored : arrivalAt slots arrival.key side = arrivalOn slot side := by
    unfold arrivalAt
    rcases h.found with hfound | ⟨hnone, hfresh⟩
    · rw [hfound]
      rfl
    · rw [hnone]
      simp [arrivalOn, hfresh.side1, hfresh.side2]
  rw [hplaced, hstored]
  rcases h.sides with ⟨hside, rfl⟩ | ⟨hside, rfl⟩
  · rw [hside]
    by_cases hself : sideInternalGl = side
    · rw [if_pos hself, arrivalOn, if_pos hself.symm]
    · rw [if_neg hself, arrivalOn, arrivalOn, if_neg (Ne.symm hself), if_neg (Ne.symm hself)]
  · rw [hside]
    by_cases hself : sideExternalClient = side
    · subst hself
      rfl
    · rw [if_neg hself, arrivalOn, arrivalOn, if_neg (Ne.symm hself), if_neg (Ne.symm hself)]

/-- Storing it puts a named arrival on its side and changes nothing else there. -/
theorem Routed.arrivalAt_put (h : Routed machine slots accepted arrival outcome slot placed)
    (key : Key) (side : String) :
    arrivalAt (slots.put outcome.slot) key side =
      if arrival.key = key ∧ arrival.side = side ∧ arrival.arrivalId ≠ "" then arrival.arrivalId
      else arrivalAt slots key side := by
  rw [Berthmaster.arrivalAt_put, h.slot_key, h.arrivalOn_slot]
  by_cases hkey : arrival.key = key
  · subst hkey
    rw [if_pos rfl]
    by_cases hside : arrival.side = side
    · rw [if_pos hside]
      by_cases hempty : arrival.arrivalId = ""
      · rw [if_neg fun h => h.2.2 hempty, hempty, coalesce_empty]
      · rw [if_pos ⟨rfl, hside, hempty⟩, coalesce_of_ne _ hempty]
    · rw [if_neg hside, if_neg fun h => hside h.2.1, coalesce_self]
  · rw [if_neg hkey, if_neg fun h => hkey h.1]

/-- What a delivery stores first, it keeps to its end. -/
theorem arrivalAt_routedDeeds (classified : ArrivalClassified) (readings : Readings)
    {done : List Deed}
    (hdone : .stored outcome.slot :: done <+: routedDeeds slots classified outcome readings)
    (key : Key) (side : String) :
    arrivalAt ((.stored outcome.slot :: done).foldl enact slots) key side =
      arrivalAt (slots.put outcome.slot) key side := by
  rw [List.foldl_cons]
  apply arrivalAt_foldl
  intro stored hstored side
  -- the only slot stored after the first is the stamped one
  have hmem := (List.cons_prefix_cons.mp hdone).2.subset hstored
  have hstamped : stored = stamped (storedAfter slots outcome.slot) readings.id.text := by
    by_cases hassign : outcome.assign = true
    · by_cases hsupersedes : outcome.supersedes = ""
      · simpa [hassign, hsupersedes, assignDeeds, voidDeeds] using hmem
      · simpa [hassign, hsupersedes, assignDeeds, voidDeeds] using hmem
    · simp [hassign] at hmem
  have hkey : stored.key = outcome.slot.key := by
    rw [hstamped]
    change (storedAfter slots outcome.slot).key = _
    unfold storedAfter
    split <;> rfl
  change arrivalOn stored side = arrivalAt (slots.put outcome.slot) stored.key side
  rw [hkey, arrivalAt, get_storedAfter, hstamped]
  rfl

end Routed

theorem storesOn_of_silent {world : World} {turn : Turn} {count : Nat} {done : List Deed}
    (hworld : Reached world count done (advance machine world turn)) (hsilent : Silent done) :
    storesOn machine key side world turn = none := by
  have hany : done.any Deed.isStored = false := by
    rw [List.any_eq_false]
    intro deed hdeed
    obtain ⟨entry, rfl⟩ := hsilent deed hdeed
    exact Bool.false_ne_true
  unfold storesOn
  split
  · rw [newDeeds_of_reached hworld, hany, if_neg fun h => Bool.false_ne_true h.2.2.2]
  · rfl

/-- What a turn stores on a side of a slot is what the slot has there afterwards. -/
theorem arrivalAt_advance (world : World) (turn : Turn) :
    arrivalAt (advance machine world turn).state key side =
      ((storesOn machine key side world turn).map ArrivalClassified.arrivalId).getD
        (arrivalAt world.state key side) := by
  obtain ⟨step, script⟩ := turn
  cases step with
  | sweep =>
      -- a sweep marks slots and keeps their sides
      change _ = arrivalAt world.state key side
      obtain ⟨taken, hselected, hstate⟩ := (advance_sweep machine world script).state
      rw [hstate]
      unfold arrivalAt
      rcases get_markDeeds hselected key with ⟨prior, hprior, rfl, hmarked⟩ | ⟨_, hsame⟩
      · rw [hmarked, hselected.stored prior hprior]
        rfl
      · rw [hsame]
  | handle message =>
      obtain ⟨count, done, hworld, hsilent |
        ⟨classified, outcome, slot, placed, readings, rfl, hrouted, hdone⟩⟩ :=
        advance_handle_cases machine world script message
      · rw [hworld.state, foldl_enact_silent hsilent, storesOn_of_silent hworld hsilent]
        rfl
      · rw [hworld.state]
        unfold storesOn
        dsimp only
        rw [newDeeds_of_reached hworld]
        cases done with
        | nil =>
            rw [if_neg fun h => Bool.false_ne_true h.2.2.2]
            rfl
        | cons first rest =>
            obtain rfl : first = .stored outcome.slot := (List.cons_prefix_cons.mp hdone).1
            rw [arrivalAt_routedDeeds classified readings hdone, hrouted.arrivalAt_put]
            by_cases hplace : (arrivalOf classified).key = key ∧
                (arrivalOf classified).side = side ∧ (arrivalOf classified).arrivalId ≠ ""
            · rw [if_pos hplace, if_pos ⟨hplace.1, hplace.2.1, hplace.2.2, rfl⟩]
              rfl
            · rw [if_neg hplace, if_neg fun h => hplace ⟨h.1, h.2.1, h.2.2.1⟩]
              rfl

theorem follow_runAll (turns : List Turn) :
    (turns.foldl (fun (state : World × Option ArrivalClassified) turn =>
      (advance machine state.1 turn, (storesOn machine key side state.1 turn).or state.2))
      (World.initial, none)).1 = runAll machine World.initial turns := by
  induction turns using List.reverseRecOn with
  | nil => rfl
  | append_singleton front turn ih =>
      rw [List.foldl_append, runAll, List.foldl_append]
      exact congrArg (advance machine · turn) ih

theorem storedOn_append (turns : List Turn) (turn : Turn) :
    storedOn machine key side (turns ++ [turn]) =
      (storesOn machine key side (runAll machine World.initial turns) turn).or
        (storedOn machine key side turns) := by
  unfold storedOn
  rw [List.foldl_append, ← @follow_runAll machine key side turns]
  rfl

/-- A side of a slot has the arrival of the message last stored on it. -/
theorem arrivalAt_runAll (turns : List Turn) :
    arrivalAt (runAll machine World.initial turns).state key side =
      ((storedOn machine key side turns).map ArrivalClassified.arrivalId).getD "" := by
  induction turns using List.reverseRecOn with
  | nil => rfl
  | append_singleton front turn ih =>
      rw [storedOn_append, runAll, List.foldl_append]
      change arrivalAt (advance machine (runAll machine World.initial front) turn).state key side = _
      rw [arrivalAt_advance, ih]
      cases storesOn machine key side (runAll machine World.initial front) turn with
      | none => rfl
      | some classified => rfl

/-! ## Published assignments -/

/-- An assignment is published by a delivery, and names the arrivals on the two
sides of its slot and nothing else of them. -/
theorem sides_of_publishes {world : World} {turn : Turn} {assigned : BerthAssigned}
    (h : Publishes machine world turn assigned) :
    let slots := (advance machine world turn).state
    ∃ classified first second, turn.1 = .handle (some classified) ∧
      arrivalAt slots (arrivalOf classified).key sideInternalGl = first ∧ first ≠ "" ∧
      arrivalAt slots (arrivalOf classified).key sideExternalClient = second ∧ second ≠ "" ∧
      assigned.side1 = { arrivalId := first } ∧ assigned.side2 = { arrivalId := second } := by
  intro slots
  obtain ⟨partition, hassigned⟩ := h
  obtain ⟨step, script⟩ := turn
  cases step with
  | sweep =>
      -- a sweep publishes alerts only
      obtain ⟨due, count, index, times, _, hworld | hworld⟩ := advance_sweep machine world script
      · rw [newDeeds_of_reached hworld, assignments_markDeeds] at hassigned
        cases hassigned
      · rw [newDeeds_of_reached hworld, assignments_append, assignments_markDeeds,
          assignments_alertDeeds] at hassigned
        cases hassigned
  | handle message =>
      obtain ⟨count, done, hworld, hsilent |
        ⟨classified, outcome, slot, placed, readings, rfl, hrouted, hdone⟩⟩ :=
        advance_handle_cases machine world script message
      · rw [newDeeds_of_reached hworld, assignments_silent partition hsilent] at hassigned
        cases hassigned
      · rw [newDeeds_of_reached hworld] at hassigned
        have hplanned : assigned ∈ assignments partition
            (routedDeeds world.state classified outcome readings) := by
          obtain ⟨rest, hrest⟩ := hdone
          rw [← hrest, assignments_append]
          exact List.mem_append_left _ hassigned
        rw [assignments_routedDeeds] at hplanned
        split at hplanned
        next hwhen =>
          obtain rfl := List.mem_singleton.mp hplanned
          cases done with
          | nil => cases hassigned
          | cons deed rest =>
              -- the slot was stored before its assignment was published
              obtain rfl : deed = .stored outcome.slot := (List.cons_prefix_cons.mp hdone).1
              have hcomplete : outcome.slot.side1Arrival ≠ "" ∧
                  outcome.slot.side2Arrival ≠ "" := by
                have hboth := hrouted.assign_eq.symm.trans hwhen.1
                rw [hrouted.slot_eq]
                simpa [Slot.complete] using hboth
              have hsides : ∀ side, arrivalOn outcome.slot side ≠ "" →
                  arrivalAt slots (arrivalOf classified).key side =
                    arrivalOn outcome.slot side := by
                intro side hne
                change arrivalAt (advance machine world _).state _ side = _
                rw [hworld.state, arrivalAt_routedDeeds classified readings hdone, arrivalAt_put,
                  if_pos hrouted.slot_key]
                exact coalesce_of_ne _ hne
              exact ⟨classified, _, _, rfl, hsides sideInternalGl hcomplete.1, hcomplete.1,
                hsides sideExternalClient hcomplete.2, hcomplete.2, rfl, rfl⟩
        next => cases hplanned

end Harbormaster.Berthmaster
