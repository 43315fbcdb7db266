import Harbormaster.Berthmaster.Run
import Harbormaster.Slot.Partition

/-! # The slot contract without faults

One invariant ties each stored slot to the berth messages of its key: the slot
is assigned exactly when both sides are present, its messages are a proper
succession, and it carries the last assignment of that succession.
-/

namespace Harbormaster.Berthmaster

open Effect Program Succession

/-- A slot fits the berth messages of its key. -/
structure Fits (slot : Slot) (log : List (Entry String)) (assigned : List BerthAssigned) :
    Prop where
  state : slot.state = .stateAssigned ↔ slot.complete = true
  log : log = chain (assigned.map BerthAssigned.assignmentId)
  silent : slot.state ≠ .stateAssigned → assigned = [] ∧ slot.assignmentId = ""
  last : slot.state = .stateAssigned → ∃ last, assigned.getLast? = some last ∧
    last.assignmentId ≠ "" ∧ slot.assignmentId = last.assignmentId ∧
    last.side1.arrivalId = slot.side1Arrival ∧ last.side2.arrivalId = slot.side2Arrival

/-- A stored slot fits its messages, and one that waits holds an arrival. -/
structure Agrees (slot : Slot) (log : List (Entry String)) (assigned : List BerthAssigned) :
    Prop extends Fits slot log assigned where
  waiting : slot.state ≠ .stateAssigned →
    (slot.state = .statePartial ∨ slot.state = .stateMissing) ∧
      (slot.side1Arrival ≠ "" ∨ slot.side2Arrival ≠ "")

/-- A slot that was just opened fits an empty history. -/
theorem Fresh.fits {slot : Slot} (h : Fresh slot) : Fits slot [] [] where
  state := by simp [h.state, Slot.complete, h.side1]
  log := rfl
  silent _ := ⟨rfl, h.assignmentId⟩
  last hstate := by rw [h.state] at hstate; cases hstate

/-- Every stored slot agrees with its messages, and no other key has any. -/
structure Contract (world : World) : Prop where
  addressed : ∀ key slot, world.state.get key = some slot → key.Addressed
  stored : ∀ key slot, world.state.get key = some slot →
    Agrees slot (berthLog key.text world.journal) (assignments key.text world.journal)
  unstored : ∀ key, key.Addressed → world.state.get key = none →
    berthLog key.text world.journal = [] ∧ assignments key.text world.journal = []

theorem contract_initial : Contract World.initial where
  addressed key slot hslot := by cases hslot
  stored key slot hslot := by cases hslot
  unstored _ _ _ := ⟨rfl, rfl⟩

/-! ## Sweeps -/

/-- Marking keeps a waiting slot in agreement. -/
theorem Agrees.marked {slot : Slot} {log : List (Entry String)} {assigned : List BerthAssigned}
    (h : Agrees slot log assigned) (hwaiting : slot.state ≠ .stateAssigned) :
    Agrees (marked slot) log assigned where
  state := by
    have hincomplete : ¬ slot.complete = true := fun hcomplete => hwaiting (h.state.mpr hcomplete)
    exact ⟨fun hstate => (by cases hstate), fun hcomplete => absurd hcomplete hincomplete⟩
  waiting _ := ⟨.inr rfl, (h.waiting hwaiting).2⟩
  log := h.log
  silent _ := h.silent hwaiting
  last hstate := by cases hstate

theorem Contract.sweeping {origin world : World} (h : Contract origin)
    (hsweep : Sweeping origin world) : Contract world := by
  obtain ⟨taken, hselected, hstate⟩ := hsweep.state
  have hget : ∀ key slot, world.state.get key = some slot →
      ∃ prior, origin.state.get key = some prior ∧
        (slot = prior ∨ prior.state ≠ .stateAssigned ∧ slot = marked prior) := by
    intro key slot hslot
    rw [hstate] at hslot
    rcases get_markDeeds hselected key with ⟨prior, hprior, rfl, hmarked⟩ | ⟨_, hsame⟩
    · rw [hmarked] at hslot
      exact ⟨prior, hselected.stored prior hprior,
        .inr ⟨(hselected.waiting prior hprior).1, (Option.some.inj hslot).symm⟩⟩
    · rw [hsame] at hslot
      exact ⟨slot, hslot, .inl rfl⟩
  constructor
  · intro key slot hslot
    obtain ⟨prior, hprior, _⟩ := hget key slot hslot
    exact h.addressed key prior hprior
  · intro key slot hslot
    rw [berthLog_sweeping _ hsweep, assignments_sweeping _ hsweep]
    obtain ⟨prior, hprior, rfl | ⟨hwaiting, rfl⟩⟩ := hget key slot hslot
    · exact h.stored key slot hprior
    · exact (h.stored key prior hprior).marked hwaiting
  · intro key haddressed hnone
    rw [berthLog_sweeping _ hsweep, assignments_sweeping _ hsweep]
    refine h.unstored key haddressed ?_
    rw [hstate] at hnone
    rcases get_markDeeds hselected key with ⟨prior, _, _, hmarked⟩ | ⟨_, hsame⟩
    · rw [hmarked] at hnone
      cases hnone
    · rw [← hsame]
      exact hnone

/-! ## Deliveries -/

theorem addressed_of_admits {machine : Machine} {accepted : Instant}
    {classified : ArrivalClassified} {expectation : Expectation}
    (h : machine.admits accepted (arrivalOf classified) = .ok expectation) :
    (arrivalOf classified).key.Addressed where
  domain := colon_not_mem_domainName classified.domain
  valueDate := by
    unfold Machine.admits parseDate at h
    cases hdate : Civil.parseIso (arrivalOf classified).valueDate with
    | none =>
        rw [hdate] at h
        cases h
    | some date => exact length_of_parseIso hdate

/-- Replacing what is known of one slot. -/
theorem Contract.update {origin world : World} (h : Contract origin) {key : Key} {slot : Slot}
    (haddressed : key.Addressed) (hget : world.state.get key = some slot)
    (hagrees : Agrees slot (berthLog key.text world.journal) (assignments key.text world.journal))
    (hother : ∀ other, other ≠ key → world.state.get other = origin.state.get other)
    (hlogs : ∀ partition, partition ≠ key.text →
      berthLog partition world.journal = berthLog partition origin.journal ∧
      assignments partition world.journal = assignments partition origin.journal) :
    Contract world := by
  have htext : ∀ other : Key, other.Addressed → other ≠ key → other.text ≠ key.text :=
    fun other hotherAddressed hne htext => hne (hotherAddressed.text_injective haddressed htext)
  constructor
  · intro other slot' hslot'
    by_cases hkey : other = key
    · exact hkey ▸ haddressed
    · rw [hother other hkey] at hslot'
      exact h.addressed other slot' hslot'
  · intro other slot' hslot'
    by_cases hkey : other = key
    · subst hkey
      rw [hget] at hslot'
      cases hslot'
      exact hagrees
    · rw [hother other hkey] at hslot'
      obtain ⟨hlog, hassigned⟩ := hlogs other.text
        (htext other (h.addressed other slot' hslot') hkey)
      rw [hlog, hassigned]
      exact h.stored other slot' hslot'
  · intro other hotherAddressed hnone
    have hkey : other ≠ key := by
      rintro rfl
      rw [hget] at hnone
      cases hnone
    obtain ⟨hlog, hassigned⟩ := hlogs other.text (htext other hotherAddressed hkey)
    rw [hlog, hassigned]
    rw [hother other hkey] at hnone
    exact h.unstored other hotherAddressed hnone

section Routed

variable {machine : Machine} {slots : SlotTable} {accepted : Instant}
variable {arrival : Arrival} {outcome : Outcome} {slot placed : Slot}

/-- Storing the outcome of a non-empty arrival stores it as it is. -/
theorem Routed.storedAfter_eq (h : Routed machine slots accepted arrival outcome slot placed)
    (harrival : arrival.arrivalId ≠ "") : storedAfter slots outcome.slot = outcome.slot := by
  unfold storedAfter
  rw [h.slot_key]
  rcases h.found with hfound | ⟨hnone, _⟩
  · rw [hfound, h.slot_eq]
    rcases h.sides with ⟨_, rfl⟩ | ⟨_, rfl⟩ <;> simp [Slot.over, coalesce_of_ne _ harrival]
  · rw [hnone]

theorem stamped_over {stored : Slot} {assignmentId : String} (hid : assignmentId ≠ "") :
    (stamped stored assignmentId).over stored = stamped stored assignmentId := by
  simp [Slot.over, stamped, coalesce_of_ne _ hid]

/-- The slot in the table once a routed arrival has been dealt with. -/
def settled (outcome : Outcome) (assignmentId : String) : Slot :=
  if outcome.assign then stamped outcome.slot assignmentId else outcome.slot

theorem get_routedDeeds (h : Routed machine slots accepted arrival outcome slot placed)
    (harrival : arrival.arrivalId ≠ "") (classified : ArrivalClassified) (readings : Readings)
    (key : Key) :
    ((routedDeeds slots classified outcome readings).foldl enact slots).get key =
      if key = arrival.key then some (settled outcome readings.id.text) else slots.get key := by
  have hself : (slots.put outcome.slot).get arrival.key = some outcome.slot := by
    rw [← h.slot_key, get_storedAfter, h.storedAfter_eq harrival]
  have hother : ∀ key, key ≠ arrival.key → (slots.put outcome.slot).get key = slots.get key :=
    fun key hne => SlotTable.get_put_of_ne slots outcome.slot (h.slot_key.symm ▸ hne)
  unfold settled
  cases hassign : outcome.assign with
  | false =>
      have hdeeds : (routedDeeds slots classified outcome readings).foldl enact slots =
          slots.put outcome.slot := by
        rw [routedDeeds, hassign]
        rfl
      rw [hdeeds]
      split
      next hkey => rw [hkey, hself, if_neg Bool.false_ne_true]
      next hkey => exact hother key hkey
  | true =>
      have hdeeds : (routedDeeds slots classified outcome readings).foldl enact slots =
          (slots.put outcome.slot).put (stamped outcome.slot readings.id.text) := by
        rw [routedDeeds, hassign, if_pos rfl, assignDeeds, h.storedAfter_eq harrival,
          ← List.append_assoc, List.foldl_append, foldl_enact_voidDeeds]
        rfl
      have hkeyStamped : (stamped outcome.slot readings.id.text).key = arrival.key := h.slot_key
      rw [hdeeds]
      split
      next hkey =>
        have hput := SlotTable.get_put_self (slots.put outcome.slot)
          (stamped outcome.slot readings.id.text)
        rw [hkeyStamped, hself] at hput
        rw [hkey, hput, if_pos rfl]
        exact congrArg some (stamped_over readings.id.text_ne_empty)
      next hkey =>
        rw [SlotTable.get_put_of_ne _ _ (hkeyStamped.symm ▸ hkey)]
        exact hother key hkey

/-- A non-empty arrival never empties a side. -/
theorem Routed.complete_of_slot (h : Routed machine slots accepted arrival outcome slot placed)
    (harrival : arrival.arrivalId ≠ "") (hcomplete : slot.complete = true) :
    placed.complete = true := by
  simp only [Slot.complete, Bool.and_eq_true, decide_eq_true_eq] at hcomplete ⊢
  rcases h.sides with ⟨_, rfl⟩ | ⟨_, rfl⟩
  · exact ⟨harrival, hcomplete.2⟩
  · exact ⟨hcomplete.1, harrival⟩

theorem Routed.agrees_waiting (h : Routed machine slots accepted arrival outcome slot placed)
    (harrival : arrival.arrivalId ≠ "") {log : List (Entry String)}
    {assigned : List BerthAssigned} (hfits : Fits slot log assigned)
    (hassign : outcome.assign = false) : Agrees outcome.slot log assigned := by
  have hplaced : placed.complete = false := h.assign_eq ▸ hassign
  have hwaiting : slot.state ≠ .stateAssigned := by
    intro hstate
    rw [h.complete_of_slot harrival (hfits.state.mp hstate)] at hplaced
    cases hplaced
  have hstate : outcome.slot.state = .statePartial := by
    rw [h.slot_eq, hplaced]
    rfl
  have hne : outcome.slot.state ≠ .stateAssigned := by
    rw [hstate]
    decide
  have hcomplete : outcome.slot.complete = false := by
    rw [h.slot_eq]
    exact hplaced
  obtain ⟨hnone, hid⟩ := hfits.silent hwaiting
  exact {
    state := ⟨fun h => absurd h hne, fun h => by rw [hcomplete] at h; cases h⟩
    log := hfits.log
    silent := fun _ => ⟨hnone, by rw [h.slot_eq, ← hid]; exact h.placed_assignmentId⟩
    last := fun h => absurd h hne
    waiting := fun _ => ⟨.inl hstate, by
      rw [h.slot_eq]
      rcases h.sides with ⟨_, rfl⟩ | ⟨_, rfl⟩
      · exact .inl harrival
      · exact .inr harrival⟩ }

theorem Routed.agrees_assigned (h : Routed machine slots accepted arrival outcome slot placed)
    {log : List (Entry String)} {assigned : List BerthAssigned}
    (hfits : Fits slot log assigned) (hassign : outcome.assign = true)
    (classified : ArrivalClassified) {id : String} (hid : id ≠ "") (time : Instant) :
    Agrees (stamped outcome.slot id) (log ++ successor outcome.supersedes id)
      (assigned ++ [berthAssignedOf classified outcome id time]) := by
  have hplaced : placed.complete = true := h.assign_eq ▸ hassign
  have hcomplete : (stamped outcome.slot id).complete = true := by
    rw [h.slot_eq]
    exact hplaced
  have hsupersedes := h.supersedes_eq
  rw [hplaced, Bool.true_and] at hsupersedes
  exact {
    state := ⟨fun _ => hcomplete, fun _ => rfl⟩
    log := by
      rw [List.map_append, List.map_singleton, chain_append, hfits.log]
      congr 1
      by_cases hstate : slot.state = .stateAssigned
      · obtain ⟨last, hlast, hlastId, hslotId, _⟩ := hfits.last hstate
        rw [List.getLast?_map, hlast, hsupersedes, if_pos (decide_eq_true hstate), hslotId,
          successor, if_neg hlastId]
        rfl
      · obtain ⟨hnone, _⟩ := hfits.silent hstate
        rw [hnone, hsupersedes, if_neg (by simpa using hstate), successor, if_pos rfl]
        rfl
    silent := fun hne => absurd rfl hne
    last := fun _ => ⟨_, List.getLast?_concat, hid, rfl, rfl, rfl⟩
    waiting := fun hne => absurd rfl hne }

end Routed

theorem Contract.routed {machine : Machine} {origin world : World} {count : Nat}
    {classified : ArrivalClassified} {outcome : Outcome} {slot placed : Slot}
    {readings : Readings} (h : Contract origin)
    (hrouted : Routed machine origin.state readings.accepted (arrivalOf classified) outcome slot
      placed)
    (harrival : classified.arrivalId ≠ "")
    (hworld : Reached origin count (routedDeeds origin.state classified outcome readings) world) :
    Contract world := by
  obtain ⟨expectation, hadmits⟩ := hrouted.admitted
  have haddressed := addressed_of_admits hadmits
  have hget := fun key => get_routedDeeds hrouted harrival classified readings key
  rw [← hworld.state] at hget
  have hfits : Fits slot (berthLog (arrivalOf classified).key.text origin.journal)
      (assignments (arrivalOf classified).key.text origin.journal) := by
    rcases hrouted.found with hfound | ⟨hnone, hfresh⟩
    · exact (h.stored _ _ hfound).toFits
    · obtain ⟨hlog, hassigned⟩ := h.unstored _ haddressed hnone
      rw [hlog, hassigned]
      exact hfresh.fits
  have hself := hget (arrivalOf classified).key
  rw [if_pos rfl] at hself
  refine h.update haddressed hself ?_ (fun other hne => by rw [hget, if_neg hne]) ?_
  · rw [hworld.journal, berthLog_append, assignments_append, berthLog_routedDeeds,
      assignments_routedDeeds, hrouted.slot_key]
    unfold settled
    cases hassign : outcome.assign with
    | false =>
        simpa using hrouted.agrees_waiting harrival hfits hassign
    | true =>
        simpa using hrouted.agrees_assigned hfits hassign classified readings.id.text_ne_empty
          readings.emitted
  · intro partition hne
    rw [hworld.journal, berthLog_append, assignments_append, berthLog_routedDeeds,
      assignments_routedDeeds, hrouted.slot_key]
    have hnot : ¬ (outcome.assign = true ∧ (arrivalOf classified).key.text = partition) :=
      fun hboth => hne hboth.2.symm
    rw [if_neg hnot, if_neg hnot, List.append_nil, List.append_nil]
    exact ⟨rfl, rfl⟩

theorem Contract.silent {origin world : World} {count : Nat} {done : List Deed}
    (h : Contract origin) (hsilent : Silent done) (hworld : Reached origin count done world) :
    Contract world := by
  have hstate : world.state = origin.state := hworld.state.trans (foldl_enact_silent hsilent)
  have hlog : ∀ partition, berthLog partition world.journal = berthLog partition origin.journal ∧
      assignments partition world.journal = assignments partition origin.journal := by
    intro partition
    rw [hworld.journal, berthLog_append, assignments_append, berthLog_silent partition hsilent,
      assignments_silent partition hsilent, List.append_nil, List.append_nil]
    exact ⟨rfl, rfl⟩
  constructor
  · intro key slot hslot
    exact h.addressed key slot (hstate ▸ hslot)
  · intro key slot hslot
    rw [(hlog key.text).1, (hlog key.text).2]
    exact h.stored key slot (hstate ▸ hslot)
  · intro key haddressed hnone
    rw [(hlog key.text).1, (hlog key.text).2]
    exact h.unstored key haddressed (hstate ▸ hnone)

/-- A turn on which nothing fails and whose arrival has a name. -/
def Faultless (turn : Turn) : Prop :=
  Steady turn.2 ∧
    ∀ classified, turn.1 = .handle (some classified) → classified.arrivalId ≠ ""

theorem Contract.advance {machine : Machine} {world : World} {turn : Turn} (h : Contract world)
    (hturn : Faultless turn) : Contract (advance machine world turn) := by
  obtain ⟨step, script⟩ := turn
  obtain ⟨hsteady, hnamed⟩ := hturn
  cases step with
  | sweep => exact h.sweeping (advance_sweep machine world script)
  | handle message =>
      obtain ⟨readings, count, _, hworld⟩ :=
        advance_handle_steady machine world message hsteady
      rcases handlePlan_cases machine world.state readings message with
        hsilent | ⟨classified, outcome, slot, placed, rfl, _, hrouted, hplan⟩
      · exact h.silent hsilent hworld
      · rw [hplan] at hworld
        exact h.routed hrouted (hnamed classified rfl) hworld

/-- The slot of a key is assigned. -/
def AssignedAt (key : Key) (world : World) : Prop :=
  ∃ slot, world.state.get key = some slot ∧ slot.state = .stateAssigned

theorem AssignedAt.sweeping {key : Key} {origin world : World} (h : AssignedAt key origin)
    (hsweep : Sweeping origin world) : AssignedAt key world := by
  obtain ⟨slot, hslot, hassigned⟩ := h
  obtain ⟨taken, hselected, hstate⟩ := hsweep.state
  rcases get_markDeeds hselected key with ⟨prior, hprior, rfl, _⟩ | ⟨_, hsame⟩
  · have hstored := hselected.stored prior hprior
    rw [hslot] at hstored
    cases hstored
    exact absurd hassigned (hselected.waiting slot hprior).1
  · exact ⟨slot, by rw [hstate, hsame, hslot], hassigned⟩

theorem AssignedAt.advance {machine : Machine} {key : Key} {world : World} {turn : Turn}
    (h : AssignedAt key world) (hcontract : Contract world) (hturn : Faultless turn) :
    AssignedAt key (advance machine world turn) := by
  obtain ⟨step, script⟩ := turn
  obtain ⟨hsteady, hnamed⟩ := hturn
  cases step with
  | sweep => exact h.sweeping (advance_sweep machine world script)
  | handle message =>
      obtain ⟨readings, count, _, hworld⟩ :=
        advance_handle_steady machine world message hsteady
      obtain ⟨slot, hslot, hassigned⟩ := h
      rcases handlePlan_cases machine world.state readings message with
        hsilent | ⟨classified, outcome, found, placed, rfl, _, hrouted, hplan⟩
      · exact ⟨slot, by rw [hworld.state, foldl_enact_silent hsilent, hslot], hassigned⟩
      · have hget := get_routedDeeds hrouted (hnamed classified rfl) classified readings key
        rw [hplan] at hworld
        rw [← hworld.state] at hget
        split at hget
        next hkey =>
          subst hkey
          refine ⟨_, hget, ?_⟩
          have hfound : found = slot := by
            rcases hrouted.found with hfound | ⟨hnone, _⟩
            · rw [hslot] at hfound
              exact (Option.some.inj hfound).symm
            · rw [hslot] at hnone
              cases hnone
          subst hfound
          have hcomplete := (hcontract.stored _ _ hslot).state.mp hassigned
          have hassign : outcome.assign = true := by
            rw [hrouted.assign_eq]
            exact hrouted.complete_of_slot (hnamed classified rfl) hcomplete
          rw [settled, if_pos hassign]
          rfl
        next => exact ⟨slot, hget.trans hslot, hassigned⟩

theorem contract_runAll (machine : Machine) {turns : List Turn}
    (hturns : ∀ turn ∈ turns, Faultless turn) : Contract (runAll machine World.initial turns) :=
  List.foldlRecOn turns (advance machine) contract_initial
    fun _ h turn hturn => h.advance (hturns turn hturn)

theorem assignedAt_runAll (machine : Machine) {turns : List Turn} {key : Key} {world : World}
    (hturns : ∀ turn ∈ turns, Faultless turn) (hcontract : Contract world)
    (h : AssignedAt key world) : AssignedAt key (runAll machine world turns) :=
  (List.foldlRecOn (motive := fun world => Contract world ∧ AssignedAt key world) turns
    (advance machine) ⟨hcontract, h⟩ fun _ h turn hturn =>
      ⟨h.1.advance (hturns turn hturn), h.2.advance h.1 (hturns turn hturn)⟩).2

/-- In a run without faults every slot is assigned exactly when it holds both
sides and stays so, a slot that waits holds exactly one, its berth messages are
a proper succession, and it carries the last assignment of that succession. -/
theorem slot_contract (machine : Machine) (turns more : List Turn)
    (hturns : ∀ turn ∈ turns ++ more, Faultless turn) (key : Key) (slot : Slot)
    (hslot : (runAll machine World.initial turns).state.get key = some slot) :
    let journal := (runAll machine World.initial turns).journal
    let assigned := assignments key.text journal
    (slot.state = .stateAssigned ↔ slot.side1Arrival ≠ "" ∧ slot.side2Arrival ≠ "") ∧
    (slot.state = .stateAssigned → ∃ later,
      (runAll machine World.initial (turns ++ more)).state.get key = some later ∧
        later.state = .stateAssigned) ∧
    (slot.state = .statePartial ∨ slot.state = .stateMissing →
      slot.side1Arrival ≠ "" ∧ slot.side2Arrival = "" ∨
        slot.side1Arrival = "" ∧ slot.side2Arrival ≠ "") ∧
    berthLog key.text journal = chain (assigned.map BerthAssigned.assignmentId) ∧
    slot.assignmentId = ((assigned.map BerthAssigned.assignmentId).getLast?).getD "" ∧
    ∀ last, assigned.getLast? = some last →
      last.side1.arrivalId = slot.side1Arrival ∧ last.side2.arrivalId = slot.side2Arrival := by
  intro journal assigned
  have hbefore : ∀ turn ∈ turns, Faultless turn :=
    fun turn hturn => hturns turn (List.mem_append_left _ hturn)
  have hafter : ∀ turn ∈ more, Faultless turn :=
    fun turn hturn => hturns turn (List.mem_append_right _ hturn)
  have hcontract := contract_runAll machine hbefore
  have hagrees := hcontract.stored key slot hslot
  have hcomplete : slot.complete = true ↔ slot.side1Arrival ≠ "" ∧ slot.side2Arrival ≠ "" := by
    simp [Slot.complete]
  refine ⟨hagrees.state.trans hcomplete, ?_, ?_, hagrees.log, ?_, ?_⟩
  · intro hstate
    rw [runAll, List.foldl_append]
    exact assignedAt_runAll machine hafter hcontract ⟨slot, hslot, hstate⟩
  · intro hstate
    have hne : slot.state ≠ .stateAssigned := by
      rcases hstate with hstate | hstate <;> rw [hstate] <;> decide
    have hincomplete := mt hagrees.state.mpr hne
    rw [hcomplete] at hincomplete
    have hside := (hagrees.waiting hne).2
    tauto
  · by_cases hstate : slot.state = .stateAssigned
    · obtain ⟨last, hlast, _, hid, _⟩ := hagrees.last hstate
      rw [List.getLast?_map, hlast, hid]
      rfl
    · obtain ⟨hnone, hid⟩ := hagrees.silent hstate
      rw [show assigned = [] from hnone, hid]
      rfl
  · intro last hlast
    by_cases hstate : slot.state = .stateAssigned
    · obtain ⟨last', hlast', _, _, hside1, hside2⟩ := hagrees.last hstate
      rw [show assigned.getLast? = some last' from hlast'] at hlast
      cases hlast
      exact ⟨hside1, hside2⟩
    · obtain ⟨hnone, _⟩ := hagrees.silent hstate
      rw [show assigned = [] from hnone] at hlast
      cases hlast

/-- Both sides and then a correction of the first. -/
def correctedTurns : List Turn :=
  [(.handle (some (sampleArrival "A1" .internalGl)), sampleScript sampleIdA),
    (.handle (some (sampleArrival "A2" .externalClient)), sampleScript sampleIdA),
    (.handle (some (sampleArrival "A3" .internalGl)), sampleScript sampleIdB),
    (.sweep, sampleScript sampleIdB)]

theorem faultless_corrected : ∀ turn ∈ correctedTurns, Faultless turn := by
  simp only [correctedTurns, List.mem_cons, List.not_mem_nil, or_false, forall_eq_or_imp,
    forall_eq]
  have hnamed : ∀ arrivalId side, arrivalId ≠ "" → ∀ classified,
      Step.handle (some (sampleArrival arrivalId side)) = .handle (some classified) →
      classified.arrivalId ≠ "" := by
    rintro arrivalId side hne classified hmessage
    cases hmessage
    exact hne
  exact ⟨⟨sampleScript_steady _, hnamed _ _ (by decide)⟩,
    ⟨sampleScript_steady _, hnamed _ _ (by decide)⟩,
    ⟨sampleScript_steady _, hnamed _ _ (by decide)⟩,
    sampleScript_steady _, fun _ hmessage => by cases hmessage⟩

theorem slot_contract_corrected :
    let world := runAll sampleMachine World.initial correctedTurns
    ∃ slot, world.state.get sampleKey = some slot ∧ slot.assignmentId = sampleIdB.text ∧
      berthLog sampleKey.text world.journal = chain [sampleIdA.text, sampleIdB.text] := by
  intro world
  have hassigned : (assignments sampleKey.text world.journal).map BerthAssigned.assignmentId =
      [sampleIdA.text, sampleIdB.text] := by
    decide +kernel
  obtain ⟨slot, hslot⟩ : ∃ slot, world.state.get sampleKey = some slot :=
    Option.isSome_iff_exists.mp (by decide +kernel)
  have hcontract := slot_contract sampleMachine correctedTurns [] (by
    rw [List.append_nil]
    exact faultless_corrected) sampleKey slot hslot
  refine ⟨slot, hslot, ?_, ?_⟩
  · exact hcontract.2.2.2.2.1.trans (by rw [hassigned]; rfl)
  · exact hcontract.2.2.2.1.trans (by rw [hassigned])

end Harbormaster.Berthmaster
