import Harbormaster.Berthmaster.Sweep

/-! # Runs of the service

A run executes deliveries and sweeps one at a time. Each has its own script, so
it may fail or be stopped at any call; a redelivery is one more delivery of the
same message.
-/

namespace Harbormaster.Berthmaster

open Effect Program

inductive Step where
  | handle (message : Option ArrivalClassified)
  | sweep
deriving DecidableEq

def Step.program (machine : Machine) : Step → Service Unit
  | .handle message => Berthmaster.handle machine message
  | .sweep => Berthmaster.sweep

/-- A step and the choices of its surroundings. -/
abbrev Turn := Step × Script Choice

variable (machine : Machine)

def execute (world : World) (turn : Turn) : World × Ending Failure Unit :=
  (turn.1.program machine).run perform turn.2 world

def advance (world : World) (turn : Turn) : World := (execute machine world turn).1

def runAll (world : World) (turns : List Turn) : World := turns.foldl (advance machine) world

/-- No component fails and nothing stops the step. -/
def Steady (script : Script Choice) : Prop := ∀ index, GoodAt script index

theorem Steady.not_faulty {script : Script Choice} (hsteady : Steady script) :
    ¬ Faulty script := by
  rintro ⟨index, choice, hchoice, hbad⟩
  exact FaultAt.not_good ⟨choice, hchoice, hbad⟩ (hsteady index)

theorem Steady.isSome {script : Script Choice} (hsteady : Steady script) (index : Nat) :
    (script index).isSome := by
  obtain ⟨choice, hchoice, _⟩ := hsteady index
  rw [hchoice]
  rfl

section Turns

variable (world : World) (script : Script Choice)

variable {machine world script} in
theorem execute_endsIn {step : Step} {during : World → Prop}
    {after : World → Except Failure Unit → Prop}
    (hspec : (step.program machine).Spec perform (Scripted script world) during after world) :
    EndsIn during after (execute machine world (step, script)) :=
  hspec.run (obeys_scripted _ script world)

variable {machine world script} in
/-- A steady step comes to its own end. -/
theorem execute_of_steady {step : Step} {during : World → Prop}
    {after : World → Except Failure Unit → Prop}
    (hspec : (step.program machine).Spec perform (Scripted script world) during after world)
    (hsteady : Steady script) : ∃ result, after (advance machine world (step, script)) result := by
  rcases (execute_endsIn hspec).cases with ⟨hstopped, _⟩ | hafter
  · exact absurd hstopped (run_ends _ hsteady.isSome world)
  · exact hafter

/-- However it ends, a delivery has performed a prefix of its plan. -/
theorem advance_handle (message : Option ArrivalClassified) :
    Underway script world (fun readings => handlePlan machine world.state readings message)
      (advance machine world (.handle message, script)) := by
  have hspec : (Step.program machine (.handle message)).Spec perform (Scripted script world)
      _ _ world := handle_spec machine message
  rcases (execute_endsIn hspec).cases with ⟨_, hunderway⟩ | ⟨result, hfinished⟩
  · exact hunderway
  · rcases hfinished with ⟨readings, count, hclock, hworld, _⟩ | ⟨hunderway, _⟩
    · exact ⟨readings, count, _, hclock, hworld, List.prefix_rfl⟩
    · exact hunderway

/-- A delivery adds at most audit entries, or a part of what a routed arrival does. -/
theorem advance_handle_cases (message : Option ArrivalClassified) :
    ∃ count done, Reached world count done (advance machine world (.handle message, script)) ∧
      (Silent done ∨ ∃ classified outcome slot placed readings, message = some classified ∧
        Routed machine world.state readings.accepted (arrivalOf classified) outcome slot placed ∧
        done <+: routedDeeds world.state classified outcome readings) := by
  obtain ⟨readings, count, done, _, hworld, hdone⟩ := advance_handle machine world script message
  refine ⟨count, done, hworld, ?_⟩
  rcases handlePlan_cases machine world.state readings message with
    hsilent | ⟨classified, outcome, slot, placed, hmessage, _, hrouted, hplan⟩
  · exact .inl fun deed hdeed => hsilent deed (hdone.subset hdeed)
  · rw [hplan] at hdone
    exact .inr ⟨classified, outcome, slot, placed, readings, hmessage, hrouted, hdone⟩

variable {script} in
/-- A steady delivery performs its whole plan. -/
theorem advance_handle_steady (message : Option ArrivalClassified) (hsteady : Steady script) :
    ∃ readings count, FirstClock script readings.accepted ∧
      Reached world count (handlePlan machine world.state readings message).1
        (advance machine world (.handle message, script)) := by
  have hspec : (Step.program machine (.handle message)).Spec perform (Scripted script world)
      _ _ world := handle_spec machine message
  obtain ⟨result, hfinished⟩ := execute_of_steady hspec hsteady
  rcases hfinished with ⟨readings, count, hclock, hworld, _⟩ | ⟨_, hfaulty, _⟩
  · exact ⟨readings, count, hclock, hworld⟩
  · exact absurd hfaulty hsteady.not_faulty

variable {world script} in
theorem SweepEnd.sweeping {world' : World} {result : Except Failure Unit}
    (h : SweepEnd script world world' result) : Sweeping world world' := by
  cases h with
  | unread hfault hworld =>
      exact ⟨[], 2, 0, fun _ => 0, ⟨by simp, by simp, List.nodup_nil⟩, .inl hworld⟩
  | unmarked hfirst hsecond hread hdue hindex hfault hearlier hworld =>
      exact ⟨_, _, _, fun _ => 0, selected_dueBefore hdue, .inl hworld⟩
  | unpublished hfirst hsecond hread hdue hmarked hindex hfault hworld =>
      exact ⟨_, _, _, _, selected_dueBefore hdue, .inr hworld⟩
  | @complete _ _ due times hfirst hsecond hread hdue hmarked halerted hworld =>
      refine ⟨due, 2 + due.length + 2 * due.length, due.length, times, selected_dueBefore hdue,
        .inr ?_⟩
      rw [List.take_length]
      exact hworld

/-- However it ends, a sweep has marked and alerted a part of a selection. -/
theorem advance_sweep : Sweeping world (advance machine world (.sweep, script)) := by
  have hspec : (Step.program machine .sweep).Spec perform (Scripted script world) _ _ world :=
    sweep_spec
  rcases (execute_endsIn hspec).cases with ⟨_, hsweeping⟩ | ⟨result, hend⟩
  · exact hsweeping
  · exact hend.sweeping

end Turns

/-! ## Berth messages

What the deeds of a step add to the succession on one partition. -/

/-- The instructions of an assignment that supersedes another, if it does. -/
def successor (supersedes id : String) : List (Succession.Entry String) :=
  if supersedes = "" then [.issue id none]
  else [.void supersedes, .issue id (some supersedes)]

section BerthLog

variable (partition : String)

@[simp] theorem berthLog_nil : berthLog partition [] = [] := rfl

@[simp] theorem berthLog_append (journal rest : List Deed) :
    berthLog partition (journal ++ rest) = berthLog partition journal ++ berthLog partition rest :=
  List.filterMap_append

@[simp] theorem berthLog_stored (slot : Slot) (journal : List Deed) :
    berthLog partition (.stored slot :: journal) = berthLog partition journal := rfl

@[simp] theorem berthLog_audited (entry : AuditEntry) (journal : List Deed) :
    berthLog partition (.audited entry :: journal) = berthLog partition journal := rfl

@[simp] theorem berthLog_alert (slot : Slot) (time : Instant) (journal : List Deed) :
    berthLog partition (.published (alertMessage slot time) :: journal) =
      berthLog partition journal := by
  unfold berthLog
  rw [List.filterMap_cons_none]
  exact ite_self none

theorem berthLog_assignDeeds (classified : ArrivalClassified) (outcome : Outcome)
    (stored : Slot) (readings : Readings) :
    berthLog partition (assignDeeds classified outcome stored readings) =
      if outcome.slot.key.text = partition then
        successor outcome.supersedes readings.id.text
      else [] := by
  by_cases hkey : outcome.slot.key.text = partition <;>
    by_cases hsupersedes : outcome.supersedes = "" <;>
    simp [berthLog, assignDeeds, voidDeeds, voidMessage, assignedMessage, berthAssignedOf,
      Deed.berth?, successor, hkey, hsupersedes]

theorem berthLog_routedDeeds (slots : SlotTable) (classified : ArrivalClassified)
    (outcome : Outcome) (readings : Readings) :
    berthLog partition (routedDeeds slots classified outcome readings) =
      if outcome.assign = true ∧ outcome.slot.key.text = partition then
        successor outcome.supersedes readings.id.text
      else [] := by
  rw [routedDeeds, berthLog_append]
  cases hassign : outcome.assign with
  | false => simp
  | true => simp [berthLog_assignDeeds]

theorem berthLog_markDeeds (due : List Slot) : berthLog partition (markDeeds due) = [] := by
  induction due with
  | nil => rfl
  | cons slot rest ih => exact ih

theorem berthLog_alertDeeds (due : List Slot) (times : Nat → Instant) :
    berthLog partition (alertDeeds due times) = [] := by
  induction due generalizing times with
  | nil => rfl
  | cons slot rest ih =>
      rw [alertDeeds, berthLog_alert]
      exact ih _

@[simp] theorem assignments_nil : assignments partition [] = [] := rfl

@[simp] theorem assignments_append (journal rest : List Deed) :
    assignments partition (journal ++ rest) =
      assignments partition journal ++ assignments partition rest :=
  List.filterMap_append

@[simp] theorem assignments_stored (slot : Slot) (journal : List Deed) :
    assignments partition (.stored slot :: journal) = assignments partition journal := rfl

@[simp] theorem assignments_audited (entry : AuditEntry) (journal : List Deed) :
    assignments partition (.audited entry :: journal) = assignments partition journal := rfl

@[simp] theorem assignments_alert (slot : Slot) (time : Instant) (journal : List Deed) :
    assignments partition (.published (alertMessage slot time) :: journal) =
      assignments partition journal := rfl

theorem assignments_routedDeeds (slots : SlotTable) (classified : ArrivalClassified)
    (outcome : Outcome) (readings : Readings) :
    assignments partition (routedDeeds slots classified outcome readings) =
      if outcome.assign = true ∧ outcome.slot.key.text = partition then
        [berthAssignedOf classified outcome readings.id.text readings.emitted]
      else [] := by
  cases hassign : outcome.assign <;> by_cases hkey : outcome.slot.key.text = partition <;>
    by_cases hsupersedes : outcome.supersedes = "" <;>
    simp [assignments, routedDeeds, assignDeeds, voidDeeds, voidMessage, assignedMessage, hassign,
      hkey, hsupersedes]

theorem assignments_markDeeds (due : List Slot) : assignments partition (markDeeds due) = [] := by
  induction due with
  | nil => rfl
  | cons slot rest ih => exact ih

theorem assignments_alertDeeds (due : List Slot) (times : Nat → Instant) :
    assignments partition (alertDeeds due times) = [] := by
  induction due generalizing times with
  | nil => rfl
  | cons slot rest ih => exact ih _

/-- A sweep publishes no berth message. -/
theorem berthLog_sweeping {origin world : World} (h : Sweeping origin world) :
    berthLog partition world.journal = berthLog partition origin.journal := by
  obtain ⟨due, count, index, times, _, hworld | hworld⟩ := h
  · rw [hworld.journal, berthLog_append, berthLog_markDeeds, List.append_nil]
  · rw [hworld.journal, berthLog_append, berthLog_append, berthLog_markDeeds,
      berthLog_alertDeeds, List.append_nil, List.append_nil]

theorem assignments_sweeping {origin world : World} (h : Sweeping origin world) :
    assignments partition world.journal = assignments partition origin.journal := by
  obtain ⟨due, count, index, times, _, hworld | hworld⟩ := h
  · rw [hworld.journal, assignments_append, assignments_markDeeds, List.append_nil]
  · rw [hworld.journal, assignments_append, assignments_append, assignments_markDeeds,
      assignments_alertDeeds, List.append_nil, List.append_nil]

theorem berthLog_mono {journal journal' : List Deed} (h : journal <+: journal') :
    berthLog partition journal <+: berthLog partition journal' := by
  obtain ⟨rest, rfl⟩ := h
  rw [berthLog_append]
  exact List.prefix_append _ _

theorem berthLog_silent {deeds : List Deed} (h : Silent deeds) : berthLog partition deeds = [] := by
  induction deeds with
  | nil => rfl
  | cons deed rest ih =>
      obtain ⟨entry, rfl⟩ := h deed List.mem_cons_self
      exact ih fun later hlater => h later (List.mem_cons_of_mem _ hlater)

theorem assignments_silent {deeds : List Deed} (h : Silent deeds) :
    assignments partition deeds = [] := by
  induction deeds with
  | nil => rfl
  | cons deed rest ih =>
      obtain ⟨entry, rfl⟩ := h deed List.mem_cons_self
      exact ih fun later hlater => h later (List.mem_cons_of_mem _ hlater)

/-- The berth messages of a handled message: none, or those of one assignment. -/
theorem berthLog_handlePlan (machine : Machine) (slots : SlotTable) (readings : Readings)
    (message : Option ArrivalClassified) :
    berthLog partition (handlePlan machine slots readings message).1 = [] ∨
      ∃ classified outcome slot placed, message = some classified ∧
        classified.disposition = .dispatched ∧
        Routed machine slots readings.accepted (arrivalOf classified) outcome slot placed ∧
        outcome.assign = true ∧ outcome.slot.key.text = partition ∧
        berthLog partition (handlePlan machine slots readings message).1 =
          successor outcome.supersedes readings.id.text := by
  rcases handlePlan_cases machine slots readings message with
    hsilent | ⟨classified, outcome, slot, placed, rfl, hdispatched, hrouted, hplan⟩
  · exact .inl (berthLog_silent partition hsilent)
  · rw [hplan, berthLog_routedDeeds]
    split
    next hwhen =>
      exact .inr ⟨classified, outcome, slot, placed, rfl, hdispatched, hrouted, hwhen.1, hwhen.2,
        rfl⟩
    next => exact .inl rfl

end BerthLog

/-! ## A sample configuration

One client on a plain New York calendar, for the executions shown with the
results below. -/

def sampleExpectation : Expectation := { id := "CLNT001-TRADE", domain := "TRADE" }

def sampleClient : Client :=
  { clientId := "CLNT001", calendar := "US_EQUITY", expectations := [sampleExpectation] }

def sampleMachine : Machine :=
  newMachine { clients := [sampleClient], calendars := [{ calendarId := "US_EQUITY" }] } 2

def sampleKey : Key := ⟨"CLNT001", "TRADE", "2026-08-28"⟩

def sampleArrival (arrivalId : String) (reconSide : ReconSide) : ArrivalClassified where
  arrivalId := arrivalId
  clientId := "CLNT001"
  domain := .trade
  reconSide := reconSide
  valueDate := { resolved := "2026-08-28" }
  disposition := .dispatched

def sampleIdA : Ulid := ⟨"01J6C0000000000000000000AA", by decide⟩
def sampleIdB : Ulid := ⟨"01J6C0000000000000000000BB", by decide⟩

/-- The value date's own noon. -/
def sampleClock : Instant := Day.midnight 739856 + microsPerDay / 2

/-- A script on which nothing fails. -/
def sampleScript (id : Ulid) : Script Choice := fun _ => some { clock := sampleClock, id }

theorem sampleScript_steady (id : Ulid) : Steady (sampleScript id) := fun _ => ⟨_, rfl, rfl⟩

end Harbormaster.Berthmaster
