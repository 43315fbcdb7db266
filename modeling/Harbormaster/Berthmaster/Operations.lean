import Harbormaster.Berthmaster.Run

/-! # The operations of the state machine

Runs of `Apply`, `RecordAssignment` and `Overdue` one after another, on which no
component fails. What one operation does is said once, as a transition of the
slot table, and every result on whole runs rests on it.
-/

namespace Harbormaster.Berthmaster

open Effect Program

inductive Operation where
  | apply (arrival : Arrival)
  | recordAssignment (key : Key) (assignmentId : String)
  | overdue
deriving DecidableEq

/-- What an operation returns. -/
inductive Answer where
  | applied (outcome : Outcome)
  | recorded
  | overdue (slots : List Slot)
deriving DecidableEq

def Operation.program (machine : Machine) : Operation → Service Answer
  | .apply arrival => do return .applied (← machine.apply arrival)
  | .recordAssignment key assignmentId => do
      Machine.recordAssignment key assignmentId
      return .recorded
  | .overdue => do return .overdue (← Machine.overdue)

/-- An operation and the choices of its surroundings, in which nothing fails. -/
structure Move where
  operation : Operation
  choices : Nat → Choice
  calm : ∀ index, (choices index).fault = false

namespace Move

variable (move : Move)

def script : Script Choice := fun index => some (move.choices index)

/-- The first reading of the clock. -/
def clock : Instant := (move.choices 0).clock

theorem steady : Steady move.script := fun index => ⟨_, rfl, move.calm index⟩

end Move

/-- An operation in surroundings whose clock stands still. -/
def calmMove (operation : Operation) (clock : Instant) : Move where
  operation := operation
  choices := fun _ => { clock, id := default }
  calm := fun _ => rfl

/-- The surroundings, and what each operation returned. -/
structure Session where
  world : World
  answers : List (Operation × Ending Failure Answer)

def Session.initial : Session := ⟨World.initial, []⟩

variable (machine : Machine)

def execution (world : World) (move : Move) : World × Ending Failure Answer :=
  (move.operation.program machine).run perform move.script world

def Session.step (session : Session) (move : Move) : Session where
  world := (execution machine session.world move).1
  answers := session.answers ++ [(move.operation, (execution machine session.world move).2)]

def Session.run (session : Session) (moves : List Move) : Session :=
  moves.foldl (Session.step machine) session

/-! ## What one operation does -/

/-- What an operation does to the slot table, and what it returns. -/
inductive Transition (slots : SlotTable) (clock : Instant) :
    Operation → SlotTable → Ending Failure Answer → Prop where
  | routed {arrival : Arrival} {outcome : Outcome} (opened : Instant)
      (hroute : machine.route slots clock opened arrival = .ok outcome) :
      Transition slots clock (.apply arrival) (slots.put outcome.slot) (.value (.applied outcome))
  | refused {arrival : Arrival} {cause : SlotError} (opened : Instant)
      (hroute : machine.route slots clock opened arrival = .error cause) :
      Transition slots clock (.apply arrival) slots (.error (.slot cause))
  | unknown {key : Key} {assignmentId : String} (hnone : slots.get key = none) :
      Transition slots clock (.recordAssignment key assignmentId) slots
        (.error (.slot (.notFound key)))
  | recorded {key : Key} {assignmentId : String} {slot : Slot}
      (hslot : slots.get key = some slot) :
      Transition slots clock (.recordAssignment key assignmentId)
        (slots.put (stamped slot assignmentId)) (.value .recorded)
  | swept {due : List Slot} (hselected : Selected slots due)
      (hdue : ∀ slot ∈ due, slot.deadline < clock) :
      Transition slots clock .overdue ((markDeeds due).foldl enact slots)
        (.value (.overdue (due.map marked)))

/-- The ending of a program that is not stopped. -/
def endingOf {α : Type} : Except Failure α → Ending Failure α
  | .ok result => .value result
  | .error cause => .error cause

section Specs

variable {machine} {script : Script Choice} {origin : World}

theorem Steady.not_fault_at (hsteady : Steady script) {index : Nat} {choice : Choice}
    (hturn : script index = some choice) : choice.fault ≠ true := by
  intro hbad
  exact hsteady.not_faulty ⟨index, choice, hturn, hbad⟩

theorem recordAssignment_transition (hsteady : Steady script) (clock : Instant) (key : Key)
    (assignmentId : String) :
    ((Operation.recordAssignment key assignmentId).program machine).Spec perform
      (Scripted script origin) (fun _ => True) (fun world result =>
        Transition machine origin.state clock (.recordAssignment key assignmentId) world.state
          (endingOf result)) origin := by
  refine Spec.bind (Spec.bind (storeGet_spec (Reached.origin origin) trivial ?_ ?_))
  · intro choice world hturn hbad _
    exact absurd hbad (hsteady.not_fault_at hturn)
  intro choice world hturn hgood hworld
  dsimp only [List.foldl_nil]
  cases hstored : origin.state.get key with
  | none =>
      change Transition machine _ _ _ world.state _
      rw [hworld.state]
      exact .unknown hstored
  | some slot =>
      refine storeUpsert_spec hworld trivial ?_ ?_
      · intro choice' world' hturn' hbad _
        exact absurd hbad (hsteady.not_fault_at hturn')
      · intro choice' world' hturn' _ hworld'
        change Transition machine _ _ _ world'.state _
        rw [hworld'.state]
        exact .recorded hstored

theorem apply_transition (hsteady : Steady script) {clock : Instant}
    (hclock : ∀ accepted, FirstClock script accepted → accepted = clock) (arrival : Arrival) :
    ((Operation.apply arrival).program machine).Spec perform (Scripted script origin)
      (fun _ => True) (fun world result =>
        Transition machine origin.state clock (.apply arrival) world.state (endingOf result))
      origin := by
  refine Spec.bind (apply_spec machine arrival (fun _ _ _ => trivial) ?_ ?_ ?_)
  · intro world count _ hfaulty
    exact absurd hfaulty hsteady.not_faulty
  · intro world count accepted opened cause hfirst hroute hworld
    rw [hclock accepted hfirst] at hroute
    change Transition machine _ _ _ world.state _
    rw [hworld.state]
    exact .refused opened hroute
  · intro world count accepted opened outcome hfirst hroute hworld
    rw [hclock accepted hfirst] at hroute
    change Transition machine _ _ _ world.state _
    rw [hworld.state]
    exact .routed opened hroute

theorem overdue_transition (hsteady : Steady script) {clock : Instant}
    (hclock : ∀ choice, script 0 = some choice → choice.clock = clock) :
    (Operation.overdue.program machine).Spec perform (Scripted script origin) (fun _ => True)
      (fun world result =>
        Transition machine origin.state clock .overdue world.state (endingOf result)) origin := by
  refine Spec.bind (Spec.bind (now_spec (Reached.origin origin) trivial
    fun first world1 hfirst h1 => ?_))
  refine Spec.bind (storeDueBefore_spec h1 trivial ?_ ?_)
  · intro choice world hturn hbad _
    exact absurd hbad (hsteady.not_fault_at hturn)
  intro second world2 hsecond _ h2
  obtain ⟨due, hdue⟩ : ∃ due, due = second.arrange.1 (origin.state.dueBefore first.clock) :=
    ⟨_, rfl⟩
  have hselected : Selected origin.state due := selected_dueBefore hdue
  have hpast : ∀ slot ∈ due, slot.deadline < clock := by
    intro slot hslot
    have hmem : slot ∈ origin.state.dueBefore first.clock :=
      (second.arrange.2 _).mem_iff.mp (hdue ▸ hslot)
    rw [← hclock first hfirst]
    exact ((SlotTable.mem_dueBefore _).mp hmem).2.1
  change (Machine.markMissing (second.arrange.1 (origin.state.dueBefore first.clock))).Spec
    _ _ _ _ _
  rw [← hdue]
  refine markMissing_spec h2 hselected.waiting (fun _ _ _ _ => trivial) ?_ ?_
  · intro world index _ hfault
    exact absurd hfault fun h => h.not_good (hsteady _)
  · intro world3 _ h3
    change Transition machine _ _ _ world3.state _
    rw [h3.state]
    exact .swept hselected hpast

end Specs

/-- Every operation of a run is a transition of the slot table. -/
theorem transition (session : Session) (move : Move) :
    Transition machine session.world.state move.clock move.operation
      (session.step machine move).world.state (execution machine session.world move).2 := by
  have hspec : (move.operation.program machine).Spec perform
      (Scripted move.script session.world) (fun _ => True) (fun world result =>
        Transition machine session.world.state move.clock move.operation world.state
          (endingOf result)) session.world := by
    cases move.operation with
    | apply arrival =>
        exact apply_transition move.steady (fun accepted h => h _ rfl) arrival
    | recordAssignment key assignmentId =>
        exact recordAssignment_transition move.steady move.clock key assignmentId
    | overdue =>
        refine overdue_transition move.steady fun choice h => ?_
        cases h
        rfl
  have hends := hspec.run (obeys_scripted _ move.script session.world)
  have hturns : ∀ index, (move.script index).isSome := fun _ => rfl
  have hstopped : (execution machine session.world move).2 ≠ .stopped :=
    run_ends _ hturns session.world
  change EndsIn _ _ (execution machine session.world move) at hends
  change Transition machine _ _ _ (execution machine session.world move).1.state _
  generalize execution machine session.world move = result at hends hstopped ⊢
  obtain ⟨world, ending⟩ := result
  cases ending with
  | value value => exact hends
  | error cause => exact hends
  | stopped => exact absurd rfl hstopped

/-- An arrival that was applied was routed to its slot. -/
theorem routed_of_execution {session : Session} {move : Move} {arrival : Arrival}
    {outcome : Outcome} (hmove : move.operation = .apply arrival)
    (hanswer : (execution machine session.world move).2 = .value (.applied outcome)) :
    (∃ slot placed, Routed machine session.world.state move.clock arrival outcome slot placed) ∧
      (session.step machine move).world.state = session.world.state.put outcome.slot := by
  have htransition := transition machine session move
  rw [hmove, hanswer] at htransition
  generalize (session.step machine move).world.state = slots at htransition ⊢
  cases htransition with
  | routed opened hroute => exact ⟨routed_of_route hroute, rfl⟩

/-- An admitted arrival on a known side is applied. -/
theorem applied_of_admits {session : Session} {move : Move} {arrival : Arrival}
    {expectation : Expectation} (hmove : move.operation = .apply arrival)
    (hadmits : machine.admits move.clock arrival = .ok expectation)
    (hside : arrival.side = sideInternalGl ∨ arrival.side = sideExternalClient) :
    ∃ outcome, (execution machine session.world move).2 = .value (.applied outcome) := by
  have htransition := transition machine session move
  rw [hmove] at htransition
  generalize (execution machine session.world move).2 = ending at htransition ⊢
  generalize (session.step machine move).world.state = slots at htransition
  cases htransition with
  | routed opened hroute => exact ⟨_, rfl⟩
  | refused opened hroute =>
      have hunknown := unknownSide_of_route hadmits hroute
      rcases hside with hside | hside
      · exact absurd hside hunknown.1
      · exact absurd hside hunknown.2

/-! ## What was answered -/

/-- The arrivals that were accepted, in order. -/
def accepted (answers : List (Operation × Ending Failure Answer)) : List Arrival :=
  answers.filterMap fun
    | (.apply arrival, .value (.applied _)) => some arrival
    | _ => none

/-- The keys of the slots that were returned as overdue, in order. -/
def reported (answers : List (Operation × Ending Failure Answer)) : List Key :=
  answers.flatMap fun
    | (.overdue, .value (.overdue slots)) => slots.map Slot.key
    | _ => []

@[simp] theorem accepted_nil : accepted [] = [] := rfl

@[simp] theorem reported_nil : reported [] = [] := rfl

@[simp] theorem accepted_append (answers rest : List (Operation × Ending Failure Answer)) :
    accepted (answers ++ rest) = accepted answers ++ accepted rest := List.filterMap_append

@[simp] theorem reported_append (answers rest : List (Operation × Ending Failure Answer)) :
    reported (answers ++ rest) = reported answers ++ reported rest := List.flatMap_append

@[simp] theorem Session.step_answers (session : Session) (move : Move) :
    (session.step machine move).answers =
      session.answers ++ [(move.operation, (execution machine session.world move).2)] := rfl

end Harbormaster.Berthmaster
