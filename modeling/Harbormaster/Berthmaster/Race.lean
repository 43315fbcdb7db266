import Harbormaster.Berthmaster.Window
import Harbormaster.Foundation.Interleaving

/-! # The sweep against the handler

The handler and the sweep run in two goroutines over one store. Each keeps its
pact as long as the handler assigns no slot of the sweep's window: the sweep
relies on the sides of a slot never being lost, and the handler on the sweep
leaving the sides as they are.
-/

namespace Harbormaster.Berthmaster

open Effect Program

/-- The consumer: it handles one message after another. -/
def handler (machine : Machine) : List (Option ArrivalClassified) → Service Unit
  | [] => return ()
  | message :: rest => do
      let _ : Except Failure Unit ← (handle machine message).attempt
      handler machine rest

/-- The sweep loop, for a number of ticks. -/
def sweeper : Nat → Service Unit
  | 0 => return ()
  | count + 1 => do
      let _ : Except Failure Unit ← sweep.attempt
      sweeper count

inductive Party where
  | handler | sweeper
deriving DecidableEq, Repr

def parties (machine : Machine) (messages : List (Option ArrivalClassified)) (sweeps : Nat) :
    Pool Party Call Reply Failure Unit
  | .handler => handler machine messages
  | .sweeper => sweeper sweeps

/-- The call assigns no slot of the window, and writes no unassigned state over
a slot stored with both sides. -/
def Undisturbed (world : World) (choice : Choice) : Call → Prop
  | .upsert slot => choice.fault = false →
      (slot.state = .stateAssigned → slot.key ∉ world.window) ∧
      (slot.state ≠ .stateAssigned → ∀ stored, world.state.get slot.key = some stored →
        stored.complete = false)
  | _ => True

/-- The sweep is free to do anything. -/
def Courteous : Party → World → Choice → Call → Prop
  | .handler => Undisturbed
  | .sweeper => fun _ _ _ => True

instance (world : World) (choice : Choice) (request : Call) :
    Decidable (Undisturbed world choice request) :=
  match request with
  | .upsert slot =>
      have : Decidable (∀ stored, world.state.get slot.key = some stored →
          stored.complete = false) :=
        match world.state.get slot.key with
        | none => .isTrue fun _ h => by cases h
        | some stored => decidable_of_iff (stored.complete = false) (by simp)
      (inferInstance : Decidable (choice.fault = false →
        (slot.state = .stateAssigned → slot.key ∉ world.window) ∧
        (slot.state ≠ .stateAssigned → ∀ stored, world.state.get slot.key = some stored →
          stored.complete = false)))
  | .now | .newId | .get _ | .dueBefore _ | .append _ | .publish _ => .isTrue trivial

instance (who : Party) (world : World) (choice : Choice) (request : Call) :
    Decidable (Courteous who world choice request) :=
  match who with
  | .handler => inferInstanceAs (Decidable (Undisturbed world choice request))
  | .sweeper => .isTrue trivial

/-- A value satisfies `post`; nothing is said of an error. -/
def Ensures {α : Type} (post : World → α → Prop) : World → Except Failure α → Prop
  | world, .ok value => post world value
  | _, .error _ => True

abbrev HandlerKeeps {α : Type} (post : World → α → Prop) (program : Service α) (world : World) :
    Prop :=
  program.Keeps perform Guarded SameSides Grows Undisturbed (Ensures post) world

abbrev SweeperKeeps {α : Type} (post : World → α → Prop) (program : Service α) (world : World) :
    Prop :=
  program.Keeps perform Guarded Grows SameSides (fun _ _ _ => True) (Ensures post) world

section Calls

variable {rely guarantee : World → World → Prop} {allowed : World → Choice → Call → Prop}

theorem keeps_bind {α β : Type} (mid : World → α → Prop) {post : World → β → Prop}
    {program : Service α} {next : α → Service β} {world : World}
    (hfirst : program.Keeps perform Guarded rely guarantee allowed (Ensures mid) world)
    (hnext : ∀ world value, mid world value →
      (next value).Keeps perform Guarded rely guarantee allowed (Ensures post) world) :
    (program >>= next).Keeps perform Guarded rely guarantee allowed (Ensures post) world :=
  Keeps.bind (hfirst.mono fun world' result hresult => by
    cases result with
    | ok value => exact hnext world' value hresult
    | error cause => trivial)

/-- Calls that touch neither the slots nor the window. -/
def Plain : Call → Prop
  | .upsert _ => False
  | .dueBefore _ => False
  | .publish message => message.topic ≠ .alertsMissing
  | _ => True

theorem Guarded.plain {world : World} (h : Guarded world) (choice : Choice) {request : Call}
    (hplain : Plain request) :
    Guarded (perform world choice request).1 ∧
      (perform world choice request).1.state = world.state ∧
      (perform world choice request).1.window = world.window := by
  have hwindow : windowStep world.window ⟨request, (answer world.state choice request).2⟩ =
      world.window := by
    cases request with
    | upsert slot => exact hplain.elim
    | dueBefore time => exact hplain.elim
    | publish message =>
        cases hfault : choice.fault <;> simp only [answer, hfault] <;> exact if_neg hplain
    | _ => rfl
  obtain ⟨hguarded, hstate⟩ := h.silent choice request
    (fun slot hdeed => by
      cases request with
      | upsert slot => exact hplain.elim
      | dueBefore time => exact hplain.elim
      | _ => cases hfault : choice.fault <;> simp [answer, deed?, hfault] at hdeed)
    (fun message key slot hdeed hfor => by
      cases request with
      | upsert slot => exact hplain.elim
      | dueBefore time => exact hplain.elim
      | publish message' =>
          cases hfault : choice.fault with
          | true => simp [answer, deed?, hfault] at hdeed
          | false =>
              simp [answer, deed?, hfault] at hdeed
              exact absurd (hdeed ▸ hfor.1) hplain
      | _ => cases hfault : choice.fault <;> simp [answer, deed?, hfault] at hdeed)
    (fun key hkey => by
      rw [hwindow] at hkey
      exact h.window key hkey)
  exact ⟨hguarded, hstate, (window_perform _ _ _).trans hwindow⟩

/-- A plain call keeps any assertion the party may rely on. -/
theorem keeps_plain {request : Call} {assertion : World → Prop}
    {after : World → Except Failure (Reply request) → Prop} {world : World}
    (hplain : Plain request)
    (hrely : ∀ world world' : World, world'.state = world.state → world'.window = world.window →
      rely world world')
    (hguarantee : ∀ world world' : World, world'.state = world.state →
      world'.window = world.window → guarantee world world')
    (hassertion : assertion world)
    (hstable : ∀ world world', assertion world → rely world world' → assertion world')
    (hafter : ∀ world choice, assertion world →
      after world (.ok (answer world.state choice request).2)) :
    (ask request : Service _).Keeps perform Guarded rely guarantee allowed after world := by
  refine Keeps.ask assertion hassertion hstable fun world choice hnow hguarded _ => ?_
  obtain ⟨hnext, hstate, hwindow⟩ := hguarded.plain choice hplain
  refine ⟨hnext, hguarantee _ _ hstate hwindow, ?_⟩
  have hreply : (perform world choice request).2 =
      (answer (perform world choice request).1.state choice request).2 := by
    rw [hstate]
    rfl
  rw [hreply]
  exact hafter _ choice (hstable _ _ hnow (hrely _ _ hstate hwindow))

end Calls

/-! ## The handler -/

section Handler

variable {α : Type} {world : World}

/-- What the handler may rely on. -/
def Stable (assertion : World → Prop) : Prop :=
  ∀ world world', assertion world → SameSides world world' → assertion world'

theorem handler_ask (request : Call) {assertion : World → Prop}
    {post : World → Reply request → Prop} (hplain : Plain request) (hstable : Stable assertion)
    (hassertion : assertion world)
    (hpost : ∀ world choice, assertion world → post world (answer world.state choice request).2) :
    HandlerKeeps post (ask request) world :=
  keeps_plain hplain (fun _ _ hstate _ => .of_state hstate)
    (fun _ _ hstate hwindow => .of_state hstate hwindow) hassertion hstable hpost

theorem handler_fallible (request : Call) (reply : Reply request → Option α) (cause : Failure)
    {assertion : World → Prop} {post : World → α → Prop} (hplain : Plain request)
    (hstable : Stable assertion) (hassertion : assertion world)
    (hpost : ∀ world choice value, assertion world →
      reply (answer world.state choice request).2 = some value → post world value) :
    HandlerKeeps post (ask request >>= fun result => orFail cause (reply result)) world := by
  refine keeps_bind (fun world result =>
    ∀ value, reply result = some value → post world value)
    (handler_ask request hplain hstable hassertion fun world choice hnow value hvalue =>
      hpost world choice value hnow hvalue) fun world result hresult => ?_
  cases hvalue : reply result with
  | none => trivial
  | some value => exact hresult value hvalue

theorem handler_storeGet {key : Key} {assertion : World → Prop}
    (post : World → Option Slot → Prop) (hstable : Stable assertion)
    (hassertion : assertion world)
    (hpost : ∀ world, assertion world → post world (world.state.get key)) :
    HandlerKeeps post (storeGet key) world := by
  refine handler_fallible (.get key) (fun reply => reply) .store trivial hstable hassertion
    fun world choice value hnow hvalue => ?_
  cases hfault : choice.fault with
  | true => simp [answer, hfault] at hvalue
  | false =>
      simp only [answer, hfault, if_neg Bool.false_ne_true, Option.some.injEq] at hvalue
      exact hvalue ▸ hpost world hnow

theorem handler_append {entry : AuditEntry} {assertion : World → Prop}
    (hstable : Stable assertion) (hassertion : assertion world) :
    HandlerKeeps (fun world _ => assertion world) (append entry) world :=
  handler_fallible (.append entry) (fun reply => reply) .audit trivial hstable hassertion
    fun _ _ _ hnow _ => hnow

theorem handler_publish {message : Message} {assertion : World → Prop}
    (hplain : message.topic ≠ .alertsMissing)
    (hstable : Stable assertion) (hassertion : assertion world) :
    HandlerKeeps (fun world _ => assertion world) (publish message) world :=
  handler_fallible (.publish message) (fun reply => reply) .bus hplain hstable hassertion
    fun _ _ _ hnow _ => hnow

theorem handler_now {assertion : World → Prop} (hstable : Stable assertion)
    (hassertion : assertion world) : HandlerKeeps (fun world _ => assertion world) now world :=
  handler_ask .now trivial hstable hassertion fun _ _ hnow => hnow

theorem handler_newId {assertion : World → Prop} (hstable : Stable assertion)
    (hassertion : assertion world) : HandlerKeeps (fun world _ => assertion world) newId world :=
  handler_ask .newId trivial hstable hassertion fun _ _ hnow => hnow

/-- A computation without calls. -/
theorem handler_ofExcept {result : Except Failure α} (post : World → α → Prop)
    (h : ∀ value, result = .ok value → post world value) :
    HandlerKeeps post (ofExcept result) world := by
  cases result with
  | ok value => exact h value rfl
  | error cause => trivial

/-- Written over the stored slot of its key, the slot completes it only if it is
complete itself. -/
def Ahead (slot : Slot) (world : World) : Prop :=
  ∀ stored, world.state.get slot.key = some stored → (slot.over stored).complete = true →
    slot.complete = true ∨ stored.complete = true

/-- The slot of this key is stored with both sides. -/
def StoredFull (key : Key) (world : World) : Prop :=
  (world.state.get key).map Slot.sides = some (true, true)

theorem Ahead.stable (slot : Slot) : Stable (Ahead slot) := by
  intro world world' h hsame stored' hstored' hfull
  have hsides := hsame slot.key
  rw [hstored'] at hsides
  obtain ⟨stored, hstored, hstoredSides⟩ := Option.map_eq_some_iff.mp hsides.symm
  have hover : (slot.over stored').sides = (slot.over stored).sides := by
    rw [Slot.sides_over, Slot.sides_over, hstoredSides]
  rw [Slot.complete_eq_of_sides hover] at hfull
  rw [← Slot.complete_eq_of_sides hstoredSides]
  exact h stored hstored hfull

theorem Ahead.of_complete {slot : Slot} (h : slot.complete = true) : Ahead slot world :=
  fun _ _ _ => .inl h

theorem StoredFull.stable (key : Key) : Stable (StoredFull key) :=
  fun _ _ h hsame => (hsame key).trans h

theorem sides_of_complete {slot : Slot} (h : slot.complete = true) :
    slot.sides = (true, true) := by
  simp only [Slot.complete, Bool.and_eq_true] at h
  rw [Slot.sides, h.1, h.2]

/-- Writing a slot that is assigned exactly when complete and does not complete
the stored one unawares. -/
theorem handler_storeUpsert {slot : Slot} (hahead : Ahead slot world)
    (hstate : slot.state = .stateAssigned ↔ slot.complete = true)
    (hmissing : slot.state ≠ .stateMissing) :
    HandlerKeeps (fun world _ => slot.complete = true → StoredFull slot.key world)
      (storeUpsert slot) world := by
  refine keeps_bind (fun world reply => reply = some () → slot.complete = true →
    StoredFull slot.key world) ?_ fun world reply hreply => ?_
  · refine Keeps.ask (Ahead slot) hahead (Ahead.stable slot)
      fun world choice hahead hguarded hallowed => ?_
    cases hfault : choice.fault with
    | true =>
        -- a failed write changes neither the table nor the window
        have hanswer : answer world.state choice (.upsert slot) = (world.state, none) := by
          simp [answer, hfault]
        have hwindow : windowStep world.window
            ⟨.upsert slot, (answer world.state choice (.upsert slot)).2⟩ = world.window := by
          rw [hanswer]
          exact if_neg hmissing
        obtain ⟨hnext, hsame⟩ := hguarded.silent choice (.upsert slot)
          (fun _ hdeed => by rw [hanswer] at hdeed; cases hdeed)
          (fun _ _ _ hdeed => by rw [hanswer] at hdeed; cases hdeed)
          (fun key hkey => by rw [hwindow] at hkey; exact hguarded.window key hkey)
        refine ⟨hnext, .of_state hsame ((window_perform _ _ _).trans hwindow), fun hreply => ?_⟩
        rw [perform_reply, hanswer] at hreply
        cases hreply
    | false =>
        have hanswer : answer world.state choice (.upsert slot) =
            (SlotTable.put world.state slot, some ()) := by
          simp [answer, hfault]
        have hnext : (perform world choice (.upsert slot)).1.state =
            SlotTable.put world.state slot := by
          rw [perform_state, hanswer]
        obtain ⟨hassigns, hunassigns⟩ := hallowed hfault
        -- the merged row has the written state, and no side of either slot is lost
        obtain ⟨final, hfinal, hfinalState, hcovers, hkept, hcompletes⟩ : ∃ final,
            (SlotTable.put world.state slot).get slot.key = some final ∧
              final.state = slot.state ∧ slot.Covers final ∧
              (∀ stored, world.state.get slot.key = some stored → stored.Covers final) ∧
              (final.complete = true → slot.complete = true ∨
                ∃ stored, world.state.get slot.key = some stored ∧ stored.complete = true) := by
          have hput := SlotTable.get_put_self world.state slot
          cases hstored : SlotTable.get world.state slot.key with
          | none =>
              rw [hstored] at hput
              exact ⟨_, hput, rfl, ⟨fun h => h, fun h => h⟩, fun _ h => (by cases h), .inl⟩
          | some stored =>
              rw [hstored] at hput
              obtain ⟨hfirst, hsecond⟩ := slot.covers_over stored
              refine ⟨_, hput, rfl, hfirst, fun stored' hstored' => ?_, fun hfull => ?_⟩
              · obtain rfl := Option.some.inj hstored'
                exact hsecond
              · exact (hahead stored hstored hfull).imp_right fun h => ⟨stored, rfl, h⟩
        have hcomplete : final.complete = true → slot.complete = true := by
          intro hfull
          rcases hcompletes hfull with h | ⟨stored, hstored, h⟩
          · exact h
          · by_contra hnot
            rw [hunassigns (mt hstate.mp hnot) stored hstored] at h
            cases h
        refine ⟨hguarded.stored hfault hfinal ?_ ?_ ?_, ⟨?_, ?_⟩, fun _ hfull => ?_⟩
        · rw [hfinalState, hstate]
          exact ⟨Slot.complete_of_covers hcovers, hcomplete⟩
        · exact fun stored hstored hfull => Slot.complete_of_covers (hkept stored hstored) hfull
        · intro hwindow
          rw [← Bool.not_eq_true]
          exact fun hfull => hassigns (hstate.mpr (hcomplete hfull)) hwindow
        · rw [window_perform, hanswer]
          rfl
        · intro key stored hstored
          rw [hnext]
          by_cases hkey : key = slot.key
          · subst hkey
            exact ⟨final, hfinal, hkept stored hstored⟩
          · exact ⟨stored, (SlotTable.get_put_of_ne _ _ hkey).trans hstored, fun h => h,
              fun h => h⟩
        · rw [StoredFull, hnext, hfinal]
          exact congrArg some (sides_of_complete (Slot.complete_of_covers hcovers hfull))
  · cases reply with
    | none => trivial
    | some value => exact hreply rfl

theorem stable_true : Stable fun _ => True := fun _ _ h _ => h

theorem accepts_keeps (machine : Machine) (clientId valueDate : String) :
    HandlerKeeps (fun _ _ => True) (machine.accepts clientId valueDate) world := by
  refine keeps_bind _ (handler_ofExcept (fun _ _ => True) fun _ _ => trivial)
    fun world _ _ => ?_
  refine keeps_bind _ (handler_ofExcept (fun _ _ => True) fun _ _ => trivial)
    fun world _ _ => ?_
  exact keeps_bind _ (handler_now stable_true trivial)
    fun world _ _ => trivial

theorem findOrOpen_keeps (machine : Machine) (arrival : Arrival) (expectation : Expectation) :
    HandlerKeeps (fun world slot => ∀ stored, world.state.get slot.key = some stored →
      stored.sides = slot.sides) (machine.findOrOpen arrival expectation) world := by
  refine keeps_bind _ (handler_storeGet (fun world found => world.state.get arrival.key = found)
    stable_true trivial fun _ _ => rfl) fun world found hfound => ?_
  cases found with
  | some slot =>
      intro stored hstored
      rw [SlotTable.get_key world.state hfound, hfound] at hstored
      rw [Option.some.inj hstored]
  | none =>
      refine keeps_bind _ (handler_ofExcept
        (fun world _ => world.state.get arrival.key = none) fun _ _ => hfound)
        fun world deadline hnone => ?_
      have hstable : Stable fun world => world.state.get arrival.key = none := by
        intro world world' h hsame
        have hsides := hsame arrival.key
        rw [h] at hsides
        exact Option.map_eq_none_iff.mp hsides
      refine keeps_bind _ (handler_now hstable hnone) fun world time hnone => ?_
      intro stored hstored
      rw [show world.state.get arrival.key = some stored from hstored] at hnone
      cases hnone

/-- An arrival completes the slot it came to only if the outcome is complete. -/
theorem ahead_receive {slot : Slot} {arrival : Arrival} {outcome : Outcome}
    (hread : ∀ stored, world.state.get slot.key = some stored → stored.sides = slot.sides)
    (hreceive : slot.receive arrival = .ok outcome) :
    Ahead outcome.slot world ∧
      (outcome.slot.state = .stateAssigned ↔ outcome.slot.complete = true) ∧
      outcome.slot.state ≠ .stateMissing ∧ outcome.assign = outcome.slot.complete := by
  obtain ⟨placed, reason, hplace, rfl⟩ := Slot.receive_eq_ok hreceive
  have hslot := Slot.settle_slot placed (slot.state = .stateAssigned) reason
  have hassign := Slot.settle_assign placed (slot.state = .stateAssigned) reason
  rw [hslot, hassign]
  refine ⟨fun stored hstored hfull => ?_, ?_, ?_, rfl⟩
  · have hover := sides_of_complete hfull
    rw [Slot.sides_over] at hover
    -- the side that was not placed is the stored one
    rcases Slot.placeSide_eq_ok hplace with ⟨_, rfl⟩ | ⟨_, rfl⟩
    · rw [hread stored hstored] at hover
      have hsides := hread stored hstored
      simp only [Slot.sides, Prod.mk.injEq, Slot.complete, Bool.or_self] at hover hsides ⊢
      rw [hsides.1, hsides.2, hover.2, Bool.and_true, Bool.and_true, ← Bool.or_eq_true]
      exact hover.1
    · rw [hread stored hstored] at hover
      have hsides := hread stored hstored
      simp only [Slot.sides, Prod.mk.injEq, Slot.complete, Bool.or_self] at hover hsides ⊢
      rw [hsides.1, hsides.2, hover.1, Bool.true_and, Bool.true_and, ← Bool.or_eq_true]
      exact hover.2
  · have hcomplete : ({ placed with
        state := if placed.complete then .stateAssigned else .statePartial } : Slot).complete =
          placed.complete := rfl
    rw [hcomplete]
    cases placed.complete <;> simp
  · cases placed.complete <;> simp

theorem apply_keeps (machine : Machine) (arrival : Arrival) :
    HandlerKeeps (fun world outcome => outcome.assign = outcome.slot.complete ∧
      (outcome.slot.complete = true → StoredFull outcome.slot.key world))
      (machine.apply arrival) world := by
  refine keeps_bind _ (accepts_keeps machine _ _) fun world accepted _ => ?_
  cases accepted with
  | false => trivial
  | true =>
  change HandlerKeeps _ (ofExcept _ >>= _) world
  refine keeps_bind _ (handler_ofExcept (fun _ _ => True) fun _ _ => trivial)
    fun world expectation _ => ?_
  refine keeps_bind _ (findOrOpen_keeps machine arrival expectation) fun world slot hread => ?_
  refine keeps_bind _ (handler_ofExcept (fun world outcome =>
    (∀ stored, world.state.get slot.key = some stored → stored.sides = slot.sides) ∧
    slot.receive arrival = .ok outcome) fun outcome houtcome => ⟨hread, ?_⟩)
    fun world outcome houtcome => ?_
  · cases hreceive : slot.receive arrival with
    | error cause =>
        rw [hreceive] at houtcome
        cases houtcome
    | ok outcome' =>
        rw [hreceive] at houtcome
        cases houtcome
        rfl
  · obtain ⟨hahead, hstate, hmissing, hassign⟩ := ahead_receive houtcome.1 houtcome.2
    exact keeps_bind _ (handler_storeUpsert hahead hstate hmissing)
      fun world _ hstored => ⟨hassign, hstored⟩

theorem recordAssignment_keeps {key : Key} {assignmentId : String}
    (hstored : StoredFull key world) :
    HandlerKeeps (fun _ _ => True) (Machine.recordAssignment key assignmentId) world := by
  refine keeps_bind _ (handler_storeGet
    (fun world found => world.state.get key = found ∧ StoredFull key world)
    (StoredFull.stable key) hstored fun _ h => ⟨rfl, h⟩) fun world found hfound => ?_
  obtain ⟨hfound, hsides⟩ := hfound
  cases found with
  | none => trivial
  | some slot =>
      rw [StoredFull, hfound] at hsides
      have hfull : slot.sides = (true, true) := Option.some.inj hsides
      have hslot : (stamped slot assignmentId).complete = true := by
        simp only [Slot.sides, Prod.mk.injEq] at hfull
        change Slot.complete slot = true
        rw [Slot.complete, hfull.1, hfull.2]
        rfl
      refine (handler_storeUpsert (Ahead.of_complete hslot) ⟨fun _ => hslot, fun _ => rfl⟩
        (by simp [stamped])).mono fun world result _ => ?_
      cases result <;> trivial

theorem assign_keeps {classified : ArrivalClassified} {outcome : Outcome}
    (hstored : StoredFull outcome.slot.key world) :
    HandlerKeeps (fun _ _ => True) (assign classified outcome) world := by
  have hstable := StoredFull.stable outcome.slot.key
  refine keeps_bind (fun world _ => StoredFull outcome.slot.key world) ?_
    fun world _ hstored => ?_
  · unfold voidPrior
    split
    · refine keeps_bind _ (handler_now hstable hstored) fun world time hstored => ?_
      exact handler_publish (by simp [voidMessage]) hstable hstored
    · exact hstored
  refine keeps_bind _ (handler_newId hstable hstored) fun world id hstored => ?_
  refine keeps_bind _ (handler_now hstable hstored) fun world time hstored => ?_
  refine keeps_bind _ (handler_publish (by simp [assignedMessage]) hstable hstored)
    fun world _ hstored => ?_
  refine keeps_bind _ (recordAssignment_keeps hstored) fun world _ _ => ?_
  exact handler_append stable_true trivial

theorem handle_keeps (machine : Machine) (message : Option ArrivalClassified) :
    HandlerKeeps (fun _ _ => True) (handle machine message) world := by
  cases message with
  | none => trivial
  | some classified =>
  rw [handle]
  split
  next => trivial
  next =>
    refine keeps_bind (fun world (result : Except Failure Outcome) =>
      ∀ outcome, result = .ok outcome → outcome.assign = outcome.slot.complete ∧
        (outcome.slot.complete = true → StoredFull outcome.slot.key world))
      (Keeps.attempt ((apply_keeps machine _).mono ?_)) fun world result hresult => ?_
    · intro world result hresult outcome houtcome
      subst houtcome
      exact hresult
    · cases result with
      | error cause =>
          cases cause with
          | slot cause =>
              change HandlerKeeps _ (ite _ _ _) world
              split
              · exact handler_append stable_true trivial
              · trivial
          | _ => trivial
      | ok outcome =>
          obtain ⟨hassign, hstored⟩ := hresult outcome rfl
          have hstable : Stable fun world => outcome.slot.complete = true →
              StoredFull outcome.slot.key world :=
            fun _ _ h hsame hfull => StoredFull.stable _ _ _ (h hfull) hsame
          refine keeps_bind _ (handler_append hstable hstored) fun world _ hstored => ?_
          change HandlerKeeps _ (ite _ _ _) world
          split
          next hwhen => exact assign_keeps (hstored (hassign ▸ hwhen))
          next => trivial

theorem handler_keeps (machine : Machine) (messages : List (Option ArrivalClassified))
    (world : World) : HandlerKeeps (fun _ _ => True) (handler machine messages) world := by
  induction messages generalizing world with
  | nil => trivial
  | cons message rest ih =>
      have hhead : HandlerKeeps _ (handle machine message) world := handle_keeps machine message
      exact keeps_bind (fun _ _ => True) (Keeps.attempt (hhead.mono fun _ _ _ => trivial))
        fun world _ _ => ih world

end Handler

/-! ## The sweep -/

section Sweep

variable {world : World}

/-- The window consists of these slots, and every side held by the sweep's copy
of one of them is still stored. -/
def Holding (due : List Slot) (world : World) : Prop :=
  world.window = due.map Slot.key ∧
    ∀ slot ∈ due, ∃ stored, world.state.get slot.key = some stored ∧ slot.Covers stored

theorem Holding.grows {due : List Slot} {world world' : World} (h : Holding due world)
    (hgrows : Grows world world') : Holding due world' := by
  refine ⟨hgrows.1.trans h.1, fun slot hslot => ?_⟩
  obtain ⟨stored, hstored, hcovers⟩ := h.2 slot hslot
  obtain ⟨stored', hstored', hcovers'⟩ := hgrows.2 slot.key stored hstored
  exact ⟨stored', hstored', fun hside => hcovers'.1 (hcovers.1 hside),
    fun hside => hcovers'.2 (hcovers.2 hside)⟩

/-- One call of the sweep, from an assertion that the handler keeps true. -/
theorem sweeper_ask (assertion : World → Prop) {request : Call}
    {post : World → Reply request → Prop} (hassertion : assertion world)
    (hstable : ∀ world world', assertion world → Grows world world' → assertion world')
    (hstep : ∀ world choice, assertion world → Guarded world →
      Guarded (perform world choice request).1 ∧
      SameSides world (perform world choice request).1 ∧
      post (perform world choice request).1 (perform world choice request).2) :
    SweeperKeeps post (ask request) world :=
  Keeps.ask assertion hassertion hstable
    fun world choice hnow hguarded _ => hstep world choice hnow hguarded

theorem sweeper_now (assertion : World → Prop)
    (hstable : ∀ world world', assertion world → Grows world world' → assertion world')
    (hassertion : assertion world) : SweeperKeeps (fun world _ => assertion world) now world := by
  refine sweeper_ask assertion hassertion hstable fun world choice hnow hguarded => ?_
  obtain ⟨hnext, hstate, hwindow⟩ := hguarded.plain choice (show Plain .now from trivial)
  exact ⟨hnext, .of_state hstate, hstable _ _ hnow (.of_state hstate hwindow)⟩

/-- The selection opens the window: no selected slot is complete. -/
theorem sweeper_storeDueBefore (time : Instant) :
    SweeperKeeps (fun world due => Holding due world ∧
      ∀ slot ∈ due, slot.state ≠ .stateAssigned ∧ slot.state ≠ .stateMissing)
      (storeDueBefore time) world := by
  refine keeps_bind (fun world reply => ∀ due, reply = some due → Holding due world ∧
      ∀ slot ∈ due, slot.state ≠ .stateAssigned ∧ slot.state ≠ .stateMissing) ?_
    fun world reply hreply => ?_
  · refine fun world' _ hguarded choice _ => ?_
    cases hfault : choice.fault with
    | true =>
        have hanswer : answer world'.state choice (.dueBefore time) = (world'.state, none) := by
          simp [answer, hfault]
        obtain ⟨hnext, hsame⟩ := hguarded.silent choice (.dueBefore time)
          (fun _ hdeed => by rw [hanswer] at hdeed; cases hdeed)
          (fun _ _ _ hdeed => by rw [hanswer] at hdeed; cases hdeed)
          (fun key hkey => by rw [hanswer] at hkey; exact hguarded.window key hkey)
        refine ⟨hnext, .of_state hsame, fun due hdue => ?_⟩
        rw [perform_reply, hanswer] at hdue
        cases hdue
    | false =>
        obtain ⟨due, hdue⟩ : ∃ due, due = choice.arrange.1 (world'.state.dueBefore time) :=
          ⟨_, rfl⟩
        have hselected : Selected world'.state due := selected_dueBefore hdue
        have hanswer : answer world'.state choice (.dueBefore time) =
            (world'.state, some due) := by
          simp [answer, hfault, hdue]
        have hwindow : windowStep world'.window
            ⟨.dueBefore time, (answer world'.state choice (.dueBefore time)).2⟩ =
              due.map Slot.key := by
          rw [hanswer]
          rfl
        obtain ⟨hnext, hsame⟩ := hguarded.silent choice (.dueBefore time)
          (fun _ hdeed => by rw [hanswer] at hdeed; cases hdeed)
          (fun _ _ _ hdeed => by rw [hanswer] at hdeed; cases hdeed)
          (fun key hkey stored hstored => by
            rw [hwindow] at hkey
            obtain ⟨slot, hslot, rfl⟩ := List.mem_map.mp hkey
            rw [hselected.stored slot hslot] at hstored
            obtain rfl := Option.some.inj hstored
            rw [← Bool.not_eq_true]
            exact mt (hguarded.state _ _ (hselected.stored slot hslot)).mpr
              (hselected.waiting slot hslot).1)
        refine ⟨hnext, .of_state hsame, fun due' hdue' => ?_⟩
        rw [perform_reply, hanswer] at hdue'
        cases hdue'
        refine ⟨⟨(window_perform _ _ _).trans hwindow, fun slot hslot => ?_⟩,
          hselected.waiting⟩
        exact ⟨slot, by rw [hsame]; exact hselected.stored slot hslot, fun h => h, fun h => h⟩
  · cases reply with
    | none => trivial
    | some due => exact hreply due rfl

/-- Marking a slot of the window leaves its sides as they are stored. -/
theorem sweeper_storeUpsert {due : List Slot} {slot : Slot} (hslot : slot ∈ due)
    (hholding : Holding due world) :
    SweeperKeeps (fun world _ => Holding due world) (storeUpsert (marked slot)) world := by
  refine keeps_bind (fun world reply => reply = some () → Holding due world) ?_
    fun world reply hreply => ?_
  · refine sweeper_ask (Holding due) hholding (fun _ _ h hgrows => h.grows hgrows)
      fun world choice hholding hguarded => ?_
    obtain ⟨stored, hstored, hcovers⟩ := hholding.2 slot hslot
    cases hfault : choice.fault with
    | true =>
        have hanswer : answer world.state choice (.upsert (marked slot)) =
            (world.state, none) := by
          simp [answer, hfault]
        obtain ⟨hnext, hsame⟩ := hguarded.silent choice (.upsert (marked slot))
          (fun _ hdeed => by rw [hanswer] at hdeed; cases hdeed)
          (fun _ _ _ hdeed => by rw [hanswer] at hdeed; cases hdeed)
          (fun key hkey => by
            rw [hanswer] at hkey
            exact absurd hkey List.not_mem_nil)
        refine ⟨hnext, .of_state hsame, fun hreply => ?_⟩
        rw [perform_reply, hanswer] at hreply
        cases hreply
    | false =>
        have hanswer : answer world.state choice (.upsert (marked slot)) =
            (SlotTable.put world.state (marked slot), some ()) := by
          simp [answer, hfault]
        have hnext : (perform world choice (.upsert (marked slot))).1.state =
            SlotTable.put world.state (marked slot) := by
          rw [perform_state, hanswer]
        have hsameWindow : (perform world choice (.upsert (marked slot))).1.window =
            world.window := by
          rw [window_perform, hanswer]
          rfl
        have hfinal : (SlotTable.put world.state (marked slot)).get slot.key =
            some ((marked slot).over stored) := by
          have hput := SlotTable.get_put_self world.state (marked slot)
          rw [show SlotTable.get world.state (marked slot).key = some stored from hstored] at hput
          exact hput
        -- the sweeper's copy may be old, but the merge keeps the stored sides
        have hsides : ((marked slot).over stored).sides = stored.sides :=
          Slot.sides_over_of_covered hcovers
        have hincomplete : stored.complete = false :=
          hguarded.window slot.key (hholding.1 ▸ List.mem_map_of_mem hslot) stored hstored
        have hfinalIncomplete : ((marked slot).over stored).complete = false :=
          (Slot.complete_eq_of_sides hsides).trans hincomplete
        have hmissing : ((marked slot).over stored).state ≠ .stateAssigned := by
          simp [Slot.over, marked]
        have hkeptSides : SameSides world (perform world choice (.upsert (marked slot))).1 := by
          intro key
          rw [hnext]
          by_cases hkey : key = slot.key
          · rw [hkey, hfinal, hstored]
            exact congrArg some hsides
          · rw [SlotTable.get_put_of_ne _ (marked slot) hkey]
        refine ⟨hguarded.stored hfault hfinal ?_ ?_ fun _ => hfinalIncomplete, hkeptSides,
          fun _ => ⟨hsameWindow.trans hholding.1, fun other hother => ?_⟩⟩
        · exact ⟨fun h => absurd h hmissing, fun h => by rw [hfinalIncomplete] at h; cases h⟩
        · intro stored' hstored' hfull
          rw [show SlotTable.get world.state (marked slot).key = some stored from hstored]
            at hstored'
          cases hstored'
          rw [hincomplete] at hfull
          cases hfull
        · obtain ⟨prior, hprior, hpriorCovers⟩ := hholding.2 other hother
          have hmap := hkeptSides other.key
          rw [hprior] at hmap
          obtain ⟨after, hafter, hafterSides⟩ := Option.map_eq_some_iff.mp hmap
          have hkept := Slot.covers_of_sides hafterSides.symm
          exact ⟨after, hafter, fun hside => hkept.1 (hpriorCovers.1 hside),
            fun hside => hkept.2 (hpriorCovers.2 hside)⟩
  · cases reply with
    | none => trivial
    | some value => exact hreply rfl

theorem markMissing_keeps {due rest : List Slot} (hrest : ∀ slot ∈ rest, slot ∈ due)
    (hwaiting : ∀ slot ∈ rest, slot.state ≠ .stateAssigned ∧ slot.state ≠ .stateMissing)
    (hholding : Holding due world) :
    SweeperKeeps (fun world out => Holding due world ∧ out = rest.map marked)
      (Machine.markMissing rest) world := by
  induction rest generalizing world with
  | nil => exact ⟨hholding, rfl⟩
  | cons slot rest ih =>
      rw [Machine.markMissing, if_neg (not_or.mpr (hwaiting slot List.mem_cons_self))]
      refine keeps_bind _ (sweeper_storeUpsert (hrest slot List.mem_cons_self) hholding)
        fun world _ hholding => ?_
      refine keeps_bind _ (ih (fun later hlater => hrest later (List.mem_cons_of_mem _ hlater))
        (fun later hlater => hwaiting later (List.mem_cons_of_mem _ hlater)) hholding)
        fun world out hout => ?_
      exact ⟨hout.1, congrArg (marked slot :: ·) hout.2⟩

/-- The alert of the first slot of the window finds it incomplete. -/
theorem sweeper_publish {slot : Slot} {rest : List Slot} {time : Instant}
    (hwindow : world.window = (slot :: rest).map Slot.key) :
    SweeperKeeps (fun world _ => world.window = rest.map Slot.key)
      (publish (alertMessage slot time)) world := by
  refine keeps_bind (fun world reply => reply = some () → world.window = rest.map Slot.key) ?_
    fun world reply hreply => ?_
  · refine sweeper_ask (fun world => world.window = (slot :: rest).map Slot.key) hwindow
      (fun _ _ h hgrows => hgrows.1.trans h) fun world choice hwindow hguarded => ?_
    have hincomplete : ∀ stored, world.state.get slot.key = some stored →
        stored.complete = false :=
      hguarded.window slot.key (hwindow ▸ List.mem_cons_self)
    cases hfault : choice.fault with
    | true =>
        have hanswer : answer world.state choice (.publish (alertMessage slot time)) =
            (world.state, none) := by
          simp [answer, hfault]
        obtain ⟨hnext, hsame⟩ := hguarded.silent choice (.publish (alertMessage slot time))
          (fun _ hdeed => by rw [hanswer] at hdeed; cases hdeed)
          (fun _ _ _ hdeed => by rw [hanswer] at hdeed; cases hdeed)
          (fun key hkey => by
            rw [hanswer] at hkey
            exact absurd hkey List.not_mem_nil)
        refine ⟨hnext, .of_state hsame, fun hreply => ?_⟩
        rw [perform_reply, hanswer] at hreply
        cases hreply
    | false =>
        have hanswer : answer world.state choice (.publish (alertMessage slot time)) =
            (world.state, some ()) := by
          simp [answer, hfault]
        have htail : windowStep world.window ⟨.publish (alertMessage slot time),
            (answer world.state choice (.publish (alertMessage slot time))).2⟩ =
              rest.map Slot.key := by
          rw [hanswer, hwindow]
          rfl
        obtain ⟨hnext, hsame⟩ := hguarded.silent choice (.publish (alertMessage slot time))
          (fun _ hdeed => by rw [hanswer] at hdeed; cases hdeed)
          (fun message key stored hdeed hfor hstored => by
            rw [hanswer] at hdeed
            cases hdeed
            obtain rfl := (alertFor_alertMessage slot time key).mp hfor
            exact hincomplete stored hstored)
          (fun key hkey => by
            rw [htail] at hkey
            refine hguarded.window key ?_
            rw [hwindow]
            exact List.mem_cons_of_mem _ hkey)
        exact ⟨hnext, .of_state hsame, fun _ => (window_perform _ _ _).trans htail⟩
  · cases reply with
    | none => trivial
    | some value => exact hreply rfl

theorem publishAlerts_keeps {out : List Slot} (hwindow : world.window = out.map Slot.key) :
    SweeperKeeps (fun _ _ => True) (publishAlerts out) world := by
  induction out generalizing world with
  | nil => trivial
  | cons slot rest ih =>
      refine keeps_bind _ (sweeper_now
        (fun world => world.window = (slot :: rest).map Slot.key)
        (fun _ _ h hgrows => hgrows.1.trans h) hwindow) fun world time hwindow => ?_
      exact keeps_bind _ (sweeper_publish hwindow) fun world _ hwindow => ih hwindow

theorem sweep_keeps (world : World) : SweeperKeeps (fun _ _ => True) sweep world := by
  refine keeps_bind (fun world out => world.window = out.map Slot.key) ?_
    fun world out hwindow => publishAlerts_keeps hwindow
  refine keeps_bind _ (sweeper_now (fun _ => True) (fun _ _ h _ => h) trivial)
    fun world time _ => ?_
  refine keeps_bind _ (sweeper_storeDueBefore time) fun world due hdue => ?_
  refine (markMissing_keeps (fun slot hslot => hslot) hdue.2 hdue.1).mono
    fun world result hresult => ?_
  cases result with
  | error cause => trivial
  | ok out =>
      obtain ⟨hholding, rfl⟩ := hresult
      change world.window = _
      rw [hholding.1, List.map_map]
      rfl

theorem sweeper_keeps (count : Nat) (world : World) :
    SweeperKeeps (fun _ _ => True) (sweeper count) world := by
  induction count generalizing world with
  | zero => trivial
  | succ count ih =>
      exact keeps_bind (fun _ _ => True)
        (Keeps.attempt ((sweep_keeps world).mono fun _ _ _ => trivial)) fun world _ _ => ih world

end Sweep

/-! ## Both together -/

/-- The handler and the sweep loop on an empty store, at the end of a schedule. -/
def raced (machine : Machine) (messages : List (Option ArrivalClassified)) (sweeps : Nat)
    (schedule : List (Party × Choice)) : World :=
  (schedule.foldl (Pool.step perform) (parties machine messages sweeps, World.initial)).2

/-- A slot that was assigned is not marked missing later, and none is alerted
while both of its sides are stored. -/
structure Unraced (journal : List Deed) : Prop where
  kept : ∀ before middle after key slot, journal = before ++ middle ++ after →
    AssignedIn before key → (slotsAfter (before ++ middle)).get key = some slot →
    slot.state ≠ .stateMissing
  alerts : ∀ before message after key slot, journal = before ++ .published message :: after →
    AlertFor key message → (slotsAfter before).get key = some slot → slot.complete = false

theorem Sound.unraced {journal : List Deed} (h : Sound journal) : Unraced journal where
  kept before middle after key slot heq hassigned hslot := by
    obtain ⟨slot', hslot', hstate⟩ := h.stays before middle after key heq hassigned
    rw [hslot] at hslot'
    obtain rfl := Option.some.inj hslot'
    rw [hstate]
    decide
  alerts := h.alerts

/-- What each party may rely on. -/
def Party.rely : Party → World → World → Prop
  | .handler => SameSides
  | .sweeper => Grows

/-- What each party guarantees to the other. -/
def Party.guarantee : Party → World → World → Prop
  | .handler => Grows
  | .sweeper => SameSides

theorem parties_keep (machine : Machine) (messages : List (Option ArrivalClassified))
    (sweeps : Nat) :
    Pool.AllKeep perform Guarded Party.rely Party.guarantee Courteous
      (parties machine messages sweeps, World.initial) := by
  intro who
  cases who with
  | handler =>
      exact (handler_keeps machine messages World.initial).mono fun _ _ _ => trivial
  | sweeper => exact (sweeper_keeps sweeps World.initial).mono fun _ _ _ => trivial

/-- While the handler assigns no slot of the running sweep's window, and takes no
side away from a full slot, the sweep and the handler do not race. -/
theorem sweep_against_handler (machine : Machine) (messages : List (Option ArrivalClassified))
    (sweeps : Nat) (schedule : List (Party × Choice))
    (hcourteous : Along (Pool.step perform) (Pool.Allowed Courteous)
      (parties machine messages sweeps, World.initial) schedule) :
    Unraced (raced machine messages sweeps schedule).journal := by
  have hguarded := Pool.invariant_run
    (fun who _ _ _ h h' => by
      cases who with
      | handler => exact SameSides.trans h h'
      | sweeper => exact Grows.trans h h')
    (fun who _ => by
      cases who with
      | handler => exact SameSides.of_state rfl
      | sweeper => exact Grows.of_state rfl rfl)
    (fun who other hne _ _ h => by
      cases who <;> cases other
      · exact absurd rfl hne
      · exact h
      · exact h
      · exact absurd rfl hne)
    (parties_keep machine messages sweeps) guarded_initial hcourteous
  exact hguarded.sound.unraced

/-- Ten seconds past the deadline of the sample slot, on the last day on which
its arrivals are accepted. -/
def sampleLate : Instant := Day.midnight 739860 + (23 * 60 + 59) * microsPerMinute + 10000000

def sampleMessages : List (Option ArrivalClassified) :=
  [some (sampleArrival "A1" .internalGl), some (sampleArrival "A2" .externalClient)]

/-- The next calls of a party, all served at one time. -/
def sampleTurns (who : Party) (count : Nat) (clock : Instant) : List (Party × Choice) :=
  List.replicate count (who, { clock, id := sampleIdA })

/-- The sweep runs between the two messages. -/
def betweenSchedule : List (Party × Choice) :=
  sampleTurns .handler 5 sampleClock ++ sampleTurns .sweeper 5 sampleLate ++
    sampleTurns .handler 10 sampleLate

theorem sweep_between_messages :
    Unraced (raced sampleMachine sampleMessages 1 betweenSchedule).journal :=
  sweep_against_handler sampleMachine sampleMessages 1 betweenSchedule (by decide +kernel)

/-- The slot is selected, assigned and then marked. -/
def racingSchedule : List (Party × Choice) :=
  sampleTurns .handler 7 sampleClock ++ sampleTurns .sweeper 2 sampleLate ++
    sampleTurns .handler 1 sampleLate ++ sampleTurns .sweeper 1 sampleLate

theorem assigned_then_missing :
    ¬ ∀ machine messages sweeps schedule,
      Unraced (raced machine messages sweeps schedule).journal := by
  intro h
  have hunraced := h sampleMachine sampleMessages 1 racingSchedule
  obtain ⟨journal, hjournal⟩ : ∃ journal,
    (raced sampleMachine sampleMessages 1 racingSchedule).journal = journal := ⟨_, rfl⟩
  have hbefore : ((slotsAfter (journal.take 3)).get sampleKey).map Slot.state =
      some .stateAssigned := by
    rw [← hjournal]
    decide +kernel
  have hafter : ((slotsAfter journal).get sampleKey).map Slot.state = some .stateMissing := by
    rw [← hjournal]
    decide +kernel
  obtain ⟨slot, hslot, hstate⟩ := Option.map_eq_some_iff.mp hbefore
  obtain ⟨slot', hslot', hstate'⟩ := Option.map_eq_some_iff.mp hafter
  have hwhole : journal = journal.take 3 ++ journal.drop 3 ++ [] := by
    rw [List.append_nil, List.take_append_drop]
  rw [hjournal] at hunraced
  refine hunraced.kept _ _ _ sampleKey slot' hwhole ⟨slot, hslot, hstate⟩ ?_ hstate'
  rw [List.take_append_drop]
  exact hslot'

end Harbormaster.Berthmaster
