import Harbormaster.Berthmaster.Routing
import Harbormaster.Berthmaster.Service

/-! # What one step of the service does

The deeds of a step, as a function of the slot table it starts from, the message
and the readings taken on the way. Executed alone, a step performs a prefix of
these deeds, however it is stopped and whatever fails, and it performs all of
them when it succeeds.
-/

namespace Harbormaster.Berthmaster

open Effect Program

/-! ## The deeds of a handled message -/

/-- The readings taken while one message is handled. -/
structure Readings where
  accepted : Instant
  opened : Instant
  voided : Instant
  id : Ulid
  emitted : Instant

/-- The stored slot once an assignment is stamped onto it. -/
def stamped (stored : Slot) (assignmentId : String) : Slot :=
  { stored with assignmentId, state := .stateAssigned }

/-- The void of the assignment an outcome supersedes, if there is one. -/
def voidDeeds (classified : ArrivalClassified) (outcome : Outcome) (readings : Readings) :
    List Deed :=
  if outcome.supersedes ≠ "" then
    [.published (voidMessage classified outcome readings.voided)]
  else []

def assignDeeds (classified : ArrivalClassified) (outcome : Outcome) (stored : Slot)
    (readings : Readings) : List Deed :=
  voidDeeds classified outcome readings ++
  [.published (assignedMessage classified outcome readings.id.text readings.emitted),
    .stored (stamped stored readings.id.text),
    .audited (berthAssignedEntry classified outcome readings.id.text)]

/-- What is stored once a slot was written to the table. -/
def storedAfter (slots : SlotTable) (slot : Slot) : Slot :=
  match slots.get slot.key with
  | none => slot
  | some stored => slot.over stored

def routedDeeds (slots : SlotTable) (classified : ArrivalClassified) (outcome : Outcome)
    (readings : Readings) : List Deed :=
  [.stored outcome.slot, .audited (slotUpdated (arrivalOf classified) outcome)] ++
    if outcome.assign then
      assignDeeds classified outcome (storedAfter slots outcome.slot) readings
    else []

/-- The deeds of handling a message, and what the handler returns. -/
def handlePlan (machine : Machine) (slots : SlotTable) (readings : Readings) :
    Option ArrivalClassified → List Deed × Except Failure Unit
  | none => ([], .error .decode)
  | some classified =>
      if classified.disposition ≠ .dispatched then ([], .ok ())
      else match machine.route slots readings.accepted readings.opened (arrivalOf classified) with
        | .ok outcome => (routedDeeds slots classified outcome readings, .ok ())
        | .error cause =>
            if cause.isOutsideWindow then
              ([.audited (slotRejected (arrivalOf classified) cause)], .ok ())
            else ([], .error (.slot cause))

/-- Deeds that only add to the audit log. -/
def Silent (deeds : List Deed) : Prop := ∀ deed ∈ deeds, ∃ entry, deed = .audited entry

/-- A handled message is routed to a slot, or it leaves at most an audit entry. -/
theorem handlePlan_cases (machine : Machine) (slots : SlotTable) (readings : Readings)
    (message : Option ArrivalClassified) :
    Silent (handlePlan machine slots readings message).1 ∨
      ∃ classified outcome slot placed, message = some classified ∧
        classified.disposition = .dispatched ∧
        Routed machine slots readings.accepted (arrivalOf classified) outcome slot placed ∧
        (handlePlan machine slots readings message).1 =
          routedDeeds slots classified outcome readings := by
  cases message with
  | none => exact .inl fun deed hdeed => absurd hdeed List.not_mem_nil
  | some classified =>
  unfold handlePlan
  by_cases hdisposition : classified.disposition ≠ .dispatched
  · left
    simp only [if_pos hdisposition]
    exact fun deed hdeed => absurd hdeed List.not_mem_nil
  simp only [if_neg hdisposition]
  cases hroute : machine.route slots readings.accepted readings.opened (arrivalOf classified) with
  | error cause =>
      left
      dsimp only
      split
      · exact fun deed hdeed => ⟨_, List.mem_singleton.mp hdeed⟩
      · exact fun deed hdeed => absurd hdeed List.not_mem_nil
  | ok outcome =>
      obtain ⟨slot, placed, hrouted⟩ := routed_of_route hroute
      exact .inr ⟨classified, outcome, slot, placed, rfl, not_not.mp hdisposition, hrouted, rfl⟩

theorem foldl_enact_silent {slots : SlotTable} {deeds : List Deed} (h : Silent deeds) :
    deeds.foldl enact slots = slots := by
  induction deeds with
  | nil => rfl
  | cons deed rest ih =>
      obtain ⟨entry, rfl⟩ := h deed List.mem_cons_self
      exact ih fun later hlater => h later (List.mem_cons_of_mem _ hlater)

/-! ## Progress of an execution -/

/-- Since `origin`, `count` calls were made and `done` are their deeds. -/
structure Reached (origin : World) (count : Nat) (done : List Deed) (world : World) : Prop where
  calls : world.calls.length = origin.calls.length + count
  journal : world.journal = origin.journal ++ done
  state : world.state = done.foldl enact origin.state

theorem Reached.origin (origin : World) : Reached origin 0 [] origin :=
  ⟨rfl, (List.append_nil _).symm, rfl⟩

section Calls

variable {script : Script Choice} {origin world : World} {count : Nat} {done : List Deed}

theorem answer_state (slots : SlotTable) (choice : Choice) (request : Call) :
    (answer slots choice request).1 =
      ((deed? ⟨request, (answer slots choice request).2⟩).toList).foldl enact slots := by
  cases request <;> cases hfault : choice.fault <;> simp [answer, deed?, enact, hfault]

/-- One call takes the execution one step on. -/
theorem Reached.perform (h : Reached origin count done world) (choice : Choice)
    (request : Call) :
    Reached origin (count + 1)
      (done ++ (deed? ⟨request, (answer world.state choice request).2⟩).toList)
      (perform world choice request).1 := by
  refine ⟨?_, ?_, ?_⟩
  · simp [Berthmaster.perform, record, h.calls, Nat.add_assoc]
  · have hlast : [(⟨request, (answer world.state choice request).2⟩ : Event Call Reply)].filterMap
        deed? = (deed? ⟨request, (answer world.state choice request).2⟩).toList := by
      simp only [List.filterMap_cons, List.filterMap_nil]
      split <;> simp_all
    have hjournal := h.journal
    unfold World.journal at hjournal ⊢
    rw [← List.append_assoc, ← hjournal, ← hlast, ← List.filterMap_append]
    rfl
  · rw [List.foldl_append, ← h.state]
    exact answer_state world.state choice request

theorem Reached.turn (h : Reached origin count done world) {choice : Choice} {request : Call}
    (hchoice : Scripted script origin world choice request) : script count = some choice := by
  rw [Scripted, h.calls, Nat.add_sub_cancel_left] at hchoice
  exact hchoice

variable {during : World → Prop}

theorem now_spec {after : World → Except Failure Instant → Prop}
    (h : Reached origin count done world) (hduring : during world)
    (hafter : ∀ choice world', script count = some choice →
      Reached origin (count + 1) done world' → after world' (.ok choice.clock)) :
    now.Spec perform (Scripted script origin) during after world := by
  refine ⟨hduring, fun choice hchoice => hafter choice _ (h.turn hchoice) ?_⟩
  simpa [deed?] using h.perform choice .now

theorem newId_spec {after : World → Except Failure Ulid → Prop}
    (h : Reached origin count done world) (hduring : during world)
    (hafter : ∀ choice world', script count = some choice →
      Reached origin (count + 1) done world' → after world' (.ok choice.id)) :
    newId.Spec perform (Scripted script origin) during after world := by
  refine ⟨hduring, fun choice hchoice => hafter choice _ (h.turn hchoice) ?_⟩
  simpa [deed?] using h.perform choice .newId

/-- A call that can fail: where it fails it has no deed. -/
theorem fallible_spec {α : Type} {cause : Failure} {after : World → Except Failure α → Prop}
    (request : Call) (reply : Reply request → Option α) (value : Choice → α)
    (deed : Option Deed)
    (hreply : ∀ choice, (reply (answer world.state choice request).2,
        deed? ⟨request, (answer world.state choice request).2⟩) =
      if choice.fault then (none, none) else (some (value choice), deed))
    (h : Reached origin count done world) (hduring : during world)
    (hfail : ∀ choice world', script count = some choice → choice.fault = true →
      Reached origin (count + 1) done world' → after world' (.error cause))
    (hok : ∀ choice world', script count = some choice → choice.fault = false →
      Reached origin (count + 1) (done ++ deed.toList) world' →
        after world' (.ok (value choice))) :
    ((ask request >>= fun result => orFail cause (reply result) : Service α)).Spec perform
      (Scripted script origin) during after world := by
  refine ⟨hduring, fun choice hchoice => ?_⟩
  have hstep := h.perform choice request
  have hturn := h.turn hchoice
  have hboth := hreply choice
  change (orFail cause (reply (answer world.state choice request).2) : Service α).Spec _ _ _ _ _
  cases hfault : choice.fault with
  | true =>
      rw [hfault, if_pos rfl, Prod.mk.injEq] at hboth
      rw [hboth.1]
      rw [hboth.2, Option.toList_none, List.append_nil] at hstep
      exact hfail choice _ hturn hfault hstep
  | false =>
      rw [hfault, if_neg Bool.false_ne_true, Prod.mk.injEq] at hboth
      rw [hboth.1]
      rw [hboth.2] at hstep
      exact hok choice _ hturn hfault hstep

theorem storeGet_spec {key : Key} {after : World → Except Failure (Option Slot) → Prop}
    (h : Reached origin count done world) (hduring : during world)
    (hfail : ∀ choice world', script count = some choice → choice.fault = true →
      Reached origin (count + 1) done world' → after world' (.error .store))
    (hok : ∀ choice world', script count = some choice → choice.fault = false →
      Reached origin (count + 1) done world' →
        after world' (.ok ((done.foldl enact origin.state).get key))) :
    (storeGet key).Spec perform (Scripted script origin) during after world := by
  refine fallible_spec (.get key) (fun reply => reply) (fun _ => world.state.get key) none
    (fun choice => ?_) h hduring hfail (fun choice world' hturn hfault hworld' => ?_)
  · cases hfault : choice.fault <;> simp [answer, deed?, hfault]
  · rw [Option.toList_none, List.append_nil] at hworld'
    rw [h.state]
    exact hok choice world' hturn hfault hworld'

theorem storeDueBefore_spec {time : Instant} {after : World → Except Failure (List Slot) → Prop}
    (h : Reached origin count done world) (hduring : during world)
    (hfail : ∀ choice world', script count = some choice → choice.fault = true →
      Reached origin (count + 1) done world' → after world' (.error .store))
    (hok : ∀ choice world', script count = some choice → choice.fault = false →
      Reached origin (count + 1) done world' →
        after world' (.ok (choice.arrange.1 ((done.foldl enact origin.state).dueBefore time)))) :
    (storeDueBefore time).Spec perform (Scripted script origin) during after world := by
  refine fallible_spec (.dueBefore time) (fun reply => reply)
    (fun choice => choice.arrange.1 (world.state.dueBefore time)) none
    (fun choice => ?_) h hduring hfail (fun choice world' hturn hfault hworld' => ?_)
  · cases hfault : choice.fault <;> simp [answer, deed?, hfault]
  · rw [Option.toList_none, List.append_nil] at hworld'
    rw [h.state]
    exact hok choice world' hturn hfault hworld'

section Deeds

variable {after : World → Except Failure Unit → Prop}

theorem storeUpsert_spec {slot : Slot} (h : Reached origin count done world)
    (hduring : during world)
    (hfail : ∀ choice world', script count = some choice → choice.fault = true →
      Reached origin (count + 1) done world' → after world' (.error .store))
    (hok : ∀ choice world', script count = some choice → choice.fault = false →
      Reached origin (count + 1) (done ++ [.stored slot]) world' → after world' (.ok ())) :
    (storeUpsert slot).Spec perform (Scripted script origin) during after world := by
  refine fallible_spec (.upsert slot) (fun reply => reply) (fun _ => ()) (some (.stored slot))
    (fun choice => ?_) h hduring hfail hok
  cases hfault : choice.fault <;> simp [answer, deed?, hfault]

theorem append_spec {entry : AuditEntry} (h : Reached origin count done world)
    (hduring : during world)
    (hfail : ∀ choice world', script count = some choice → choice.fault = true →
      Reached origin (count + 1) done world' → after world' (.error .audit))
    (hok : ∀ choice world', script count = some choice → choice.fault = false →
      Reached origin (count + 1) (done ++ [.audited entry]) world' → after world' (.ok ())) :
    (append entry).Spec perform (Scripted script origin) during after world := by
  refine fallible_spec (.append entry) (fun reply => reply) (fun _ => ()) (some (.audited entry))
    (fun choice => ?_) h hduring hfail hok
  cases hfault : choice.fault <;> simp [answer, deed?, hfault]

theorem publish_spec {message : Message} (h : Reached origin count done world)
    (hduring : during world)
    (hfail : ∀ choice world', script count = some choice → choice.fault = true →
      Reached origin (count + 1) done world' → after world' (.error .bus))
    (hok : ∀ choice world', script count = some choice → choice.fault = false →
      Reached origin (count + 1) (done ++ [.published message]) world' → after world' (.ok ())) :
    (publish message).Spec perform (Scripted script origin) during after world := by
  refine fallible_spec (.publish message) (fun reply => reply) (fun _ => ())
    (some (.published message)) (fun choice => ?_) h hduring hfail hok
  cases hfault : choice.fault <;> simp [answer, deed?, hfault]

end Deeds

end Calls

/-! ## The handler follows its plan -/

/-- Some component fails at some call. -/
def Faulty (script : Script Choice) : Prop :=
  ∃ index choice, script index = some choice ∧ choice.fault = true

/-- The acceptance window is checked at the first clock reading. -/
def FirstClock (script : Script Choice) (accepted : Instant) : Prop :=
  ∀ choice, script 0 = some choice → accepted = choice.clock

theorem firstClock_exists (script : Script Choice) : ∃ accepted, FirstClock script accepted := by
  cases hturn : script 0 with
  | none => exact ⟨0, fun choice h => by rw [hturn] at h; cases h⟩
  | some choice =>
      exact ⟨choice.clock, fun choice' h => by rw [hturn] at h; cases h; rfl⟩

theorem get_storedAfter (slots : SlotTable) (slot : Slot) :
    (slots.put slot).get slot.key = some (storedAfter slots slot) := by
  rw [SlotTable.get_put_self]
  rfl

section Handler

variable {script : Script Choice} {origin world : World} {count : Nat} {done : List Deed}
variable {during : World → Prop}

/-- `accepts` answers as `admits` does at the first clock reading. -/
theorem accepts_spec (machine : Machine) (arrival : Arrival)
    {after : World → Except Failure Bool → Prop}
    (hduring : ∀ world count, Reached origin count [] world → during world)
    (herror : ∀ world count cause, (∀ accepted, machine.admits accepted arrival = .error cause) →
      Reached origin count [] world → after world (.error (.slot cause)))
    (hout : ∀ world count accepted, FirstClock script accepted →
      machine.admits accepted arrival = .error (.outsideWindow arrival.valueDate arrival.clientId
        (machine.windowDays arrival.clientId)) →
      Reached origin count [] world → after world (.ok false))
    (hin : ∀ world count accepted, FirstClock script accepted →
      machine.admits accepted arrival = machine.expectation arrival →
      Reached origin count [] world → after world (.ok true)) :
    (machine.accepts arrival.clientId arrival.valueDate).Spec perform (Scripted script origin)
      during after origin := by
  have horigin := Reached.origin origin
  refine Spec.bind (Spec.ofExcept ?_)
  cases hday : parseDate arrival.valueDate with
  | error cause =>
      refine herror _ _ cause (fun accepted => ?_) horigin
      rw [Machine.admits, hday]
      rfl
  | ok valueDay =>
  refine Spec.bind (Spec.ofExcept ?_)
  cases hcalendar : machine.calendarFor arrival.clientId with
  | error cause =>
      refine herror _ _ cause (fun accepted => ?_) horigin
      rw [Machine.admits, hday, hcalendar]
      rfl
  | ok calendar =>
  refine Spec.bind (now_spec horigin (hduring _ _ horigin) fun choice world hturn hworld => ?_)
  have hclock : FirstClock script choice.clock := by
    intro choice' hchoice'
    rw [hturn] at hchoice'
    cases hchoice'
    rfl
  change after world (.ok (machine.inWindow calendar arrival.clientId valueDay _))
  cases hwindow : machine.inWindow calendar arrival.clientId valueDay choice.clock.truncate with
  | false =>
      refine hout _ _ choice.clock hclock ?_ hworld
      rw [Machine.admits, hday, hcalendar]
      exact if_neg (by rw [hwindow]; exact Bool.false_ne_true)
  | true =>
      refine hin _ _ choice.clock hclock ?_ hworld
      rw [Machine.admits, hday, hcalendar]
      exact if_pos hwindow

theorem findOrOpen_spec (machine : Machine) (arrival : Arrival) (expectation : Expectation)
    {after : World → Except Failure Slot → Prop} (h : Reached origin count [] world)
    (hduring : ∀ world count, Reached origin count [] world → during world)
    (hfault : ∀ world count, Reached origin count [] world → Faulty script →
      after world (.error .store))
    (herror : ∀ world count cause,
      machine.slotFor origin.state 0 arrival expectation = .error cause →
      Reached origin count [] world → after world (.error (.slot cause)))
    (hok : ∀ world count opened slot,
      machine.slotFor origin.state opened arrival expectation = .ok slot →
      Reached origin count [] world → after world (.ok slot)) :
    (machine.findOrOpen arrival expectation).Spec perform (Scripted script origin)
      during after world := by
  refine Spec.bind (storeGet_spec h (hduring _ _ h) ?_ ?_)
  · intro choice world' hturn hbad hworld'
    exact hfault _ _ hworld' ⟨_, _, hturn, hbad⟩
  intro choice world' hturn hgood hworld'
  have hget : (List.foldl enact origin.state []).get arrival.key = origin.state.get arrival.key :=
    rfl
  rw [hget]
  cases hstored : origin.state.get arrival.key with
  | some slot =>
      refine hok _ _ 0 slot ?_ hworld'
      rw [Machine.slotFor, hstored]
  | none =>
      refine Spec.bind (Spec.ofExcept ?_)
      cases hdeadline : machine.deadlineFor arrival.clientId arrival.valueDate with
      | error cause =>
          refine herror _ _ cause ?_ hworld'
          rw [Machine.slotFor, hstored, hdeadline]
          rfl
      | ok deadline =>
          refine Spec.bind (now_spec hworld' (hduring _ _ hworld')
            fun choice' world'' hturn' hworld'' => ?_)
          refine hok _ _ choice'.clock _ ?_ hworld''
          rw [Machine.slotFor, hstored, hdeadline]
          rfl

theorem apply_spec (machine : Machine) (arrival : Arrival)
    {after : World → Except Failure Outcome → Prop}
    (hduring : ∀ world count, Reached origin count [] world → during world)
    (hfault : ∀ world count, Reached origin count [] world → Faulty script →
      after world (.error .store))
    (herror : ∀ world count accepted opened cause, FirstClock script accepted →
      machine.route origin.state accepted opened arrival = .error cause →
      Reached origin count [] world → after world (.error (.slot cause)))
    (hok : ∀ world count accepted opened outcome, FirstClock script accepted →
      machine.route origin.state accepted opened arrival = .ok outcome →
      Reached origin count [.stored outcome.slot] world → after world (.ok outcome)) :
    (machine.apply arrival).Spec perform (Scripted script origin) during after origin := by
  obtain ⟨early, hearly⟩ := firstClock_exists script
  refine Spec.bind (accepts_spec machine arrival hduring ?_ ?_ ?_)
  · intro world count cause hadmits hworld
    refine herror _ _ early 0 cause hearly ?_ hworld
    rw [Machine.route, hadmits]
    rfl
  · intro world count accepted hclock hadmits hworld
    refine herror _ _ accepted 0 _ hclock ?_ hworld
    rw [Machine.route, hadmits]
    rfl
  intro world count accepted hclock hadmits hworld
  change Spec _ _ _ _ (ofExcept _ >>= _) _
  refine Spec.bind (Spec.ofExcept ?_)
  cases hexpectation : machine.expectation arrival with
  | error cause =>
      refine herror _ _ accepted 0 cause hclock ?_ hworld
      rw [Machine.route, hadmits, hexpectation]
      rfl
  | ok expectation =>
  refine Spec.bind (findOrOpen_spec machine arrival expectation hworld hduring hfault ?_ ?_)
  · intro world' count' cause hslot hworld'
    refine herror _ _ accepted 0 cause hclock ?_ hworld'
    rw [Machine.route, hadmits, hexpectation]
    change (machine.slotFor _ _ _ _ >>= _) = _
    rw [hslot]
    rfl
  intro world' count' opened slot hslot hworld'
  have hroute : machine.route origin.state accepted opened arrival = slot.receive arrival := by
    rw [Machine.route, hadmits, hexpectation]
    change (machine.slotFor _ _ _ _ >>= _) = _
    rw [hslot]
    rfl
  refine Spec.bind (Spec.ofExcept ?_)
  cases hreceive : slot.receive arrival with
  | error cause => exact herror _ _ accepted opened cause hclock (hroute.trans hreceive) hworld'
  | ok outcome =>
      refine Spec.bind (storeUpsert_spec hworld' (hduring _ _ hworld') ?_ ?_)
      · intro choice world'' hturn hbad hworld''
        exact hfault _ _ hworld'' ⟨_, _, hturn, hbad⟩
      · intro choice world'' hturn hgood hworld''
        exact hok _ _ accepted opened outcome hclock (hroute.trans hreceive) hworld''

theorem voidPrior_spec {classified : ArrivalClassified} {outcome : Outcome} {base : List Deed}
    {after : World → Except Failure Unit → Prop} (h : Reached origin count base world)
    (hduring : ∀ world count, Reached origin count base world → during world)
    (hfault : ∀ world cause, during world → Faulty script → after world (.error cause))
    (hok : ∀ world count voided, Reached origin count (base ++ voided) world →
      (∃ time, ∀ readings : Readings, readings.voided = time →
        voidDeeds classified outcome readings = voided) → after world (.ok ())) :
    (voidPrior classified outcome).Spec perform (Scripted script origin) during after world := by
  unfold voidPrior
  by_cases hsupersedes : outcome.supersedes ≠ ""
  · rw [if_pos hsupersedes]
    refine Spec.bind (now_spec h (hduring _ _ h) fun choice world' hturn hworld' => ?_)
    refine publish_spec hworld' (hduring _ _ hworld') ?_ ?_
    · intro choice' world'' hturn' hbad hworld''
      exact hfault _ _ (hduring _ _ hworld'') ⟨_, _, hturn', hbad⟩
    · intro choice' world'' hturn' hgood hworld''
      refine hok _ _ _ hworld'' ⟨choice.clock, fun readings htime => ?_⟩
      rw [voidDeeds, if_pos hsupersedes, htime]
  · rw [if_neg hsupersedes]
    refine hok _ _ [] (by rwa [List.append_nil]) ⟨0, fun readings _ => ?_⟩
    rw [voidDeeds, if_neg hsupersedes]

theorem foldl_enact_published (slots : SlotTable) (done : List Deed) (message : Message) :
    (done ++ [Deed.published message]).foldl enact slots = done.foldl enact slots := by
  rw [List.foldl_append]
  rfl

theorem foldl_enact_voidDeeds (slots : SlotTable) (done : List Deed)
    (classified : ArrivalClassified) (outcome : Outcome) (readings : Readings) :
    (done ++ voidDeeds classified outcome readings).foldl enact slots = done.foldl enact slots := by
  unfold voidDeeds
  split
  · exact foldl_enact_published _ _ _
  · rw [List.append_nil]

theorem recordAssignment_spec {key : Key} {assignmentId : String} {base : List Deed}
    {stored : Slot} {after : World → Except Failure Unit → Prop}
    (h : Reached origin count base world)
    (hstored : (base.foldl enact origin.state).get key = some stored)
    (hduring : ∀ world count, Reached origin count base world → during world)
    (hfault : ∀ world cause, during world → Faulty script → after world (.error cause))
    (hok : ∀ world count, Reached origin count (base ++ [.stored (stamped stored assignmentId)])
      world → after world (.ok ())) :
    (Machine.recordAssignment key assignmentId).Spec perform (Scripted script origin)
      during after world := by
  refine Spec.bind (storeGet_spec h (hduring _ _ h) ?_ ?_)
  · intro choice world' hturn hbad hworld'
    exact hfault _ _ (hduring _ _ hworld') ⟨_, _, hturn, hbad⟩
  intro choice world' hturn hgood hworld'
  rw [hstored]
  refine storeUpsert_spec hworld' (hduring _ _ hworld') ?_ ?_
  · intro choice' world'' hturn' hbad hworld''
    exact hfault _ _ (hduring _ _ hworld'') ⟨_, _, hturn', hbad⟩
  · intro choice' world'' hturn' hgood' hworld''
    exact hok _ _ hworld''

theorem assign_spec {classified : ArrivalClassified} {outcome : Outcome} {base : List Deed}
    {stored : Slot} {after : World → Except Failure Unit → Prop}
    (h : Reached origin count base world)
    (hstored : (base.foldl enact origin.state).get outcome.slot.key = some stored)
    (hduring : ∀ world count done readings, Reached origin count done world →
      done <+: base ++ assignDeeds classified outcome stored readings → during world)
    (hfault : ∀ world cause, during world → Faulty script → after world (.error cause))
    (hok : ∀ world count readings,
      Reached origin count (base ++ assignDeeds classified outcome stored readings) world →
        after world (.ok ())) :
    (assign classified outcome).Spec perform (Scripted script origin) during after world := by
  have hbase : ∀ world count, Reached origin count base world → during world :=
    fun world count hworld =>
      hduring world count base ⟨0, 0, 0, default, 0⟩ hworld (List.prefix_append _ _)
  refine Spec.bind (voidPrior_spec h hbase hfault ?_)
  rintro world1 count1 voided h1 ⟨time, hvoided⟩
  have hdeeds : ∀ readings : Readings, readings.voided = time →
      base ++ assignDeeds classified outcome stored readings = base ++ voided ++
        [.published (assignedMessage classified outcome readings.id.text readings.emitted),
          .stored (stamped stored readings.id.text),
          .audited (berthAssignedEntry classified outcome readings.id.text)] := by
    intro readings htime
    rw [assignDeeds, hvoided readings htime, List.append_assoc]
  have hduring1 : ∀ world count, Reached origin count (base ++ voided) world → during world := by
    intro world count hworld
    refine hduring world count _ ⟨0, 0, time, default, 0⟩ hworld ?_
    rw [hdeeds _ rfl]
    exact List.prefix_append _ _
  refine Spec.bind (newId_spec h1 (hduring1 _ _ h1) fun choice2 world2 hturn2 h2 => ?_)
  refine Spec.bind (now_spec h2 (hduring1 _ _ h2) fun choice3 world3 hturn3 h3 => ?_)
  have hdeeds3 := hdeeds ⟨0, 0, time, choice2.id, choice3.clock⟩ rfl
  refine Spec.bind (publish_spec h3 (hduring1 _ _ h3) ?_ ?_)
  · intro choice4 world4 hturn4 hbad h4
    exact hfault _ _ (hduring1 _ _ h4) ⟨_, _, hturn4, hbad⟩
  intro choice4 world4 hturn4 hgood h4
  have hduring4 : ∀ world count, Reached origin count
      (base ++ voided ++ [Deed.published (assignedMessage classified outcome choice2.id.text
        choice3.clock)]) world → during world := by
    intro world count hworld
    refine hduring world count _ ⟨0, 0, time, choice2.id, choice3.clock⟩ hworld ?_
    rw [hdeeds3]
    exact (List.prefix_append_right_inj _).mpr ⟨_, rfl⟩
  have hstored4 : ((base ++ voided ++ [Deed.published (assignedMessage classified outcome
      choice2.id.text choice3.clock)]).foldl enact origin.state).get outcome.slot.key =
      some stored := by
    rw [foldl_enact_published, ← hvoided ⟨0, 0, time, default, 0⟩ rfl, foldl_enact_voidDeeds]
    exact hstored
  refine Spec.bind (recordAssignment_spec h4 hstored4 hduring4 hfault ?_)
  intro world5 count5 h5
  have hduring5 : ∀ world count, Reached origin count
      (base ++ voided ++ [Deed.published (assignedMessage classified outcome choice2.id.text
        choice3.clock)] ++ [Deed.stored (stamped stored choice2.id.text)]) world →
      during world := by
    intro world count hworld
    refine hduring world count _ ⟨0, 0, time, choice2.id, choice3.clock⟩ hworld ?_
    rw [hdeeds3, List.append_assoc]
    exact (List.prefix_append_right_inj _).mpr ⟨_, rfl⟩
  refine append_spec h5 (hduring5 _ _ h5) ?_ ?_
  · intro choice6 world6 hturn6 hbad h6
    exact hfault _ _ (hduring5 _ _ h6) ⟨_, _, hturn6, hbad⟩
  · intro choice6 world6 hturn6 hgood6 h6
    refine hok world6 (count5 + 1) ⟨0, 0, time, choice2.id, choice3.clock⟩ ?_
    rw [hdeeds3]
    simpa only [List.append_assoc, List.cons_append, List.nil_append] using h6

/-- What follows the routing of an arrival performs the rest of its deeds. -/
theorem routed_spec {classified : ArrivalClassified} {outcome : Outcome}
    {after : World → Except Failure Unit → Prop}
    (h : Reached origin count [.stored outcome.slot] world)
    (hduring : ∀ world count done readings, Reached origin count done world →
      done <+: routedDeeds origin.state classified outcome readings → during world)
    (hfault : ∀ world cause, during world → Faulty script → after world (.error cause))
    (hok : ∀ world count readings,
      Reached origin count (routedDeeds origin.state classified outcome readings) world →
        after world (.ok ())) :
    (routed classified outcome).Spec perform (Scripted script origin) during after world := by
  have hfirst : ∀ world count, Reached origin count [.stored outcome.slot] world →
      during world :=
    fun world count hworld => hduring world count _ ⟨0, 0, 0, default, 0⟩ hworld ⟨_, rfl⟩
  refine Spec.bind (append_spec h (hfirst _ _ h) ?_ ?_)
  · intro choice world' hturn hbad hworld'
    exact hfault _ _ (hfirst _ _ hworld') ⟨_, _, hturn, hbad⟩
  intro choice world' hturn hgood hworld'
  change Spec _ _ _ _ (ite _ _ _) _
  cases hassign : outcome.assign with
  | false =>
      refine hok _ (count + 1) ⟨0, 0, 0, default, 0⟩ ?_
      rw [routedDeeds, hassign]
      exact hworld'
  | true =>
      have hdeeds : ∀ readings, routedDeeds origin.state classified outcome readings =
          [.stored outcome.slot, .audited (slotUpdated (arrivalOf classified) outcome)] ++
            assignDeeds classified outcome (storedAfter origin.state outcome.slot) readings := by
        intro readings
        rw [routedDeeds, hassign]
        rfl
      refine assign_spec hworld' (get_storedAfter origin.state outcome.slot) ?_ hfault ?_
      · intro world'' count'' done readings hworld'' hdone
        refine hduring _ _ done readings hworld'' ?_
        rw [hdeeds]
        exact hdone
      · intro world'' count'' readings hworld''
        refine hok _ count'' readings ?_
        rw [hdeeds]
        exact hworld''

/-- Wherever it is stopped, the handler has performed a prefix of its plan. -/
def Underway (script : Script Choice) (origin : World)
    (plan : Readings → List Deed × Except Failure Unit) (world : World) : Prop :=
  ∃ readings count done, FirstClock script readings.accepted ∧
    Reached origin count done world ∧ done <+: (plan readings).1

/-- At its end the handler has performed its plan, unless a component failed. -/
def Finished (script : Script Choice) (origin : World)
    (plan : Readings → List Deed × Except Failure Unit) (world : World)
    (result : Except Failure Unit) : Prop :=
  (∃ readings count, FirstClock script readings.accepted ∧
    Reached origin count (plan readings).1 world ∧ result = (plan readings).2) ∨
  (Underway script origin plan world ∧ Faulty script ∧ ∃ cause, result = .error cause)

theorem Underway.of_plan {plan : Readings → List Deed × Except Failure Unit}
    {readings : Readings} {deeds : List Deed} {result : Except Failure Unit}
    (hclock : FirstClock script readings.accepted) (hplan : plan readings = (deeds, result))
    (hworld : Reached origin count done world) (hdone : done <+: deeds) :
    Underway script origin plan world :=
  ⟨readings, count, done, hclock, hworld, by rwa [hplan]⟩

theorem Finished.of_plan {plan : Readings → List Deed × Except Failure Unit}
    {readings : Readings} {deeds : List Deed} {result : Except Failure Unit}
    (hclock : FirstClock script readings.accepted) (hplan : plan readings = (deeds, result))
    (hworld : Reached origin count deeds world) :
    Finished script origin plan world result :=
  .inl ⟨readings, count, hclock, by rwa [hplan], by rw [hplan]⟩

theorem handle_spec (machine : Machine) (message : Option ArrivalClassified) :
    (handle machine message).Spec perform (Scripted script origin)
      (Underway script origin fun readings => handlePlan machine origin.state readings message)
      (Finished script origin fun readings => handlePlan machine origin.state readings message)
      origin := by
  obtain ⟨early, hearly⟩ := firstClock_exists script
  have hstart := Reached.origin origin
  cases message with
  | none => exact .inl ⟨⟨early, 0, 0, default, 0⟩, 0, hearly, hstart, rfl⟩
  | some classified =>
  rw [handle]
  by_cases hdisposition : classified.disposition ≠ .dispatched
  · rw [if_pos hdisposition]
    refine .inl ⟨⟨early, 0, 0, default, 0⟩, 0, hearly, ?_, ?_⟩
    · simpa only [handlePlan, if_pos hdisposition] using hstart
    · simp only [handlePlan, if_pos hdisposition]
  rw [if_neg hdisposition]
  have hduring : ∀ world count, Reached origin count [] world →
      Underway script origin (fun readings => handlePlan machine origin.state readings
        (some classified)) world :=
    fun world count hworld =>
      ⟨⟨early, 0, 0, default, 0⟩, count, [], hearly, hworld, List.nil_prefix⟩
  refine Spec.bind (Spec.attempt (apply_spec machine (arrivalOf classified) hduring ?_ ?_ ?_))
  · intro world count hworld hbad
    exact .inr ⟨hduring _ _ hworld, hbad, _, rfl⟩
  · intro world count accepted opened cause hclock hroute hworld
    have hplan : handlePlan machine origin.state ⟨accepted, opened, 0, default, 0⟩
        (some classified) =
          if cause.isOutsideWindow then
            ([.audited (slotRejected (arrivalOf classified) cause)], .ok ())
          else ([], .error (.slot cause)) := by
      simp only [handlePlan, if_neg hdisposition, hroute]
    change Spec _ _ _ _ (ite _ _ _) _
    cases hwindow : cause.isOutsideWindow with
    | true =>
        rw [hwindow, if_pos rfl] at hplan
        refine append_spec hworld (hduring _ _ hworld) ?_ ?_
        · intro choice world' hturn hbad hworld'
          exact .inr ⟨hduring _ _ hworld', ⟨_, _, hturn, hbad⟩, _, rfl⟩
        · intro choice world' hturn hgood hworld'
          exact .of_plan hclock hplan hworld'
    | false =>
        rw [hwindow, if_neg Bool.false_ne_true] at hplan
        exact .of_plan hclock hplan hworld
  · intro world count accepted opened outcome hclock hroute hworld
    have hplan : ∀ readings : Readings,
        handlePlan machine origin.state { readings with accepted, opened } (some classified) =
          (routedDeeds origin.state classified outcome readings, .ok ()) := by
      intro readings
      simp only [handlePlan, if_neg hdisposition, hroute]
      rfl
    refine routed_spec hworld ?_ ?_ ?_
    · intro world' count' done readings hworld' hdone
      exact .of_plan hclock (hplan readings) hworld' hdone
    · intro world' cause hworld' hbad
      exact .inr ⟨hworld', hbad, cause, rfl⟩
    · intro world' count' readings hworld'
      exact .of_plan hclock (hplan readings) hworld'

end Handler

end Harbormaster.Berthmaster
