import Harbormaster.Berthmaster.Run

/-! # The audit trail of assignments

An assignment is published before it is stamped onto its slot and before it is
recorded in the audit log. A handler that fails in between is delivered its
message again, but it then assigns under a new id: the one that was published
is never recorded.
-/

namespace Harbormaster.Berthmaster

open Effect Program

/-- The id of the assignment that a message announces. -/
def Message.assigned? (message : Message) : Option String :=
  match message.value with
  | .berthAssigned assigned => some assigned.assignmentId
  | _ => none

def AuditValue.text? : AuditValue → Option String
  | .text value => some value
  | _ => none

/-- The id of the assignment that an audit entry records. -/
def AuditEntry.recorded? (entry : AuditEntry) : Option String :=
  if entry.decisionType = "BERTH_ASSIGNED" then
    (entry.outcome.lookup "assignment_id").bind AuditValue.text?
  else none

/-- The ids of the assignments that were published. -/
def publishedIds (journal : List Deed) : List String :=
  journal.filterMap fun
    | .published message => Message.assigned? message
    | _ => none

/-- The ids of the assignments that were recorded in the audit log. -/
def recordedIds (journal : List Deed) : List String :=
  journal.filterMap fun
    | .audited entry => AuditEntry.recorded? entry
    | _ => none

@[simp] theorem publishedIds_append (journal rest : List Deed) :
    publishedIds (journal ++ rest) = publishedIds journal ++ publishedIds rest :=
  List.filterMap_append

@[simp] theorem recordedIds_append (journal rest : List Deed) :
    recordedIds (journal ++ rest) = recordedIds journal ++ recordedIds rest :=
  List.filterMap_append

/-- The call at this position of a turn published an assignment. -/
def AnnouncedAt (origin world : World) (index : Nat) (id : String) : Prop :=
  ∃ message, world.calls[origin.calls.length + index]? = some ⟨.publish message, some ()⟩ ∧
    Message.assigned? message = some id

variable (machine : Machine)

/-- Once an assignment is published, the three calls that follow do not fail: the
slot is read and stamped, and the assignment is recorded. -/
def Settles (world : World) (turn : Turn) : Prop :=
  ∀ index id, AnnouncedAt world (advance machine world turn) index id →
    ∀ later, index < later → later ≤ index + 3 → GoodAt turn.2 later

/-! ## After the publish -/

section Closing

variable {script : Script Choice} {origin world : World} {index extra : Nat} {id : String}

/-- An assignment was published at a position of the turn, and `extra` calls that
publish nothing were made since. -/
structure Pending (origin world : World) (index : Nat) (id : String) (extra : Nat) : Prop where
  assigned : AnnouncedAt origin world index id
  length : world.calls.length = origin.calls.length + (index + 1 + extra)
  ids : publishedIds world.journal = publishedIds origin.journal ++ [id]

theorem journal_perform (world : World) (choice : Choice) (request : Call) :
    (perform world choice request).1.journal = world.journal ++
      (deed? ⟨request, (answer world.state choice request).2⟩).toList := by
  have hreached := (Reached.origin world).perform choice request
  have hjournal := hreached.journal
  rw [List.nil_append] at hjournal
  exact hjournal

theorem Pending.perform (h : Pending origin world index id extra) (choice : Choice)
    {request : Call} (hsilent : ∀ message, request ≠ .publish message) :
    Pending origin (perform world choice request).1 index id (extra + 1) where
  assigned := by
    obtain ⟨message, hcall, hid⟩ := h.assigned
    refine ⟨message, ?_, hid⟩
    have hbound : origin.calls.length + index < world.calls.length := by
      rw [h.length]
      omega
    change (world.calls ++ [_])[origin.calls.length + index]? = _
    rw [List.getElem?_append_left hbound]
    exact hcall
  length := by
    change (world.calls ++ [_]).length = _
    rw [List.length_append, h.length]
    rfl
  ids := by
    rw [journal_perform, publishedIds_append, h.ids]
    have hnone : publishedIds (deed? ⟨request, (answer world.state choice request).2⟩).toList =
        [] := by
      cases request with
      | publish message => exact absurd rfl (hsilent message)
      | upsert slot => cases hfault : choice.fault <;> simp [answer, deed?, hfault, publishedIds]
      | append entry => cases hfault : choice.fault <;> simp [answer, deed?, hfault, publishedIds]
      | _ => rfl
    rw [hnone, List.append_nil]

theorem Pending.turn (h : Pending origin world index id extra) {choice : Choice} {request : Call}
    (hchoice : Scripted script origin world choice request) :
    script (index + 1 + extra) = some choice := by
  rw [Scripted, h.length, Nat.add_sub_cancel_left] at hchoice
  exact hchoice

/-- The three calls after the publish do not fail. -/
def GoodAfter (script : Script Choice) (index : Nat) : Prop :=
  ∀ later, index < later → later ≤ index + 3 → GoodAt script later

theorem GoodAfter.fault_eq (h : GoodAfter script index) {extra : Nat} (hextra : extra < 3)
    {choice : Choice} (hturn : script (index + 1 + extra) = some choice) :
    choice.fault = false := by
  obtain ⟨choice', hturn', hgood⟩ := h (index + 1 + extra) (by omega) (by omega)
  cases hturn.symm.trans hturn'
  exact hgood

/-- At the end of a turn that published an assignment, it is recorded unless one
of the three calls failed. -/
def Closed (script : Script Choice) (origin world : World) (index : Nat) (id : String) : Prop :=
  ∃ extra, Pending origin world index id extra ∧
    (GoodAfter script index → id ∈ recordedIds world.journal)

theorem Pending.closed_of_fault (h : Pending origin world index id (extra + 1))
    (hextra : extra < 3) {choice : Choice} (hturn : script (index + 1 + extra) = some choice)
    (hbad : choice.fault = true) : Closed script origin world index id := by
  refine ⟨extra + 1, h, fun hgood => ?_⟩
  rw [hgood.fault_eq hextra hturn] at hbad
  cases hbad

/-- What is still to be done about an assignment that was published. -/
def closing (classified : ArrivalClassified) (outcome : Outcome) (assignmentId : String) :
    Service Unit := do
  Machine.recordAssignment outcome.slot.key assignmentId
  append (berthAssignedEntry classified outcome assignmentId)

/-- A call after the publish: where it fails, the turn ends. -/
theorem Pending.fallible {α : Type} {cause : Failure} {request : Call}
    {after : World → Except Failure α → Prop} (reply : Reply request → Option α)
    (h : Pending origin world index id extra) (hextra : extra < 3)
    (hsilent : ∀ message, request ≠ .publish message)
    (hreply : ∀ choice, reply (answer world.state choice request).2 = none → choice.fault = true)
    (hfail : ∀ world, Closed script origin world index id → after world (.error cause))
    (hok : ∀ choice value, reply (answer world.state choice request).2 = some value →
      Pending origin (Berthmaster.perform world choice request).1 index id (extra + 1) →
      after (Berthmaster.perform world choice request).1 (.ok value)) :
    ((ask request >>= fun result => orFail cause (reply result) : Service α)).Spec
      Berthmaster.perform (Scripted script origin)
      (fun world => ∃ extra < 3, Pending origin world index id extra) after world := by
  refine ⟨⟨extra, hextra, h⟩, fun choice hchoice => ?_⟩
  have hturn := h.turn hchoice
  have hnext := h.perform choice hsilent
  change (orFail cause (reply (answer world.state choice request).2) : Service α).Spec _ _ _ _ _
  cases hvalue : reply (answer world.state choice request).2 with
  | none => exact hfail _ (hnext.closed_of_fault hextra hturn (hreply choice hvalue))
  | some value => exact hok choice value hvalue hnext

/-- After the publish, an assignment is recorded unless one of the calls fails. -/
theorem closing_spec {classified : ArrivalClassified} {outcome : Outcome} {stored : Slot}
    (h : Pending origin world index id 0)
    (hstored : world.state.get outcome.slot.key = some stored) :
    (closing classified outcome id).Spec perform (Scripted script origin)
      (fun world => ∃ extra < 3, Pending origin world index id extra)
      (fun world _ => Closed script origin world index id) world := by
  have hlost : ∀ choice : Choice, ∀ {β : Type} {value : β},
      (if choice.fault then none else some value) = none → choice.fault = true := by
    intro choice β value hnone
    by_contra hgood
    rw [if_neg hgood] at hnone
    cases hnone
  refine Spec.bind (Spec.bind (h.fallible (fun reply => reply) (by omega)
    (fun _ => by simp : ∀ message, Call.get outcome.slot.key ≠ .publish message) ?_ ?_ ?_))
  · exact fun choice hnone => hlost choice hnone
  · exact fun _ hclosed => hclosed
  intro first value hvalue h1
  have hfound : value = some stored := by
    change (if first.fault then none else some (world.state.get outcome.slot.key)) = _ at hvalue
    split at hvalue
    next => cases hvalue
    next =>
      rw [hstored] at hvalue
      exact (Option.some.inj hvalue).symm
  subst hfound
  refine h1.fallible (fun reply => reply) (by omega)
    (fun _ => by simp : ∀ message, Call.upsert _ ≠ .publish message) ?_ ?_ ?_
  · intro choice hnone
    by_contra hgood
    simp [answer, hgood] at hnone
  · exact fun _ hclosed => hclosed
  intro second _ _ h2
  refine h2.fallible (fun reply => reply) (by omega)
    (fun _ => by simp : ∀ message, Call.append _ ≠ .publish message) ?_ ?_ ?_
  · exact fun choice hnone => hlost choice hnone
  · exact fun _ hclosed => hclosed
  intro third value hvalue h3
  refine ⟨3, h3, fun _ => ?_⟩
  have hgood : third.fault = false := by
    by_contra hbad
    rw [Bool.not_eq_false] at hbad
    simp [answer, hbad] at hvalue
  rw [journal_perform, recordedIds_append]
  apply List.mem_append_right
  have hrecorded : AuditEntry.recorded? (berthAssignedEntry classified outcome id) = some id := rfl
  simp [answer, deed?, hgood, recordedIds, hrecorded]

end Closing

/-! ## One turn -/

section Turns

variable {script : Script Choice} {origin world : World} {count : Nat} {done : List Deed}

/-- No assignment was published in the turn. -/
def Unannounced (origin world : World) : Prop :=
  publishedIds world.journal = publishedIds origin.journal

theorem Reached.unannounced (h : Reached origin count done world) (hdone : publishedIds done = []) :
    Unannounced origin world := by
  rw [Unannounced, h.journal, publishedIds_append, hdone, List.append_nil]

/-- Wherever a delivery is stopped, it has published nothing or is at one of the
three calls after the publish. -/
def Trailing (origin world : World) : Prop :=
  Unannounced origin world ∨ ∃ index id, ∃ extra < 3, Pending origin world index id extra

/-- At its end a delivery has published nothing, or what it published is recorded
unless one of the three calls failed. -/
def Trailed (script : Script Choice) (origin world : World) : Prop :=
  Unannounced origin world ∨ ∃ index id, Closed script origin world index id

theorem publishedIds_voidDeeds (classified : ArrivalClassified) (outcome : Outcome)
    (readings : Readings) : publishedIds (voidDeeds classified outcome readings) = [] := by
  unfold voidDeeds
  split <;> rfl

theorem publish_assigned_spec {classified : ArrivalClassified} {outcome : Outcome}
    {stored : Slot} {id : Ulid} {time : Instant} (h : Reached origin count done world)
    (hdone : publishedIds done = []) (hstored : world.state.get outcome.slot.key = some stored) :
    (publish (assignedMessage classified outcome id.text time) >>= fun _ =>
        closing classified outcome id.text).Spec perform (Scripted script origin)
      (Trailing origin) (fun world _ => Trailed script origin world) world := by
  have hquiet := h.unannounced hdone
  refine Spec.bind ⟨.inl hquiet, fun choice _ => ?_⟩
  have hjournal := journal_perform world choice
    (.publish (assignedMessage classified outcome id.text time))
  change (orFail .bus (if choice.fault then none else some ()) : Service Unit).Spec _ _ _ _ _
  cases hfault : choice.fault with
  | true =>
      refine .inl ?_
      rw [Unannounced, hjournal]
      simp only [answer, deed?, hfault, if_true, Option.toList_none, List.append_nil]
      exact hquiet
  | false =>
      have hpending : Pending origin (perform world choice
          (.publish (assignedMessage classified outcome id.text time))).1 count id.text 0 := by
        refine ⟨⟨assignedMessage classified outcome id.text time, ?_, rfl⟩, ?_, ?_⟩
        · change (world.calls ++ [_])[origin.calls.length + count]? = _
          rw [← h.calls, List.getElem?_concat_length]
          simp [hfault]
        · change (world.calls ++ [_]).length = _
          rw [List.length_append, h.calls]
          rfl
        · rw [hjournal, publishedIds_append, hquiet]
          simp only [answer, deed?, hfault, Bool.false_eq_true, if_false, Option.toList_some]
          rfl
      change (closing classified outcome id.text).Spec _ _ _ _ _
      refine Spec.mono (closing_spec hpending hstored) ?_ ?_
      · exact fun world hopen => .inr ⟨count, id.text, hopen⟩
      · exact fun world _ hclosed => .inr ⟨count, id.text, hclosed⟩

theorem assign_trail {classified : ArrivalClassified} {outcome : Outcome} {stored : Slot}
    (h : Reached origin count done world) (hdone : publishedIds done = [])
    (hstored : (done.foldl enact origin.state).get outcome.slot.key = some stored) :
    (assign classified outcome).Spec perform (Scripted script origin) (Trailing origin)
      (fun world _ => Trailed script origin world) world := by
  have hquiet : ∀ world count, Reached origin count done world → Unannounced origin world :=
    fun world count hworld => hworld.unannounced hdone
  refine Spec.bind (Spec.mono (voidPrior_spec h hquiet (fun _ _ hquiet _ => .inl hquiet) ?_)
    (fun _ hquiet => .inl hquiet) fun _ _ hafter => hafter)
  rintro world1 count1 voided h1 ⟨time, hvoided⟩
  have hvoids := hvoided ⟨0, 0, time, default, 0⟩ rfl
  have hdone1 : publishedIds (done ++ voided) = [] := by
    rw [publishedIds_append, hdone, ← hvoids, publishedIds_voidDeeds]
    rfl
  have hstored1 : ((done ++ voided).foldl enact origin.state).get outcome.slot.key =
      some stored := by
    rw [← hvoids, foldl_enact_voidDeeds]
    exact hstored
  refine Spec.bind (newId_spec h1 (.inl (h1.unannounced hdone1)) fun choice2 world2 _ h2 => ?_)
  refine Spec.bind (now_spec h2 (.inl (h2.unannounced hdone1)) fun choice3 world3 _ h3 => ?_)
  have hstored3 : world3.state.get outcome.slot.key = some stored := by
    rw [h3.state]
    exact hstored1
  exact publish_assigned_spec h3 hdone1 hstored3

theorem handle_trail (message : Option ArrivalClassified) :
    (handle machine message).Spec perform (Scripted script origin) (Trailing origin)
      (fun world _ => Trailed script origin world) origin := by
  have hstart : ∀ world count, Reached origin count [] world → Unannounced origin world :=
    fun world count hworld => hworld.unannounced rfl
  cases message with
  | none => exact .inl rfl
  | some classified =>
  rw [handle]
  split
  next => exact .inl rfl
  next =>
  refine Spec.bind (Spec.attempt (apply_spec machine (arrivalOf classified)
    (fun world count hworld => .inl (hstart world count hworld)) ?_ ?_ ?_))
  · exact fun world count hworld _ => .inl (hstart world count hworld)
  · intro world count accepted opened cause _ _ hworld
    change Spec _ _ _ _ (ite _ _ _) _
    split
    next =>
      refine append_spec hworld (.inl (hstart _ _ hworld)) ?_ ?_
      · exact fun _ world' _ _ hworld' => .inl (hstart _ _ hworld')
      · exact fun _ world' _ _ hworld' => .inl (hworld'.unannounced rfl)
    next => exact .inl (hstart _ _ hworld)
  · intro world count accepted opened outcome _ _ hworld
    have hfirst : ∀ world count, Reached origin count [.stored outcome.slot] world →
        Unannounced origin world := fun world count hworld => hworld.unannounced rfl
    refine Spec.bind (append_spec hworld (.inl (hfirst _ _ hworld)) ?_ ?_)
    · exact fun _ world' _ _ hworld' => .inl (hfirst _ _ hworld')
    intro choice world' _ _ hworld'
    change Spec _ _ _ _ (ite _ _ _) _
    split
    next => exact assign_trail hworld' rfl (get_storedAfter origin.state outcome.slot)
    next => exact .inl (hworld'.unannounced rfl)

/-- After a sweep nothing more is announced. -/
theorem publishedIds_markDeeds (due : List Slot) : publishedIds (markDeeds due) = [] := by
  induction due with
  | nil => rfl
  | cons slot rest ih => exact ih

theorem publishedIds_alertDeeds (due : List Slot) (times : Nat → Instant) :
    publishedIds (alertDeeds due times) = [] := by
  induction due generalizing times with
  | nil => rfl
  | cons slot rest ih => exact ih _

theorem unannounced_sweeping (h : Sweeping origin world) : Unannounced origin world := by
  obtain ⟨due, count, index, times, _, hworld | hworld⟩ := h
  · exact hworld.unannounced (publishedIds_markDeeds _)
  · refine hworld.unannounced ?_
    rw [publishedIds_append, publishedIds_markDeeds, publishedIds_alertDeeds]
    rfl

/-- However it ends, a turn that settles records what it publishes. -/
theorem recorded_of_settles {world : World} {turn : Turn} (h : Settles machine world turn) :
    Unannounced world (advance machine world turn) ∨
      ∃ id, publishedIds (advance machine world turn).journal =
          publishedIds world.journal ++ [id] ∧
        id ∈ recordedIds (advance machine world turn).journal := by
  obtain ⟨step, script⟩ := turn
  cases step with
  | sweep => exact .inl (unannounced_sweeping (advance_sweep machine world script))
  | handle message =>
      have hspec : (Step.program machine (.handle message)).Spec perform (Scripted script world)
          (Trailing world) (fun world' _ => Trailed script world world') world :=
        handle_trail machine message
      rcases (execute_endsIn hspec).cases with ⟨hstopped, htrailing⟩ | ⟨result, htrailed⟩
      · rcases htrailing with hquiet | ⟨index, id, extra, hextra, hpending⟩
        · exact .inl hquiet
        · -- a turn that settles is not stopped at one of the three calls
          obtain ⟨count, hlength, hnone⟩ := script_of_stopped hstopped
          have hcount : world.calls.length + count = world.calls.length + (index + 1 + extra) :=
            hlength.symm.trans hpending.length
          obtain ⟨choice, hturn, _⟩ := h index id hpending.assigned count (by omega) (by omega)
          rw [hnone] at hturn
          cases hturn
      · rcases htrailed with hquiet | ⟨index, id, extra, hpending, hrecorded⟩
        · exact .inl hquiet
        · exact .inr ⟨id, hpending.ids, hrecorded (h index id hpending.assigned)⟩

end Turns

/-- What is in the journal stays there. -/
theorem journal_prefix (world : World) (turn : Turn) :
    world.journal <+: (advance machine world turn).journal := by
  obtain ⟨step, script⟩ := turn
  cases step with
  | sweep =>
      obtain ⟨due, count, index, times, _, hworld | hworld⟩ := advance_sweep machine world script
      · exact hworld.journal ▸ List.prefix_append _ _
      · exact hworld.journal ▸ List.prefix_append _ _
  | handle message =>
      obtain ⟨readings, count, done, _, hworld, _⟩ := advance_handle machine world script message
      exact hworld.journal ▸ List.prefix_append _ _

/-- In every run in which none of the three calls after the publish of an
assignment fails, every published assignment is recorded in the audit log. -/
theorem published_recorded (machine : Machine) (turns : List Turn)
    (hsettles : Along (advance machine) (Settles machine) World.initial turns) :
    ∀ id ∈ publishedIds (runAll machine World.initial turns).journal,
      id ∈ recordedIds (runAll machine World.initial turns).journal := by
  refine hsettles.invariant (motive := fun world => ∀ id ∈ publishedIds world.journal,
    id ∈ recordedIds world.journal) ?_ fun id h => absurd h List.not_mem_nil
  intro world turn hbefore hsettled id hid
  have hkept : ∀ id ∈ recordedIds world.journal,
      id ∈ recordedIds (advance machine world turn).journal := by
    intro id hrecorded
    obtain ⟨rest, hrest⟩ := journal_prefix machine world turn
    rw [← hrest, recordedIds_append]
    exact List.mem_append_left _ hrecorded
  rcases recorded_of_settles machine hsettled with hquiet | ⟨new, hids, hrecorded⟩
  · rw [hquiet] at hid
    exact hkept id (hbefore id hid)
  · rw [hids, List.mem_append, List.mem_singleton] at hid
    rcases hid with hold | rfl
    · exact hkept id (hbefore id hold)
    · exact hrecorded

/-- Both sides of a slot are delivered, and nothing fails. -/
def steadyTurns : List Turn :=
  [(.handle (some (sampleArrival "A1" .internalGl)), sampleScript sampleIdA),
    (.handle (some (sampleArrival "A2" .externalClient)), sampleScript sampleIdB)]

theorem published_recorded_steady :
    sampleIdB.text ∈ recordedIds (runAll sampleMachine World.initial steadyTurns).journal := by
  refine published_recorded sampleMachine steadyTurns ⟨?_, ?_, trivial⟩ _ (by decide +kernel)
  · exact fun _ _ _ later _ _ => sampleScript_steady sampleIdA later
  · exact fun _ _ _ later _ _ => sampleScript_steady sampleIdB later

/-- A script on which one call fails. -/
def failingScript (id : Ulid) (position : Nat) : Script Choice :=
  fun index => some { clock := sampleClock, id, fault := index = position }

/-- The slot cannot be read to stamp the first assignment onto it. -/
def unstampedTurns : List Turn :=
  [(.handle (some (sampleArrival "A1" .internalGl)), sampleScript sampleIdA),
    (.handle (some (sampleArrival "A2" .externalClient)), failingScript sampleIdA 7)]

/-- The message is redelivered and handled, and the first assignment is published
but never recorded. -/
theorem published_unrecorded :
    (execute sampleMachine (runAll sampleMachine World.initial unstampedTurns)
        (.handle (some (sampleArrival "A2" .externalClient)), sampleScript sampleIdB)).2 =
      .value () ∧
    ¬ ∀ id ∈ publishedIds (runAll sampleMachine World.initial (unstampedTurns ++
          [(.handle (some (sampleArrival "A2" .externalClient)), sampleScript sampleIdB)])).journal,
        id ∈ recordedIds (runAll sampleMachine World.initial (unstampedTurns ++
          [(.handle (some (sampleArrival "A2" .externalClient)),
            sampleScript sampleIdB)])).journal := by
  decide +kernel

end Harbormaster.Berthmaster
