import Harbormaster.Berthmaster.Sides
import Harbormaster.Berthmaster.SlotContract

/-! # One live assignment under crash and redelivery

The assignment is published before its id is stamped onto the slot. A delivery
that ends in between leaves a live assignment the slot does not know of, and the
next delivery for the slot voids nothing or something else. As long as every
delivery that completes a slot finds the live assignment stamped on it, at most
one assignment of each slot is live at every moment of a run.
-/

namespace Harbormaster.Berthmaster

open Effect Program Succession

/-- The stored slot is assigned and carries the live assignment of its key. -/
def Tracked (world : World) (key : Key) : Prop :=
  ∀ id ∈ live (berthLog key.text world.journal), ∃ slot, world.state.get key = some slot ∧
    slot.state = .stateAssigned ∧ slot.assignmentId = id

/-- A delivery that is accepted and completes a slot finds it tracked. -/
def Ready (machine : Machine) (world : World) : Turn → Prop
  | (.handle (some classified), script) =>
      classified.disposition = .dispatched → ∀ first, script 0 = some first →
        (∃ expectation, machine.admits first.clock (arrivalOf classified) = .ok expectation) →
          Completes world.state (arrivalOf classified) →
            Tracked world (arrivalOf classified).key
  | _ => True

/-- At every moment of the journal at most one assignment of a key is live. -/
structure OneLive (world : World) : Prop where
  live : ∀ partition moment, moment <+: world.journal →
    (live (berthLog partition moment)).length ≤ 1
  named : ∀ partition, ∀ id ∈ issued (berthLog partition world.journal), id ≠ ""

theorem oneLive_initial : OneLive World.initial where
  live partition moment hmoment := by
    rw [List.prefix_nil.mp hmoment]
    exact Nat.zero_le 1
  named partition id hid := absurd hid List.not_mem_nil

/-- A moment after some deeds lies before them or among them. -/
theorem moment_cases {moment journal done : List Deed} (h : moment <+: journal ++ done) :
    moment <+: journal ∨ ∃ taken, moment = journal ++ taken ∧ taken <+: done := by
  rcases List.prefix_or_prefix_of_prefix h (List.prefix_append journal done) with
    hbefore | ⟨taken, rfl⟩
  · exact .inl hbefore
  · exact .inr ⟨taken, rfl, (List.prefix_append_right_inj journal).mp h⟩

/-- What is added to a journal keeps one assignment live if every part of the
berth messages among it does. -/
theorem OneLive.extend {origin world : World} {count : Nat} {done : List Deed}
    (h : OneLive origin) (hworld : Reached origin count done world)
    (hlive : ∀ partition added, added <+: berthLog partition done →
      (Succession.live (berthLog partition origin.journal ++ added)).length ≤ 1)
    (hnamed : ∀ partition, ∀ id ∈ issued (berthLog partition done), id ≠ "") :
    OneLive world where
  live partition moment hmoment := by
    rw [hworld.journal] at hmoment
    rcases moment_cases hmoment with hbefore | ⟨taken, rfl, htaken⟩
    · exact h.live partition moment hbefore
    · rw [berthLog_append]
      exact hlive partition _ (berthLog_mono partition htaken)
  named partition id hid := by
    rw [hworld.journal, berthLog_append, issued_append, List.mem_append] at hid
    rcases hid with hid | hid
    · exact h.named partition id hid
    · exact hnamed partition id hid

/-- Deeds without berth messages keep one assignment live. -/
theorem OneLive.extend_silent {origin world : World} {count : Nat} {done : List Deed}
    (h : OneLive origin) (hworld : Reached origin count done world)
    (hsilent : ∀ partition, berthLog partition done = []) : OneLive world := by
  refine h.extend hworld ?_ ?_
  · intro partition added hadded
    rw [hsilent, List.prefix_nil] at hadded
    rw [hadded, List.append_nil]
    exact h.live partition _ List.prefix_rfl
  · intro partition id hid
    rw [hsilent] at hid
    exact absurd hid List.not_mem_nil

theorem issued_successor_subset {supersedes id other : String}
    {added : List (Entry String)} (hadded : added <+: successor supersedes id)
    (hother : other ∈ issued added) : other = id := by
  obtain ⟨rest, hrest⟩ := hadded
  have hissued : issued (added ++ rest) = [id] := by
    rw [hrest, successor]
    split <;> rfl
  rw [issued_append] at hissued
  have hmem : other ∈ issued added ++ issued rest := List.mem_append_left _ hother
  rw [hissued] at hmem
  exact List.mem_singleton.mp hmem

/-- Every live assignment of a tracked slot is the one stamped on it. -/
theorem Routed.stamped_of_live {machine : Machine} {origin : World} {accepted : Instant}
    {arrival : Arrival} {outcome : Outcome} {slot placed : Slot}
    (hrouted : Routed machine origin.state accepted arrival outcome slot placed)
    (htracked : Tracked origin arrival.key) {id : String}
    (hid : id ∈ live (berthLog arrival.key.text origin.journal)) :
    slot.state = .stateAssigned ∧ slot.assignmentId = id := by
  obtain ⟨stored, hstored, hstate, rfl⟩ := htracked id hid
  rcases hrouted.found with hfound | ⟨hnone, _⟩
  · rw [hstored] at hfound
    cases hfound
    exact ⟨hstate, rfl⟩
  · rw [hstored] at hnone
    cases hnone

/-- The void and the assignment that a routed arrival publishes keep one
assignment live, wherever they are cut off. -/
theorem length_live_successor {machine : Machine} {origin : World} {accepted : Instant}
    {arrival : Arrival} {outcome : Outcome} {slot placed : Slot} {id : String}
    {added : List (Entry String)}
    (h : OneLive origin)
    (hrouted : Routed machine origin.state accepted arrival outcome slot placed)
    (hassign : outcome.assign = true)
    (htracked : Tracked origin arrival.key)
    (hadded : added <+: successor outcome.supersedes id) :
    (Succession.live (berthLog arrival.key.text origin.journal ++ added)).length ≤ 1 := by
  have hlive := h.live arrival.key.text _ List.prefix_rfl
  have hsupersedes := hrouted.supersedes_eq
  rw [← hrouted.assign_eq, hassign, Bool.true_and] at hsupersedes
  -- Every live assignment is the one the outcome supersedes.
  have hprior : ∀ id ∈ Succession.live (berthLog arrival.key.text origin.journal),
      id = outcome.supersedes := by
    intro id hid
    obtain ⟨hstate, rfl⟩ := hrouted.stamped_of_live htracked hid
    rw [hsupersedes, if_pos (by simpa using hstate)]
  unfold successor at hadded
  split at hadded
  next hempty =>
    refine length_live_issue ?_ hadded
    rw [List.eq_nil_iff_forall_not_mem]
    intro id hid
    exact h.named _ id (mem_live.mp hid).1 ((hprior id hid).trans hempty)
  next => exact length_live_replace hprior hlive hadded

theorem OneLive.advance {machine : Machine} {world : World} {turn : Turn} (h : OneLive world)
    (hready : Ready machine world turn) : OneLive (advance machine world turn) := by
  obtain ⟨step, script⟩ := turn
  cases step with
  | sweep =>
      obtain ⟨due, count, index, times, _, hworld | hworld⟩ :=
        advance_sweep machine world script
      · exact h.extend_silent hworld fun partition => berthLog_markDeeds partition _
      · refine h.extend_silent hworld fun partition => ?_
        rw [berthLog_append, berthLog_markDeeds, berthLog_alertDeeds]
        rfl
  | handle message =>
      cases hfirst : script 0 with
      | none =>
          have hsame : Berthmaster.advance machine world (.handle message, script) = world :=
            run_of_none _ hfirst world
          rw [hsame]
          exact h
      | some first =>
      obtain ⟨readings, count, done, hclock, hworld, hdone⟩ :=
        advance_handle machine world script message
      have hadded : ∀ partition, berthLog partition done <+:
          berthLog partition (handlePlan machine world.state readings message).1 :=
        fun partition => berthLog_mono partition hdone
      refine h.extend hworld ?_ ?_
      · intro partition added hprefix
        rcases berthLog_handlePlan partition machine world.state readings message with
          hnone | ⟨classified, outcome, slot, placed, rfl, hdispatched, hrouted, hassign, rfl,
            hlog⟩
        · have hempty := hprefix.trans (hadded partition)
          rw [hnone, List.prefix_nil] at hempty
          rw [hempty, List.append_nil]
          exact h.live partition _ List.prefix_rfl
        · have hsuccessor := hprefix.trans (hadded outcome.slot.key.text)
          rw [hlog] at hsuccessor
          have hadmitted := hrouted.admitted
          rw [hclock first hfirst] at hadmitted
          have htracked := hready hdispatched first hfirst hadmitted
            (hrouted.completes_iff.mpr hassign)
          rw [hrouted.slot_key]
          exact length_live_successor h hrouted hassign htracked hsuccessor
      · intro partition id hid
        rcases berthLog_handlePlan partition machine world.state readings message with
          hnone | ⟨_, outcome, _, _, _, _, _, _, _, hlog⟩
        · have hempty := hadded partition
          rw [hnone, List.prefix_nil] at hempty
          rw [hempty] at hid
          exact absurd hid List.not_mem_nil
        · rw [issued_successor_subset (hlog ▸ hadded partition) hid]
          exact readings.id.text_ne_empty

/-! ## Runs that stamp what they publish

A turn that ends right after the publish of its assignment is the only one that
leaves a live assignment the slot does not know of, as long as every delivered
arrival has an id.
-/

def Step.Named : Step → Prop
  | .handle (some classified) => classified.arrivalId ≠ ""
  | _ => True

instance : (step : Step) → Decidable step.Named
  | .handle (some classified) => inferInstanceAs (Decidable (classified.arrivalId ≠ ""))
  | .handle none => .isTrue trivial
  | .sweep => .isTrue trivial

def Deed.isAssignment : Deed → Bool
  | .published { value := .berthAssigned _, .. } => true
  | _ => false

/-- The arrival has an id, and the last deed is not the publish of an assignment. -/
def Stamps (machine : Machine) (world : World) (turn : Turn) : Prop :=
  turn.1.Named ∧ (newDeeds machine world turn).getLast?.any Deed.isAssignment = false

instance (machine : Machine) (world : World) (turn : Turn) :
    Decidable (Stamps machine world turn) := inferInstanceAs (Decidable (_ ∧ _))

/-- Every assigned slot has both sides, and every key is tracked. -/
structure Accounted (world : World) : Prop where
  complete : ∀ key slot, world.state.get key = some slot → slot.state = .stateAssigned →
    slot.complete = true
  tracked : ∀ key : Key, key.Addressed → Tracked world key

theorem accounted_initial : Accounted World.initial where
  complete _ _ hslot := by cases hslot
  tracked _ _ _ hid := absurd hid List.not_mem_nil

theorem Accounted.ready {world : World} (h : Accounted world) (machine : Machine) (turn : Turn) :
    Ready machine world turn := by
  obtain ⟨step, script⟩ := turn
  rcases step with (_ | classified) | _
  · trivial
  · rintro _ first _ ⟨expectation, hadmits⟩ _
    exact h.tracked _ (addressed_of_admits hadmits)
  · trivial

/-- Turns that change neither the table nor the berth messages. -/
theorem Accounted.unchanged {origin world : World} (h : Accounted origin)
    (hstate : world.state = origin.state)
    (hlogs : ∀ partition, berthLog partition world.journal = berthLog partition origin.journal) :
    Accounted world where
  complete key slot hslot := h.complete key slot (hstate ▸ hslot)
  tracked key haddressed id hid := by
    rw [hlogs] at hid
    rw [hstate]
    exact h.tracked key haddressed id hid

/-- Turns that change one slot and the berth messages of its key. -/
theorem Accounted.update {origin world : World} (h : Accounted origin) {key : Key} {slot : Slot}
    (haddressed : key.Addressed) (hget : world.state.get key = some slot)
    (hcomplete : slot.state = .stateAssigned → slot.complete = true)
    (hlive : ∀ id ∈ live (berthLog key.text world.journal),
      slot.state = .stateAssigned ∧ slot.assignmentId = id)
    (hother : ∀ other, other ≠ key → world.state.get other = origin.state.get other)
    (hlogs : ∀ partition, key.text ≠ partition →
      berthLog partition world.journal = berthLog partition origin.journal) :
    Accounted world where
  complete other slot' hslot' := by
    by_cases hkey : other = key
    · rw [hkey, hget] at hslot'
      cases hslot'
      exact hcomplete
    · rw [hother other hkey] at hslot'
      exact h.complete other slot' hslot'
  tracked other hotherAddressed id hid := by
    by_cases hkey : other = key
    · subst hkey
      exact ⟨slot, hget, hlive id hid⟩
    · have htext : key.text ≠ other.text :=
        fun heq => hkey (hotherAddressed.text_injective haddressed heq.symm)
      rw [hlogs _ htext] at hid
      rw [hother other hkey]
      exact h.tracked other hotherAddressed id hid

/-- A sweep marks slots that wait, and no tracked slot waits. -/
theorem Accounted.sweep {origin world : World} (h : Accounted origin)
    (hsweep : Sweeping origin world) : Accounted world := by
  obtain ⟨taken, hselected, hstate⟩ := hsweep.state
  constructor
  · intro key slot hslot hassigned
    rw [hstate] at hslot
    rcases get_markDeeds hselected key with ⟨prior, _, _, hmarked⟩ | ⟨_, hsame⟩
    · rw [hmarked] at hslot
      cases hslot
      cases hassigned
    · rw [hsame] at hslot
      exact h.complete key slot hslot hassigned
  · intro key haddressed id hid
    rw [berthLog_sweeping _ hsweep] at hid
    obtain ⟨slot, hslot, hassigned, hid⟩ := h.tracked key haddressed id hid
    refine ⟨slot, ?_, hassigned, hid⟩
    rw [hstate]
    rcases get_markDeeds hselected key with ⟨prior, hprior, rfl, _⟩ | ⟨_, hsame⟩
    · have hstored := hselected.stored prior hprior
      rw [hslot] at hstored
      cases hstored
      exact absurd hassigned (hselected.waiting slot hprior).1
    · exact hsame.trans hslot

section Cut

variable {slots : SlotTable} {classified : ArrivalClassified} {outcome : Outcome}
variable {readings : Readings} {done : List Deed}

/-- Before the assignment is published, the slot was stored and the prior
assignment perhaps voided. -/
theorem cut_before_assignment
    (hdone : done <+: [.stored outcome.slot,
      .audited (slotUpdated (arrivalOf classified) outcome)] ++
        voidDeeds classified outcome readings) :
    done = [] ∨ (done.foldl enact slots = slots.put outcome.slot ∧
      (berthLog outcome.slot.key.text done = [] ∨
        berthLog outcome.slot.key.text done = [.void outcome.supersedes])) := by
  rcases moment_cases hdone with hfront | ⟨taken, rfl, htaken⟩
  · rcases done with _ | ⟨first, _ | ⟨second, rest⟩⟩
    · exact .inl rfl
    · obtain ⟨rfl, _⟩ := List.cons_prefix_cons.mp hfront
      exact .inr ⟨rfl, .inl rfl⟩
    · rw [hfront.eq_of_length_le (Nat.le_add_left 2 rest.length)]
      exact .inr ⟨rfl, .inl rfl⟩
  · right
    unfold voidDeeds at htaken
    rcases taken with _ | ⟨deed, rest⟩
    · exact ⟨rfl, .inl rfl⟩
    · split at htaken
      next =>
        obtain ⟨rfl, hrest⟩ := List.cons_prefix_cons.mp htaken
        obtain rfl := List.prefix_nil.mp hrest
        refine ⟨rfl, .inr ?_⟩
        rw [berthLog_append, berthLog_stored, berthLog_audited]
        simp [berthLog, voidMessage, Deed.berth?]
      next => cases List.prefix_nil.mp htaken

/-- Where a routed delivery may be cut off: before anything is stored, before or
after the void, or once the assignment is stamped. -/
theorem routedDeeds_cut
    (hdone : done <+: routedDeeds slots classified outcome readings)
    (hlast : done.getLast?.any Deed.isAssignment = false) :
    done = [] ∨
    (done.foldl enact slots = slots.put outcome.slot ∧
      (berthLog outcome.slot.key.text done = [] ∨
        berthLog outcome.slot.key.text done = [.void outcome.supersedes])) ∨
    (outcome.assign = true ∧
      done.foldl enact slots =
        (slots.put outcome.slot).put (stamped (storedAfter slots outcome.slot) readings.id.text) ∧
      berthLog outcome.slot.key.text done = successor outcome.supersedes readings.id.text) := by
  cases hassign : outcome.assign with
  | false =>
      rw [routedDeeds, hassign] at hdone
      have hfront : done <+: [.stored outcome.slot,
          .audited (slotUpdated (arrivalOf classified) outcome)] ++
            voidDeeds classified outcome readings :=
        hdone.trans ((List.prefix_append_right_inj _).mpr List.nil_prefix)
      rw [← or_assoc]
      exact .inl (cut_before_assignment hfront)
  | true =>
      have hlog := berthLog_routedDeeds outcome.slot.key.text slots classified outcome readings
      rw [if_pos ⟨hassign, rfl⟩] at hlog
      rw [routedDeeds, hassign, if_pos rfl, assignDeeds, ← List.append_assoc] at hdone hlog
      rw [← or_assoc]
      rcases moment_cases hdone with hfront | ⟨taken, rfl, htaken⟩
      · exact .inl (cut_before_assignment hfront)
      · rcases taken with _ | ⟨first, _ | ⟨second, rest⟩⟩
        · rw [List.append_nil]
          exact .inl (cut_before_assignment List.prefix_rfl)
        · obtain ⟨rfl, _⟩ := List.cons_prefix_cons.mp htaken
          rw [List.getLast?_concat] at hlast
          cases hlast
        · -- only an audit entry may be missing once the slot is stamped
          obtain ⟨hfirst, htaken⟩ := List.cons_prefix_cons.mp htaken
          obtain ⟨hsecond, hrest⟩ := List.cons_prefix_cons.mp htaken
          subst hfirst hsecond
          have hsilent : Silent rest :=
            fun deed hdeed => ⟨_, List.mem_singleton.mp (hrest.subset hdeed)⟩
          refine .inr ⟨rfl, ?_, ?_⟩
          · rw [List.foldl_append, foldl_enact_voidDeeds, List.foldl_cons, List.foldl_cons,
              foldl_enact_silent hsilent]
            rfl
          · rw [← hlog, berthLog_append, berthLog_append _ (_ ++ _)]
            apply congrArg
            change berthLog _ ([_] ++ (_ :: rest)) = berthLog _ ([_] ++ [_, _])
            rw [berthLog_append, berthLog_append, berthLog_stored, berthLog_stored,
              berthLog_audited, berthLog_silent _ hsilent, berthLog_nil]

end Cut

/-- After a void, or where none was needed, only the successor is live. -/
theorem eq_of_mem_live_successor {log : List (Entry String)} {supersedes id other : String}
    (hprior : ∀ id ∈ live log, id ≠ "" ∧ id = supersedes)
    (hother : other ∈ live (log ++ successor supersedes id)) : other = id := by
  unfold successor at hother
  split at hother
  next hempty =>
    have hnone : live log = [] := by
      rw [List.eq_nil_iff_forall_not_mem]
      exact fun id hid => (hprior id hid).1 ((hprior id hid).2.trans hempty)
    exact eq_of_mem_live_issue hnone hother
  next =>
    rw [List.append_cons] at hother
    exact eq_of_mem_live_issue (live_append_void_eq_nil fun id hid => (hprior id hid).2) hother

section Routed

variable {machine : Machine} {origin world : World} {accepted : Instant}
variable {classified : ArrivalClassified} {outcome : Outcome} {slot placed : Slot}
variable {readings : Readings} {count : Nat} {done : List Deed}

/-- A tracked slot that receives another arrival keeps its stamp and supersedes it. -/
theorem Accounted.outcome_of_live (h : Accounted origin) {arrival : Arrival}
    (hrouted : Routed machine origin.state accepted arrival outcome slot placed)
    (haddressed : arrival.key.Addressed) (hnamed : arrival.arrivalId ≠ "") {id : String}
    (hid : id ∈ live (berthLog arrival.key.text origin.journal)) :
    outcome.slot.state = .stateAssigned ∧ outcome.slot.assignmentId = id ∧
      outcome.supersedes = id := by
  obtain ⟨hassigned, rfl⟩ := hrouted.stamped_of_live (h.tracked _ haddressed) hid
  have hboth : slot.complete = true := by
    rcases hrouted.found with hfound | ⟨_, hfresh⟩
    · exact h.complete _ _ hfound hassigned
    · rw [hfresh.state] at hassigned
      cases hassigned
  have hcomplete := hrouted.complete_of_slot hnamed hboth
  refine ⟨?_, ?_, ?_⟩
  · rw [hrouted.slot_eq]
    exact if_pos hcomplete
  · rw [hrouted.slot_eq]
    exact hrouted.placed_assignmentId
  · rw [hrouted.supersedes_eq, hcomplete, hassigned]
    rfl

/-- A routed arrival keeps the account unless it is cut off before the stamp. -/
theorem Accounted.routed (h : Accounted origin) (hone : OneLive origin)
    (hrouted : Routed machine origin.state accepted (arrivalOf classified) outcome slot placed)
    (hnamed : classified.arrivalId ≠ "") (hworld : Reached origin count done world)
    (hdone : done <+: routedDeeds origin.state classified outcome readings)
    (hlast : done.getLast?.any Deed.isAssignment = false) : Accounted world := by
  obtain ⟨expectation, hadmits⟩ := hrouted.admitted
  have haddressed := addressed_of_admits hadmits
  have hkey := hrouted.slot_key
  have hstored := hrouted.storedAfter_eq hnamed
  have hprior : ∀ id ∈ live (berthLog (arrivalOf classified).key.text origin.journal),
      outcome.slot.state = .stateAssigned ∧ outcome.slot.assignmentId = id ∧
        outcome.supersedes = id :=
    fun id hid => h.outcome_of_live hrouted haddressed hnamed hid
  have hput : (origin.state.put outcome.slot).get (arrivalOf classified).key =
      some outcome.slot := by
    rw [← hkey, get_storedAfter, hstored]
  have hlogs : ∀ partition, (arrivalOf classified).key.text ≠ partition →
      berthLog partition world.journal = berthLog partition origin.journal := by
    intro partition hne
    have hnone := berthLog_mono partition hdone
    rw [berthLog_routedDeeds, hkey, if_neg fun hwhen => hne hwhen.2, List.prefix_nil] at hnone
    rw [hworld.journal, berthLog_append, hnone, List.append_nil]
  rcases routedDeeds_cut hdone hlast with rfl | ⟨hstate, hlog⟩ | ⟨hassign, hstate, hlog⟩
  · exact h.unchanged hworld.state fun partition => by rw [hworld.journal, List.append_nil]
  · rw [hkey] at hlog
    rw [← hworld.state] at hstate
    refine h.update haddressed (hstate ▸ hput) hrouted.complete_of_assigned ?_ ?_ hlogs
    · intro id hid
      rw [hworld.journal, berthLog_append] at hid
      rcases hlog with hlog | hlog
      · rw [hlog, List.append_nil] at hid
        exact ⟨(hprior id hid).1, (hprior id hid).2.1⟩
      · rw [hlog, live_append_void_eq_nil fun id hid => (hprior id hid).2.2.symm] at hid
        cases hid
    · intro other hne
      rw [hstate]
      exact SlotTable.get_put_of_ne _ _ (hkey ▸ hne)
  · rw [hkey] at hlog
    rw [← hworld.state, hstored] at hstate
    have hget : world.state.get (arrivalOf classified).key =
        some (stamped outcome.slot readings.id.text) := by
      have hself := SlotTable.get_put_self (origin.state.put outcome.slot)
        (stamped outcome.slot readings.id.text)
      rw [show (stamped outcome.slot readings.id.text).key = (arrivalOf classified).key from hkey,
        hput] at hself
      rw [hstate, hself]
      exact congrArg some (stamped_over readings.id.text_ne_empty)
    refine h.update haddressed hget ?_ ?_ ?_ hlogs
    · intro _
      rw [hrouted.assign_eq] at hassign
      rw [hrouted.slot_eq]
      exact hassign
    · intro id hid
      rw [hworld.journal, berthLog_append, hlog] at hid
      refine ⟨rfl, (eq_of_mem_live_successor (fun id hid => ⟨?_, ?_⟩) hid).symm⟩
      · exact hone.named _ id (mem_live.mp hid).1
      · exact (hprior id hid).2.2.symm
    · intro other hne
      have hother : other ≠ outcome.slot.key := hkey ▸ hne
      rw [hstate]
      exact (SlotTable.get_put_of_ne _ (stamped outcome.slot readings.id.text) hother).trans
        (SlotTable.get_put_of_ne _ _ hother)

end Routed

theorem Accounted.advance {machine : Machine} {world : World} {turn : Turn} (h : Accounted world)
    (hone : OneLive world) (hstamps : Stamps machine world turn) :
    Accounted (advance machine world turn) := by
  obtain ⟨step, script⟩ := turn
  cases step with
  | sweep => exact h.sweep (advance_sweep machine world script)
  | handle message =>
      obtain ⟨count, done, hworld, hsilent |
        ⟨classified, outcome, slot, placed, readings, rfl, hrouted, hdone⟩⟩ :=
        advance_handle_cases machine world script message
      · refine h.unchanged ?_ ?_
        · rw [hworld.state, foldl_enact_silent hsilent]
        · intro partition
          rw [hworld.journal, berthLog_append, berthLog_silent partition hsilent, List.append_nil]
      · have hlast := hstamps.2
        rw [newDeeds_of_reached hworld] at hlast
        exact h.routed hone hrouted hstamps.1 hworld hdone hlast

/-- A run in which no turn ends between the publish of its assignment and the
stamp meets the condition above. -/
theorem ready_of_stamps (machine : Machine) (turns : List Turn)
    (hstamps : Along (advance machine) (Stamps machine) World.initial turns) :
    Along (advance machine) (Ready machine) World.initial turns :=
  hstamps.imp (motive := fun world => OneLive world ∧ Accounted world)
    (fun _ turn ⟨hone, haccounted⟩ hstamp =>
      ⟨hone.advance (haccounted.ready machine turn), haccounted.advance hone hstamp⟩)
    (fun _ turn ⟨_, haccounted⟩ _ => haccounted.ready machine turn)
    ⟨oneLive_initial, accounted_initial⟩

/-! ## The run -/

/-- At every moment of a run whose completing deliveries all find their slot
tracked, at most one assignment of each slot is live. -/
theorem one_live_assignment (machine : Machine) (turns : List Turn)
    (hready : Along (advance machine) (Ready machine) World.initial turns)
    (partition : String) (moment : List Deed)
    (hmoment : moment <+: (runAll machine World.initial turns).journal) :
    (live (berthLog partition moment)).length ≤ 1 :=
  (hready.invariant (fun _ _ h hcondition => h.advance hcondition) oneLive_initial).live
    partition moment hmoment

/-- The first side, a second side cut off before its assignment is published,
its redelivery, and a correction cut off after the void. -/
def trackedTurns : List Turn :=
  [(.handle (some (sampleArrival "A1" .internalGl)), sampleScript sampleIdA),
    (.handle (some (sampleArrival "A2" .externalClient)), (sampleScript sampleIdA).cut 6),
    (.handle (some (sampleArrival "A2" .externalClient)), sampleScript sampleIdA),
    (.handle (some (sampleArrival "A3" .internalGl)), (sampleScript sampleIdB).cut 6)]

theorem one_live_assignment_tracked :
    (live (berthLog sampleKey.text
      (runAll sampleMachine World.initial trackedTurns).journal)).length ≤ 1 :=
  one_live_assignment sampleMachine trackedTurns
    (ready_of_stamps sampleMachine trackedTurns (by decide +kernel)) sampleKey.text _
    List.prefix_rfl

/-- The second side is cut off after its assignment is published and before the
id is stamped, and then delivered again. -/
def crashTurns : List Turn :=
  [(.handle (some (sampleArrival "A1" .internalGl)), sampleScript sampleIdA),
    (.handle (some (sampleArrival "A2" .externalClient)), (sampleScript sampleIdA).cut 7),
    (.handle (some (sampleArrival "A2" .externalClient)), sampleScript sampleIdB)]

theorem two_live_after_crash :
    ¬ ∀ partition moment,
      moment <+: (runAll sampleMachine World.initial crashTurns).journal →
        (live (berthLog partition moment)).length ≤ 1 := by
  intro hlive
  have htwo : (live (berthLog sampleKey.text
      (runAll sampleMachine World.initial crashTurns).journal)).length = 2 := by
    decide +kernel
  have hone := hlive sampleKey.text _ List.prefix_rfl
  omega

end Harbormaster.Berthmaster
