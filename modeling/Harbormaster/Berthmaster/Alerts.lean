import Harbormaster.Berthmaster.Run

/-! # Missing-file alerts

A sweep marks the whole selection before it publishes the first alert, and a
marked slot is never selected again. The alerts of a sweep that fails after its
first mark are therefore lost, whatever later sweeps do.
-/

namespace Harbormaster.Berthmaster

open Effect Program

/-- A slot was stored as missing. -/
def Moved (journal : List Deed) (key : Key) : Prop :=
  ∃ slot, Deed.stored slot ∈ journal ∧ slot.key = key ∧ slot.state = .stateMissing

/-- The message is a missing-file alert for a slot. -/
def AlertFor (key : Key) (message : Message) : Prop :=
  message.topic = .alertsMissing ∧ message.key = key.text ∧
    ∃ alert, message.value = .missingFileAlert alert ∧ alert.clientId = key.clientId ∧
      alert.valueDate = key.valueDate

/-- An alert was published for a slot. -/
def Alerted (journal : List Deed) (key : Key) : Prop :=
  ∃ message, Deed.published message ∈ journal ∧ AlertFor key message

/-- An alert tells for which slot it is. -/
theorem alertFor_alertMessage (slot : Slot) (time : Instant) (key : Key) :
    AlertFor key (alertMessage slot time) ↔ slot.key = key := by
  constructor
  · rintro ⟨_, htext, alert, halert, hclient, hdate⟩
    cases halert
    obtain ⟨clientId, domain, valueDate⟩ := key
    subst hclient hdate
    have hchars := congrArg String.toList htext
    simp only [alertMessage, Key.text, busSlotKey, String.toList_append, List.append_assoc,
      List.append_cancel_left_eq, List.append_cancel_right_eq, String.toList_inj] at hchars
    rw [← hchars]
  · rintro rfl
    exact ⟨rfl, rfl, _, rfl, rfl, rfl⟩

/-! ## One sweep -/

/-- One sweep that is not stopped. -/
def sweepOnce (world : World) (choices : Nat → Choice) : World :=
  (sweep.run perform (fun index => some (choices index)) world).1

/-- The sweep fails before its first mark, or at no upsert and no publish. -/
def Delivers (slots : SlotTable) (choices : Nat → Choice) : Prop :=
  let due := (slots.dueBefore (choices 0).clock).length
  (choices 1).fault = true ∨ (choices 2).fault = true ∨
    (∀ index < due, (choices (2 + index)).fault = false) ∧
      ∀ index < due, (choices (2 + due + 2 * index + 1)).fault = false

theorem faultAt_some {choices : Nat → Choice} {index : Nat} :
    FaultAt (fun index => some (choices index)) index ↔ (choices index).fault = true := by
  simp [FaultAt]

theorem goodAt_some {choices : Nat → Choice} {index : Nat} :
    GoodAt (fun index => some (choices index)) index ↔ (choices index).fault = false := by
  simp [GoodAt]

/-- What a sweep did: it marked a part of a selection and alerted a part of that,
all of it exactly when the sweep delivers. -/
structure Swept (world : World) (choices : Nat → Choice) (taken alerted : List Slot)
    (times : Nat → Instant) (world' : World) : Prop where
  selected : Selected world.state taken
  alerted_prefix : alerted <+: taken
  journal : world'.journal = world.journal ++ (markDeeds taken ++ alertDeeds alerted times)
  state : world'.state = (markDeeds taken).foldl enact world.state
  delivers : Delivers world.state choices ↔ alerted = taken

theorem sweepOnce_swept (world : World) (choices : Nat → Choice) :
    ∃ taken alerted times, Swept world choices taken alerted times (sweepOnce world choices) := by
  have hspec : sweep.Spec perform (Scripted (fun index => some (choices index)) world) _ _ world :=
    sweep_spec
  have hend := hspec.run (obeys_scripted _ _ world)
  have hturns : ∀ index, ((fun index => some (choices index)) index).isSome := fun _ => rfl
  rcases hend.cases with ⟨hstopped, _⟩ | ⟨result, hswept⟩
  · exact absurd hstopped (run_ends _ hturns world)
  change SweepEnd _ _ (sweepOnce world choices) result at hswept
  cases hswept with
  | unread hfault hworld =>
      -- the selection failed: nothing was taken
      refine ⟨[], [], fun _ => 0, ⟨?_, ?_, List.nodup_nil⟩, List.prefix_rfl, ?_, ?_, ?_⟩
      · simp
      · simp
      · exact hworld.journal
      · exact hworld.state
      · exact ⟨fun _ => rfl, fun _ => .inl (faultAt_some.mp hfault)⟩
  | @unmarked first second due index hfirst hsecond hread hdue hindex hfault hearlier hworld =>
      cases hfirst
      cases hsecond
      have hlength : due.length = (world.state.dueBefore (choices 0).clock).length :=
        hdue ▸ ((choices 1).arrange.2 _).length_eq
      refine ⟨due.take index, [], fun _ => 0,
        (selected_dueBefore hdue).sublist (List.take_sublist _ _), List.nil_prefix, ?_,
        hworld.state, ?_⟩
      · rw [hworld.journal, alertDeeds, List.append_nil]
      · constructor
        -- the failure lies at this mark, so none of the good cases applies
        · rintro (hunread | hunmarked | ⟨hmarked, _⟩)
          · rw [hread] at hunread
            cases hunread
          · cases index with
            | zero => rfl
            | succ index =>
                have hgood := goodAt_some.mp (hearlier 0 (Nat.zero_lt_succ _))
                rw [hunmarked] at hgood
                cases hgood
          · have hbad := faultAt_some.mp hfault
            rw [hmarked index (hlength ▸ hindex)] at hbad
            cases hbad
        · intro hempty
          have hzero : index = 0 := by
            have htaken := congrArg List.length hempty.symm
            rw [List.length_take, List.length_nil] at htaken
            omega
          subst hzero
          exact .inr (.inl (faultAt_some.mp hfault))
  | @unpublished first second due index times hfirst hsecond hread hdue hmarked hindex hfault
      hworld =>
      cases hfirst
      cases hsecond
      have hlength : due.length = (world.state.dueBefore (choices 0).clock).length :=
        hdue ▸ ((choices 1).arrange.2 _).length_eq
      refine ⟨due, due.take index, times, selected_dueBefore hdue, List.take_prefix _ _,
        hworld.journal, ?_, ?_⟩
      · rw [hworld.state, List.foldl_append, foldl_enact_alertDeeds]
      · constructor
        · rintro (hunread | hunmarked | ⟨_, halerted⟩)
          · rw [hread] at hunread
            cases hunread
          · have hgood := goodAt_some.mp (hmarked 0 (Nat.zero_lt_of_lt hindex))
            rw [hunmarked] at hgood
            cases hgood
          · have hbad := faultAt_some.mp hfault
            rw [hlength, halerted index (hlength ▸ hindex)] at hbad
            cases hbad
        · intro hall
          have htaken := congrArg List.length hall
          rw [List.length_take] at htaken
          omega
  | @complete first second due times hfirst hsecond hread hdue hmarked halerted hworld =>
      cases hfirst
      cases hsecond
      have hlength : due.length = (world.state.dueBefore (choices 0).clock).length :=
        hdue ▸ ((choices 1).arrange.2 _).length_eq
      refine ⟨due, due, times, selected_dueBefore hdue, List.prefix_rfl, hworld.journal, ?_, ?_⟩
      · rw [hworld.state, List.foldl_append, foldl_enact_alertDeeds]
      · refine ⟨fun _ => rfl, fun _ => .inr (.inr ⟨fun index hindex => ?_, fun index hindex => ?_⟩)⟩
        · exact goodAt_some.mp (hmarked index (hlength ▸ hindex))
        · rw [← hlength]
          exact goodAt_some.mp (halerted index (hlength ▸ hindex))

/-! ## What a sweep moves and alerts -/

theorem exists_mem_alertDeeds {alerted : List Slot} (times : Nat → Instant) {key : Key} :
    (∃ message, Deed.published message ∈ alertDeeds alerted times ∧ AlertFor key message) ↔
      key ∈ alerted.map Slot.key := by
  induction alerted generalizing times with
  | nil => simp [alertDeeds]
  | cons slot rest ih =>
      rw [alertDeeds, List.map_cons, List.mem_cons, ← ih fun index => times (index + 1)]
      constructor
      · rintro ⟨message, hmem, hfor⟩
        rcases List.mem_cons.mp hmem with heq | hrest
        · cases heq
          exact .inl ((alertFor_alertMessage _ _ key).mp hfor).symm
        · exact .inr ⟨message, hrest, hfor⟩
      · rintro (rfl | ⟨message, hmem, hfor⟩)
        · exact ⟨_, List.mem_cons_self, (alertFor_alertMessage _ _ _).mpr rfl⟩
        · exact ⟨message, List.mem_cons_of_mem _ hmem, hfor⟩

theorem published_not_mem_markDeeds {taken : List Slot} {message : Message} :
    Deed.published message ∉ markDeeds taken := by
  simp [markDeeds]

theorem stored_not_mem_alertDeeds {alerted : List Slot} {times : Nat → Instant} {slot : Slot} :
    Deed.stored slot ∉ alertDeeds alerted times := by
  induction alerted generalizing times with
  | nil => exact List.not_mem_nil
  | cons first rest ih =>
      rw [alertDeeds, List.mem_cons, not_or]
      exact ⟨fun h => (by cases h), ih⟩

section Sweep

variable {world world' : World} {choices : Nat → Choice} {taken alerted : List Slot}
variable {times : Nat → Instant}

theorem Swept.moved_iff (h : Swept world choices taken alerted times world') (key : Key) :
    Moved world'.journal key ↔ Moved world.journal key ∨ key ∈ taken.map Slot.key := by
  unfold Moved
  simp only [h.journal, List.mem_append, stored_not_mem_alertDeeds, or_false, mem_markDeeds,
    List.mem_map, Deed.stored.injEq]
  constructor
  · rintro ⟨slot, hslot | ⟨prior, hprior, rfl⟩, rfl, hstate⟩
    · exact .inl ⟨slot, hslot, rfl, hstate⟩
    · exact .inr ⟨prior, hprior, rfl⟩
  · rintro (⟨slot, hslot, hkey, hstate⟩ | ⟨prior, hprior, hkey⟩)
    · exact ⟨slot, .inl hslot, hkey, hstate⟩
    · exact ⟨marked prior, .inr ⟨prior, hprior, rfl⟩, hkey, rfl⟩

theorem Swept.alerted_iff (h : Swept world choices taken alerted times world') (key : Key) :
    Alerted world'.journal key ↔ Alerted world.journal key ∨ key ∈ alerted.map Slot.key := by
  rw [← exists_mem_alertDeeds times]
  unfold Alerted
  simp only [h.journal, List.mem_append, published_not_mem_markDeeds, false_or, or_and_right,
    exists_or]

/-- The slot of a key is stored as missing. -/
def MissingAt (world : World) (key : Key) : Prop :=
  ∃ slot, world.state.get key = some slot ∧ slot.state = .stateMissing

theorem Swept.missing_of_taken (h : Swept world choices taken alerted times world') {key : Key}
    (hkey : key ∈ taken.map Slot.key) : MissingAt world' key := by
  rcases get_markDeeds h.selected key with ⟨slot, _, _, hget⟩ | ⟨hnot, _⟩
  · exact ⟨marked slot, by rw [h.state, hget], rfl⟩
  · exact absurd hkey hnot

/-- A missing slot is not selected. -/
theorem Swept.not_taken (h : Swept world choices taken alerted times world') {key : Key}
    (hmissing : MissingAt world key) : key ∉ taken.map Slot.key := by
  rw [List.mem_map]
  rintro ⟨slot, hslot, rfl⟩
  obtain ⟨stored, hstored, hstate⟩ := hmissing
  rw [h.selected.stored slot hslot] at hstored
  cases hstored
  exact (h.selected.waiting slot hslot).2 hstate

theorem Swept.missing_of_missing (h : Swept world choices taken alerted times world') {key : Key}
    (hmissing : MissingAt world key) : MissingAt world' key := by
  rcases get_markDeeds h.selected key with ⟨slot, hslot, rfl, _⟩ | ⟨_, hsame⟩
  · exact absurd (List.mem_map_of_mem hslot) (h.not_taken hmissing)
  · obtain ⟨stored, hstored, hstate⟩ := hmissing
    exact ⟨stored, by rw [h.state, hsame, hstored], hstate⟩

theorem Swept.mem_of_alerted (h : Swept world choices taken alerted times world') {key : Key}
    (hkey : key ∈ alerted.map Slot.key) : key ∈ taken.map Slot.key :=
  (h.alerted_prefix.sublist.map Slot.key).mem hkey

/-- A sweep that does not deliver marks a slot and does not alert it. -/
theorem Swept.exists_lost (h : Swept world choices taken alerted times world')
    (hlost : ¬ Delivers world.state choices) :
    ∃ key ∈ taken.map Slot.key, key ∉ alerted.map Slot.key := by
  obtain ⟨rest, rfl⟩ := h.alerted_prefix
  have hnodup := h.selected.nodup
  rw [List.map_append, List.nodup_append] at hnodup
  cases rest with
  | nil => exact absurd (h.delivers.mpr (List.append_nil _).symm) hlost
  | cons slot rest =>
      refine ⟨slot.key, ?_, fun hmem => ?_⟩
      · exact List.mem_map_of_mem (List.mem_append_right _ List.mem_cons_self)
      · exact hnodup.2.2 _ hmem _ (List.mem_map_of_mem List.mem_cons_self) rfl

end Sweep

/-! ## Sequences of sweeps -/

/-- A missing slot that was moved and not alerted. -/
def Lost (world : World) (key : Key) : Prop :=
  Moved world.journal key ∧ ¬ Alerted world.journal key ∧ MissingAt world key

theorem Lost.sweeps {key : Key} {world : World} (h : Lost world key)
    (sweeps : List (Nat → Choice)) : Lost (sweeps.foldl sweepOnce world) key := by
  refine List.foldlRecOn (motive := fun world => Lost world key) sweeps sweepOnce h ?_
  rintro world ⟨hmoved, hsilent, hmissing⟩ choices _
  obtain ⟨taken, alerted, times, hswept⟩ := sweepOnce_swept world choices
  refine ⟨(hswept.moved_iff key).mpr (.inl hmoved), ?_, hswept.missing_of_missing hmissing⟩
  rw [hswept.alerted_iff, not_or]
  exact ⟨hsilent, fun hmem => hswept.not_taken hmissing (hswept.mem_of_alerted hmem)⟩

/-- Only missing slots were alerted. -/
def AlertedMissing (world : World) : Prop :=
  ∀ key, Alerted world.journal key → MissingAt world key

/-- Every slot that was moved was alerted. -/
def NoneLost (world : World) : Prop :=
  ∀ key, Moved world.journal key → Alerted world.journal key

theorem noneLost_sweeps_iff (sweeps : List (Nat → Choice)) {world : World}
    (halerted : AlertedMissing world) (hnone : NoneLost world) :
    NoneLost (sweeps.foldl sweepOnce world) ↔
      Along sweepOnce (fun world choices => Delivers world.state choices) world sweeps := by
  induction sweeps generalizing world with
  | nil => exact ⟨fun _ => trivial, fun _ => hnone⟩
  | cons choices rest ih =>
      obtain ⟨taken, alerted, times, hswept⟩ := sweepOnce_swept world choices
      by_cases hdelivers : Delivers world.state choices
      · have hall := hswept.delivers.mp hdelivers
        have hnext : AlertedMissing (sweepOnce world choices) := by
          intro key hkey
          rcases (hswept.alerted_iff key).mp hkey with hbefore | hnow
          · exact hswept.missing_of_missing (halerted key hbefore)
          · exact hswept.missing_of_taken (hswept.mem_of_alerted hnow)
        have hnoneNext : NoneLost (sweepOnce world choices) := by
          intro key hkey
          rw [hswept.alerted_iff, hall]
          exact ((hswept.moved_iff key).mp hkey).imp_left (hnone key)
        rw [List.foldl_cons, ih hnext hnoneNext]
        exact (and_iff_right hdelivers).symm
      · obtain ⟨key, hkey, hsilent⟩ := hswept.exists_lost hdelivers
        have hunalerted : ¬ Alerted (sweepOnce world choices).journal key := by
          rw [hswept.alerted_iff, not_or]
          exact ⟨fun hbefore => hswept.not_taken (halerted key hbefore) hkey, hsilent⟩
        have hlost : Lost (sweepOnce world choices) key :=
          ⟨(hswept.moved_iff key).mpr (.inr hkey), hunalerted, hswept.missing_of_taken hkey⟩
        obtain ⟨hmoved, hnot, _⟩ := hlost.sweeps rest
        exact ⟨fun hall => absurd (hall key hmoved) hnot, fun h => absurd h.1 hdelivers⟩

/-- From any store, every slot that a sequence of sweeps moves to missing is
alerted exactly when every sweep delivers. -/
theorem no_lost_alert_iff (slots : SlotTable) (sweeps : List (Nat → Choice)) :
    (∀ key, Moved (sweeps.foldl sweepOnce ⟨slots, []⟩).journal key →
      Alerted (sweeps.foldl sweepOnce ⟨slots, []⟩).journal key) ↔
      Along sweepOnce (fun world choices => Delivers world.state choices) ⟨slots, []⟩ sweeps := by
  refine noneLost_sweeps_iff sweeps ?_ ?_
  · rintro key ⟨message, hmessage, _⟩
    exact absurd hmessage List.not_mem_nil
  · rintro key ⟨slot, hslot, _⟩
    exact absurd hslot List.not_mem_nil

def overdueSlot : Slot where
  key := sampleKey
  state := .statePartial
  expectationId := "CLNT001-TRADE"
  side1Arrival := "A1"
  openedAt := sampleClock
  deadline := sampleClock

/-- The surroundings of a sweep one day later, whose call `faulty` fails. -/
def laterChoices (faulty : Option Nat) (index : Nat) : Choice where
  clock := sampleClock + microsPerDay
  id := sampleIdA
  fault := faulty = some index

/-- The only alert of a first sweep cannot be published, and the second sweep,
on which nothing fails, finds nothing left to alert. -/
theorem alert_lost :
    (∀ index, (laterChoices none index).fault = false) ∧
    ¬ ∀ key,
      Moved ([laterChoices (some 4), laterChoices none].foldl sweepOnce
        ⟨SlotTable.put ∅ overdueSlot, []⟩).journal key →
      Alerted ([laterChoices (some 4), laterChoices none].foldl sweepOnce
        ⟨SlotTable.put ∅ overdueSlot, []⟩).journal key := by
  have hjournal : ([laterChoices (some 4), laterChoices none].foldl sweepOnce
      ⟨SlotTable.put ∅ overdueSlot, []⟩).journal = [.stored (marked overdueSlot)] := by
    decide +kernel
  rw [hjournal]
  refine ⟨fun _ => rfl, fun hall => ?_⟩
  obtain ⟨message, hmessage, _⟩ := hall sampleKey ⟨_, List.mem_cons_self, rfl, rfl⟩
  cases List.mem_singleton.mp hmessage

end Harbormaster.Berthmaster
