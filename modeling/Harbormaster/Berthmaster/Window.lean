import Harbormaster.Berthmaster.Alerts

/-! # The window of a running sweep

From its selection until its alerts are out, a running sweep holds private
copies of the slots it selected. While a slot is in this window it must not be
completed: the sweep would overwrite its state, or alert it although both sides
are stored.
-/

namespace Harbormaster.Berthmaster

open Effect Program

/-- The slots the running sweep has selected and not yet alerted, in the order
of its alerts. A failed call ends the sweep. -/
def windowStep (window : List Key) : Event Call Reply → List Key
  | ⟨.dueBefore _, some due⟩ => due.map Slot.key
  | ⟨.upsert slot, none⟩ => if slot.state = .stateMissing then [] else window
  | ⟨.publish message, some ()⟩ =>
      if message.topic = .alertsMissing then window.tail else window
  | ⟨.publish message, none⟩ => if message.topic = .alertsMissing then [] else window
  | _ => window

def World.window (world : World) : List Key := world.calls.foldl windowStep []

/-! ## Histories -/

def slotsAfter (journal : List Deed) : SlotTable := journal.foldl enact ∅

/-- The slot is assigned after these deeds. -/
def AssignedIn (journal : List Deed) (key : Key) : Prop :=
  ∃ slot, (slotsAfter journal).get key = some slot ∧ slot.state = .stateAssigned

/-- No slot leaves the assigned state, and none is alerted with both sides stored. -/
structure Sound (journal : List Deed) : Prop where
  stays : ∀ before middle after key, journal = before ++ middle ++ after →
    AssignedIn before key → AssignedIn (before ++ middle) key
  alerts : ∀ before message after key slot, journal = before ++ .published message :: after →
    AlertFor key message → (slotsAfter before).get key = some slot → slot.complete = false

theorem sound_nil : Sound [] where
  stays before middle after key h hassigned := by
    obtain ⟨hfront, _⟩ := List.append_eq_nil_iff.mp h.symm
    obtain ⟨_, hmiddle⟩ := List.append_eq_nil_iff.mp hfront
    rw [hmiddle, List.append_nil]
    exact hassigned
  alerts before message after key slot h := by
    obtain ⟨_, hrest⟩ := List.append_eq_nil_iff.mp h.symm
    cases hrest

/-- One more deed. -/
theorem Sound.extend {journal : List Deed} {deed : Deed} (h : Sound journal)
    (hstays : ∀ key, AssignedIn journal key → AssignedIn (journal ++ [deed]) key)
    (halert : ∀ message key slot, deed = .published message → AlertFor key message →
      (slotsAfter journal).get key = some slot → slot.complete = false) :
    Sound (journal ++ [deed]) where
  stays before middle after key heq hassigned := by
    rcases List.eq_nil_or_concat after with rfl | ⟨after, last, rfl⟩
    · rcases List.eq_nil_or_concat middle with rfl | ⟨middle, last, rfl⟩
      · rw [List.append_nil]
        exact hassigned
      · rw [List.append_nil, List.concat_eq_append, ← List.append_assoc] at heq
        obtain ⟨rfl, hlast⟩ := List.append_inj' heq rfl
        cases hlast
        rw [List.concat_eq_append, ← List.append_assoc]
        refine hstays key (h.stays before middle [] key ?_ hassigned)
        rw [List.append_nil]
    · rw [List.concat_eq_append, ← List.append_assoc] at heq
      obtain ⟨rfl, _⟩ := List.append_inj' heq rfl
      exact h.stays before middle after key rfl hassigned
  alerts before message after key slot heq hfor hslot := by
    rcases List.eq_nil_or_concat after with rfl | ⟨after, last, rfl⟩
    · obtain ⟨rfl, hlast⟩ := List.append_inj' heq rfl
      exact halert message key slot (List.cons.inj hlast).1 hfor hslot
    · rw [List.concat_eq_append, ← List.cons_append, ← List.append_assoc] at heq
      obtain ⟨rfl, _⟩ := List.append_inj' heq rfl
      exact h.alerts before message after key slot rfl hfor hslot

/-! ## The common invariant -/

/-- Stored slots are assigned exactly when complete, no slot of the window is
complete, and the history so far is sound. -/
structure Guarded (world : World) : Prop where
  reached : ∃ count, Reached World.initial count world.journal world
  state : ∀ key slot, world.state.get key = some slot →
    (slot.state = .stateAssigned ↔ slot.complete = true)
  window : ∀ key ∈ world.window, ∀ slot, world.state.get key = some slot →
    slot.complete = false
  sound : Sound world.journal

theorem guarded_initial : Guarded World.initial where
  reached := ⟨0, Reached.origin _⟩
  state key slot h := by cases h
  window key hkey := absurd hkey List.not_mem_nil
  sound := sound_nil

theorem Guarded.slotsAfter_eq {world : World} (h : Guarded world) :
    slotsAfter world.journal = world.state := by
  obtain ⟨count, hreached⟩ := h.reached
  exact hreached.state.symm

/-- The table holds the same sides as before. -/
def SameSides (world world' : World) : Prop :=
  ∀ key, (world'.state.get key).map Slot.sides = (world.state.get key).map Slot.sides

/-- The window is as before, and no side was lost. -/
def Grows (world world' : World) : Prop :=
  world'.window = world.window ∧ ∀ key slot, world.state.get key = some slot →
    ∃ slot', world'.state.get key = some slot' ∧ slot.Covers slot'

theorem SameSides.of_state {world world' : World} (h : world'.state = world.state) :
    SameSides world world' := fun key => by rw [h]

theorem Grows.of_state {world world' : World} (hstate : world'.state = world.state)
    (hwindow : world'.window = world.window) : Grows world world' :=
  ⟨hwindow, fun _ slot hslot => ⟨slot, by rw [hstate, hslot], fun h => h, fun h => h⟩⟩

theorem SameSides.trans {world₁ world₂ world₃ : World} (h : SameSides world₁ world₂)
    (h' : SameSides world₂ world₃) : SameSides world₁ world₃ :=
  fun key => (h' key).trans (h key)

theorem Grows.trans {world₁ world₂ world₃ : World} (h : Grows world₁ world₂)
    (h' : Grows world₂ world₃) : Grows world₁ world₃ := by
  refine ⟨h'.1.trans h.1, fun key slot hslot => ?_⟩
  obtain ⟨slot', hslot', hcovers⟩ := h.2 key slot hslot
  obtain ⟨slot'', hslot'', hcovers'⟩ := h'.2 key slot' hslot'
  exact ⟨slot'', hslot'', fun hside => hcovers'.1 (hcovers.1 hside),
    fun hside => hcovers'.2 (hcovers.2 hside)⟩

theorem window_perform (world : World) (choice : Choice) (request : Call) :
    (perform world choice request).1.window =
      windowStep world.window ⟨request, (answer world.state choice request).2⟩ := by
  unfold World.window
  exact List.foldl_append

theorem perform_state (world : World) (choice : Choice) (request : Call) :
    (perform world choice request).1.state = (answer world.state choice request).1 := rfl

theorem perform_reply (world : World) (choice : Choice) (request : Call) :
    (perform world choice request).2 = (answer world.state choice request).2 := rfl

theorem Guarded.reached_perform {world : World} (h : Guarded world) (choice : Choice)
    (request : Call) :
    (perform world choice request).1.journal = world.journal ++
      (deed? ⟨request, (answer world.state choice request).2⟩).toList ∧
    ∃ count, Reached World.initial count (perform world choice request).1.journal
      (perform world choice request).1 := by
  obtain ⟨count, hreached⟩ := h.reached
  have hnext := hreached.perform choice request
  have hjournal := hnext.journal
  have hempty : World.initial.journal = [] := rfl
  rw [hempty, List.nil_append] at hjournal
  refine ⟨hjournal, count + 1, ?_⟩
  rw [hjournal]
  exact hnext

/-- A call that stores nothing, alerts no complete slot and lets none into the
window. -/
theorem Guarded.silent {world : World} (h : Guarded world) (choice : Choice) (request : Call)
    (hstored : ∀ slot, deed? ⟨request, (answer world.state choice request).2⟩ ≠
      some (.stored slot))
    (halert : ∀ message key slot, deed? ⟨request, (answer world.state choice request).2⟩ =
      some (.published message) → AlertFor key message → world.state.get key = some slot →
      slot.complete = false)
    (hwindow : ∀ key ∈ windowStep world.window ⟨request, (answer world.state choice request).2⟩,
      ∀ slot, world.state.get key = some slot → slot.complete = false) :
    Guarded (perform world choice request).1 ∧
      (perform world choice request).1.state = world.state := by
  obtain ⟨hjournal, hreached⟩ := h.reached_perform choice request
  have hstate : (perform world choice request).1.state = world.state := by
    rw [perform_state, answer_state]
    cases hdeed : deed? ⟨request, (answer world.state choice request).2⟩ with
    | none => rfl
    | some deed =>
        cases deed with
        | stored slot => exact absurd hdeed (hstored slot)
        | audited entry => rfl
        | published message => rfl
  refine ⟨⟨hreached, ?_, ?_, ?_⟩, hstate⟩
  · rw [hstate]
    exact h.state
  · intro key hkey
    rw [window_perform] at hkey
    rw [hstate]
    exact hwindow key hkey
  · rw [hjournal]
    cases hdeed : deed? ⟨request, (answer world.state choice request).2⟩ with
    | none =>
        rw [Option.toList_none, List.append_nil]
        exact h.sound
    | some deed =>
        refine h.sound.extend (fun key hassigned => ?_) (fun message key slot heq hfor hslot => ?_)
        · have hsame : slotsAfter (world.journal ++ [deed]) = slotsAfter world.journal := by
            rw [slotsAfter, List.foldl_append]
            cases deed with
            | stored slot => exact absurd hdeed (hstored slot)
            | audited entry => rfl
            | published message => rfl
          unfold AssignedIn
          rw [hsame]
          exact hassigned
        · rw [h.slotsAfter_eq] at hslot
          exact halert message key slot (heq ▸ hdeed) hfor hslot

/-- A write that keeps complete slots complete and assigned, and completes no
slot of the window. -/
theorem Guarded.stored {world : World} (h : Guarded world) {choice : Choice} {slot : Slot}
    (hgood : choice.fault = false) {final : Slot}
    (hfinal : (SlotTable.put world.state slot).get slot.key = some final)
    (hstate : final.state = .stateAssigned ↔ final.complete = true)
    (hkept : ∀ stored, world.state.get slot.key = some stored → stored.complete = true →
      final.complete = true)
    (hwindow : slot.key ∈ world.window → final.complete = false) :
    Guarded (perform world choice (.upsert slot)).1 := by
  obtain ⟨hjournal, hreached⟩ := h.reached_perform choice (.upsert slot)
  have hanswer : answer world.state choice (.upsert slot) =
      (SlotTable.put world.state slot, some ()) := by
    simp [answer, hgood]
  have hnext : (perform world choice (.upsert slot)).1.state = SlotTable.put world.state slot := by
    rw [perform_state, hanswer]
  have hget : ∀ key stored, (SlotTable.put world.state slot).get key = some stored →
      (key = slot.key ∧ stored = final) ∨ (key ≠ slot.key ∧ world.state.get key = some stored) := by
    intro key stored hstored
    by_cases hkey : key = slot.key
    · rw [hkey, hfinal] at hstored
      exact .inl ⟨hkey, (Option.some.inj hstored).symm⟩
    · rw [SlotTable.get_put_of_ne _ _ hkey] at hstored
      exact .inr ⟨hkey, hstored⟩
  refine ⟨hreached, ?_, ?_, ?_⟩
  · intro key stored hstored
    rw [hnext] at hstored
    rcases hget key stored hstored with ⟨_, rfl⟩ | ⟨_, hbefore⟩
    · exact hstate
    · exact h.state key stored hbefore
  · intro key hkey stored hstored
    rw [window_perform, hanswer] at hkey
    rw [hnext] at hstored
    rcases hget key stored hstored with ⟨rfl, rfl⟩ | ⟨_, hbefore⟩
    · exact hwindow hkey
    · exact h.window key hkey stored hbefore
  · rw [hjournal, hanswer]
    refine h.sound.extend (fun key hassigned => ?_) (fun message key slot heq => by cases heq)
    have hsame : slotsAfter (world.journal ++ [.stored slot]) =
        SlotTable.put world.state slot := by
      rw [slotsAfter, List.foldl_append, ← h.slotsAfter_eq]
      rfl
    obtain ⟨stored, hstored, hassigned⟩ := hassigned
    rw [h.slotsAfter_eq] at hstored
    unfold AssignedIn
    rw [hsame]
    by_cases hkey : key = slot.key
    · subst hkey
      exact ⟨final, hfinal, hstate.mpr (hkept stored hstored
        ((h.state _ stored hstored).mp hassigned))⟩
    · exact ⟨stored, (SlotTable.get_put_of_ne _ _ hkey).trans hstored, hassigned⟩

end Harbormaster.Berthmaster
