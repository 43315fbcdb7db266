import Harbormaster.Berthmaster.Plan

/-! # What one sweep does

A sweep marks every selected slot before it publishes the first alert, so the
position of the first failing call decides which slots were marked and which of
them were alerted.
-/

namespace Harbormaster.Berthmaster

open Effect Program

def marked (slot : Slot) : Slot := { slot with state := .stateMissing }

def markDeeds (due : List Slot) : List Deed := due.map fun slot => .stored (marked slot)

theorem mem_markDeeds {taken : List Slot} {deed : Deed} :
    deed ∈ markDeeds taken ↔ ∃ slot ∈ taken, deed = .stored (marked slot) := by
  simp [markDeeds, eq_comm]

/-- The alerts of the marked slots, the first one emitted at `times 0`. -/
def alertDeeds : List Slot → (Nat → Instant) → List Deed
  | [], _ => []
  | slot :: rest, times =>
      .published (alertMessage (marked slot) (times 0)) ::
        alertDeeds rest fun index => times (index + 1)

/-- The call at this position fails, if it can. -/
def FaultAt (script : Script Choice) (index : Nat) : Prop :=
  ∃ choice, script index = some choice ∧ choice.fault = true

def GoodAt (script : Script Choice) (index : Nat) : Prop :=
  ∃ choice, script index = some choice ∧ choice.fault = false

theorem FaultAt.not_good {script : Script Choice} {index : Nat} (hfault : FaultAt script index) :
    ¬ GoodAt script index := by
  rintro ⟨choice, hchoice, hgood⟩
  obtain ⟨choice', hchoice', hbad⟩ := hfault
  rw [hchoice] at hchoice'
  cases hchoice'
  rw [hgood] at hbad
  cases hbad

/-- The slots a sweep selects: stored, due, and neither assigned nor missing. -/
structure Selected (slots : SlotTable) (due : List Slot) : Prop where
  stored : ∀ slot ∈ due, slots.get slot.key = some slot
  waiting : ∀ slot ∈ due, slot.state ≠ .stateAssigned ∧ slot.state ≠ .stateMissing
  nodup : (due.map Slot.key).Nodup

/-- Whatever order the store returns them in. -/
theorem selected_dueBefore {slots : SlotTable} {time : Instant} {choice : Choice}
    {due : List Slot} (hdue : due = choice.arrange.1 (slots.dueBefore time)) :
    Selected slots due := by
  have hperm : due.Perm (slots.dueBefore time) := hdue ▸ choice.arrange.2 _
  exact {
    stored := fun _ hslot =>
      ((SlotTable.mem_dueBefore slots).mp (hperm.mem_iff.mp hslot)).1
    waiting := fun _ hslot =>
      ((SlotTable.mem_dueBefore slots).mp (hperm.mem_iff.mp hslot)).2.2
    nodup := (hperm.map Slot.key).nodup_iff.mpr (SlotTable.dueBefore_keys_nodup slots time) }

theorem Selected.sublist {slots : SlotTable} {due taken : List Slot} (h : Selected slots due)
    (htaken : taken.Sublist due) : Selected slots taken where
  stored slot hslot := h.stored slot (htaken.mem hslot)
  waiting slot hslot := h.waiting slot (htaken.mem hslot)
  nodup := h.nodup.sublist (htaken.map Slot.key)

theorem marked_over (slot : Slot) : (marked slot).over slot = marked slot := by
  simp [Slot.over, marked]

/-- Marking a selection changes the slots of the selection and no others. -/
theorem get_markDeeds {slots : SlotTable} {due : List Slot} (h : Selected slots due) (key : Key) :
    (∃ slot ∈ due, slot.key = key ∧
      ((markDeeds due).foldl enact slots).get key = some (marked slot)) ∨
    (key ∉ due.map Slot.key ∧
      ((markDeeds due).foldl enact slots).get key = slots.get key) := by
  induction due generalizing slots with
  | nil => exact .inr ⟨List.not_mem_nil, rfl⟩
  | cons slot rest ih =>
      have hself : (slots.put (marked slot)).get slot.key = some (marked slot) := by
        have hput := SlotTable.get_put_self slots (marked slot)
        have hstored : slots.get (marked slot).key = some slot :=
          h.stored slot List.mem_cons_self
        rw [hstored] at hput
        exact hput.trans (congrArg some (marked_over slot))
      have hother : ∀ other, other ≠ slot.key →
          (slots.put (marked slot)).get other = slots.get other :=
        fun other hne => SlotTable.get_put_of_ne slots (marked slot) hne
      have hnodup := List.nodup_cons.mp h.nodup
      have hrest : Selected (slots.put (marked slot)) rest := {
        stored := fun later hlater => by
          have hne : later.key ≠ slot.key := fun heq =>
            hnodup.1 (heq ▸ List.mem_map_of_mem hlater)
          rw [hother _ hne]
          exact h.stored later (List.mem_cons_of_mem _ hlater)
        waiting := fun later hlater => h.waiting later (List.mem_cons_of_mem _ hlater)
        nodup := hnodup.2 }
      rcases ih hrest with ⟨later, hlater, hkey, hget⟩ | ⟨hnot, hget⟩
      · exact .inl ⟨later, List.mem_cons_of_mem _ hlater, hkey, hget⟩
      · by_cases hkey : key = slot.key
        · refine .inl ⟨slot, List.mem_cons_self, hkey.symm, ?_⟩
          rw [hkey] at hget ⊢
          exact hget.trans hself
        · refine .inr ⟨?_, hget.trans (hother key hkey)⟩
          rw [List.map_cons, List.mem_cons, not_or]
          exact ⟨hkey, hnot⟩

theorem foldl_enact_alertDeeds (slots : SlotTable) (due : List Slot) (times : Nat → Instant) :
    (alertDeeds due times).foldl enact slots = slots := by
  induction due generalizing times with
  | nil => rfl
  | cons slot rest ih => exact ih _

section Sweep

variable {script : Script Choice} {origin world : World} {count : Nat} {base : List Deed}
variable {during : World → Prop}

/-- The marking loop stores the marked slots up to the first failing call. -/
theorem markMissing_spec {due : List Slot} {after : World → Except Failure (List Slot) → Prop}
    (h : Reached origin count base world)
    (hopen : ∀ slot ∈ due, slot.state ≠ .stateAssigned ∧ slot.state ≠ .stateMissing)
    (hduring : ∀ world count index, Reached origin count (base ++ markDeeds (due.take index)) world →
      during world)
    (hfault : ∀ world index, index < due.length → FaultAt script (count + index) →
      (∀ earlier < index, GoodAt script (count + earlier)) →
      Reached origin (count + index + 1) (base ++ markDeeds (due.take index)) world →
        after world (.error .store))
    (hok : ∀ world, (∀ index < due.length, GoodAt script (count + index)) →
      Reached origin (count + due.length) (base ++ markDeeds due) world →
        after world (.ok (due.map marked))) :
    (Machine.markMissing due).Spec perform (Scripted script origin) during after world := by
  induction due generalizing world count base after with
  | nil =>
      refine hok world (fun index hindex => absurd hindex (Nat.not_lt_zero index)) ?_
      rw [markDeeds, List.map_nil, List.append_nil]
      exact h
  | cons slot rest ih =>
      have hhead := hopen slot List.mem_cons_self
      rw [Machine.markMissing, if_neg (not_or.mpr hhead)]
      have hstep : ∀ taken : List Slot, base ++ [.stored (marked slot)] ++ markDeeds taken =
          base ++ markDeeds (slot :: taken) := by
        intro taken
        rw [List.append_assoc]
        rfl
      refine Spec.bind (storeUpsert_spec h (hduring _ _ 0 (by
        rw [List.take_zero, markDeeds, List.map_nil, List.append_nil]
        exact h)) ?_ ?_)
      · intro choice world' hturn hbad hworld'
        refine hfault _ 0 (Nat.zero_lt_succ _) ⟨choice, hturn, hbad⟩
          (fun earlier hearlier => absurd hearlier (Nat.not_lt_zero earlier)) ?_
        rw [List.take_zero, markDeeds, List.map_nil, List.append_nil]
        exact hworld'
      intro choice world' hturn hgood hworld'
      have hgoods : ∀ bound, (∀ index < bound, GoodAt script (count + 1 + index)) →
          ∀ index < bound + 1, GoodAt script (count + index) := by
        intro bound hnext index hindex
        cases index with
        | zero => exact ⟨choice, hturn, hgood⟩
        | succ index =>
            have hlater := hnext index (Nat.lt_of_succ_lt_succ hindex)
            rwa [Nat.add_right_comm, Nat.add_assoc] at hlater
      refine Spec.bind (ih hworld' (fun slot' hslot' => hopen slot' (List.mem_cons_of_mem _ hslot'))
        ?_ ?_ ?_)
      · intro world'' count'' index hworld''
        refine hduring world'' count'' (index + 1) ?_
        rw [List.take_succ_cons, ← hstep]
        exact hworld''
      · intro world'' index hindex hbad hearlier hworld''
        refine hfault world'' (index + 1) (Nat.succ_lt_succ hindex) ?_ (hgoods index hearlier) ?_
        · rwa [← Nat.add_assoc, Nat.add_right_comm]
        · rw [List.take_succ_cons, ← hstep]
          rwa [← Nat.add_assoc, Nat.add_right_comm count index 1]
      · intro world'' hrest hworld''
        refine hok world'' (hgoods rest.length hrest) ?_
        rw [← hstep]
        rwa [List.length_cons, ← Nat.add_assoc, Nat.add_right_comm]

/-- The publishing loop alerts the slots up to the first failing call. -/
theorem publishAlerts_spec {due : List Slot} {after : World → Except Failure Unit → Prop}
    (h : Reached origin count base world)
    (hduring : ∀ world count index times,
      Reached origin count (base ++ alertDeeds (due.take index) times) world → during world)
    (hfault : ∀ world index times, index < due.length → FaultAt script (count + 2 * index + 1) →
      Reached origin (count + 2 * index + 2) (base ++ alertDeeds (due.take index) times) world →
        after world (.error .bus))
    (hok : ∀ world times, (∀ index < due.length, GoodAt script (count + 2 * index + 1)) →
      Reached origin (count + 2 * due.length) (base ++ alertDeeds due times) world →
        after world (.ok ())) :
    (publishAlerts (due.map marked)).Spec perform (Scripted script origin) during after world := by
  induction due generalizing world count base after with
  | nil =>
      refine hok world (fun _ => 0) (fun index hindex => absurd hindex (Nat.not_lt_zero index)) ?_
      rw [alertDeeds, List.append_nil]
      exact h
  | cons slot rest ih =>
      rw [List.map_cons, publishAlerts]
      have hnone : ∀ world count, Reached origin count base world → during world := by
        intro world count hworld
        refine hduring world count 0 (fun _ => 0) ?_
        rw [List.take_zero, alertDeeds, List.append_nil]
        exact hworld
      refine Spec.bind (now_spec h (hnone _ _ h) fun choice world1 hturn h1 => ?_)
      refine Spec.bind (publish_spec h1 (hnone _ _ h1) ?_ ?_)
      · intro choice' world' hturn' hbad hworld'
        refine hfault _ 0 (fun _ => 0) (Nat.zero_lt_succ _) ⟨choice', hturn', hbad⟩ ?_
        rw [List.take_zero, alertDeeds, List.append_nil]
        exact hworld'
      intro choice' world' hturn' hgood hworld'
      have hstep : ∀ (taken : List Slot) (times : Nat → Instant),
          base ++ [.published (alertMessage (marked slot) choice.clock)] ++ alertDeeds taken times =
            base ++ alertDeeds (slot :: taken)
              (fun index => if index = 0 then choice.clock else times (index - 1)) := by
        intro taken times
        rw [List.append_assoc, alertDeeds]
        rfl
      have hturns : ∀ index, count + 1 + 1 + 2 * index + 1 = count + 2 * (index + 1) + 1 := by
        intro index
        omega
      refine ih hworld' ?_ ?_ ?_
      · intro world'' count'' index times hworld''
        rw [hstep, ← List.take_succ_cons] at hworld''
        exact hduring world'' count'' (index + 1) _ hworld''
      · intro world'' index times hindex hbad hworld''
        rw [hstep, ← List.take_succ_cons] at hworld''
        rw [hturns] at hbad
        have hcount : count + 1 + 1 + 2 * index + 2 = count + 2 * (index + 1) + 2 := by omega
        rw [hcount] at hworld''
        exact hfault world'' (index + 1) _ (Nat.succ_lt_succ hindex) hbad hworld''
      · intro world'' times hgoods hworld''
        rw [hstep] at hworld''
        have hcount : count + 1 + 1 + 2 * rest.length = count + 2 * (slot :: rest).length := by
          rw [List.length_cons]
          omega
        rw [hcount] at hworld''
        refine hok world'' _ (fun index hindex => ?_) hworld''
        cases index with
        | zero => exact ⟨choice', hturn', hgood⟩
        | succ index =>
            rw [← hturns]
            exact hgoods index (Nat.lt_of_succ_lt_succ hindex)

/-- How a sweep came to its end, and what it did until then. -/
inductive SweepEnd (script : Script Choice) (origin : World) :
    World → Except Failure Unit → Prop where
  /-- The selection failed. -/
  | unread {world : World} (hfault : FaultAt script 1) (hworld : Reached origin 2 [] world) :
      SweepEnd script origin world (.error .store)
  /-- Marking failed at the slot `index` of the selection. -/
  | unmarked {world : World} {first second : Choice} {due : List Slot} {index : Nat}
      (hfirst : script 0 = some first) (hsecond : script 1 = some second)
      (hread : second.fault = false)
      (hdue : due = second.arrange.1 (origin.state.dueBefore first.clock))
      (hindex : index < due.length) (hfault : FaultAt script (2 + index))
      (hearlier : ∀ earlier < index, GoodAt script (2 + earlier))
      (hworld : Reached origin (2 + index + 1) (markDeeds (due.take index)) world) :
      SweepEnd script origin world (.error .store)
  /-- Publishing failed at the slot `index` of the selection. -/
  | unpublished {world : World} {first second : Choice} {due : List Slot} {index : Nat}
      {times : Nat → Instant}
      (hfirst : script 0 = some first) (hsecond : script 1 = some second)
      (hread : second.fault = false)
      (hdue : due = second.arrange.1 (origin.state.dueBefore first.clock))
      (hmarked : ∀ index < due.length, GoodAt script (2 + index))
      (hindex : index < due.length)
      (hfault : FaultAt script (2 + due.length + 2 * index + 1))
      (hworld : Reached origin (2 + due.length + 2 * index + 2)
        (markDeeds due ++ alertDeeds (due.take index) times) world) :
      SweepEnd script origin world (.error .bus)
  | complete {world : World} {first second : Choice} {due : List Slot} {times : Nat → Instant}
      (hfirst : script 0 = some first) (hsecond : script 1 = some second)
      (hread : second.fault = false)
      (hdue : due = second.arrange.1 (origin.state.dueBefore first.clock))
      (hmarked : ∀ index < due.length, GoodAt script (2 + index))
      (halerted : ∀ index < due.length, GoodAt script (2 + due.length + 2 * index + 1))
      (hworld : Reached origin (2 + due.length + 2 * due.length)
        (markDeeds due ++ alertDeeds due times) world) :
      SweepEnd script origin world (.ok ())

/-- Wherever a sweep is stopped, it has marked and alerted a part of a selection. -/
def Sweeping (origin world : World) : Prop :=
  ∃ due count index times, Selected origin.state due ∧
    (Reached origin count (markDeeds (due.take index)) world ∨
      Reached origin count (markDeeds due ++ alertDeeds (due.take index) times) world)

/-- A sweep, or a part of one, marks a selection and changes no other slot. -/
theorem Sweeping.state (h : Sweeping origin world) :
    ∃ taken, Selected origin.state taken ∧
      world.state = (markDeeds taken).foldl enact origin.state := by
  obtain ⟨due, count, index, times, hselected, hworld | hworld⟩ := h
  · exact ⟨due.take index, hselected.sublist (List.take_sublist _ _), hworld.state⟩
  · refine ⟨due, hselected, ?_⟩
    rw [hworld.state, List.foldl_append, foldl_enact_alertDeeds]

theorem sweep_spec :
    sweep.Spec perform (Scripted script origin) (Sweeping origin) (SweepEnd script origin)
      origin := by
  have hstart : ∀ world count, Reached origin count [] world → Sweeping origin world :=
    fun world count hworld => ⟨[], count, 0, fun _ => 0,
      ⟨by simp, by simp, List.nodup_nil⟩, .inl hworld⟩
  have horigin := Reached.origin origin
  refine Spec.bind ?_
  refine Spec.bind (now_spec horigin (hstart _ _ horigin) fun first world1 hfirst h1 => ?_)
  refine Spec.bind (storeDueBefore_spec h1 (hstart _ _ h1) ?_ ?_)
  · intro second world2 hsecond hbad h2
    exact .unread ⟨second, hsecond, hbad⟩ h2
  intro second world2 hsecond hread h2
  obtain ⟨due, hdue⟩ : ∃ due, due = second.arrange.1 (origin.state.dueBefore first.clock) :=
    ⟨_, rfl⟩
  have hselected : Selected origin.state due := selected_dueBefore hdue
  change (Machine.markMissing (second.arrange.1 (origin.state.dueBefore first.clock))).Spec
    _ _ _ _ _
  rw [← hdue]
  refine markMissing_spec h2 hselected.waiting ?_ ?_ ?_
  · intro world count index hworld
    exact ⟨due, count, index, fun _ => 0, hselected, .inl hworld⟩
  · intro world index hindex hfault hearlier hworld
    exact .unmarked hfirst hsecond hread hdue hindex hfault hearlier hworld
  intro world3 hmarked h3
  refine publishAlerts_spec h3 ?_ ?_ ?_
  · intro world count index times hworld
    exact ⟨due, count, index, times, hselected, .inr hworld⟩
  · intro world index times hindex hfault hworld
    exact .unpublished hfirst hsecond hread hdue hmarked hindex hfault hworld
  · intro world times halerted hworld
    exact .complete hfirst hsecond hread hdue hmarked halerted hworld

end Sweep

end Harbormaster.Berthmaster
