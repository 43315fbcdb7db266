import Harbormaster.Berthmaster.Cuts
import Harbormaster.Handover

/-! # The sides of what the inspector sends

A slot is assigned once a file is on either side. Every message of the inspector
names the same side, whatever source the file was attributed to, so that in a run
of its messages no file reaches the internal side and no slot is assigned.
-/

namespace Harbormaster.Handover

open Berthmaster Effect Inspector

/-- A step that a message of the inspector causes, or the clock. -/
inductive Sent : Step → Prop where
  | handle (c : Classification) : Sent (.handle (some (toProto c)))
  | sweep : Sent .sweep

/-- The internal side of a slot is empty, and the slot is not assigned. -/
def OneSided (slot : Slot) : Prop := slot.side1Arrival = "" ∧ slot.state ≠ .stateAssigned

/-- Every stored slot is one-sided. -/
def AllOneSided (slots : SlotTable) : Prop := ∀ key slot, slots.get key = some slot → OneSided slot

/-- The slot of two files is assigned, with the files on their sides. -/
def BothReached (world : World) (gl client : Classification) : Prop :=
  ∃ slot, world.state.get (arrivalOf (toProto client)).key = some slot ∧
    slot.state = .stateAssigned ∧ slot.side1Arrival = gl.arrivalId ∧
    slot.side2Arrival = client.arrivalId

variable {machine : Machine} {slots : SlotTable}

theorem allOneSided_empty : AllOneSided ∅ := by
  intro key slot hslot
  rw [SlotTable.get_empty] at hslot
  cases hslot

/-- A one-sided slot that is written over another stays so. -/
theorem AllOneSided.put (h : AllOneSided slots) {slot : Slot} (hslot : OneSided slot) :
    AllOneSided (slots.put slot) := by
  intro key other hother
  by_cases hkey : key = slot.key
  · rw [hkey, get_storedAfter] at hother
    obtain rfl := Option.some.inj hother
    refine ⟨?_, storedAfter_state slots slot ▸ hslot.2⟩
    unfold storedAfter
    split
    next => exact hslot.1
    next stored hstored => exact coalesce_eq_empty.mpr ⟨hslot.1, (h _ _ hstored).1⟩
  · rw [SlotTable.get_put_of_ne slots slot hkey] at hother
    exact h key other hother

theorem AllOneSided.foldl {deeds : List Deed} (h : AllOneSided slots)
    (hstored : ∀ slot, .stored slot ∈ deeds → OneSided slot) :
    AllOneSided (deeds.foldl enact slots) := by
  induction deeds generalizing slots with
  | nil => exact h
  | cons deed rest ih =>
      have hrest : ∀ slot, .stored slot ∈ rest → OneSided slot :=
        fun slot hslot => hstored slot (List.mem_cons_of_mem _ hslot)
      cases deed with
      | stored slot => exact ih (h.put (hstored slot List.mem_cons_self)) hrest
      | audited entry => exact ih h hrest
      | published message => exact ih h hrest

/-- A message of the inspector leaves its slot without an internal side. -/
theorem stored_of_sent (h : AllOneSided slots) {c : Classification} {accepted : Instant}
    {outcome : Outcome} {slot placed : Slot} {readings : Readings}
    (hrouted : Routed machine slots accepted (arrivalOf (toProto c)) outcome slot placed) :
    ∀ stored, .stored stored ∈ routedDeeds slots (toProto c) outcome readings →
      OneSided stored := by
  have hempty : slot.side1Arrival = "" := by
    rcases hrouted.found with hfound | ⟨_, hfresh⟩
    · exact (h _ _ hfound).1
    · exact hfresh.side1
  have hside : (arrivalOf (toProto c)).side = sideExternalClient := rfl
  have hplaced : placed.side1Arrival = "" := by
    rcases hrouted.sides with ⟨hother, _⟩ | ⟨_, rfl⟩
    · exact absurd (hside.symm.trans hother) (by decide)
    · exact hempty
  have hincomplete : placed.complete = false := by simp [Slot.complete, hplaced]
  have hassign : outcome.assign = false := hrouted.assign_eq.trans hincomplete
  intro stored hstored
  simp only [routedDeeds, hassign, Bool.false_eq_true, if_false, List.append_nil,
    List.mem_cons, List.not_mem_nil, or_false, Deed.stored.injEq, reduceCtorEq] at hstored
  rw [hstored, hrouted.slot_eq, hincomplete]
  exact ⟨hplaced, by simp⟩

/-- What one turn preserves. -/
theorem AllOneSided.advance {world : World} (h : AllOneSided world.state) {turn : Turn}
    (hsent : Sent turn.1) : AllOneSided (advance machine world turn).state := by
  obtain ⟨step, script⟩ := turn
  cases hsent with
  | sweep =>
      obtain ⟨taken, hselected, hstate⟩ := (advance_sweep machine world script).state
      rw [hstate]
      apply h.foldl
      intro slot hslot
      obtain ⟨prior, hprior, hmarked⟩ := mem_markDeeds.mp hslot
      obtain rfl := Deed.stored.inj hmarked
      exact ⟨(h _ _ (hselected.stored prior hprior)).1, by simp [marked]⟩
  | handle c =>
      obtain ⟨count, done, hworld, hdone⟩ :=
        advance_handle_cases machine world script (some (toProto c))
      rw [hworld.state]
      apply h.foldl
      intro slot hslot
      rcases hdone with hsilent | ⟨classified, outcome, found, placed, readings, hsome, hrouted,
        hpart⟩
      · obtain ⟨entry, hentry⟩ := hsilent _ hslot
        cases hentry
      · obtain rfl := Option.some.inj hsome
        exact stored_of_sent h hrouted slot (hpart.subset hslot)

theorem allOneSided_runAll {turns : List Turn} (hsent : ∀ turn ∈ turns, Sent turn.1) :
    AllOneSided (runAll machine World.initial turns).state :=
  List.foldlRecOn (motive := fun world => AllOneSided world.state) _ _ allOneSided_empty
    fun (world : World) (h : AllOneSided world.state) turn hturn => h.advance (hsent turn hturn)

/-- In no run of messages of the inspector does a pair of files reach both sides of
a slot, and none is announced for the internal side. -/
theorem never_both_reached (gl client : Classification) {turns : List Turn}
    (hsent : ∀ turn ∈ turns, Sent turn.1) :
    (toProto gl).reconSide ≠ .internalGl ∧
      ¬ BothReached (runAll machine World.initial turns) gl client := by
  refine ⟨by simp [toProto], ?_⟩
  rintro ⟨slot, hslot, hassigned, _⟩
  exact (allOneSided_runAll hsent _ _ hslot).2 hassigned

/-! ## A pair of files

The client names the source of each side, and a pattern for the files of each. -/

def glHint : FilenameHint where
  pattern := "gl_cash\\.csv"
  domain := "CASH"
  sourceHint := "gl"

def clientHint : FilenameHint where
  pattern := "client_cash\\.csv"
  domain := "CASH"
  sourceHint := "client"

def sidedClient : Client := { statementClient with filenameHints := [glHint, clientHint] }

def sidedRegistry : Registry where
  clients := [sidedClient]
  calendars := [usEquity]

/-- Each of the two patterns matches the name of its own file. -/
def sidedRuntime : Runtime :=
  { Runtime.ascii with
    groupdict := fun pattern name =>
      if (pattern, name) ∈ [(glHint.pattern, "gl_cash.csv"),
          (clientHint.pattern, "client_cash.csv")] then some [] else none }

def sidedRun (arrivalId name : String) : Except Inspector.Failure (List Classification) :=
  ({ sampleInspector sampleTable with registry := sidedRegistry } : FileInspector).classify sidedRuntime
    arrivalId [] name fun _ => 739856

def sidedMachine : Machine := newMachine sidedRegistry 2

/-- Delivered one after the other, and nothing fails. -/
def sidedTurns (first second : Classification) : List Turn :=
  [(.handle (some (toProto first)), sampleScript sampleIdA),
    (.handle (some (toProto second)), sampleScript sampleIdB)]

theorem sidedTurns_sent (first second : Classification) :
    ∀ turn ∈ sidedTurns first second, Sent turn.1 :=
  List.forall_mem_cons.mpr ⟨.handle first, List.forall_mem_singleton.mpr (.handle second)⟩

def sidedKey : Key := ⟨"CLNT001", "CASH", "2026-08-27"⟩

def sidedExpectation : Expectation := { id := "CLNT001-CASH", domain := "CASH" }

/-- The state and the sides of the slot once both files were delivered. -/
def sidesAfter (first second : Classification) : Option (SlotState × String × String) :=
  ((runAll sidedMachine World.initial (sidedTurns first second)).state.get sidedKey).map
    fun slot => (slot.state, slot.side1Arrival, slot.side2Arrival)

/-- Two dispatched files of the slot, of the sources that its expectation names. -/
structure Opposed (gl client : Classification) : Prop where
  gl_dispatched : gl.score.disposition = .dispatched
  client_dispatched : client.score.disposition = .dispatched
  gl_key : (arrivalOf (toProto gl)).key = sidedKey
  client_key : (arrivalOf (toProto client)).key = sidedKey
  gl_source : gl.attribution.sourceHint = sidedExpectation.sides.internalGl.sourceHint
  client_source : client.attribution.sourceHint = sidedExpectation.sides.externalClient.sourceHint

theorem sided_pair :
    ∃ gl client, (∃ out, sidedRun "arr-1" "gl_cash.csv" = .ok out ∧ gl ∈ out) ∧
      (∃ out, sidedRun "arr-2" "client_cash.csv" = .ok out ∧ client ∈ out) ∧ Opposed gl client ∧
      sidesAfter gl client = some (.statePartial, "", "arr-2") ∧
      sidesAfter client gl = some (.statePartial, "", "arr-1") := by
  have heval : ((sidedRun "arr-1" "gl_cash.csv").toOption.bind fun gls =>
      (sidedRun "arr-2" "client_cash.csv").toOption.map fun clients =>
        gls.any fun gl => clients.any fun client => decide (
          (gl.score.disposition = .dispatched ∧ client.score.disposition = .dispatched ∧
            (arrivalOf (toProto gl)).key = sidedKey ∧
            (arrivalOf (toProto client)).key = sidedKey ∧
            gl.attribution.sourceHint = sidedExpectation.sides.internalGl.sourceHint ∧
            client.attribution.sourceHint = sidedExpectation.sides.externalClient.sourceHint) ∧
          sidesAfter gl client = some (.statePartial, "", "arr-2") ∧
          sidesAfter client gl = some (.statePartial, "", "arr-1"))) = some true := by
    decide +kernel
  obtain ⟨gls, hgls, heval⟩ := Option.bind_eq_some_iff.mp heval
  obtain ⟨clients, hclients, hany⟩ := Option.map_eq_some_iff.mp heval
  obtain ⟨gl, hgl, hany⟩ := List.any_eq_true.mp hany
  obtain ⟨client, hclient, hchecked⟩ := List.any_eq_true.mp hany
  obtain ⟨⟨h1, h2, h3, h4, h5, h6⟩, hsides⟩ := of_decide_eq_true hchecked
  obtain ⟨out, hout, rfl⟩ := @Fallible.ok_of_toOption _ _ _ id _ _ (by rw [hgls]; rfl)
  obtain ⟨out', hout', rfl⟩ := @Fallible.ok_of_toOption _ _ _ id _ _ (by rw [hclients]; rfl)
  exact ⟨gl, client, ⟨_, hout, hgl⟩, ⟨_, hout', hclient⟩, ⟨h1, h2, h3, h4, h5, h6⟩, hsides⟩

theorem never_both_reached_pair :
    ∃ gl client, Opposed gl client ∧ ((toProto gl).reconSide ≠ .internalGl ∧
      ¬ BothReached (runAll sidedMachine World.initial (sidedTurns gl client)) gl client) := by
  obtain ⟨gl, client, _, _, hopposed, _⟩ := sided_pair
  exact ⟨gl, client, hopposed, never_both_reached gl client (sidedTurns_sent gl client)⟩

/-- The second file replaces the first, in either order. -/
theorem sides_missed :
    sidedRegistry.Accepted (fun _ => true) ∧
      sidedClient.expectationFor sidedKey.domain = some sidedExpectation ∧
      (∀ first second, ∀ turn ∈ sidedTurns first second, Steady turn.2) ∧
      ∃ gl client, (∃ out, sidedRun "arr-1" "gl_cash.csv" = .ok out ∧ gl ∈ out) ∧
        (∃ out, sidedRun "arr-2" "client_cash.csv" = .ok out ∧ client ∈ out) ∧
        Opposed gl client ∧
        sidesAfter gl client = some (.statePartial, "", "arr-2") ∧
        sidesAfter client gl = some (.statePartial, "", "arr-1") ∧
        ¬ BothReached (runAll sidedMachine World.initial (sidedTurns gl client)) gl client ∧
        ¬ BothReached (runAll sidedMachine World.initial (sidedTurns client gl)) gl client := by
  have hnever : ∀ {first second}, AllOneSided
      (runAll sidedMachine World.initial (sidedTurns first second)).state :=
    allOneSided_runAll (sidedTurns_sent _ _)
  have hmissed : ∀ {first second gl client},
      ¬ BothReached (runAll sidedMachine World.initial (sidedTurns first second)) gl client := by
    rintro first second gl client ⟨slot, hslot, hassigned, _⟩
    exact (hnever _ _ hslot).2 hassigned
  refine ⟨@accepted_of_validateClient "CLNT001.yaml" _ (by decide +kernel) rfl, rfl, ?_, ?_⟩
  · intro first second
    exact List.forall_mem_cons.mpr ⟨sampleScript_steady _,
      List.forall_mem_singleton.mpr (sampleScript_steady _)⟩
  · obtain ⟨gl, client, hgl, hclient, hopposed, hfirst, hsecond⟩ := sided_pair
    exact ⟨gl, client, hgl, hclient, hopposed, hfirst, hsecond, hmissed, hmissed⟩

end Harbormaster.Handover
