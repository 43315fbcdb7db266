import Harbormaster.Berthmaster.Sides
import Harbormaster.Inspector.Text

/-! # From the berthmaster to the engine

What the reconciliation engine loads for an assignment, and whether the assignment
carries what the messages stored on its two sides say of their canonical files.
-/

namespace Harbormaster

open Berthmaster Inspector

/-! ## Loading the sides -/

/-- Why the engine cannot load a side. -/
inductive LoadError where
  | keyError (field : String)
  | unsupported (uri : String)
  | notFound (path : String)
deriving DecidableEq

section Load

variable {ρ : Type} (files : String → Option (List ρ))

/-- Read a canonical file referenced by an object-store URI. -/
def loadCanonical (uri : String) : Except LoadError (List ρ) :=
  if startsWith uri "fs://" then
    let path := String.ofList (uri.toList.drop "fs://".length)
    match files path with
    | some rows => .ok rows
    | none => .error (.notFound path)
  else .error (.unsupported uri)

/-- A text of a message as JSON, where an empty one is left out. -/
def jsonField (name text : String) : Except LoadError String :=
  if text = "" then .error (.keyError name) else .ok text

/-- The two sides that `run_assignment` compares. -/
def loadSides (assigned : BerthAssigned) : Except LoadError (List ρ × List ρ) := do
  let side1 ← loadCanonical files (← jsonField "canonicalUri" assigned.side1.canonicalUri)
  let side2 ← loadCanonical files (← jsonField "canonicalUri" assigned.side2.canonicalUri)
  return (side1, side2)

end Load

/-! ## What an assignment carries -/

/-- A side that carries what a message says of its canonical file. -/
def sideRefOf (message : ArrivalClassified) : SideRef where
  arrivalId := message.arrivalId
  canonicalUri := message.canonicalUri
  rowCount := message.rowCount

/-- Both sides of an assignment carry what the messages stored on them say. -/
def CarriesSides (machine : Machine) (turns : List Turn) (key : Key) (assigned : BerthAssigned) :
    Prop :=
  ∃ first second, storedOn machine key sideInternalGl turns = some first ∧
    storedOn machine key sideExternalClient turns = some second ∧
    assigned.side1 = sideRefOf first ∧ assigned.side2 = sideRefOf second

variable {machine : Machine} {turns : List Turn} {turn : Turn} {assigned : BerthAssigned}

/-- In every run an assignment carries what the messages on its sides say exactly
when they name no file and count no row, and the engine cannot load it. -/
theorem carriesSides_iff (h : Publishes machine (runAll machine World.initial turns) turn assigned) :
    ∃ classified, turn.1 = .handle (some classified) ∧
      (CarriesSides machine (turns ++ [turn]) (arrivalOf classified).key assigned ↔
        ∀ side ∈ [sideInternalGl, sideExternalClient], ∀ message,
          storedOn machine (arrivalOf classified).key side (turns ++ [turn]) = some message →
            message.canonicalUri = "" ∧ message.rowCount = 0) ∧
      ∀ (ρ : Type) (files : String → Option (List ρ)),
        loadSides files assigned = .error (.keyError "canonicalUri") := by
  obtain ⟨classified, first, second, hturn, hfirst, hne1, hsecond, hne2, hside1, hside2⟩ :=
    sides_of_publishes h
  -- both sides are held by a message of the run
  have hstored : ∀ side text, arrivalAt (advance machine (runAll machine World.initial turns)
      turn).state (arrivalOf classified).key side = text → text ≠ "" →
        ∃ message, storedOn machine (arrivalOf classified).key side (turns ++ [turn]) =
          some message ∧ message.arrivalId = text := by
    intro side text htext hne
    have hrun : advance machine (runAll machine World.initial turns) turn =
        runAll machine World.initial (turns ++ [turn]) := by
      rw [runAll, runAll, List.foldl_append]
      rfl
    rw [hrun, arrivalAt_runAll] at htext
    cases hmessage : storedOn machine (arrivalOf classified).key side (turns ++ [turn]) with
    | none =>
        rw [hmessage] at htext
        exact absurd htext.symm hne
    | some message =>
        rw [hmessage] at htext
        exact ⟨message, rfl, htext⟩
  obtain ⟨message1, hmessage1, hid1⟩ := hstored _ _ hfirst hne1
  obtain ⟨message2, hmessage2, hid2⟩ := hstored _ _ hsecond hne2
  refine ⟨classified, hturn, ⟨?_, ?_⟩, ?_⟩
  · rintro ⟨other1, other2, hother1, hother2, hcarries1, hcarries2⟩ side hside message hmessage
    rw [hside1] at hcarries1
    rw [hside2] at hcarries2
    rcases List.mem_cons.mp hside with rfl | hside
    · rw [hother1] at hmessage
      cases hmessage
      exact ⟨(SideRef.mk.inj hcarries1).2.1.symm, (SideRef.mk.inj hcarries1).2.2.symm⟩
    · obtain rfl := List.mem_singleton.mp hside
      rw [hother2] at hmessage
      cases hmessage
      exact ⟨(SideRef.mk.inj hcarries2).2.1.symm, (SideRef.mk.inj hcarries2).2.2.symm⟩
  · intro hempty
    obtain ⟨huri1, hrows1⟩ := hempty _ (by simp) message1 hmessage1
    obtain ⟨huri2, hrows2⟩ := hempty _ (by simp) message2 hmessage2
    refine ⟨message1, message2, hmessage1, hmessage2, ?_, ?_⟩
    · rw [hside1, sideRefOf, hid1, huri1, hrows1]
    · rw [hside2, sideRefOf, hid2, huri2, hrows2]
  · intro ρ files
    unfold loadSides
    rw [hside1]
    rfl

/-! ## Two sides of one slot -/

/-- A sample arrival with its canonical file. -/
def filedArrival (arrivalId : String) (reconSide : ReconSide) (canonicalUri : String)
    (rowCount : Int) : ArrivalClassified :=
  { sampleArrival arrivalId reconSide with canonicalUri, rowCount }

def filedTurn (arrivalId : String) (reconSide : ReconSide) (canonicalUri : String)
    (rowCount : Int) : Turn :=
  (.handle (some (filedArrival arrivalId reconSide canonicalUri rowCount)), sampleScript sampleIdA)

/-- The assignment that completes the sample slot. -/
def filedAssignment (first second : Turn) : Option BerthAssigned :=
  (assignments sampleKey.text
    (newDeeds sampleMachine (runAll sampleMachine World.initial [first]) second)).head?

theorem carriesSides_unfiled :
    ∃ assigned, filedAssignment (filedTurn "A1" .internalGl "" 0)
        (filedTurn "A2" .externalClient "" 0) = some assigned ∧
      CarriesSides sampleMachine [filedTurn "A1" .internalGl "" 0,
        filedTurn "A2" .externalClient "" 0] sampleKey assigned := by
  obtain ⟨assigned, hassigned⟩ : ∃ assigned, filedAssignment (filedTurn "A1" .internalGl "" 0)
      (filedTurn "A2" .externalClient "" 0) = some assigned :=
    Option.isSome_iff_exists.mp (by decide +kernel)
  refine ⟨assigned, hassigned, ?_⟩
  obtain ⟨classified, hturn, hcarries, _⟩ := @carriesSides_iff sampleMachine
    [filedTurn "A1" .internalGl "" 0] _ assigned ⟨sampleKey.text, List.mem_of_mem_head? hassigned⟩
  cases hturn
  apply hcarries.mpr
  intro side hside message hmessage
  have hsides : ∀ side ∈ [sideInternalGl, sideExternalClient],
      ((storedOn sampleMachine sampleKey side [filedTurn "A1" .internalGl "" 0,
        filedTurn "A2" .externalClient "" 0]).map fun message =>
          (message.canonicalUri, message.rowCount)) = some ("", 0) := by decide +kernel
  have hempty := hsides side hside
  have hmessage : storedOn sampleMachine sampleKey side _ = some message := hmessage
  obtain ⟨other, hother, heq⟩ := Option.map_eq_some_iff.mp hempty
  obtain rfl := Option.some.inj (hother.symm.trans hmessage)
  exact Prod.mk.inj heq

/-- The files of both sides are known, and the assignment names neither. -/
theorem filed_sides_lost :
    ∃ assigned, filedAssignment (filedTurn "A1" .internalGl "fs://canonical/A1.parquet" 3)
        (filedTurn "A2" .externalClient "fs://canonical/A2.parquet" 3) = some assigned ∧
      ¬ CarriesSides sampleMachine
        [filedTurn "A1" .internalGl "fs://canonical/A1.parquet" 3,
          filedTurn "A2" .externalClient "fs://canonical/A2.parquet" 3] sampleKey assigned ∧
      loadSides (fun _ => some [()]) assigned = .error (.keyError "canonicalUri") := by
  have hlost : (filedAssignment (filedTurn "A1" .internalGl "fs://canonical/A1.parquet" 3)
      (filedTurn "A2" .externalClient "fs://canonical/A2.parquet" 3)).map
        (fun assigned => assigned.side1) = some { arrivalId := "A1" } := by decide +kernel
  obtain ⟨assigned, hassigned, hside⟩ := Option.map_eq_some_iff.mp hlost
  have hfiled : (storedOn sampleMachine sampleKey sideInternalGl
      [filedTurn "A1" .internalGl "fs://canonical/A1.parquet" 3,
        filedTurn "A2" .externalClient "fs://canonical/A2.parquet" 3]).map
          (fun message => message.rowCount) = some 3 := by decide +kernel
  refine ⟨assigned, hassigned, ?_, ?_⟩
  · rintro ⟨first, second, hfirst, _, hcarries, _⟩
    rw [hfirst] at hfiled
    rw [hside] at hcarries
    have hrows : first.rowCount = 3 := Option.some.inj hfiled
    rw [← (SideRef.mk.inj hcarries).2.2] at hrows
    cases hrows
  · unfold loadSides
    rw [hside]
    rfl

end Harbormaster
