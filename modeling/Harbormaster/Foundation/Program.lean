import Mathlib.Data.List.Basic

/-! # Programs over an interface of calls

A program ends with a value, ends with an error, or makes one call and goes on
with the reply. Its environment answers each call from the current world and a
choice (a clock reading, a fresh name, a fault), and may stop the program
before any call. One program text is therefore executed to the end, cut short
at an arbitrary call, or interleaved with others, without being written again.
-/

namespace Effect

/-- A program over the calls of `Call`, where `Reply request` is what the
environment sends back. -/
inductive Program (Call : Type) (Reply : Call → Type) (ε α : Type) where
  | done (result : α)
  | fail (cause : ε)
  | call (request : Call) (resume : Reply request → Program Call Reply ε α)

/-- How one execution came to rest. `stopped` is a crash before a call. -/
inductive Ending (ε α : Type) where
  | value (result : α)
  | error (cause : ε)
  | stopped
deriving DecidableEq, Repr

/-- The choices of the environment, call by call; `none` stops the program. -/
abbrev Script (Choice : Type) := Nat → Option Choice

/-- The script left after the first call. -/
def Script.tail {Choice : Type} (script : Script Choice) : Script Choice :=
  fun index => script (index + 1)

/-- The script that stops once `count` calls were made. -/
def Script.cut {Choice : Type} (script : Script Choice) (count : Nat) : Script Choice :=
  fun index => if index < count then script index else none

namespace Program

variable {Call : Type} {Reply : Call → Type} {ε α β : Type}

/-- Sequencing. An error of the first part ends the whole program. -/
protected def bind (program : Program Call Reply ε α) (next : α → Program Call Reply ε β) :
    Program Call Reply ε β :=
  match program with
  | .done result => next result
  | .fail cause => .fail cause
  | .call request resume => .call request fun reply => (resume reply).bind next

instance : Monad (Program Call Reply ε) where
  pure := .done
  bind := .bind

/-- Return an error of the program as a value. -/
def attempt {ε' : Type} : Program Call Reply ε α → Program Call Reply ε' (Except ε α)
  | .done result => .done (.ok result)
  | .fail cause => .done (.error cause)
  | .call request resume => .call request fun reply => (resume reply).attempt

/-- Make a call and return the reply. -/
def ask (request : Call) : Program Call Reply ε (Reply request) := .call request .done

/-- The program of a pure computation that may fail. -/
def ofExcept : Except ε α → Program Call Reply ε α
  | .ok result => .done result
  | .error cause => .fail cause

/-- Fail with `cause` where there is no value. -/
def orFail (cause : ε) : Option α → Program Call Reply ε α
  | some result => .done result
  | none => .fail cause

/-! ## Execution -/

variable {World Choice : Type}
variable (perform : World → Choice → (request : Call) → World × Reply request)

/-- Execute a program under a script. -/
def run : Program Call Reply ε α → Script Choice → World → World × Ending ε α
  | .done result, _, world => (world, .value result)
  | .fail cause, _, world => (world, .error cause)
  | .call request resume, script, world =>
      match script 0 with
      | none => (world, .stopped)
      | some choice =>
          (resume (perform world choice request).2).run script.tail
            (perform world choice request).1

/-- Every choice the script makes for this program is allowed in the world in
which it is made. -/
def Obeys (allowed : World → Choice → Call → Prop) :
    Program Call Reply ε α → Script Choice → World → Prop
  | .done _, _, _ => True
  | .fail _, _, _ => True
  | .call request resume, script, world =>
      match script 0 with
      | none => True
      | some choice =>
          allowed world choice request ∧
            (resume (perform world choice request).2).Obeys allowed script.tail
              (perform world choice request).1

/-! ## Specifications

`Spec` says what holds wherever the program may be stopped and what holds when
it ends, for every sequence of allowed choices. -/

/-- `during` holds before every call and `after` at the end, whatever allowed
choices the environment makes. -/
def Spec (allowed : World → Choice → Call → Prop) (during : World → Prop)
    (after : World → Except ε α → Prop) : Program Call Reply ε α → World → Prop
  | .done result, world => after world (.ok result)
  | .fail cause, world => after world (.error cause)
  | .call request resume, world =>
      during world ∧ ∀ choice, allowed world choice request →
        (resume (perform world choice request).2).Spec allowed during after
          (perform world choice request).1

variable {perform} {allowed : World → Choice → Call → Prop} {during : World → Prop}

theorem Spec.mono {during' : World → Prop} {after after' : World → Except ε α → Prop}
    {program : Program Call Reply ε α} {world : World}
    (hspec : program.Spec perform allowed during after world)
    (hduring : ∀ world, during world → during' world)
    (hafter : ∀ world result, after world result → after' world result) :
    program.Spec perform allowed during' after' world := by
  induction program generalizing world with
  | done result => exact hafter _ _ hspec
  | fail cause => exact hafter _ _ hspec
  | call request resume ih =>
      exact ⟨hduring _ hspec.1, fun choice hchoice => ih _ (hspec.2 choice hchoice)⟩

/-- Sequencing: the first part establishes the specification of the second. -/
theorem Spec.bind {after : World → Except ε β → Prop}
    {program : Program Call Reply ε α} {next : α → Program Call Reply ε β} {world : World}
    (hspec : program.Spec perform allowed during (fun world' result =>
      match result with
      | .ok value => (next value).Spec perform allowed during after world'
      | .error cause => after world' (.error cause)) world) :
    (program >>= next).Spec perform allowed during after world := by
  change (program.bind next).Spec perform allowed during after world
  induction program generalizing world with
  | done result => exact hspec
  | fail cause => exact hspec
  | call request resume ih =>
      exact ⟨hspec.1, fun choice hchoice => ih _ (hspec.2 choice hchoice)⟩

theorem Spec.ofExcept {after : World → Except ε α → Prop} {result : Except ε α} {world : World}
    (h : after world result) :
    (ofExcept result : Program Call Reply ε α).Spec perform allowed during after world := by
  cases result with
  | ok value => exact h
  | error cause => exact h

/-- An attempt ends without an error, whatever the program ends with. -/
theorem Spec.attempt {ε' : Type} {after : World → Except ε' (Except ε α) → Prop}
    {program : Program Call Reply ε α} {world : World}
    (hspec : program.Spec perform allowed during
      (fun world' result => after world' (.ok result)) world) :
    (program.attempt : Program Call Reply ε' _).Spec perform allowed during after world := by
  induction program generalizing world with
  | done result => exact hspec
  | fail cause => exact hspec
  | call request resume ih =>
      exact ⟨hspec.1, fun choice hchoice => ih _ (hspec.2 choice hchoice)⟩

/-- What a specification says about the end of one execution. -/
def EndsIn (during : World → Prop) (after : World → Except ε α → Prop) :
    World × Ending ε α → Prop
  | (world, .value result) => after world (.ok result)
  | (world, .error cause) => after world (.error cause)
  | (world, .stopped) => during world

theorem EndsIn.cases {after : World → Except ε α → Prop} {result : World × Ending ε α}
    (h : EndsIn during after result) :
    (result.2 = .stopped ∧ during result.1) ∨ ∃ ending, after result.1 ending := by
  obtain ⟨world, ending⟩ := result
  cases ending with
  | value value => exact .inr ⟨_, h⟩
  | error cause => exact .inr ⟨_, h⟩
  | stopped => exact .inl ⟨rfl, h⟩

/-- A specified program meets its specification under every obedient script. -/
theorem Spec.run {after : World → Except ε α → Prop}
    {program : Program Call Reply ε α} {world : World} {script : Script Choice}
    (hspec : program.Spec perform allowed during after world)
    (hscript : program.Obeys perform allowed script world) :
    EndsIn during after (program.run perform script world) := by
  induction program generalizing world script with
  | done result => exact hspec
  | fail cause => exact hspec
  | call request resume ih =>
      unfold Obeys at hscript
      unfold Program.run
      cases hturn : script 0 with
      | none => exact hspec.1
      | some choice =>
          rw [hturn] at hscript
          exact ih _ (hspec.2 choice hscript.1) hscript.2

/-- A script whose choices are always allowed is obedient. -/
theorem obeys_of_forall (program : Program Call Reply ε α) {script : Script Choice}
    (hallowed : ∀ index choice, script index = some choice →
      ∀ world request, allowed world choice request) (world : World) :
    program.Obeys perform allowed script world := by
  induction program generalizing world script with
  | done result => trivial
  | fail cause => trivial
  | call request resume ih =>
      unfold Obeys
      cases hturn : script 0 with
      | none => trivial
      | some choice =>
          exact ⟨hallowed 0 choice hturn _ _, ih _ (fun index => hallowed (index + 1)) _⟩

/-- A program stopped before its first call has changed nothing. -/
theorem run_of_none (program : Program Call Reply ε α) {script : Script Choice}
    (hstop : script 0 = none) (world : World) :
    (program.run perform script world).1 = world := by
  cases program with
  | done result => rfl
  | fail cause => rfl
  | call request resume =>
      unfold Program.run
      rw [hstop]

/-- A script that never stops brings the program to its end. -/
theorem run_ends (program : Program Call Reply ε α) {script : Script Choice}
    (hturns : ∀ index, (script index).isSome) (world : World) :
    (program.run perform script world).2 ≠ .stopped := by
  induction program generalizing world script with
  | done result => simp [Program.run]
  | fail cause => simp [Program.run]
  | call request resume ih =>
      unfold Program.run
      obtain ⟨choice, hchoice⟩ := Option.isSome_iff_exists.mp (hturns 0)
      rw [hchoice]
      exact ih _ (fun index => hturns (index + 1)) _

end Program

/-! ## Sequences of steps -/

section Steps

variable {State Turn : Type} (step : State → Turn → State)

/-- Every turn of a run meets a condition in the state it starts from. -/
def Along (condition : State → Turn → Prop) : State → List Turn → Prop
  | _, [] => True
  | state, turn :: rest => condition state turn ∧ Along condition (step state turn) rest

variable {step} {condition : State → Turn → Prop}

/-- What every turn preserves holds after the whole run. -/
theorem Along.invariant {motive : State → Prop}
    (hstep : ∀ state turn, motive state → condition state turn → motive (step state turn))
    {state : State} {turns : List Turn} (hstart : motive state)
    (halong : Along step condition state turns) : motive (turns.foldl step state) := by
  induction turns generalizing state with
  | nil => exact hstart
  | cons turn rest ih => exact ih (hstep state turn hstart halong.1) halong.2

/-- What the condition says in the states of an invariant holds along the run. -/
theorem Along.imp {motive : State → Prop} {condition' : State → Turn → Prop}
    (hstep : ∀ state turn, motive state → condition state turn → motive (step state turn))
    (himp : ∀ state turn, motive state → condition state turn → condition' state turn)
    {state : State} {turns : List Turn} (hstart : motive state)
    (halong : Along step condition state turns) : Along step condition' state turns := by
  induction turns generalizing state with
  | nil => trivial
  | cons turn rest ih =>
      exact ⟨himp state turn hstart halong.1, ih (hstep state turn hstart halong.1) halong.2⟩

theorem along_append {state : State} {turns rest : List Turn} :
    Along step condition state (turns ++ rest) ↔
      Along step condition state turns ∧
        Along step condition (turns.foldl step state) rest := by
  induction turns generalizing state with
  | nil => exact ⟨fun h => ⟨trivial, h⟩, fun h => h.2⟩
  | cons turn turns ih =>
      change _ ∧ Along step condition _ (turns ++ rest) ↔ (_ ∧ _) ∧ _
      rw [ih]
      exact and_assoc.symm

instance Along.decidable [∀ state turn, Decidable (condition state turn)] :
    (state : State) → (turns : List Turn) → Decidable (Along step condition state turns)
  | _, [] => .isTrue trivial
  | state, turn :: rest =>
      have := Along.decidable (step state turn) rest
      inferInstanceAs (Decidable (condition state turn ∧ Along step condition _ rest))

end Steps

/-! ## Recorded worlds -/

/-- A call together with the reply it got. -/
abbrev Event (Call : Type) (Reply : Call → Type) := (request : Call) × Reply request

/-- A state together with the calls made on it, oldest first. -/
structure Recorded (State Call : Type) (Reply : Call → Type) where
  state : State
  calls : List (Event Call Reply)

/-- Answer a call from the state and record it. -/
def record {State Choice Call : Type} {Reply : Call → Type}
    (answer : State → Choice → (request : Call) → State × Reply request)
    (world : Recorded State Call Reply) (choice : Choice) (request : Call) :
    Recorded State Call Reply × Reply request :=
  let (state, reply) := answer world.state choice request
  ({ state, calls := world.calls ++ [⟨request, reply⟩] }, reply)

section Scripts

variable {State Choice Call : Type} {Reply : Call → Type} {ε α : Type}
variable {answer : State → Choice → (request : Call) → State × Reply request}

/-- The choices of a script, indexed by the calls made since `origin`. -/
def Scripted (script : Script Choice) (origin : Recorded State Call Reply)
    (world : Recorded State Call Reply) (choice : Choice) (_ : Call) : Prop :=
  script (world.calls.length - origin.calls.length) = some choice

theorem obeys_scripted_from (program : Program Call Reply ε α) {script : Script Choice}
    {origin world : Recorded State Call Reply} {count : Nat}
    (hcount : world.calls.length = origin.calls.length + count) :
    program.Obeys (record answer) (Scripted script origin)
      (fun index => script (count + index)) world := by
  induction program generalizing world count with
  | done result => trivial
  | fail cause => trivial
  | call request resume ih =>
      unfold Program.Obeys
      split
      next => trivial
      next choice hturn =>
          refine ⟨?_, ?_⟩
          · rw [Scripted, hcount, Nat.add_sub_cancel_left]
            exact hturn
          · have hnext : (record answer world choice request).1.calls.length =
                origin.calls.length + (count + 1) := by
              simp [record, hcount, Nat.add_assoc]
            have hshift : Script.tail (fun index => script (count + index)) =
                fun index => script (count + 1 + index) := by
              funext index
              exact congrArg script (by omega)
            rw [hshift]
            exact ih _ hnext

/-- Every execution obeys its own script. -/
theorem obeys_scripted (program : Program Call Reply ε α) (script : Script Choice)
    (world : Recorded State Call Reply) :
    program.Obeys (record answer) (Scripted script world) script world := by
  have h : program.Obeys (record answer) (Scripted script world)
      (fun index => script (0 + index)) world := obeys_scripted_from program rfl
  simpa only [Nat.zero_add] using h

/-- A program is stopped at the first call for which its script has no choice. -/
theorem script_of_stopped {program : Program Call Reply ε α} {script : Script Choice}
    {world : Recorded State Call Reply}
    (h : (program.run (record answer) script world).2 = .stopped) :
    ∃ count, (program.run (record answer) script world).1.calls.length =
      world.calls.length + count ∧ script count = none := by
  induction program generalizing script world with
  | done result => cases h
  | fail cause => cases h
  | call request resume ih =>
      unfold Program.run at h ⊢
      cases hturn : script 0 with
      | none => exact ⟨0, rfl, hturn⟩
      | some choice =>
          rw [hturn] at h
          obtain ⟨count, hlength, hnone⟩ := ih _ h
          refine ⟨count + 1, ?_, hnone⟩
          refine hlength.trans ?_
          simp [record, Nat.add_assoc, Nat.add_comm 1]

end Scripts

end Effect
