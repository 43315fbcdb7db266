import Harbormaster.Foundation.Program
import Mathlib.Logic.Function.Basic

/-! # Interleaved programs

Several programs act on one world, one call at a time in any order. A party
keeps its pact when, whatever the others do within what it relies on, each of
its calls preserves the common invariant and stays within its guarantee. Parties
that keep their pacts preserve the invariant under every schedule.
-/

namespace Effect

namespace Program

variable {Call : Type} {Reply : Call → Type} {ε α β : Type} {World Choice : Type}
variable (perform : World → Choice → (request : Call) → World × Reply request)

/-- At every call, after any interference within `rely`, the program preserves
`invariant` and stays within `guarantee`; it ends in `after`. -/
def Keeps (invariant : World → Prop) (rely guarantee : World → World → Prop)
    (allowed : World → Choice → Call → Prop) (after : World → Except ε α → Prop) :
    Program Call Reply ε α → World → Prop
  | .done result, world => after world (.ok result)
  | .fail cause, world => after world (.error cause)
  | .call request resume, world =>
      ∀ world', rely world world' → invariant world' →
        ∀ choice, allowed world' choice request →
          invariant (perform world' choice request).1 ∧
          guarantee world' (perform world' choice request).1 ∧
          (resume (perform world' choice request).2).Keeps invariant rely guarantee allowed after
            (perform world' choice request).1

variable {perform} {invariant : World → Prop} {rely guarantee : World → World → Prop}
variable {allowed : World → Choice → Call → Prop}

theorem Keeps.mono {after after' : World → Except ε α → Prop}
    {program : Program Call Reply ε α} {world : World}
    (hkeeps : program.Keeps perform invariant rely guarantee allowed after world)
    (hafter : ∀ world result, after world result → after' world result) :
    program.Keeps perform invariant rely guarantee allowed after' world := by
  induction program generalizing world with
  | done result => exact hafter _ _ hkeeps
  | fail cause => exact hafter _ _ hkeeps
  | call request resume ih =>
      intro world' hrely hinvariant choice hchoice
      obtain ⟨hnext, hguarantee, hrest⟩ := hkeeps world' hrely hinvariant choice hchoice
      exact ⟨hnext, hguarantee, ih _ hrest⟩

theorem Keeps.bind {after : World → Except ε β → Prop}
    {program : Program Call Reply ε α} {next : α → Program Call Reply ε β} {world : World}
    (hkeeps : program.Keeps perform invariant rely guarantee allowed (fun world' result =>
      match result with
      | .ok value => (next value).Keeps perform invariant rely guarantee allowed after world'
      | .error cause => after world' (.error cause)) world) :
    (program >>= next).Keeps perform invariant rely guarantee allowed after world := by
  change (program.bind next).Keeps perform invariant rely guarantee allowed after world
  induction program generalizing world with
  | done result => exact hkeeps
  | fail cause => exact hkeeps
  | call request resume ih =>
      intro world' hrely hinvariant choice hchoice
      obtain ⟨hnext, hguarantee, hrest⟩ := hkeeps world' hrely hinvariant choice hchoice
      exact ⟨hnext, hguarantee, ih _ hrest⟩

theorem Keeps.attempt {ε' : Type} {after : World → Except ε' (Except ε α) → Prop}
    {program : Program Call Reply ε α} {world : World}
    (hkeeps : program.Keeps perform invariant rely guarantee allowed
      (fun world' result => after world' (.ok result)) world) :
    (program.attempt : Program Call Reply ε' _).Keeps perform invariant rely guarantee allowed
      after world := by
  induction program generalizing world with
  | done result => exact hkeeps
  | fail cause => exact hkeeps
  | call request resume ih =>
      intro world' hrely hinvariant choice hchoice
      obtain ⟨hnext, hguarantee, hrest⟩ := hkeeps world' hrely hinvariant choice hchoice
      exact ⟨hnext, hguarantee, ih _ hrest⟩

/-- One call, from an assertion that the others keep true. -/
theorem Keeps.ask (assertion : World → Prop) {request : Call}
    {after : World → Except ε (Reply request) → Prop} {world : World}
    (hassertion : assertion world)
    (hstable : ∀ world world', assertion world → rely world world' → assertion world')
    (hstep : ∀ world choice, assertion world → invariant world → allowed world choice request →
      invariant (perform world choice request).1 ∧
      guarantee world (perform world choice request).1 ∧
      after (perform world choice request).1 (.ok (perform world choice request).2)) :
    (ask request : Program Call Reply ε _).Keeps perform invariant rely guarantee allowed
      after world :=
  fun world' hrely hinvariant choice hchoice =>
    hstep world' choice (hstable world world' hassertion hrely) hinvariant hchoice

/-- Interference that was relied on before the first call. -/
theorem Keeps.interfere {program : Program Call Reply ε α} {world world' : World}
    (htrans : ∀ world₁ world₂ world₃, rely world₁ world₂ → rely world₂ world₃ →
      rely world₁ world₃)
    (hkeeps : program.Keeps perform invariant rely guarantee allowed (fun _ _ => True) world)
    (hrely : rely world world') :
    program.Keeps perform invariant rely guarantee allowed (fun _ _ => True) world' := by
  cases program with
  | done result => trivial
  | fail cause => trivial
  | call request resume =>
      exact fun world'' hrely' => hkeeps world'' (htrans _ _ _ hrely hrely')

/-! ### Counting the calls -/

/-- The program has come to its end. -/
def Ended : Program Call Reply ε α → Prop
  | .call _ _ => False
  | _ => True

/-- The program makes no more than so many calls, whatever the replies. -/
def AtMost : Program Call Reply ε α → Nat → Prop
  | .done _, _ => True
  | .fail _, _ => True
  | .call _ _, 0 => False
  | .call _ resume, count + 1 => ∀ reply, (resume reply).AtMost count

theorem AtMost.ended {program : Program Call Reply ε α} (h : program.AtMost 0) :
    program.Ended := by
  cases program with
  | done result => trivial
  | fail cause => trivial
  | call request resume => exact h

theorem AtMost.succ {count : Nat} {program : Program Call Reply ε α} (h : program.AtMost count) :
    program.AtMost (count + 1) := by
  induction program generalizing count with
  | done result => trivial
  | fail cause => trivial
  | call request resume ih =>
      cases count with
      | zero => exact h.elim
      | succ count => exact fun reply => ih reply (h reply)

variable (perform) in
/-- The next call of a program; a program that has ended does nothing. -/
def advance (choice : Choice) (program : Program Call Reply ε α) (world : World) :
    Program Call Reply ε α × World :=
  match program with
  | .call request resume =>
      (resume (perform world choice request).2, (perform world choice request).1)
  | program => (program, world)

theorem AtMost.advance {count : Nat} {program : Program Call Reply ε α}
    (h : program.AtMost (count + 1)) (choice : Choice) (world : World) :
    (program.advance perform choice world).1.AtMost count := by
  cases program with
  | done result => trivial
  | fail cause => trivial
  | call request resume => exact h _

end Program

/-! ## Pools -/

/-- The programs the parties have left to run. -/
abbrev Pool (ι Call : Type) (Reply : Call → Type) (ε α : Type) := ι → Program Call Reply ε α

namespace Pool

open Program

variable {ι Call : Type} {Reply : Call → Type} {ε α World Choice : Type} [DecidableEq ι]
variable (perform : World → Choice → (request : Call) → World × Reply request)

/-- Let one party make its next call; a party that has ended does nothing. -/
def step (state : Pool ι Call Reply ε α × World) (turn : ι × Choice) :
    Pool ι Call Reply ε α × World :=
  match state.1 turn.1 with
  | .call request resume =>
      (Function.update state.1 turn.1 (resume (perform state.2 turn.2 request).2),
        (perform state.2 turn.2 request).1)
  | _ => state

/-- The call a turn makes is allowed in the world in which it is made. -/
def Allowed (allowed : ι → World → Choice → Call → Prop) (state : Pool ι Call Reply ε α × World)
    (turn : ι × Choice) : Prop :=
  ∀ request resume, state.1 turn.1 = .call request resume →
    allowed turn.1 state.2 turn.2 request

instance (allowed : ι → World → Choice → Call → Prop)
    [∀ who world choice request, Decidable (allowed who world choice request)]
    (state : Pool ι Call Reply ε α × World) (turn : ι × Choice) :
    Decidable (Allowed allowed state turn) :=
  match hcall : state.1 turn.1 with
  | .call request _ => decidable_of_iff (allowed turn.1 state.2 turn.2 request)
      ⟨fun h _ _ hsame => by
          rw [hcall] at hsame
          cases hsame
          exact h,
        fun h => h _ _ hcall⟩
  | .done _ => .isTrue fun _ _ hsame => by rw [hcall] at hsame; cases hsame
  | .fail _ => .isTrue fun _ _ hsame => by rw [hcall] at hsame; cases hsame

variable {perform} {invariant : World → Prop} {rely guarantee : ι → World → World → Prop}
variable {allowed : ι → World → Choice → Call → Prop}

/-- Every party keeps its pact from here on. -/
def AllKeep (perform : World → Choice → (request : Call) → World × Reply request)
    (invariant : World → Prop) (rely guarantee : ι → World → World → Prop)
    (allowed : ι → World → Choice → Call → Prop) (state : Pool ι Call Reply ε α × World) : Prop :=
  ∀ who, (state.1 who).Keeps perform invariant (rely who) (guarantee who) (allowed who)
    (fun _ _ => True) state.2

theorem step_keeps
    (htrans : ∀ who world₁ world₂ world₃, rely who world₁ world₂ → rely who world₂ world₃ →
      rely who world₁ world₃)
    (hrefl : ∀ who world, rely who world world)
    (hpact : ∀ who other, who ≠ other → ∀ world world',
      guarantee who world world' → rely other world world')
    {state : Pool ι Call Reply ε α × World} {turn : ι × Choice}
    (hkeeps : AllKeep perform invariant rely guarantee allowed state)
    (hinvariant : invariant state.2) (hallowed : Allowed allowed state turn) :
    AllKeep perform invariant rely guarantee allowed (step perform state turn) ∧
      invariant (step perform state turn).2 := by
  obtain ⟨pool, world⟩ := state
  obtain ⟨who, choice⟩ := turn
  unfold step
  split
  next request resume hcall =>
    have hturn := hkeeps who
    dsimp only at hcall hturn ⊢
    rw [hcall] at hturn
    obtain ⟨hnext, hguarantee, hrest⟩ := hturn world (hrefl who world) hinvariant choice
      (hallowed request resume hcall)
    refine ⟨fun other => ?_, hnext⟩
    dsimp only
    by_cases hsame : other = who
    · subst hsame
      rw [Function.update_self]
      exact hrest
    · rw [Function.update_of_ne hsame]
      exact (hkeeps other).interfere (htrans other)
        (hpact who other (Ne.symm hsame) _ _ hguarantee)
  next => exact ⟨hkeeps, hinvariant⟩

/-- Parties that keep their pacts preserve the invariant under every schedule. -/
theorem invariant_run
    (htrans : ∀ who world₁ world₂ world₃, rely who world₁ world₂ → rely who world₂ world₃ →
      rely who world₁ world₃)
    (hrefl : ∀ who world, rely who world world)
    (hpact : ∀ who other, who ≠ other → ∀ world world',
      guarantee who world world' → rely other world world')
    {state : Pool ι Call Reply ε α × World} {schedule : List (ι × Choice)}
    (hkeeps : AllKeep perform invariant rely guarantee allowed state)
    (hinvariant : invariant state.2)
    (hallowed : Along (step perform) (Allowed allowed) state schedule) :
    invariant (schedule.foldl (step perform) state).2 :=
  (hallowed.invariant (motive := fun state =>
    AllKeep perform invariant rely guarantee allowed state ∧ invariant state.2)
    (fun _ _ h hturn => step_keeps htrans hrefl hpact h.1 h.2 hturn) ⟨hkeeps, hinvariant⟩).2

/-- A turn advances the program of one party. -/
theorem step_eq (state : Pool ι Call Reply ε α × World) (turn : ι × Choice) :
    step perform state turn =
      (Function.update state.1 turn.1 ((state.1 turn.1).advance perform turn.2 state.2).1,
        ((state.1 turn.1).advance perform turn.2 state.2).2) := by
  unfold step
  split
  next request resume hcall => rw [hcall]; rfl
  next hended =>
    have hsame : (state.1 turn.1).advance perform turn.2 state.2 = (state.1 turn.1, state.2) := by
      unfold advance
      split
      next request resume hcall => exact absurd hcall (hended request resume)
      next => rfl
    rw [hsame, Function.update_eq_self]

theorem step_self (state : Pool ι Call Reply ε α × World) (turn : ι × Choice) :
    (step perform state turn).1 turn.1 =
      ((state.1 turn.1).advance perform turn.2 state.2).1 := by
  rw [step_eq]
  exact Function.update_self _ _ _

theorem step_other (state : Pool ι Call Reply ε α × World) {turn : ι × Choice} {who : ι}
    (hne : who ≠ turn.1) : (step perform state turn).1 who = state.1 who := by
  rw [step_eq]
  exact Function.update_of_ne hne _ _

theorem step_world (state : Pool ι Call Reply ε α × World) (turn : ι × Choice) :
    (step perform state turn).2 = ((state.1 turn.1).advance perform turn.2 state.2).2 := by
  rw [step_eq]

/-- A party ends once it has had as many turns as its program makes calls. -/
theorem ended_of_turns {state : Pool ι Call Reply ε α × World} {schedule : List (ι × Choice)}
    {who : ι} {count : Nat} (hcount : (state.1 who).AtMost count)
    (hturns : count ≤ (schedule.map Prod.fst).count who) :
    ((schedule.foldl (step perform) state).1 who).Ended := by
  induction schedule generalizing state count with
  | nil =>
      obtain rfl : count = 0 := Nat.le_zero.mp hturns
      exact hcount.ended
  | cons turn rest ih =>
      rw [List.map_cons] at hturns
      by_cases hwho : turn.1 = who
      · subst hwho
        rw [List.count_cons_self] at hturns
        have hnext : ∀ count, (state.1 turn.1).AtMost (count + 1) →
            ((step perform state turn).1 turn.1).AtMost count := fun count h => by
          rw [step_self]
          exact h.advance _ _
        cases count with
        | zero => exact ih (hnext 0 hcount.succ) (Nat.zero_le _)
        | succ count => exact ih (hnext count hcount) (Nat.le_of_succ_le_succ hturns)
      · rw [List.count_cons_of_ne hwho] at hturns
        refine ih ?_ hturns
        rw [step_other state (Ne.symm hwho)]
        exact hcount

end Pool

end Effect
