import Harbormaster.Foundation.Interleaving
import Mathlib.Algebra.BigOperators.Group.Finset.Piecewise
import Mathlib.Algebra.GroupWithZero.Nat

/-! # Programs within a budget

The reply to a call may earn credit, and a call may spend it. When every program
of a pool spends only what it has earned before, no schedule spends more than
the whole pool has earned.
-/

namespace Effect

namespace Program

variable {Call : Type} {Reply : Call → Type} {ε α β : Type}
variable (gain cost : Event Call Reply → Nat)

/-- Whatever the replies, the program spends no more than `credit` and what it
has earned; it ends in `after` with the credit left. -/
def Within (after : Nat → α → Prop) : Program Call Reply ε α → Nat → Prop
  | .done result, credit => after credit result
  | .fail _, _ => True
  | .call request resume, credit =>
      ∀ reply : Reply request, cost ⟨request, reply⟩ ≤ credit ∧
        (resume reply).Within after (credit - cost ⟨request, reply⟩ + gain ⟨request, reply⟩)

variable {gain cost}

theorem Within.bind {after : Nat → β → Prop} {program : Program Call Reply ε α}
    {next : α → Program Call Reply ε β} {credit : Nat}
    (hwithin : program.Within gain cost
      (fun credit result => (next result).Within gain cost after credit) credit) :
    (program >>= next).Within gain cost after credit := by
  change (program.bind next).Within gain cost after credit
  induction program generalizing credit with
  | done result => exact hwithin
  | fail cause => trivial
  | call request resume ih =>
      intro reply
      exact ⟨(hwithin reply).1, ih reply (hwithin reply).2⟩

theorem Within.mono {after after' : Nat → α → Prop} {program : Program Call Reply ε α}
    {credit : Nat} (hwithin : program.Within gain cost after credit)
    (hafter : ∀ credit result, after credit result → after' credit result) :
    program.Within gain cost after' credit := by
  induction program generalizing credit with
  | done result => exact hafter _ _ hwithin
  | fail cause => trivial
  | call request resume ih =>
      intro reply
      exact ⟨(hwithin reply).1, ih reply (hwithin reply).2⟩

theorem Within.orFail {after : Nat → α → Prop} {cause : ε} {result : Option α} {credit : Nat}
    (h : ∀ value, result = some value → after credit value) :
    (orFail cause result : Program Call Reply ε α).Within gain cost after credit := by
  cases result with
  | some value => exact h value rfl
  | none => trivial

end Program

/-- What a list of calls amounts to. -/
def total {Call : Type} {Reply : Call → Type} (weight : Event Call Reply → Nat)
    (calls : List (Event Call Reply)) : Nat :=
  (calls.map weight).sum

theorem total_concat {Call : Type} {Reply : Call → Type} (weight : Event Call Reply → Nat)
    (calls : List (Event Call Reply)) (event : Event Call Reply) :
    total weight (calls ++ [event]) = total weight calls + weight event := by
  simp [total]

namespace Pool

open Program

variable {ι State Choice Call : Type} {Reply : Call → Type} {ε α : Type}
variable [Fintype ι] [DecidableEq ι]
variable (answer : State → Choice → (request : Call) → State × Reply request)
variable (gain cost : Event Call Reply → Nat)

/-- Every party is within a credit of its own, and all the credits are earned
and not spent. -/
def Balanced (state : Pool ι Call Reply ε α × Recorded State Call Reply) : Prop :=
  ∃ credits : ι → Nat,
    (∀ who, (state.1 who).Within gain cost (fun _ _ => True) (credits who)) ∧
    total cost state.2.calls + ∑ who, credits who ≤ total gain state.2.calls

variable {gain cost}

/-- One party's credit is its share of the sum. -/
theorem sum_update (credits : ι → Nat) (who : ι) (credit : Nat) :
    ∑ other, Function.update credits who credit other + credits who =
      ∑ other, credits other + credit := by
  rw [Finset.sum_update_of_mem (Finset.mem_univ who), ← Finset.erase_eq,
    ← Finset.add_sum_erase Finset.univ credits (Finset.mem_univ who)]
  omega

theorem step_balanced {state : Pool ι Call Reply ε α × Recorded State Call Reply}
    (h : Balanced gain cost state) (turn : ι × Choice) :
    Balanced gain cost (step (record answer) state turn) := by
  obtain ⟨pool, world⟩ := state
  obtain ⟨who, choice⟩ := turn
  obtain ⟨credits, hwithin, hcovered⟩ := h
  unfold step
  split
  next request resume hcall =>
    have hturn := hwithin who
    dsimp only at hcall hturn hcovered ⊢
    rw [hcall] at hturn
    obtain ⟨event, hevent⟩ : ∃ event : Event Call Reply,
      event = ⟨request, (answer world.state choice request).2⟩ := ⟨_, rfl⟩
    obtain ⟨hafford, hrest⟩ := hturn (answer world.state choice request).2
    rw [← hevent] at hafford hrest
    refine ⟨Function.update credits who (credits who - cost event + gain event),
      fun other => ?_, ?_⟩
    · dsimp only
      by_cases hsame : other = who
      · subst hsame
        rw [Function.update_self, Function.update_self]
        exact hrest
      · rw [Function.update_of_ne hsame, Function.update_of_ne hsame]
        exact hwithin other
    · change total cost (world.calls ++ [⟨request, (answer world.state choice request).2⟩]) + _ ≤
        total gain (world.calls ++ [⟨request, (answer world.state choice request).2⟩])
      have hsum := sum_update credits who (credits who - cost event + gain event)
      rw [← hevent, total_concat, total_concat]
      omega
  next => exact ⟨credits, hwithin, hcovered⟩

/-- A pool of programs that start without credit spends no more than it earns. -/
theorem spent_le_earned {pool : Pool ι Call Reply ε α}
    (hwithin : ∀ who, (pool who).Within gain cost (fun _ _ => True) 0) (state : State)
    (schedule : List (ι × Choice)) :
    let world := (schedule.foldl (step (record answer)) (pool, ⟨state, []⟩)).2
    total cost world.calls ≤ total gain world.calls := by
  have hstart : Balanced gain cost (pool, (⟨state, []⟩ : Recorded State Call Reply)) :=
    ⟨fun _ => 0, hwithin, by simp [total]⟩
  have hend : Balanced gain cost
      (schedule.foldl (step (record answer)) (pool, ⟨state, []⟩)) :=
    List.foldlRecOn schedule _ hstart fun _ hstate turn _ => step_balanced answer hstate turn
  obtain ⟨credits, _, hcovered⟩ := hend
  exact Nat.le_of_add_right_le hcovered

end Pool

end Effect
