import Mathlib.Data.List.Basic

/-! # Mailboxes of bounded size

A mailbox takes what is offered as long as it is open and not full, and drops the rest.
Its reader gets what was kept in the order of the offers, and everything if it is never as
far behind as the mailbox is large.
-/

namespace Mailboxes

/-- What is waiting, and what the reader has taken. -/
structure Mailbox (ε : Type) where
  buffer : List ε := []
  taken : List ε := []
  isClosed : Bool := false
deriving DecidableEq

inductive Access (ε : Type) where
  | offer (e : ε)
  | take
  | close
deriving DecidableEq

variable {ε : Type} (capacity : Nat)

def Mailbox.isFull (box : Mailbox ε) : Bool := capacity ≤ box.buffer.length

def Mailbox.step (box : Mailbox ε) : Access ε → Mailbox ε
  | .offer e =>
      if box.isClosed || box.isFull capacity then box
      else { box with buffer := box.buffer ++ [e] }
  | .take =>
      match box.buffer with
      | [] => box
      | e :: rest => { box with buffer := rest, taken := box.taken ++ [e] }
  | .close => { box with isClosed := true }

def Mailbox.run (box : Mailbox ε) (accesses : List (Access ε)) : Mailbox ε :=
  accesses.foldl (Mailbox.step capacity) box

/-- All that was kept. -/
def Mailbox.contents (box : Mailbox ε) : List ε := box.taken ++ box.buffer

/-- What is offered before the mailbox is closed. -/
def offered : List (Access ε) → List ε
  | [] => []
  | .offer e :: rest => e :: offered rest
  | .take :: rest => offered rest
  | .close :: _ => []

/-- What is offered while the mailbox is full. -/
def lost (box : Mailbox ε) : List (Access ε) → List ε
  | [] => []
  | .offer e :: rest =>
      (if box.isFull capacity then [e] else []) ++ lost (box.step capacity (.offer e)) rest
  | .take :: rest => lost (box.step capacity .take) rest
  | .close :: _ => []

variable {capacity} {box : Mailbox ε}

theorem step_offer_of_closed (h : box.isClosed = true) (e : ε) :
    box.step capacity (.offer e) = box := by
  simp [Mailbox.step, h]

@[simp] theorem isClosed_step_offer (e : ε) :
    (box.step capacity (.offer e)).isClosed = box.isClosed := by
  unfold Mailbox.step
  dsimp only
  split <;> rfl

@[simp] theorem isClosed_step_take : (box.step capacity .take).isClosed = box.isClosed := by
  unfold Mailbox.step
  dsimp only
  split <;> rfl

/-- Taking moves what is kept. -/
@[simp] theorem contents_step_take : (box.step capacity .take).contents = box.contents := by
  unfold Mailbox.step Mailbox.contents
  cases hbuffer : box.buffer with
  | nil => simp [hbuffer]
  | cons e rest => simp

theorem length_buffer_step (h : box.buffer.length ≤ capacity) (access : Access ε) :
    (box.step capacity access).buffer.length ≤ capacity := by
  cases access with
  | close => exact h
  | take =>
      unfold Mailbox.step
      cases hbuffer : box.buffer with
      | nil => simp [hbuffer]
      | cons e rest =>
          rw [hbuffer, List.length_cons] at h
          exact Nat.le_of_succ_le h
  | offer e =>
      unfold Mailbox.step Mailbox.isFull
      dsimp only
      split
      next => exact h
      next hroom =>
        rw [Bool.not_eq_true, Bool.or_eq_false_iff, decide_eq_false_iff_not, Nat.not_le] at hroom
        rw [List.length_append, List.length_singleton]
        exact hroom.2

/-- A mailbox never holds more than it is made for. -/
theorem length_buffer_run (h : box.buffer.length ≤ capacity) (accesses : List (Access ε)) :
    (box.run capacity accesses).buffer.length ≤ capacity := by
  induction accesses generalizing box with
  | nil => exact h
  | cons access rest ih => exact ih (length_buffer_step h access)

theorem contents_run_of_closed (h : box.isClosed = true) (accesses : List (Access ε)) :
    (box.run capacity accesses).contents = box.contents := by
  induction accesses generalizing box with
  | nil => rfl
  | cons access rest ih =>
      change ((box.step capacity access).run capacity rest).contents = _
      cases access with
      | offer e => rw [step_offer_of_closed h, ih h]
      | take => rw [ih (isClosed_step_take.trans h), contents_step_take]
      | close =>
          rw [ih rfl]
          rfl

/-- What an open mailbox keeps follows the offers, and the rest is lost. -/
theorem contents_run (h : box.isClosed = false) (accesses : List (Access ε)) :
    ∃ kept : List ε, (box.run capacity accesses).contents = box.contents ++ kept ∧
      kept.Sublist (offered accesses) ∧
      kept.length + (lost capacity box accesses).length = (offered accesses).length := by
  induction accesses generalizing box with
  | nil => exact ⟨[], (List.append_nil _).symm, List.Sublist.refl _, rfl⟩
  | cons access rest ih =>
      cases access with
      | close =>
          refine ⟨[], ?_, List.nil_sublist _, rfl⟩
          rw [List.append_nil]
          exact contents_run_of_closed rfl rest
      | take =>
          obtain ⟨kept, hkept, hsublist, hlength⟩ := ih (isClosed_step_take.trans h)
          rw [contents_step_take] at hkept
          exact ⟨kept, hkept, hsublist, hlength⟩
      | offer e =>
          obtain ⟨kept, hkept, hsublist, hlength⟩ := ih ((isClosed_step_offer e).trans h)
          cases hfull : box.isFull capacity with
          | true =>
              have hstep : box.step capacity (.offer e) = box := by
                simp [Mailbox.step, hfull]
              refine ⟨kept, ?_, hsublist.cons e, ?_⟩
              · rw [hstep] at hkept
                rw [← hkept]
                exact congrArg (fun box => (Mailbox.run capacity box rest).contents) hstep
              · rw [lost, hfull, if_pos rfl, offered, List.length_cons, List.length_append,
                  List.length_singleton, ← hlength]
                omega
          | false =>
              have hcontents : (box.step capacity (.offer e)).contents = box.contents ++ [e] := by
                simp [Mailbox.step, Mailbox.contents, hfull, h]
              refine ⟨e :: kept, ?_, hsublist.cons_cons e, ?_⟩
              · rw [hcontents, List.append_assoc] at hkept
                exact hkept
              · rw [lost, hfull, if_neg Bool.false_ne_true, List.nil_append, offered,
                  List.length_cons, List.length_cons, ← hlength]
                omega

/-- A reader that never lets the mailbox run full gets everything, and no other does. -/
theorem contents_eq_offered_iff (accesses : List (Access ε)) :
    (Mailbox.run capacity {} accesses).contents = offered accesses ↔
      lost capacity {} accesses = [] := by
  obtain ⟨kept, hkept, hsublist, hlength⟩ :=
    @contents_run ε capacity {} rfl accesses
  have hcontents : (Mailbox.run capacity {} accesses).contents = kept := hkept
  rw [hcontents]
  constructor
  · rintro rfl
    exact List.length_eq_zero_iff.mp (by omega)
  · intro hlost
    rw [hlost, List.length_nil, Nat.add_zero] at hlength
    exact hsublist.eq_of_length hlength

theorem contents_sublist (accesses : List (Access ε)) :
    (Mailbox.run capacity {} accesses).contents.Sublist (offered accesses) := by
  obtain ⟨kept, hkept, hsublist, -⟩ :=
    @contents_run ε capacity {} rfl accesses
  rw [show (Mailbox.run capacity {} accesses).contents = kept from hkept]
  exact hsublist

end Mailboxes
