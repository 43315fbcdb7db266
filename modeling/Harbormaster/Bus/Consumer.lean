import Harbormaster.Foundation.Redelivery
import Mathlib.Data.Prod.Basic

/-! # The consumer of a group

`Consume` of `go/internal/bus/franz.go` over one consumer of its group at a time. A poll
returns records of several partitions, which are handled one after the other; the offsets
are committed when all of them have been handled. A handler that fails, a failed commit and
a crash end the loop, and the next consumer of the group starts at the committed offsets.
-/

namespace Harbormaster.Bus

open Redelivery

variable {π : Type} [DecidableEq π]

/-! ## The loop -/

/-- Where the loop stands. The position is that of the next poll. -/
inductive Loop (π : Type) where
  | idle
  | polling (position : π → Nat)
  | handling (position : π → Nat) (rest : List (π × Nat))

/-- The group: its committed offsets, the loop of its consumer, and the records that were
handled, in order. -/
structure ConsumerGroup (π : Type) where
  committed : π → Nat := fun _ => 0
  loop : Loop π := .idle
  handled : List (π × Nat) := []

/-- What the loop meets. -/
inductive Meets (π : Type) where
  | newConsumer
  | polled (batch : List (π × Nat))
  | handled
  | handlerFailed
  | committed
  /-- The commit fails, but the offsets may have been stored. -/
  | commitFailed (stored : Bool)
  /-- The context is done, a fetch fails, or the process dies. -/
  | stopped

/-- The records of a poll follow one another in each partition, from its position on. -/
def polledTo (ends : π → Nat) (position : π → Nat) : List (π × Nat) → Option (π → Nat)
  | [] => some position
  | (p, offset) :: rest =>
      if offset = position p ∧ offset < ends p then
        polledTo ends (Function.update position p (offset + 1)) rest
      else none

namespace ConsumerGroup

/-- One step of `Consume`, with the ends of the partitions. -/
def step (ends : π → Nat) (group : ConsumerGroup π) : Meets π → Option (ConsumerGroup π)
  | .newConsumer =>
      match group.loop with
      | .idle => some { group with loop := .polling group.committed }
      | _ => none
  | .polled batch =>
      match group.loop with
      | .polling position =>
          (polledTo ends position batch).map fun position =>
            { group with loop := .handling position batch }
      | _ => none
  | .handled =>
      match group.loop with
      | .handling position (record :: rest) =>
          some { group with
            loop := .handling position rest
            handled := group.handled ++ [record] }
      | _ => none
  | .handlerFailed =>
      match group.loop with
      -- offsets are not committed: the message will be redelivered
      | .handling _ (_ :: _) => some { group with loop := .idle }
      | _ => none
  | .committed =>
      match group.loop with
      | .handling position [] => some { group with loop := .polling position, committed := position }
      | _ => none
  | .commitFailed stored =>
      match group.loop with
      | .handling position [] =>
          some { group with
            loop := .idle
            committed := if stored then position else group.committed }
      | _ => none
  | .stopped => some { group with loop := .idle }

def run (ends : π → Nat) (group : ConsumerGroup π) (meets : List (Meets π)) :
    Option (ConsumerGroup π) :=
  meets.foldlM (step ends) group

/-- The offsets that were handled of a partition, in order. -/
def offsets (group : ConsumerGroup π) (p : π) : List Nat :=
  (group.handled.filter fun record => record.1 = p).map Prod.snd

/-- Every record there is has been handled, and the offsets are committed. -/
def CaughtUp (ends : π → Nat) (group : ConsumerGroup π) : Prop := ∀ p, group.committed p = ends p

/-! ## What holds in every run -/

/-- The loop stands where reading has come to. -/
def Loop.StandsAt (ends : π → Nat) (reached : π → Nat) : Loop π → Prop
  | .idle => True
  | .polling position => position = reached
  | .handling position rest => polledTo ends reached rest = some position

/-- Every partition is read as a log is that is read again. -/
structure Sound (ends : π → Nat) (group : ConsumerGroup π) (reached : π → Nat) : Prop where
  reads : ∀ p, Reads (group.offsets p) (reached p)
  committed : ∀ p, group.committed p ≤ reached p
  stands : Loop.StandsAt ends reached group.loop
  inside : ∀ record ∈ group.handled, record.2 < ends record.1

variable {ends : π → Nat} {group next : ConsumerGroup π} {reached : π → Nat}

theorem sound_initial : Sound ends ({} : ConsumerGroup π) fun _ => 0 where
  reads _ := .start
  committed _ := le_rfl
  stands := trivial
  inside record h := by cases h

theorem polledTo_cons {p : π} {offset : Nat} {rest : List (π × Nat)} {position : π → Nat}
    (h : polledTo ends reached ((p, offset) :: rest) = some position) :
    offset = reached p ∧ offset < ends p ∧
      polledTo ends (Function.update reached p (offset + 1)) rest = some position := by
  unfold polledTo at h
  split at h
  next hnext => exact ⟨hnext.1, hnext.2, h⟩
  next => cases h

theorem offsets_handled (group : ConsumerGroup π) (record : π × Nat) (loop : Loop π) (p : π) :
    ({ group with loop := loop, handled := group.handled ++ [record] } : ConsumerGroup π).offsets p =
      if record.1 = p then group.offsets p ++ [record.2] else group.offsets p := by
  unfold offsets
  rw [List.filter_append, List.map_append]
  split
  next hp =>
    have hself : [record].filter (fun record => record.1 = p) = [record] := by simp [hp]
    rw [hself, List.map_singleton]
  next hp =>
    have hself : [record].filter (fun record => record.1 = p) = [] := by simp [hp]
    rw [hself, List.map_nil, List.append_nil]

/-- One step of the loop. What it handles is at or behind the committed offset. -/
theorem Sound.step (h : Sound ends group reached) {meets : Meets π}
    (hstep : group.step ends meets = some next) :
    (∃ reached', Sound ends next reached') ∧ (∀ p, group.committed p ≤ next.committed p) ∧
      ∃ later, next.handled = group.handled ++ later ∧
        ∀ record ∈ later, group.committed record.1 ≤ record.2 := by
  obtain ⟨committed, loop, handled⟩ := group
  have hnothing : ∃ later : List (π × Nat), handled = handled ++ later ∧
      ∀ record ∈ later, committed record.1 ≤ record.2 :=
    ⟨[], (List.append_nil _).symm, fun record hmem => absurd hmem List.not_mem_nil⟩
  have hidle : Sound ends ⟨committed, .idle, handled⟩ reached :=
    ⟨h.reads, h.committed, trivial, h.inside⟩
  cases meets with
  | newConsumer =>
      cases loop with
      | idle =>
          cases hstep
          exact ⟨⟨committed, fun p => (h.reads p).back (h.committed p), fun _ => le_rfl, rfl,
            h.inside⟩, fun _ => le_rfl, hnothing⟩
      | polling position => cases hstep
      | handling position rest => cases hstep
  | polled batch =>
      cases loop with
      | idle => cases hstep
      | polling position =>
          obtain ⟨position', hpolled, rfl⟩ := Option.map_eq_some_iff.mp hstep
          have hstands : position = reached := h.stands
          exact ⟨⟨reached, h.reads, h.committed, hstands ▸ hpolled, h.inside⟩, fun _ => le_rfl,
            hnothing⟩
      | handling position rest => cases hstep
  | handled =>
      cases loop with
      | idle => cases hstep
      | polling position => cases hstep
      | handling position batch =>
          cases batch with
          | nil => cases hstep
          | cons record rest =>
              cases hstep
              obtain ⟨p, offset⟩ := record
              obtain ⟨hoffset, hinside, hpolled⟩ := polledTo_cons h.stands
              refine ⟨⟨Function.update reached p (offset + 1), fun q => ?_, fun q => ?_, hpolled,
                fun record hmem => ?_⟩, fun _ => le_rfl, [(p, offset)], rfl, fun record hmem => ?_⟩
              · rw [offsets_handled ⟨committed, _, handled⟩]
                by_cases hq : p = q
                · subst hq
                  rw [if_pos rfl, Function.update_self, hoffset]
                  exact (h.reads p).next
                · rw [if_neg hq, Function.update_of_ne (Ne.symm hq)]
                  exact h.reads q
              · by_cases hq : q = p
                · subst hq
                  rw [Function.update_self, hoffset]
                  exact Nat.le_succ_of_le (h.committed q)
                · rw [Function.update_of_ne hq]
                  exact h.committed q
              · rcases List.mem_append.mp hmem with hbefore | hlast
                · exact h.inside record hbefore
                · rw [List.mem_singleton.mp hlast]
                  exact hinside
              · rw [List.mem_singleton.mp hmem, hoffset]
                exact h.committed p
  | handlerFailed =>
      cases loop with
      | idle => cases hstep
      | polling position => cases hstep
      | handling position batch =>
          cases batch with
          | nil => cases hstep
          | cons record rest =>
              cases hstep
              exact ⟨⟨reached, hidle⟩, fun _ => le_rfl, hnothing⟩
  | committed =>
      cases loop with
      | idle => cases hstep
      | polling position => cases hstep
      | handling position batch =>
          cases batch with
          | cons record rest => cases hstep
          | nil =>
              cases hstep
              obtain rfl := Option.some.inj h.stands
              exact ⟨⟨reached, h.reads, fun _ => le_rfl, rfl, h.inside⟩, h.committed, hnothing⟩
  | commitFailed stored =>
      cases loop with
      | idle => cases hstep
      | polling position => cases hstep
      | handling position batch =>
          cases batch with
          | cons record rest => cases hstep
          | nil =>
              cases hstep
              obtain rfl := Option.some.inj h.stands
              cases stored with
              | false => exact ⟨⟨reached, hidle⟩, fun _ => le_rfl, hnothing⟩
              | true =>
                  exact ⟨⟨reached, h.reads, fun _ => le_rfl, trivial, h.inside⟩, h.committed,
                    hnothing⟩
  | stopped =>
      cases hstep
      exact ⟨⟨reached, hidle⟩, fun _ => le_rfl, hnothing⟩

theorem Sound.run (h : Sound ends group reached) {meets : List (Meets π)}
    (hrun : group.run ends meets = some next) :
    (∃ reached', Sound ends next reached') ∧ (∀ p, group.committed p ≤ next.committed p) ∧
      ∃ later, next.handled = group.handled ++ later ∧
        ∀ record ∈ later, group.committed record.1 ≤ record.2 := by
  induction meets generalizing group reached with
  | nil =>
      cases hrun
      exact ⟨⟨reached, h⟩, fun _ => le_rfl, [], (List.append_nil _).symm,
        fun record hmem => absurd hmem List.not_mem_nil⟩
  | cons first rest ih =>
      obtain ⟨middle, hfirst, hrest⟩ := Option.bind_eq_some_iff.mp hrun
      obtain ⟨⟨reached', hmiddle⟩, hle, later, hlater, hbehind⟩ := h.step hfirst
      obtain ⟨hend, hle', later', hlater', hbehind'⟩ := ih hmiddle hrest
      refine ⟨hend, fun p => (hle p).trans (hle' p), later ++ later', ?_, fun record hmem => ?_⟩
      · rw [hlater', hlater, List.append_assoc]
      · rcases List.mem_append.mp hmem with hearly | hlate
        · exact hbehind record hearly
        · exact (hle _).trans (hbehind' record hlate)

theorem mem_offsets {p : π} {offset : Nat} :
    offset ∈ group.offsets p ↔ (p, offset) ∈ group.handled := by
  unfold offsets
  rw [List.mem_map]
  constructor
  · rintro ⟨⟨q, _⟩, hmem, rfl⟩
    obtain ⟨hhandled, hq⟩ := List.mem_filter.mp hmem
    obtain rfl : q = p := of_decide_eq_true hq
    exact hhandled
  · intro hmem
    exact ⟨(p, offset), List.mem_filter.mpr ⟨hmem, decide_eq_true rfl⟩, rfl⟩

/-- In every run, whatever fails and however often the consumer starts again: no record
before a committed offset is left out, none is handled again once its offset is committed,
and the records of a partition are first handled in their order. -/
theorem consumed_in_order (ends : π → Nat) (meets more : List (Meets π))
    (group next : ConsumerGroup π)
    (hrun : ({} : ConsumerGroup π).run ends meets = some group)
    (hmore : group.run ends more = some next) :
    (∀ p offset, offset < group.committed p → (p, offset) ∈ group.handled) ∧
      (∃ later, next.handled = group.handled ++ later ∧
        ∀ record ∈ later, group.committed record.1 ≤ record.2) ∧
      ∀ p, ∃ top, once (fun _ => false) (group.offsets p) = List.range top := by
  obtain ⟨⟨reached, hsound⟩, -⟩ := sound_initial.run hrun
  refine ⟨fun p offset hlt => ?_, (hsound.run hmore).2.2, fun p => ?_⟩
  · exact mem_offsets.mp ((hsound.reads p).mem (hlt.trans_le (hsound.committed p)))
  · obtain ⟨top, -, hfirsts⟩ := (hsound.reads p).firsts
    exact ⟨top, hfirsts⟩

/-- A handler fails on the second of two records, which are both handed over again. -/
def retried : List (Meets Unit) :=
  [.newConsumer, .polled [((), 0), ((), 1)], .handled, .handlerFailed,
    .newConsumer, .polled [((), 0), ((), 1)], .handled, .handled, .committed]

theorem consumed_in_order_retried :
    ∃ group next : ConsumerGroup Unit,
      ConsumerGroup.run (fun _ => 2) {} retried = some group ∧
        group.run (fun _ => 2) [.stopped, .newConsumer] = some next ∧
        ((), 1) ∈ group.handled ∧ ∃ top, once (fun _ => false) (group.offsets ()) =
          List.range top := by
  let group : ConsumerGroup Unit :=
    { committed := Function.update (Function.update (fun _ => 0) () 1) () 2
      loop := .polling (Function.update (Function.update (fun _ => 0) () 1) () 2)
      handled := [((), 0), ((), 0), ((), 1)] }
  have hrun : ConsumerGroup.run (fun _ => 2) {} retried = some group := rfl
  obtain ⟨hhandled, -, hfirsts⟩ := consumed_in_order (fun _ => 2) retried
    [.stopped, .newConsumer] group _ hrun rfl
  exact ⟨group, _, hrun, rfl, hhandled () 1 (by decide), hfirsts ()⟩

/-! ## Caught up -/

/-- A caught-up group has read every partition through. -/
theorem Sound.caughtUp (h : Sound ends group reached) (hcaught : group.CaughtUp ends) (p : π)
    (kind : Bool) : once (fun _ => kind) (group.offsets p) = List.range (ends p) := by
  have hreads : Reads (group.offsets p) (ends p) :=
    (h.reads p).back (hcaught p ▸ h.committed p)
  exact hreads.once_eq (fun offset hmem => h.inside (p, offset) (mem_offsets.mp hmem)) kind

variable {α : Type} {log : π → List α}

/-- The messages of the records. -/
def received (log : π → List α) (records : List (π × Nat)) : List α :=
  records.filterMap fun record => (log record.1)[record.2]?

/-- Read once, in the order of first or of last readings, every partition gives its log. -/
theorem Sound.received_once (h : Sound (fun p => (log p).length) group reached)
    (hcaught : group.CaughtUp fun p => (log p).length) (late : π → Bool) (p : π) :
    received log ((once (fun record => late record.1) group.handled).filter
      fun record => record.1 = p) = log p := by
  have hnamed : (group.handled.filter fun record => record.1 = p) =
      (group.offsets p).map fun offset => (p, offset) := by
    unfold offsets
    rw [List.map_map]
    refine (List.map_id _).symm.trans (List.map_congr_left fun record hmem => ?_)
    have hp : record.1 = p := of_decide_eq_true (List.mem_filter.mp hmem).2
    exact Prod.ext hp rfl
  have honce : once (fun record : π × Nat => late record.1)
      ((group.offsets p).map fun offset => (p, offset)) =
        (List.range (log p).length).map fun offset => (p, offset) :=
    (once_map (Prod.mk_right_injective p) fun _ _ => rfl).trans
      (congrArg (List.map (Prod.mk p)) (h.caughtUp hcaught p (late p)))
  rw [filter_once, hnamed, honce, received, List.filterMap_map]
  exact filterMap_range (log p)

end ConsumerGroup

end Harbormaster.Bus
