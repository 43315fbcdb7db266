import Harbormaster.Foundation.Mailbox
import Mathlib.Data.List.Nodup

/-! # Events for the browsers

`EventHub` hands every event to the channels of all subscribers, from which one stream each
writes to its browser. A channel has room for 32 events, and what does not fit is skipped for
that subscriber. Sending on a closed channel, or closing it again, would stop the program.
How a stream writes an event is left out.
-/

namespace Harbormaster.ControlPlane

open Mailboxes

/-! ## The hub -/

/-- A board delta pushed to connected browsers. -/
structure Event where
  kind : String
  arrivalId : String := ""
  clientId : String := ""
  summary : String := ""
deriving DecidableEq

/-- The channels that were made, numbered in turn, and those that are subscribed. -/
structure EventHub where
  channels : List (Mailbox Event) := []
  subscribers : List Nat := []
deriving DecidableEq

/-- An order in which a map is gone through. -/
structure Ranging where
  order : List Nat → List Nat
  perm : ∀ keys, (order keys).Perm keys

/-- What happens to the hub: each step holds its lock. -/
inductive HubAction where
  | subscribe
  | unsubscribe (channel : Nat)
  | publish (e : Event) (ranging : Ranging)
  /-- A stream takes what is next on its channel. -/
  | receive (channel : Nat)

def channelCapacity : Nat := 32

namespace EventHub

/-- Change a channel. -/
def access (hub : EventHub) (channel : Nat) (access : Access Event) : EventHub :=
  { hub with channels := hub.channels.modify channel fun box => box.step channelCapacity access }

def isClosed (hub : EventHub) (channel : Nat) : Bool :=
  (hub.channels[channel]?).any Mailbox.isClosed

/-- Send on a channel, without waiting for room; `none` is a panic. -/
def send (e : Event) (hub : EventHub) (channel : Nat) : Option EventHub :=
  if hub.isClosed channel then none else some (hub.access channel (.offer e))

/-- `Subscribe`. -/
def subscribe (hub : EventHub) : EventHub where
  channels := hub.channels ++ [{}]
  subscribers := hub.subscribers ++ [hub.channels.length]

/-- The function that `Subscribe` returns. -/
def unsubscribe (hub : EventHub) (channel : Nat) : Option EventHub :=
  if channel ∈ hub.subscribers then
    if hub.isClosed channel then none
    else some { hub.access channel .close with subscribers := hub.subscribers.erase channel }
  else some hub

/-- `Publish`. -/
def publish (hub : EventHub) (e : Event) (ranging : Ranging) : Option EventHub :=
  (ranging.order hub.subscribers).foldlM (send e) hub

def step (hub : EventHub) : HubAction → Option EventHub
  | .subscribe => some hub.subscribe
  | .unsubscribe channel => hub.unsubscribe channel
  | .publish e ranging => hub.publish e ranging
  | .receive channel => some (hub.access channel .take)

def run (hub : EventHub) (actions : List HubAction) : Option EventHub :=
  actions.foldlM step hub

end EventHub

/-! ## One channel -/

/-- What an action does to a channel. -/
def seen (channel : Nat) : HubAction → Option (Access Event)
  | .subscribe => none
  | .unsubscribe other => if other = channel then some .close else none
  | .publish e _ => some (.offer e)
  | .receive other => if other = channel then some .take else none

/-- What follows after so many subscriptions and one more. -/
def since : Nat → List HubAction → List HubAction
  | _, [] => []
  | 0, .subscribe :: rest => rest
  | n + 1, .subscribe :: rest => since n rest
  | n, _ :: rest => since n rest

/-- What a channel sees of a run. -/
def stream (channel : Nat) (actions : List HubAction) : List (Access Event) :=
  (since channel actions).filterMap (seen channel)

namespace EventHub

/-! ## No panics -/

/-- The subscribed channels are the open ones. -/
structure Sound (hub : EventHub) : Prop where
  nodup : hub.subscribers.Nodup
  opened : ∀ channel, channel ∈ hub.subscribers ↔
    ∃ box, hub.channels[channel]? = some box ∧ box.isClosed = false

variable {hub : EventHub}

theorem isClosed_of_mem (h : hub.Sound) {channel : Nat} (hmem : channel ∈ hub.subscribers) :
    hub.isClosed channel = false := by
  obtain ⟨box, hbox, hopen⟩ := (h.opened channel).mp hmem
  rw [isClosed, hbox, Option.any_some, hopen]

theorem getElem?_access (channel other : Nat) (access : Access Event) :
    (hub.access channel access).channels[other]? =
      if channel = other then
        (hub.channels[other]?).map fun box => box.step channelCapacity access
      else hub.channels[other]? := by
  unfold EventHub.access
  rw [List.getElem?_modify]
  split
  · rfl
  · simp

@[simp] theorem length_access (channel : Nat) (access : Access Event) :
    (hub.access channel access).channels.length = hub.channels.length :=
  List.length_modify _ _ _

/-- Offering closes no channel. -/
theorem isClosed_offer (channel other : Nat) (e : Event) :
    (hub.access channel (.offer e)).isClosed other = hub.isClosed other := by
  rw [isClosed, getElem?_access]
  split
  · rw [Option.any_map, isClosed]
    refine congrArg (fun test => (hub.channels[other]?).any test) (funext fun box => ?_)
    exact isClosed_step_offer e
  · rfl

/-- Every channel of the order gets the event, and no other. -/
theorem foldlM_send {e : Event} {order : List Nat} (hnodup : order.Nodup)
    (hopen : ∀ channel ∈ order, hub.isClosed channel = false) :
    ∃ next, order.foldlM (send e) hub = some next ∧ next.subscribers = hub.subscribers ∧
      next.channels.length = hub.channels.length ∧
      ∀ channel, next.channels[channel]? = if channel ∈ order then
        (hub.channels[channel]?).map fun box => box.step channelCapacity (.offer e)
      else hub.channels[channel]? := by
  induction order generalizing hub with
  | nil => exact ⟨hub, rfl, rfl, rfl, fun channel => by simp⟩
  | cons first rest ih =>
      obtain ⟨hfirst, hrest⟩ := List.nodup_cons.mp hnodup
      have hsend : send e hub first = some (hub.access first (.offer e)) := by
        rw [send, hopen first List.mem_cons_self, if_neg Bool.false_ne_true]
      obtain ⟨next, hnext, hsubscribers, hlength, hchannels⟩ :=
        @ih (hub.access first (.offer e)) hrest fun channel hmem => by
          rw [isClosed_offer]
          exact hopen channel (List.mem_cons_of_mem _ hmem)
      refine ⟨next, ?_, hsubscribers, hlength.trans (length_access _ _), fun channel => ?_⟩
      · rw [List.foldlM_cons, hsend]
        exact hnext
      · rw [hchannels, getElem?_access]
        by_cases hchannel : first = channel
        · subst hchannel
          rw [if_neg hfirst, if_pos rfl, if_pos List.mem_cons_self]
        · rw [if_neg hchannel]
          simp only [List.mem_cons, Ne.symm hchannel, false_or]

/-- What a step leaves of a channel that was made before. -/
def Shows (hub next : EventHub) (action : HubAction) : Prop :=
  ∀ channel box, hub.channels[channel]? = some box →
    next.channels[channel]? =
      some (((seen channel action).map (box.step channelCapacity)).getD box)

theorem Sound.subscribe (h : hub.Sound) : hub.subscribe.Sound := by
  have hfresh : hub.channels.length ∉ hub.subscribers := by
    intro hmem
    obtain ⟨box, hbox, -⟩ := (h.opened _).mp hmem
    rw [List.getElem?_eq_none (Nat.le_refl _)] at hbox
    cases hbox
  constructor
  · exact List.nodup_append.mpr ⟨h.nodup, List.nodup_singleton _, fun channel hmem other hother =>
      fun heq => hfresh (List.mem_singleton.mp hother ▸ heq ▸ hmem)⟩
  · intro channel
    change channel ∈ hub.subscribers ++ [hub.channels.length] ↔
      ∃ box, (hub.channels ++ [({} : Mailbox Event)])[channel]? = some box ∧ _
    rw [List.mem_append, List.mem_singleton, h.opened]
    by_cases hlast : channel = hub.channels.length
    · -- the new channel is open, and the new subscriber has it
      subst hlast
      rw [List.getElem?_concat_length]
      exact iff_of_true (Or.inr rfl) ⟨{}, rfl, rfl⟩
    · rw [or_iff_left hlast]
      by_cases hlt : channel < hub.channels.length
      · rw [List.getElem?_append_left hlt]
      · rw [List.getElem?_eq_none (Nat.not_lt.mp hlt), List.getElem?_eq_none]
        rw [List.length_append, List.length_singleton]
        omega

/-- Closing the channel of a subscriber that leaves. -/
theorem Sound.unsubscribe (h : hub.Sound) (channel : Nat) :
    ∃ next, hub.unsubscribe channel = some next ∧ next.Sound ∧
      next.channels.length = hub.channels.length ∧ hub.Shows next (.unsubscribe channel) := by
  unfold EventHub.unsubscribe
  by_cases hmem : channel ∈ hub.subscribers
  · rw [if_pos hmem, isClosed_of_mem h hmem, if_neg Bool.false_ne_true]
    refine ⟨_, rfl, ⟨h.nodup.erase channel, fun other => ?_⟩, length_access _ _, ?_⟩
    · change other ∈ hub.subscribers.erase channel ↔
        ∃ box, (hub.access channel .close).channels[other]? = some box ∧ _
      rw [h.nodup.mem_erase_iff, getElem?_access, h.opened]
      by_cases hother : channel = other
      · subst hother
        rw [if_pos rfl]
        refine iff_of_false (fun hself => hself.1 rfl) ?_
        rintro ⟨box, hbox, hopen⟩
        obtain ⟨old, -, rfl⟩ := Option.map_eq_some_iff.mp hbox
        cases hopen
      · rw [if_neg hother, and_iff_right (Ne.symm hother)]
    · intro other box hbox
      change (hub.access channel .close).channels[other]? = _
      rw [getElem?_access, hbox, seen]
      by_cases hother : channel = other
      · rw [if_pos hother, if_pos hother]
        rfl
      · rw [if_neg hother, if_neg hother]
        rfl
  · rw [if_neg hmem]
    refine ⟨hub, rfl, h, rfl, fun other box hbox => ?_⟩
    rw [hbox, seen]
    split
    next hother =>
      -- the channel has been closed already
      have hclosed : box.isClosed = true := by
        by_contra hopen
        rw [Bool.not_eq_true] at hopen
        exact hmem ((h.opened channel).mpr ⟨box, hother ▸ hbox, hopen⟩)
      obtain ⟨buffer, taken, isClosed⟩ := box
      dsimp only at hclosed
      rw [hclosed]
      rfl
    next => rfl

theorem Sound.publish (h : hub.Sound) (e : Event) (ranging : Ranging) :
    ∃ next, hub.publish e ranging = some next ∧ next.Sound ∧
      next.channels.length = hub.channels.length ∧ hub.Shows next (.publish e ranging) := by
  have hperm := ranging.perm hub.subscribers
  obtain ⟨next, hnext, hsubscribers, hlength, hchannels⟩ :=
    @foldlM_send hub e (ranging.order hub.subscribers) (hperm.nodup_iff.mpr h.nodup)
      fun channel hmem => isClosed_of_mem h (hperm.mem_iff.mp hmem)
  have hshows : hub.Shows next (.publish e ranging) := by
    intro channel box hbox
    rw [hchannels, hbox]
    split
    · rfl
    next hmem =>
      -- a closed channel keeps what it has
      have hclosed : box.isClosed = true := by
        by_contra hopen
        rw [Bool.not_eq_true] at hopen
        exact hmem (hperm.mem_iff.mpr ((h.opened channel).mpr ⟨box, hbox, hopen⟩))
      rw [seen, Option.map_some, Option.getD_some, step_offer_of_closed hclosed]
  refine ⟨next, hnext, ⟨hsubscribers ▸ h.nodup, fun channel => ?_⟩, hlength, hshows⟩
  rw [hsubscribers, h.opened]
  constructor
  · rintro ⟨box, hbox, hopen⟩
    exact ⟨_, hshows channel box hbox, (isClosed_step_offer e).trans hopen⟩
  · rintro ⟨box, hbox, hopen⟩
    have hlt : channel < hub.channels.length := by
      rw [← hlength]
      exact (List.getElem?_eq_some_iff.mp hbox).1
    have hold := List.getElem?_eq_getElem hlt
    refine ⟨_, hold, ?_⟩
    rw [hshows channel _ hold] at hbox
    cases hbox
    exact (isClosed_step_offer e).symm.trans hopen

theorem Sound.receive (h : hub.Sound) (channel : Nat) :
    (hub.access channel .take).Sound ∧ hub.Shows (hub.access channel .take) (.receive channel) := by
  constructor
  · refine ⟨h.nodup, fun other => ?_⟩
    change other ∈ hub.subscribers ↔ _
    rw [h.opened, getElem?_access]
    split
    · constructor
      · rintro ⟨box, hbox, hopen⟩
        exact ⟨_, by rw [hbox]; rfl, isClosed_step_take.trans hopen⟩
      · rintro ⟨box, hbox, hopen⟩
        obtain ⟨old, hold, rfl⟩ := Option.map_eq_some_iff.mp hbox
        exact ⟨old, hold, isClosed_step_take.symm.trans hopen⟩
    · rfl
  · intro other box hbox
    rw [getElem?_access, hbox, seen]
    by_cases hother : channel = other
    · rw [if_pos hother, if_pos hother]
      rfl
    · rw [if_neg hother, if_neg hother]
      rfl

/-- The channels that an action makes. -/
def made : HubAction → Nat
  | .subscribe => 1
  | _ => 0

/-- A step does not panic, and shows every channel what it should see. -/
theorem Sound.step (h : hub.Sound) (action : HubAction) :
    ∃ next, hub.step action = some next ∧ next.Sound ∧
      next.channels.length = hub.channels.length + made action ∧ hub.Shows next action := by
  cases action with
  | subscribe =>
      refine ⟨hub.subscribe, rfl, h.subscribe, List.length_append, fun channel box hbox => ?_⟩
      have hlt := (List.getElem?_eq_some_iff.mp hbox).1
      exact (List.getElem?_append_left hlt).trans hbox
  | unsubscribe channel => exact h.unsubscribe channel
  | publish e ranging => exact h.publish e ranging
  | receive channel => exact ⟨_, rfl, (h.receive channel).1, length_access _ _, (h.receive channel).2⟩

/-! ## Runs -/

theorem sound_initial : Sound {} where
  nodup := List.nodup_nil
  opened channel := by simp

theorem since_cons (n : Nat) {action : HubAction} (h : made action = 0) (rest : List HubAction) :
    since n (action :: rest) = since n rest := by
  cases action with
  | subscribe => cases h
  | unsubscribe | publish | receive => cases n <;> rfl

theorem run_of_shows {box : Mailbox Event} {channel : Nat} {action : HubAction}
    (rest : List HubAction) :
    (((seen channel action).map (box.step channelCapacity)).getD box).run channelCapacity
        (rest.filterMap (seen channel)) =
      box.run channelCapacity ((action :: rest).filterMap (seen channel)) := by
  rw [List.filterMap_cons]
  cases seen channel action <;> rfl

/-- A run does not panic. What it leaves of a channel depends only on what the channel sees. -/
theorem Sound.run (h : hub.Sound) (actions : List HubAction) :
    ∃ next, hub.run actions = some next ∧ next.Sound ∧
      (∀ channel (box : Mailbox Event), hub.channels[channel]? = some box → next.channels[channel]? =
        some (box.run channelCapacity (actions.filterMap (seen channel)))) ∧
      ∀ n (box : Mailbox Event), next.channels[hub.channels.length + n]? = some box →
        box = Mailbox.run channelCapacity {}
          ((since n actions).filterMap (seen (hub.channels.length + n))) := by
  induction actions generalizing hub with
  | nil =>
      refine ⟨hub, rfl, h, fun channel box hbox => hbox, fun n box hbox => ?_⟩
      have hlt := (List.getElem?_eq_some_iff.mp hbox).1
      exact absurd hlt (by omega)
  | cons action rest ih =>
      obtain ⟨middle, hmiddle, hsound, hlength, hshows⟩ := h.step action
      obtain ⟨next, hnext, hsound', hold, hnew⟩ := ih hsound
      refine ⟨next, ?_, hsound', fun channel box hbox => ?_, fun n box hbox => ?_⟩
      · rw [EventHub.run, List.foldlM_cons, hmiddle]
        exact hnext
      · rw [hold channel _ (hshows channel box hbox), run_of_shows]
      · by_cases hmade : made action = 0
        · rw [hmade, Nat.add_zero] at hlength
          rw [since_cons n hmade, ← hlength]
          exact hnew n box (hlength ▸ hbox)
        · -- the channel is made now or by a later subscription
          cases action with
          | unsubscribe | publish | receive => exact absurd rfl hmade
          | subscribe =>
              cases hmiddle
              cases n with
              | zero =>
                  have hfresh : hub.subscribe.channels[hub.channels.length]? = some {} :=
                    List.getElem?_concat_length
                  rw [Nat.add_zero, hold _ _ hfresh] at hbox
                  cases hbox
                  rfl
              | succ n =>
                  have hplace : hub.channels.length + (n + 1) =
                      hub.subscribe.channels.length + n := by
                    rw [hlength, made]
                    omega
                  rw [hplace] at hbox ⊢
                  exact hnew n box hbox

/-- However subscriptions, publications and the streams interleave, the hub does not panic.
What a stream gets depends only on the events published since its subscription and on its own
pace: they come in order, none twice, and all of them unless 32 were waiting. -/
theorem stream_of_subscriber (actions : List HubAction) :
    ∃ hub, EventHub.run {} actions = some hub ∧
      ∀ channel box, hub.channels[channel]? = some box →
        box = Mailbox.run channelCapacity {} (stream channel actions) ∧
          box.buffer.length ≤ channelCapacity ∧
          box.contents.Sublist (offered (stream channel actions)) ∧
          (box.contents = offered (stream channel actions) ↔
            lost channelCapacity {} (stream channel actions) = []) := by
  obtain ⟨hub, hrun, -, -, hnew⟩ := sound_initial.run actions
  refine ⟨hub, hrun, fun channel box hbox => ?_⟩
  have hbox' := hnew channel box (by rwa [List.length_nil, Nat.zero_add])
  rw [List.length_nil, Nat.zero_add] at hbox'
  rw [hbox']
  exact ⟨rfl, length_buffer_run (Nat.zero_le _) _, contents_sublist _, contents_eq_offered_iff _⟩

end EventHub

end Harbormaster.ControlPlane
