import Harbormaster.Bus.Memory

/-! # The void before its replacement

Messages of one key keep their order within a topic. The void of an assignment
and the assignment that replaces it are on different topics, so which of the two
a consumer is handed first depends on when it subscribed and how it names the
topics.
-/

namespace Harbormaster.Bus

open PartitionedLog

variable {β : Type}

/-- A void and the assignment that replaces it, with the key of their slot and
published in this order. -/
structure Replacement (entries : List (Entry (Message β))) (void assigned : Entry (Message β)) :
    Prop where
  void_topic : void.message.topic = topicBerthSuperseded
  assigned_topic : assigned.message.topic = topicBerthAssigned
  same_key : void.message.key = assigned.message.key
  order : [void, assigned].Sublist entries

namespace Replacement

variable {entries : List (Entry (Message β))} {void assigned : Entry (Message β)}

theorem topics_ne (h : Replacement entries void assigned) :
    void.message.topic ≠ assigned.message.topic := by
  rw [h.void_topic, h.assigned_topic]
  decide

theorem ne (h : Replacement entries void assigned) : void ≠ assigned :=
  fun heq => h.topics_ne (congrArg (fun entry => entry.message.topic) heq)

/-- In a listing of the log the void comes first when its topic is named first. -/
theorem precedes_listing (h : Replacement entries void assigned)
    {log : Log String (Message β)} {partitionOf : Message β → Nat} {partitions : Nat}
    {posted : List (Entry (Message β))} (hlog : Log.Holds Message.topic partitionOf log posted)
    (hbound : ∀ message, partitionOf message < partitions) (topics : List String)
    (hvoid : void ∈ posted) (hassigned : assigned ∈ posted) :
    Precedes void assigned (log.listing partitions topics) ↔
      Precedes topicBerthSuperseded topicBerthAssigned topics := by
  rw [hlog.precedes_listing hbound hvoid hassigned h.topics_ne, h.void_topic, h.assigned_topic]

end Replacement

namespace Memory

theorem posted_append (bus : Memory β) (before after : List (Event β)) :
    bus.posted (before ++ after) = bus.posted before ++ (bus.run before).posted after := by
  obtain ⟨hpartitions, hlog⟩ := bus.run_log before
  unfold posted partitionFor published
  rw [List.filterMap_append, Log.entries_append, hpartitions, hlog]
  rfl

/-- What a new consumer is handed of the log and then of what follows. -/
def handed (bus : Memory β) (topics : List String) (later : List (Entry (Message β))) :
    List (Entry (Message β)) :=
  (bus.backlog topics).take channelSize ++
    later.filter fun entry => entry.message.topic ∈ topics

theorem subs_subscribe (bus : Memory β) (topics : List String) (after : List (Event β)) :
    (bus.run (.subscribe topics :: after)).subs[bus.subs.length]? =
      some ⟨topics, bus.handed topics (bus.posted (.subscribe topics :: after))⟩ :=
  subs_run (bus.subs_newConsumer topics) after

theorem handed_iff {bus : Memory β} {old later : List (Entry (Message β))}
    (hlogged : bus.Logged old) (hnodup : (old ++ later).Nodup) {topics : List String}
    (hsuperseded : topicBerthSuperseded ∈ topics) (hassigned : topicBerthAssigned ∈ topics)
    {void assigned : Entry (Message β)} (h : Replacement (old ++ later) void assigned) :
    Precedes void assigned (bus.handed topics later) ↔
      void ∉ old ∨ void ∈ (bus.backlog topics).take channelSize ∧
        (assigned ∉ old ∨ Precedes topicBerthSuperseded topicBerthAssigned topics) := by
  obtain ⟨-, hlater, hdisjoint⟩ := List.nodup_append'.mp hnodup
  have hbound := partitionBy_lt (β := β) (fun key => fnv32a (Bytes.utf8 key)) hlogged.1
  have hreplayed : ∀ entry ∈ (bus.backlog topics).take channelSize, entry ∈ old :=
    fun entry hentry =>
      ((hlogged.2.mem_listing hbound).mp (List.mem_of_mem_take hentry)).1
  rw [handed, precedes_append h.ne, precedes_take h.ne]
  obtain ⟨first, second, hsplit, hfirst, hsecond⟩ := List.sublist_append_iff.mp h.order
  rcases List.append_eq_cons_iff.mp hsplit.symm with ⟨rfl, rfl⟩ | ⟨first, rfl, hsplit⟩
  · -- both come after the subscription, and are handed as they are published
    have hvoid : void ∉ old := fun hmem => hdisjoint hmem (hsecond.subset (by simp))
    have hboth : assigned ∉ old := fun hmem => hdisjoint hmem (hsecond.subset (by simp))
    have hkept := hsecond.filter fun entry => entry.message.topic ∈ topics
    rw [List.filter_eq_self.mpr (by
      simp [h.void_topic, h.assigned_topic, hsuperseded, hassigned])] at hkept
    simp only [hvoid, not_false_eq_true, true_or, iff_true]
    exact .inr ⟨fun hmem => hvoid (hreplayed _ hmem), fun hmem => hboth (hreplayed _ hmem),
      precedes_of_sublist (hlater.filter _) hkept⟩
  · -- the void is in the backlog, of which the channel keeps the beginning
    have hvoid : void ∈ old := hfirst.subset List.mem_cons_self
    have hnotlater : ¬ Precedes void assigned
        (later.filter fun entry => entry.message.topic ∈ topics) :=
      fun hprecedes => hdisjoint hvoid (List.mem_filter.mp hprecedes.mem).1
    simp only [hvoid, hnotlater, not_true_eq_false, and_false, or_false, false_or]
    apply and_congr_right
    intro hreplay
    have hbacklog : void ∈ bus.backlog topics := List.mem_of_mem_take hreplay
    by_cases hassignedOld : assigned ∈ old
    · rw [backlog, h.precedes_listing hlogged.2 hbound topics hvoid hassignedOld]
      simp [hassignedOld]
    · simp only [hassignedOld, not_false_eq_true, true_or, iff_true]
      exact precedes_of_not_mem
        (fun hmem => hassignedOld ((hlogged.2.mem_listing hbound).mp hmem).1) hbacklog

/-- The Go bus: a consumer subscribed before the void is handed it first. One that
subscribed later is handed the void first if its channel held it, and the
assignment was published later still or its topic is named second. -/
theorem replacement_iff (partitions : Nat) {topics : List String}
    (hsuperseded : topicBerthSuperseded ∈ topics) (hassigned : topicBerthAssigned ∈ topics)
    (before after : List (Event β)) {void assigned : Entry (Message β)}
    (h : Replacement ((new partitions).posted (before ++ .subscribe topics :: after)) void
      assigned) :
    ∃ consumer, ((new partitions).run (before ++ .subscribe topics :: after)).subs[
        ((new partitions).run before : Memory β).subs.length]? = some consumer ∧
      (Precedes void assigned consumer.ch ↔
        void ∉ (new partitions).posted before ∨
          void ∈ (((new partitions).run before).backlog topics).take channelSize ∧
            (assigned ∉ (new partitions).posted before ∨
              Precedes topicBerthSuperseded topicBerthAssigned topics)) := by
  have hlogged := (logged_new (β := β) partitions).run before
  have hall := (logged_new (β := β) partitions).run (before ++ .subscribe topics :: after)
  rw [List.nil_append] at hlogged hall
  have hnodup := hall.2.nodup
  rw [posted_append] at h hnodup
  have hrun : (new partitions : Memory β).run (before ++ .subscribe topics :: after) =
      ((new partitions).run before).run (.subscribe topics :: after) := List.foldl_append
  rw [hrun, subs_subscribe]
  exact ⟨_, rfl, handed_iff hlogged hnodup hsuperseded hassigned h⟩

end Memory

/-- The Python bus: the void is handed first when its topic is named first. -/
theorem MemoryBus.replacement_iff (digest : String → Nat) (partitions : Nat)
    (topics : List String) (messages : List (Message β)) {void assigned : Entry (Message β)}
    (h : Replacement ((new partitions).posted digest messages) void assigned) :
    Precedes void assigned (((new partitions).publish digest messages).drain topics) ↔
      Precedes topicBerthSuperseded topicBerthAssigned topics := by
  have hpos : 0 < (new partitions : MemoryBus β).partitions :=
    Nat.lt_of_lt_of_le Nat.zero_lt_one (Nat.le_max_left 1 partitions)
  have hempty : Log.Holds Message.topic ((new partitions : MemoryBus β).partitionFor digest)
      Log.empty [] := Log.Holds.empty
  have hlog := hempty.publishAll messages
  exact h.precedes_listing hlog (partitionBy_lt digest hpos) topics (h.order.subset (by simp))
    (h.order.subset (by simp))

/-- On the Go bus a consumer is handed the void first if it subscribed before the
void, or if its channel held the void and the assignment was published after the
subscription or its topic is named second. On the Python bus the void is handed
first if its topic is named first. -/
theorem void_handed_first (digest : String → Nat) (partitions : Nat) {topics : List String}
    (hsuperseded : topicBerthSuperseded ∈ topics) (hassigned : topicBerthAssigned ∈ topics) :
    (∀ before after : List (Event β), ∀ void assigned : Entry (Message β),
      Replacement ((Memory.new partitions).posted (before ++ .subscribe topics :: after)) void
        assigned →
      ∃ consumer, ((Memory.new partitions).run (before ++ .subscribe topics :: after)).subs[
          ((Memory.new partitions).run before : Memory β).subs.length]? = some consumer ∧
        (Precedes void assigned consumer.ch ↔
          void ∉ (Memory.new partitions).posted before ∨
            void ∈ (((Memory.new partitions).run before).backlog topics).take channelSize ∧
              (assigned ∉ (Memory.new partitions).posted before ∨
                Precedes topicBerthSuperseded topicBerthAssigned topics))) ∧
    ∀ messages : List (Message β), ∀ void assigned : Entry (Message β),
      Replacement ((MemoryBus.new partitions).posted digest messages) void assigned →
      (Precedes void assigned (((MemoryBus.new partitions).publish digest messages).drain topics) ↔
        Precedes topicBerthSuperseded topicBerthAssigned topics) := by
  constructor
  · intro before after void assigned h
    exact Memory.replacement_iff partitions hsuperseded hassigned before after h
  · intro messages void assigned h
    exact MemoryBus.replacement_iff digest partitions topics messages h

/-- The void of an assignment, and the assignment that replaces it. -/
def sampleVoid : Message Payload where
  topic := topicBerthSuperseded
  key := "CLNT004:TRADE:2026-08-28"
  value := .berthSuperseded {
    assignmentId := "01A", supersededBy := "arr-3", reason := "correction", emittedAt := 0 }

def sampleAssigned : Message Payload where
  topic := topicBerthAssigned
  key := "CLNT004:TRADE:2026-08-28"
  value := .berthAssigned {
    assignmentId := "01B", emittedAt := 0, clientId := "CLNT004", domain := .trade
    valueDate := "2026-08-28", side1 := {}, side2 := {}, expectationId := "EXP", confidence := 1
    supersedes := "01A", notes := "correction" }

/-- The number that the digest of their key stands for. -/
def sampleDigest : String → Nat := fun _ => 2353459279

/-- A consumer that was there before the void. -/
theorem void_handed_first_early :
    ∃ consumer, ((Memory.new 8).run ([] ++ .subscribe [topicBerthAssigned, topicBerthSuperseded] ::
        [.publish sampleVoid, .publish sampleAssigned])).subs[0]? = some consumer ∧
      Precedes ⟨sampleVoid, 0, 0⟩ ⟨sampleAssigned, 0, 0⟩ consumer.ch := by
  have hposted : (Memory.new 8).posted ([] ++ .subscribe [topicBerthAssigned,
      topicBerthSuperseded] :: [.publish sampleVoid, .publish sampleAssigned]) =
      [⟨sampleVoid, 0, 0⟩, ⟨sampleAssigned, 0, 0⟩] := by decide +kernel
  have hreplacement : Replacement ((Memory.new 8).posted ([] ++ .subscribe [topicBerthAssigned,
      topicBerthSuperseded] :: [.publish sampleVoid, .publish sampleAssigned]))
      ⟨sampleVoid, 0, 0⟩ ⟨sampleAssigned, 0, 0⟩ :=
    ⟨rfl, rfl, rfl, hposted ▸ List.Sublist.refl _⟩
  obtain ⟨consumer, hconsumer, hiff⟩ :=
    (void_handed_first sampleDigest 8 (by simp) (by simp)).1 [] _ _ _ hreplacement
  exact ⟨consumer, hconsumer, hiff.mpr (.inl List.not_mem_nil)⟩

/-- The engine names the topic of the assignments first, and is handed the
replacement before the void. -/
theorem replacement_handed_first :
    Replacement ((MemoryBus.new 8).posted sampleDigest [sampleVoid, sampleAssigned])
        ⟨sampleVoid, 7, 0⟩ ⟨sampleAssigned, 7, 0⟩ ∧
      ((MemoryBus.new 8).publish sampleDigest [sampleVoid, sampleAssigned]).drain
          [topicBerthAssigned, topicBerthSuperseded] =
        [⟨sampleAssigned, 7, 0⟩, ⟨sampleVoid, 7, 0⟩] ∧
      ¬ Precedes (⟨sampleVoid, 7, 0⟩ : Entry (Message Payload)) ⟨sampleAssigned, 7, 0⟩
        [⟨sampleAssigned, 7, 0⟩, ⟨sampleVoid, 7, 0⟩] := by
  have hposted : (MemoryBus.new 8).posted sampleDigest [sampleVoid, sampleAssigned] =
      [⟨sampleVoid, 7, 0⟩, ⟨sampleAssigned, 7, 0⟩] := by decide +kernel
  refine ⟨⟨rfl, rfl, rfl, hposted ▸ List.Sublist.refl _⟩, by decide +kernel, ?_⟩
  simp [Precedes, sampleVoid, sampleAssigned, topicBerthAssigned, topicBerthSuperseded]

end Harbormaster.Bus
