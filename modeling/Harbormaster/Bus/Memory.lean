import Harbormaster.Contract
import Harbormaster.Foundation.Bytes
import Harbormaster.Foundation.PartitionedLog

/-! # The in-process buses

`Memory` of `go/internal/bus` and `MemoryBus` of `inspector/bus.py`. Both keep
messages of one key in one partition of their topic. The first hands a message to
the consumers there are and replays the log to a new one, up to what its channel
holds; the second hands over the log when it is asked. Values are opaque to a
bus, and calls are made one after the other.
-/

namespace Harbormaster.Bus

open PartitionedLog

def topicBerthAssigned : String := "hm.berth.assigned"
def topicBerthSuperseded : String := "hm.berth.superseded"

structure Message (β : Type) where
  topic : String
  key : String
  value : β
deriving DecidableEq, Repr

variable {β : Type}

/-- The partition of a key, by its hash. -/
def partitionBy (hash : String → Nat) (partitions : Nat) (message : Message β) : Nat :=
  if message.key = "" then 0 else hash message.key % partitions

theorem partitionBy_lt (hash : String → Nat) {partitions : Nat} (hpos : 0 < partitions)
    (message : Message β) : partitionBy hash partitions message < partitions := by
  unfold partitionBy
  split
  · exact hpos
  · exact Nat.mod_lt _ hpos

/-! ## The Go bus -/

/-- `hash/fnv.New32a`. -/
def fnv32a (bytes : Bytes) : Nat :=
  bytes.foldl (fun hash byte => (hash ^^^ byte.toNat) * 16777619 % 4294967296) 2166136261

structure MemConsumer (β : Type) where
  topics : List String
  /-- What was put on the channel, in order. -/
  ch : List (Entry (Message β))
deriving DecidableEq

/-- The capacity of a consumer's channel. -/
def channelSize : Nat := 1024

def MemConsumer.offer (entry : Entry (Message β)) (consumer : MemConsumer β) : MemConsumer β :=
  if entry.message.topic ∈ consumer.topics then { consumer with ch := consumer.ch ++ [entry] }
  else consumer

structure Memory (β : Type) where
  partitions : Nat
  log : Log String (Message β)
  subs : List (MemConsumer β)

/-- A call on the bus. -/
inductive Event (β : Type) where
  | publish (message : Message β)
  | subscribe (topics : List String)

/-- The messages that a run of calls publishes. -/
def published (events : List (Event β)) : List (Message β) :=
  events.filterMap fun
    | .publish message => some message
    | .subscribe _ => none

namespace Memory

def new (partitions : Nat) : Memory β where
  partitions := max 1 partitions
  log := Log.empty
  subs := []

variable (bus : Memory β)

def partitionFor : Message β → Nat :=
  partitionBy (fun key => fnv32a (Bytes.utf8 key)) bus.partitions

/-- Append a message to its partition and hand it to the consumers of its topic. -/
def publish (message : Message β) : Memory β where
  partitions := bus.partitions
  log := bus.log.publish Message.topic bus.partitionFor message
  subs := bus.subs.map (MemConsumer.offer (bus.log.entry Message.topic bus.partitionFor message))

/-- What was published before, by topic and partition. -/
def backlog (topics : List String) : List (Entry (Message β)) :=
  bus.log.listing bus.partitions topics

/-- A new consumer is handed what was published before, as far as its channel
holds it. -/
def newConsumer (topics : List String) : Memory β :=
  { bus with subs := bus.subs ++ [⟨topics, (bus.backlog topics).take channelSize⟩] }

def step (bus : Memory β) : Event β → Memory β
  | .publish message => bus.publish message
  | .subscribe topics => bus.newConsumer topics

def run (events : List (Event β)) : Memory β := events.foldl step bus

/-- The entries that a run of calls publishes, in order. -/
def posted (events : List (Event β)) : List (Entry (Message β)) :=
  bus.log.entries Message.topic bus.partitionFor (published events)

/-- The log holds what was published. -/
def Logged (entries : List (Entry (Message β))) : Prop :=
  0 < bus.partitions ∧ Log.Holds Message.topic bus.partitionFor bus.log entries

variable {bus}

theorem logged_new (partitions : Nat) : (new partitions : Memory β).Logged [] :=
  ⟨Nat.lt_of_lt_of_le Nat.zero_lt_one (Nat.le_max_left 1 partitions), Log.Holds.empty⟩

/-- A run leaves the partitions and adds what it publishes to the log. -/
theorem run_log (events : List (Event β)) :
    (bus.run events).partitions = bus.partitions ∧ (bus.run events).log =
      bus.log.publishAll Message.topic bus.partitionFor (published events) := by
  induction events generalizing bus with
  | nil => exact ⟨rfl, rfl⟩
  | cons event rest ih =>
      cases event with
      | publish message => exact @ih (bus.publish message)
      | subscribe topics => exact @ih (bus.newConsumer topics)

theorem Logged.run {entries : List (Entry (Message β))} (h : bus.Logged entries)
    (events : List (Event β)) : (bus.run events).Logged (entries ++ bus.posted events) := by
  obtain ⟨hpartitions, hlog⟩ := bus.run_log events
  unfold Logged partitionFor
  rw [hpartitions, hlog]
  exact ⟨h.1, h.2.publishAll (published events)⟩

/-- A consumer is handed, after what it was handed before, every message of its
topics in the order of publication. -/
theorem subs_run {index : Nat} {consumer : MemConsumer β}
    (h : bus.subs[index]? = some consumer) (events : List (Event β)) :
    (bus.run events).subs[index]? = some { consumer with
      ch := consumer.ch ++ (bus.posted events).filter fun entry =>
        entry.message.topic ∈ consumer.topics } := by
  induction events generalizing bus consumer with
  | nil => simpa [Memory.run, posted, published, Log.entries] using h
  | cons event rest ih =>
      cases event with
      | publish message =>
          generalize hentry : bus.log.entry Message.topic bus.partitionFor message = entry
          have hnext : (bus.publish message).subs[index]? = some (consumer.offer entry) := by
            rw [publish, List.getElem?_map, h, hentry]
            rfl
          have hposted : bus.posted (.publish message :: rest) =
              entry :: (bus.publish message).posted rest := by
            rw [← hentry]
            rfl
          have hrest := ih hnext
          change ((bus.publish message).run rest).subs[index]? = _
          rw [hrest, hposted, List.filter_cons]
          unfold MemConsumer.offer
          by_cases htopic : entry.message.topic ∈ consumer.topics
          · simp [htopic]
          · simp [htopic]
      | subscribe topics =>
          have hnext : (bus.newConsumer topics).subs[index]? = some consumer := by
            obtain ⟨hlt, _⟩ := List.getElem?_eq_some_iff.mp h
            rw [newConsumer, List.getElem?_append_left hlt, h]
          exact ih hnext

/-- The consumer that a bus has just got. -/
theorem subs_newConsumer (topics : List String) :
    (bus.newConsumer topics).subs[bus.subs.length]? =
      some ⟨topics, (bus.backlog topics).take channelSize⟩ := by
  simp [newConsumer]

end Memory

/-! ## The Python bus -/

structure MemoryBus (β : Type) where
  partitions : Nat
  log : Log String (Message β)

namespace MemoryBus

def new (partitions : Nat) : MemoryBus β := ⟨max 1 partitions, Log.empty⟩

variable (bus : MemoryBus β) (digest : String → Nat)

/-- The digest is the number that the 4-byte BLAKE2b digest of a key stands for. -/
def partitionFor : Message β → Nat := partitionBy digest bus.partitions

def publish (messages : List (Message β)) : MemoryBus β where
  partitions := bus.partitions
  log := bus.log.publishAll Message.topic (bus.partitionFor digest) messages

/-- The entries that a sequence of messages becomes. -/
def posted (messages : List (Message β)) : List (Entry (Message β)) :=
  bus.log.entries Message.topic (bus.partitionFor digest) messages

/-- `_drain`: what a consumer of these topics is handed. -/
def drain (topics : List String) : List (Entry (Message β)) :=
  bus.log.listing bus.partitions topics

end MemoryBus

end Harbormaster.Bus
