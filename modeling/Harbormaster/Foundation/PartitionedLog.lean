import Mathlib.Data.List.Nodup
import Mathlib.Logic.Function.Basic

/-! # Partitioned logs

A log that keeps the messages of each topic in partitions, each in the order of
publication, and the listing of some topics one after the other and partition by
partition. Which of two messages of different topics such a listing gives first
is decided by the order in which it names the topics.
-/

namespace PartitionedLog

/-! ## Precedence -/

section Precedence

variable {α : Type}

/-- The first element occurs, with no occurrence of the second before it. -/
def Precedes (first second : α) : List α → Prop
  | [] => False
  | x :: rest => x = first ∨ x ≠ second ∧ Precedes first second rest

variable {first second : α}

theorem Precedes.mem {l : List α} (h : Precedes first second l) : first ∈ l := by
  induction l with
  | nil => exact h.elim
  | cons x rest ih =>
      rcases h with rfl | ⟨_, hrest⟩
      · exact List.mem_cons_self
      · exact List.mem_cons_of_mem _ (ih hrest)

theorem precedes_of_not_mem {l : List α} (hsecond : second ∉ l) (hfirst : first ∈ l) :
    Precedes first second l := by
  induction l with
  | nil => cases hfirst
  | cons x rest ih =>
      rcases List.mem_cons.mp hfirst with rfl | hrest
      · exact .inl rfl
      · exact .inr ⟨fun heq => hsecond (heq ▸ List.mem_cons_self),
          ih (List.not_mem_of_not_mem_cons hsecond) hrest⟩

theorem precedes_append (hne : first ≠ second) (l rest : List α) :
    Precedes first second (l ++ rest) ↔
      Precedes first second l ∨ first ∉ l ∧ second ∉ l ∧ Precedes first second rest := by
  induction l with
  | nil => simp [Precedes]
  | cons x l ih =>
      rw [List.cons_append, Precedes, Precedes, ih]
      by_cases hfirst : x = first
      · simp [hfirst]
      · by_cases hsecond : x = second
        · simp [hsecond, Ne.symm hne]
        · simp [hfirst, hsecond, Ne.symm hfirst, Ne.symm hsecond]

/-- Precedence in a list cut short. -/
theorem precedes_take (hne : first ≠ second) (n : Nat) (l : List α) :
    Precedes first second (l.take n) ↔ first ∈ l.take n ∧ Precedes first second l := by
  have hsplit := precedes_append hne (l.take n) (l.drop n)
  rw [List.take_append_drop] at hsplit
  constructor
  · exact fun h => ⟨h.mem, hsplit.mpr (.inl h)⟩
  · rintro ⟨hmem, h⟩
    rcases hsplit.mp h with htake | ⟨hnot, _⟩
    · exact htake
    · exact absurd hmem hnot

/-- Of two elements without repetition the first one in the list precedes. -/
theorem precedes_of_sublist {l : List α} (hnodup : l.Nodup) (h : [first, second].Sublist l) :
    Precedes first second l := by
  induction l with
  | nil => cases h
  | cons x l ih =>
      obtain ⟨hx, hrest⟩ := List.nodup_cons.mp hnodup
      cases h with
      | cons _ htail =>
          refine .inr ⟨?_, ih hrest htail⟩
          rintro rfl
          exact hx (htail.subset (by simp))
      | cons_cons _ htail => exact .inl rfl

/-- Of blocks listed one after the other, with the first element in one kind of
block and the second in another. -/
theorem precedes_flatMap {β : Type} {block : β → List α} {b b' : β} (hne : first ≠ second)
    (hfirst : ∀ x, first ∈ block x ↔ x = b) (hsecond : ∀ x, second ∈ block x ↔ x = b')
    (hkinds : b ≠ b') (xs : List β) :
    Precedes first second (xs.flatMap block) ↔ Precedes b b' xs := by
  induction xs with
  | nil => exact Iff.rfl
  | cons x xs ih =>
      rw [List.flatMap_cons, precedes_append hne, Precedes, hfirst, hsecond, ih]
      by_cases hx : x = b
      · have hblock : Precedes first second (block x) :=
          precedes_of_not_mem (fun hmem => hkinds (hx.symm.trans ((hsecond x).mp hmem)))
            ((hfirst x).mpr hx)
        simp [hx, hx ▸ hblock]
      · have hblock : ¬ Precedes first second (block x) := fun h => hx ((hfirst x).mp h.mem)
        simp [hx, hblock]

end Precedence

/-! ## The log -/

/-- A message with its place in the log. -/
structure Entry (μ : Type) where
  message : μ
  partition : Nat
  offset : Nat
deriving DecidableEq, Repr

/-- The entries of each topic and partition. -/
abbrev Log (τ μ : Type) := τ → Nat → List (Entry μ)

variable {τ μ : Type} (topicOf : μ → τ) (partitionOf : μ → Nat)

namespace Log

def empty : Log τ μ := fun _ _ => []

/-- The entry a message becomes. -/
def entry (log : Log τ μ) (message : μ) : Entry μ :=
  ⟨message, partitionOf message, (log (topicOf message) (partitionOf message)).length⟩

def publish [DecidableEq τ] (log : Log τ μ) (message : μ) : Log τ μ :=
  Function.update log (topicOf message) (Function.update (log (topicOf message))
    (partitionOf message)
    (log (topicOf message) (partitionOf message) ++ [log.entry topicOf partitionOf message]))

def publishAll [DecidableEq τ] (log : Log τ μ) (messages : List μ) : Log τ μ :=
  messages.foldl (publish topicOf partitionOf) log

/-- The entries that a sequence of messages becomes. -/
def entries [DecidableEq τ] (log : Log τ μ) : List μ → List (Entry μ)
  | [] => []
  | message :: rest =>
      log.entry topicOf partitionOf message ::
        (log.publish topicOf partitionOf message).entries rest

theorem entries_append [DecidableEq τ] (log : Log τ μ) (first second : List μ) :
    log.entries topicOf partitionOf (first ++ second) =
      log.entries topicOf partitionOf first ++
        (log.publishAll topicOf partitionOf first).entries topicOf partitionOf second := by
  induction first generalizing log with
  | nil => rfl
  | cons message rest ih => exact congrArg _ (ih _)

/-- Some topics one after the other, each partition by partition. -/
def listing (log : Log τ μ) (partitions : Nat) (topics : List τ) : List (Entry μ) :=
  topics.flatMap fun topic => (List.range partitions).flatMap (log topic)

/-- The log holds exactly the entries posted so far, at their places. -/
structure Holds (log : Log τ μ) (posted : List (Entry μ)) : Prop where
  mem_iff : ∀ topic partition entry, entry ∈ log topic partition ↔
    entry ∈ posted ∧ topicOf entry.message = topic ∧ entry.partition = partition
  placed : ∀ entry ∈ posted, entry.partition = partitionOf entry.message
  offset_lt : ∀ entry ∈ posted,
    entry.offset < (log (topicOf entry.message) entry.partition).length
  nodup : posted.Nodup

variable {topicOf partitionOf}

theorem Holds.empty : Holds topicOf partitionOf (Log.empty : Log τ μ) [] where
  mem_iff := by simp [Log.empty]
  placed := by simp
  offset_lt := by simp
  nodup := List.nodup_nil

theorem publish_apply [DecidableEq τ] (log : Log τ μ) (message : μ) (topic : τ) (partition : Nat) :
    log.publish topicOf partitionOf message topic partition =
      log topic partition ++ if topic = topicOf message ∧ partition = partitionOf message then
        [log.entry topicOf partitionOf message] else [] := by
  unfold publish
  by_cases htopic : topic = topicOf message
  · subst htopic
    rw [Function.update_self]
    by_cases hpartition : partition = partitionOf message
    · subst hpartition
      simp
    · rw [Function.update_of_ne hpartition]
      simp [hpartition]
  · rw [Function.update_of_ne htopic]
    simp [htopic]

theorem Holds.publish [DecidableEq τ] {log : Log τ μ} {posted : List (Entry μ)}
    (h : Holds topicOf partitionOf log posted) (message : μ) :
    Holds topicOf partitionOf (log.publish topicOf partitionOf message)
      (posted ++ [log.entry topicOf partitionOf message]) where
  mem_iff topic partition entry := by
    rw [publish_apply, List.mem_append, List.mem_append, h.mem_iff]
    split
    next hplace =>
      obtain ⟨rfl, rfl⟩ := hplace
      simp only [List.mem_singleton, or_and_right]
      apply or_congr Iff.rfl
      constructor
      · rintro rfl
        exact ⟨rfl, rfl, rfl⟩
      · exact fun hnew => hnew.1
    next hplace =>
      simp only [List.not_mem_nil, or_false, List.mem_singleton, or_and_right]
      apply iff_self_or.mpr
      rintro ⟨rfl, htopic, hpartition⟩
      exact absurd ⟨htopic.symm, hpartition.symm⟩ hplace
  placed entry hentry := by
    rcases List.mem_append.mp hentry with hold | hnew
    · exact h.placed entry hold
    · rw [List.mem_singleton.mp hnew]
      rfl
  offset_lt entry hentry := by
    rw [publish_apply, List.length_append]
    rcases List.mem_append.mp hentry with hold | hnew
    · exact Nat.lt_add_right _ (h.offset_lt entry hold)
    -- the new entry has the old length as its offset
    · rw [List.mem_singleton.mp hnew]
      simp [Log.entry]
  nodup := by
    apply List.nodup_append'.mpr
    refine ⟨h.nodup, List.nodup_singleton _, ?_⟩
    intro entry hold hnew
    have hlt := h.offset_lt entry hold
    rw [List.mem_singleton.mp hnew] at hlt
    exact Nat.lt_irrefl _ hlt

theorem Holds.publishAll [DecidableEq τ] {log : Log τ μ} {posted : List (Entry μ)}
    (h : Holds topicOf partitionOf log posted) (messages : List μ) :
    Holds topicOf partitionOf (log.publishAll topicOf partitionOf messages)
      (posted ++ log.entries topicOf partitionOf messages) := by
  induction messages generalizing log posted with
  | nil =>
      rw [entries, List.append_nil]
      exact h
  | cons message rest ih =>
      have hnext := ih (h.publish message)
      rw [List.append_assoc] at hnext
      exact hnext

/-- A listing of some topics has the entries of these topics. -/
theorem Holds.mem_listing {log : Log τ μ} {posted : List (Entry μ)}
    (h : Holds topicOf partitionOf log posted) {partitions : Nat}
    (hbound : ∀ message, partitionOf message < partitions) {topics : List τ} {entry : Entry μ} :
    entry ∈ log.listing partitions topics ↔
      entry ∈ posted ∧ topicOf entry.message ∈ topics := by
  unfold listing
  simp only [List.mem_flatMap, List.mem_range, h.mem_iff]
  constructor
  · rintro ⟨topic, htopic, partition, _, hentry, rfl, rfl⟩
    exact ⟨hentry, htopic⟩
  · rintro ⟨hentry, htopic⟩
    exact ⟨_, htopic, entry.partition, h.placed entry hentry ▸ hbound _, hentry, rfl, rfl⟩

/-- A listing gives an entry before one of another topic when it names its topic
first. -/
theorem Holds.precedes_listing {log : Log τ μ} {posted : List (Entry μ)}
    (h : Holds topicOf partitionOf log posted) {partitions : Nat}
    (hbound : ∀ message, partitionOf message < partitions) {topics : List τ}
    {first second : Entry μ} (hfirst : first ∈ posted) (hsecond : second ∈ posted)
    (htopics : topicOf first.message ≠ topicOf second.message) :
    Precedes first second (log.listing partitions topics) ↔
      Precedes (topicOf first.message) (topicOf second.message) topics := by
  have hblock : ∀ entry ∈ posted, ∀ topic,
      entry ∈ (List.range partitions).flatMap (log topic) ↔ topic = topicOf entry.message := by
    intro entry hentry topic
    have hmem : entry ∈ log.listing partitions [topic] ↔ _ := h.mem_listing hbound
    rw [listing, List.flatMap_singleton] at hmem
    rw [hmem, List.mem_singleton, eq_comm]
    exact and_iff_right hentry
  exact precedes_flatMap (fun heq => htopics (congrArg (fun e => topicOf e.message) heq))
    (hblock first hfirst) (hblock second hsecond) htopics topics

end Log

end PartitionedLog
