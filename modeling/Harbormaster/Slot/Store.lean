import Harbormaster.Foundation.Table
import Harbormaster.Slot.Lifecycle

/-! # The slot table

The SQL store of `go/internal/slot`. A stored row keeps an absent text as a null
column. On conflict the upsert overwrites the state and the deadline, merges the
two sides and the assignment id with what is stored, and leaves the other
columns as they were; there is no version check.
-/

namespace Harbormaster

open Keyed

structure SlotRow where
  state : SlotState
  expectationId : String
  side1Arrival : Option String
  side2Arrival : Option String
  assignmentId : Option String
  openedAt : Instant
  deadline : Instant
deriving DecidableEq, Repr

/-- `NULLIF(text, '')`. -/
def nullif (text : String) : Option String := if text = "" then none else some text

def Slot.toRow (slot : Slot) : SlotRow where
  state := slot.state
  expectationId := slot.expectationId
  side1Arrival := nullif slot.side1Arrival
  side2Arrival := nullif slot.side2Arrival
  assignmentId := nullif slot.assignmentId
  openedAt := slot.openedAt
  deadline := slot.deadline

def SlotRow.toSlot (row : SlotRow) (key : Key) : Slot where
  key := key
  state := row.state
  expectationId := row.expectationId
  side1Arrival := row.side1Arrival.getD ""
  side2Arrival := row.side2Arrival.getD ""
  assignmentId := row.assignmentId.getD ""
  openedAt := row.openedAt
  deadline := row.deadline

/-- `ON CONFLICT ... DO UPDATE`. -/
def SlotRow.onConflict (stored excluded : SlotRow) : SlotRow :=
  { stored with
    state := excluded.state
    side1Arrival := excluded.side1Arrival.or stored.side1Arrival
    side2Arrival := excluded.side2Arrival.or stored.side2Arrival
    assignmentId := excluded.assignmentId.or stored.assignmentId
    deadline := excluded.deadline }

abbrev SlotTable := Table Key SlotRow

namespace SlotTable

/-- `SQLStore.Get`. -/
def get (table : SlotTable) (key : Key) : Option Slot := (table.lookup key).map (·.toSlot key)

/-- `SQLStore.Upsert`. -/
def put (table : SlotTable) (slot : Slot) : SlotTable :=
  table.upsert SlotRow.onConflict slot.key slot.toRow

/-- The condition of `DueBefore`. -/
def isDue (now : Instant) (row : SlotRow) : Bool :=
  row.deadline < now && row.state ≠ .stateAssigned && row.state ≠ .stateMissing

/-- `SQLStore.DueBefore`, in table order. -/
def dueBefore (table : SlotTable) (now : Instant) : List Slot :=
  (table.select fun _ row => isDue now row).map fun entry => entry.2.toSlot entry.1

end SlotTable

/-! ## The table seen through slots -/

/-- `COALESCE` on texts whose absence is the empty text. -/
def coalesce (text stored : String) : String := if text = "" then stored else text

@[simp] theorem coalesce_empty (stored : String) : coalesce "" stored = stored := rfl

theorem coalesce_of_ne {text : String} (stored : String) (hne : text ≠ "") :
    coalesce text stored = text := if_neg hne

@[simp] theorem coalesce_self (text : String) : coalesce text text = text := by
  unfold coalesce
  split <;> rfl

theorem coalesce_eq_empty {text stored : String} :
    coalesce text stored = "" ↔ text = "" ∧ stored = "" := by
  unfold coalesce
  split
  next h => simp [h]
  next h => simp [h]

theorem coalesce_eq_stored {text stored : String} :
    coalesce text stored = stored ↔ text = "" ∨ stored = text := by
  unfold coalesce
  split
  next h => simp [h]
  next h => simp [h, eq_comm]

/-- What the table holds after a slot was written over another. -/
def Slot.over (slot stored : Slot) : Slot :=
  { slot with
    expectationId := stored.expectationId
    side1Arrival := coalesce slot.side1Arrival stored.side1Arrival
    side2Arrival := coalesce slot.side2Arrival stored.side2Arrival
    assignmentId := coalesce slot.assignmentId stored.assignmentId
    openedAt := stored.openedAt }

theorem nullif_getD (text : String) : (nullif text).getD "" = text := by
  unfold nullif
  split
  next h => simp [h]
  next => rfl

theorem nullif_or_getD (text : String) (stored : Option String) :
    ((nullif text).or stored).getD "" = coalesce text (stored.getD "") := by
  unfold nullif coalesce
  split <;> rfl

theorem Slot.toSlot_toRow (slot : Slot) : slot.toRow.toSlot slot.key = slot := by
  simp only [Slot.toRow, SlotRow.toSlot, nullif_getD]

theorem SlotRow.toSlot_onConflict (stored : SlotRow) (slot : Slot) :
    (stored.onConflict slot.toRow).toSlot slot.key = slot.over (stored.toSlot slot.key) := by
  simp only [SlotRow.onConflict, SlotRow.toSlot, Slot.toRow, Slot.over, nullif_or_getD]

namespace SlotTable

variable (table : SlotTable)

theorem get_put_self (slot : Slot) :
    (put table slot).get slot.key = some
      (match get table slot.key with
        | none => slot
        | some stored => slot.over stored) := by
  unfold get put
  rw [Table.lookup_upsert_self]
  cases table.lookup slot.key with
  | none => exact congrArg some slot.toSlot_toRow
  | some row => exact congrArg some (row.toSlot_onConflict slot)

theorem get_put_of_ne (slot : Slot) {key : Key} (hne : key ≠ slot.key) :
    (put table slot).get key = get table key := by
  unfold get put
  rw [Table.lookup_upsert_of_ne _ _ _ hne]

@[simp] theorem get_empty (key : Key) : get (∅ : SlotTable) key = none := rfl

theorem get_key {key : Key} {slot : Slot} (h : get table key = some slot) : slot.key = key := by
  unfold get at h
  obtain ⟨row, _, rfl⟩ := Option.map_eq_some_iff.mp h
  rfl

/-- A due slot is a stored slot past its deadline and neither assigned nor
marked missing. -/
theorem mem_dueBefore {now : Instant} {slot : Slot} :
    slot ∈ dueBefore table now ↔
      get table slot.key = some slot ∧ slot.deadline < now ∧
        slot.state ≠ .stateAssigned ∧ slot.state ≠ .stateMissing := by
  unfold dueBefore get
  simp only [List.mem_map, Prod.exists, Table.mem_select, Option.map_eq_some_iff, isDue,
    Bool.and_eq_true, decide_eq_true_eq]
  constructor
  · rintro ⟨key, row, ⟨hrow, ⟨hdeadline, hassigned⟩, hmissing⟩, rfl⟩
    exact ⟨⟨row, hrow, rfl⟩, hdeadline, hassigned, hmissing⟩
  · rintro ⟨⟨row, hrow, hslot⟩, hdeadline, hassigned, hmissing⟩
    rw [← hslot] at hdeadline hassigned hmissing
    exact ⟨slot.key, row, ⟨hrow, ⟨hdeadline, hassigned⟩, hmissing⟩, hslot⟩

theorem dueBefore_keys_nodup (now : Instant) : ((dueBefore table now).map Slot.key).Nodup := by
  unfold dueBefore
  rw [List.map_map]
  exact Table.select_keys_nodup table _

end SlotTable

/-! ## Sides -/

/-- Which sides of a slot hold an arrival. -/
def Slot.sides (slot : Slot) : Bool × Bool :=
  (decide (slot.side1Arrival ≠ ""), decide (slot.side2Arrival ≠ ""))

/-- Every side that holds an arrival in the first slot holds one in the second. -/
def Slot.Covers (slot slot' : Slot) : Prop :=
  (slot.side1Arrival ≠ "" → slot'.side1Arrival ≠ "") ∧
    (slot.side2Arrival ≠ "" → slot'.side2Arrival ≠ "")

theorem Slot.complete_eq_of_sides {slot slot' : Slot} (h : slot.sides = slot'.sides) :
    slot.complete = slot'.complete := by
  simp only [Slot.sides, Prod.mk.injEq] at h
  rw [Slot.complete, Slot.complete, h.1, h.2]

theorem Slot.covers_of_sides {slot slot' : Slot} (h : slot.sides = slot'.sides) :
    slot.Covers slot' := by
  simp only [Slot.sides, Prod.mk.injEq, decide_eq_decide] at h
  exact ⟨h.1.mp, h.2.mp⟩

/-- A slot written over another holds the sides of both. -/
theorem Slot.sides_over (slot stored : Slot) :
    (slot.over stored).sides =
      (slot.sides.1 || stored.sides.1, slot.sides.2 || stored.sides.2) := by
  have hside : ∀ text stored : String, decide (coalesce text stored ≠ "") =
      (decide (text ≠ "") || decide (stored ≠ "")) := by
    intro text stored
    rw [Bool.eq_iff_iff, Bool.or_eq_true]
    simp only [decide_eq_true_eq, ne_eq, coalesce_eq_empty, not_and_or]
  exact Prod.ext (hside _ _) (hside _ _)

/-- Over a slot that covers it, a slot takes the sides of the other. -/
theorem Slot.sides_over_of_covered {slot stored : Slot} (h : slot.Covers stored) :
    (slot.over stored).sides = stored.sides := by
  have hside : ∀ {text stored : String}, (text ≠ "" → stored ≠ "") →
      (decide (text ≠ "") || decide (stored ≠ "")) = decide (stored ≠ "") := by
    intro text stored hcovers
    rw [Bool.eq_iff_iff, Bool.or_eq_true]
    simp only [decide_eq_true_eq]
    exact or_iff_right_of_imp hcovers
  rw [Slot.sides_over]
  exact Prod.ext (hside h.1) (hside h.2)

theorem Slot.covers_over (slot stored : Slot) :
    slot.Covers (slot.over stored) ∧ stored.Covers (slot.over stored) := by
  unfold Slot.Covers Slot.over
  simp only [ne_eq, coalesce_eq_empty]
  exact ⟨⟨fun h h' => h h'.1, fun h h' => h h'.1⟩, ⟨fun h h' => h h'.2, fun h h' => h h'.2⟩⟩

theorem Slot.complete_of_covers {slot slot' : Slot} (h : slot.Covers slot')
    (hfull : slot.complete = true) : slot'.complete = true := by
  simp only [Slot.complete, Bool.and_eq_true, decide_eq_true_eq] at hfull ⊢
  exact ⟨h.1 hfull.1, h.2 hfull.2⟩

end Harbormaster
