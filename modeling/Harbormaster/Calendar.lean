import Harbormaster.Foundation.Civil
import Mathlib.Logic.Function.Iterate

/-! # Business days

The business-day arithmetic of `go/internal/registry` and of
`inspector/registry.py`, whose rules agree. Days are positions on the civil day
count, and instants count microseconds, the resolution of the stored
timestamps, from the start of day 0.
-/

namespace Harbormaster

/-- A calendar day, as its ordinal. -/
abbrev Day := Int

/-- A moment in UTC, in microseconds. -/
abbrev Instant := Int

def microsPerMinute : Int := 60 * 1000000
def microsPerDay : Int := 24 * 60 * microsPerMinute

/-- Midnight at the start of a day. -/
def Day.midnight (day : Day) : Instant := day * microsPerDay

/-- The day an instant falls on (`truncate` in the slot package). -/
def Instant.truncate (instant : Instant) : Day := instant / microsPerDay

inductive Weekday where
  | monday | tuesday | wednesday | thursday | friday | saturday | sunday
deriving DecidableEq, Repr

/-- Day 1 is a Monday. -/
def Day.weekday (day : Day) : Weekday :=
  match (day % 7).toNat with
  | 1 => .monday
  | 2 => .tuesday
  | 3 => .wednesday
  | 4 => .thursday
  | 5 => .friday
  | 6 => .saturday
  | _ => .sunday

/-- A market's calendar: its weekend and its named holidays. -/
structure Calendar where
  calendarId : String
  weekend : List Weekday := [.saturday, .sunday]
  holidays : List (Day × String) := []
deriving DecidableEq, Repr

/-- Which way a closed day is rolled. -/
inductive Convention where
  | preceding | following
deriving DecidableEq, Repr

namespace Calendar

variable (calendar : Calendar)

def isBusinessDay (day : Day) : Bool :=
  !(calendar.weekend.contains day.weekday) && !(calendar.holidays.any fun h => h.1 = day)

/-- The reason a date is closed, or the empty text. A date listed twice keeps
its last name. -/
def holidayName (day : Day) : String :=
  ((calendar.holidays.filter fun h => h.1 = day).getLast?.map Prod.snd).getD ""

def maxCalendarStepDays : Nat := 30

/-- Move by `step` until a business day is met, at most `fuel` times. A search
that meets none rests where it ran out. -/
def seek (step : Int) : Nat → Day → Day
  | 0, day => day
  | fuel + 1, day =>
      if calendar.isBusinessDay (day + step) then day + step
      else seek step fuel (day + step)

def previousBusinessDay (day : Day) : Day := calendar.seek (-1) maxCalendarStepDays day

def nextBusinessDay (day : Day) : Day := calendar.seek 1 maxCalendarStepDays day

/-- Move `count` business days. A negative count moves backwards. -/
def addBusinessDays (day : Day) (count : Int) : Day :=
  if count < 0 then Nat.iterate calendar.previousBusinessDay count.natAbs day
  else Nat.iterate calendar.nextBusinessDay count.toNat day

/-- Move a closed day onto an adjacent business day. -/
def roll (day : Day) (convention : Convention := .preceding) : Day :=
  if calendar.isBusinessDay day then day
  else match convention with
    | .preceding => calendar.previousBusinessDay day
    | .following => calendar.nextBusinessDay day

/-! ## Directions -/

theorem seek_back_le (fuel : Nat) (day : Day) : calendar.seek (-1) fuel day ≤ day := by
  induction fuel generalizing day with
  | zero => exact le_rfl
  | succ fuel ih =>
      have hstep : day + -1 ≤ day := Int.sub_le_self day Int.one_nonneg
      unfold seek
      split
      next => exact hstep
      next => exact (ih (day + -1)).trans hstep

theorem sub_le_seek_back (fuel : Nat) (day : Day) :
    day - fuel ≤ calendar.seek (-1) fuel day := by
  induction fuel generalizing day with
  | zero => exact Int.sub_le_self day le_rfl
  | succ fuel ih =>
      have hstep : ∀ day : Int, day - (fuel + 1 : Nat) ≤ day + -1 := by omega
      have hshift : ∀ day : Int, day - (fuel + 1 : Nat) ≤ day + -1 - fuel := by omega
      unfold seek
      split
      next => exact hstep day
      next => exact (hshift day).trans (ih (day + -1))

theorem seek_forward_le_add (fuel : Nat) (day : Day) :
    calendar.seek 1 fuel day ≤ day + fuel := by
  induction fuel generalizing day with
  | zero => exact Int.le_add_of_nonneg_right le_rfl
  | succ fuel ih =>
      have hstep : ∀ day : Int, day + 1 ≤ day + (fuel + 1 : Nat) := by omega
      have hshift : ∀ day : Int, day + 1 + fuel ≤ day + (fuel + 1 : Nat) := by omega
      unfold seek
      split
      next => exact hstep day
      next => exact (ih (day + 1)).trans (hshift day)

theorem le_seek_forward (fuel : Nat) (day : Day) : day ≤ calendar.seek 1 fuel day := by
  induction fuel generalizing day with
  | zero => exact le_rfl
  | succ fuel ih =>
      have hstep : day ≤ day + 1 := Int.le_add_one le_rfl
      unfold seek
      split
      next => exact hstep
      next => exact hstep.trans (ih (day + 1))

theorem addBusinessDays_neg_le (day : Day) {count : Int} (h : count < 0) :
    calendar.addBusinessDays day count ≤ day := by
  unfold addBusinessDays
  rw [if_pos h]
  generalize count.natAbs = steps
  induction steps generalizing day with
  | zero => exact le_rfl
  | succ steps ih => exact (ih _).trans (calendar.seek_back_le _ day)

theorem le_addBusinessDays (day : Day) {count : Int} (h : 0 ≤ count) :
    day ≤ calendar.addBusinessDays day count := by
  unfold addBusinessDays
  rw [if_neg (by omega)]
  generalize count.toNat = steps
  induction steps generalizing day with
  | zero => exact le_rfl
  | succ steps ih => exact (calendar.le_seek_forward _ day).trans (ih _)

/-- A rolled day is at most one search away. -/
theorem roll_bounds (day : Day) : day - 30 ≤ calendar.roll day ∧ calendar.roll day ≤ day := by
  unfold roll
  split
  next => exact ⟨Int.sub_le_self day (by decide), le_rfl⟩
  next => exact ⟨calendar.sub_le_seek_back _ day, calendar.seek_back_le _ day⟩

/-- The New York weekend: Saturday 2026-08-29 rolls back to Friday. -/
example : ({ calendarId := "US_EQUITY" } : Calendar).roll 739857 = 739856 := by decide

end Calendar

end Harbormaster
