import Harbormaster.Calendar
import Mathlib.Data.Int.ConditionallyCompleteOrder
import Mathlib.Order.GaloisConnection.Defs
import Mathlib.Tactic.Ring

/-! # Calendars without a closed month

Where any thirty consecutive days contain a business day, every search for one
succeeds. Going back to a business day and going on to one are then adjoint, and
undo each other on business days.
-/

/-- The iterates of adjoint maps are adjoint. -/
theorem GaloisConnection.iterate {α : Type*} [Preorder α] {lower upper : α → α}
    (h : GaloisConnection lower upper) (count : Nat) :
    GaloisConnection (Nat.iterate lower count) (Nat.iterate upper count) := by
  induction count with
  | zero => exact GaloisConnection.id
  | succ count ih =>
      rw [Function.iterate_succ lower, Function.iterate_succ' upper]
      exact h.compose ih

namespace Harbormaster

namespace Calendar

variable (calendar : Calendar)

/-- As many consecutive days as a search takes steps contain a business day. -/
def Regular : Prop :=
  ∀ day : Day, ∃ offset : Nat, offset < maxCalendarStepDays ∧
    calendar.isBusinessDay (day + offset) = true

/-- No business day lies strictly between two days. -/
def ClosedBetween (first last : Day) : Prop :=
  ∀ day, first < day → day < last → calendar.isBusinessDay day = false

variable {calendar}

theorem closedBetween_of_le {first last : Day} (h : last ≤ first + 1) :
    calendar.ClosedBetween first last := by
  intro day hfirst hlast
  have hnone : ¬ (first < day ∧ day < last) := by
    have hbounds : ∀ a b c : Int, b ≤ a + 1 → ¬ (a < c ∧ c < b) := by omega
    exact hbounds first last day h
  exact absurd ⟨hfirst, hlast⟩ hnone

/-- A search that meets a business day stops at the first one. -/
theorem le_seek_forward_iff {fuel : Nat} {valueDay : Day}
    (hopen : ∃ offset : Nat, offset < fuel ∧
      calendar.isBusinessDay (valueDay + 1 + offset) = true) (today : Day) :
    today ≤ calendar.seek 1 fuel valueDay ↔ calendar.ClosedBetween valueDay today := by
  induction fuel generalizing valueDay with
  | zero =>
      obtain ⟨offset, hoffset, _⟩ := hopen
      exact absurd hoffset (Nat.not_lt_zero offset)
  | succ fuel ih =>
      unfold seek
      split
      next hbusiness =>
        refine ⟨closedBetween_of_le, fun hclosed => ?_⟩
        by_contra hlate
        have hday := hclosed (valueDay + 1) (Int.lt_add_one_of_le le_rfl) (not_le.mp hlate)
        rw [hday] at hbusiness
        cases hbusiness
      next hclosedDay =>
        obtain ⟨offset, hoffset, hbusiness⟩ := hopen
        cases offset with
        | zero =>
            rw [Nat.cast_zero, add_zero] at hbusiness
            exact absurd hbusiness hclosedDay
        | succ offset =>
            have hshift : valueDay + 1 + (offset + 1 : Nat) = valueDay + 1 + 1 + offset := by
              push_cast
              ring
            rw [hshift] at hbusiness
            rw [ih ⟨offset, Nat.lt_of_succ_lt_succ hoffset, hbusiness⟩]
            constructor
            · intro hclosed day hfirst hlast
              rcases (Int.add_one_le_iff.mpr hfirst).eq_or_lt with hnext | hlater
              · rw [← hnext]
                exact Bool.eq_false_of_not_eq_true hclosedDay
              · exact hclosed day hlater hlast
            · intro hclosed day hfirst hlast
              exact hclosed day ((Int.lt_add_one_of_le le_rfl).trans hfirst) hlast

theorem seek_back_le_iff {fuel : Nat} {today : Day}
    (hopen : ∃ offset : Nat, offset < fuel ∧
      calendar.isBusinessDay (today - 1 - offset) = true) (valueDay : Day) :
    calendar.seek (-1) fuel today ≤ valueDay ↔ calendar.ClosedBetween valueDay today := by
  induction fuel generalizing today with
  | zero =>
      obtain ⟨offset, hoffset, _⟩ := hopen
      exact absurd hoffset (Nat.not_lt_zero offset)
  | succ fuel ih =>
      have hback : today + -1 = today - 1 := (sub_eq_add_neg today 1).symm
      unfold seek
      rw [hback]
      split
      next hbusiness =>
        refine ⟨fun hle => closedBetween_of_le (sub_le_iff_le_add.mp hle), fun hclosed => ?_⟩
        by_contra hlate
        have hday := hclosed (today - 1) (not_le.mp hlate) (Int.sub_one_lt_of_le le_rfl)
        rw [hday] at hbusiness
        cases hbusiness
      next hclosedDay =>
        obtain ⟨offset, hoffset, hbusiness⟩ := hopen
        cases offset with
        | zero =>
            rw [Nat.cast_zero, sub_zero] at hbusiness
            exact absurd hbusiness hclosedDay
        | succ offset =>
            have hshift : today - 1 - (offset + 1 : Nat) = today - 1 - 1 - offset := by
              push_cast
              ring
            rw [hshift] at hbusiness
            rw [ih ⟨offset, Nat.lt_of_succ_lt_succ hoffset, hbusiness⟩]
            constructor
            · intro hclosed day hfirst hlast
              rcases (Int.le_sub_one_of_lt hlast).eq_or_lt with hnext | hearlier
              · rw [hnext]
                exact Bool.eq_false_of_not_eq_true hclosedDay
              · exact hclosed day hfirst hearlier
            · intro hclosed day hfirst hlast
              exact hclosed day hfirst (hlast.trans (Int.sub_one_lt_of_le le_rfl))

/-! ## Business days -/

theorem seek_isBusinessDay {step : Int} {fuel : Nat} {day : Day} {offset : Nat}
    (hoffset : offset < fuel)
    (hopen : calendar.isBusinessDay (day + step * (offset + 1)) = true) :
    calendar.isBusinessDay (calendar.seek step fuel day) = true := by
  induction fuel generalizing day offset with
  | zero => exact absurd hoffset (Nat.not_lt_zero offset)
  | succ fuel ih =>
      unfold seek
      split
      next hbusiness => exact hbusiness
      next hclosed =>
        cases offset with
        | zero =>
            rw [Nat.cast_zero, zero_add, mul_one] at hopen
            exact absurd hopen hclosed
        | succ offset =>
            refine ih (Nat.lt_of_succ_lt_succ hoffset) ?_
            rw [← hopen]
            congr 1
            push_cast
            ring

/-- An open day among the thirty before a day, counted back from it. -/
theorem Regular.exists_before (h : calendar.Regular) (day : Day) :
    ∃ offset : Nat, offset < maxCalendarStepDays ∧
      calendar.isBusinessDay (day - 1 - offset) = true := by
  obtain ⟨offset, hoffset, hbusiness⟩ := h (day - maxCalendarStepDays)
  refine ⟨maxCalendarStepDays - 1 - offset, by omega, ?_⟩
  rw [← hbusiness]
  congr 1
  have hcast : ((maxCalendarStepDays - 1 - offset : Nat) : Int) =
      maxCalendarStepDays - 1 - offset := by omega
  rw [hcast]
  ring

theorem Regular.nextBusinessDay_isBusinessDay (h : calendar.Regular) (day : Day) :
    calendar.isBusinessDay (calendar.nextBusinessDay day) = true := by
  obtain ⟨offset, hoffset, hopen⟩ := h (day + 1)
  refine seek_isBusinessDay hoffset ?_
  rw [← hopen]
  congr 1
  ring

theorem Regular.previousBusinessDay_isBusinessDay (h : calendar.Regular) (day : Day) :
    calendar.isBusinessDay (calendar.previousBusinessDay day) = true := by
  obtain ⟨offset, hoffset, hopen⟩ := h.exists_before day
  refine seek_isBusinessDay hoffset ?_
  rw [← hopen]
  congr 1
  ring

/-- Going back to a business day and going on to one are adjoint. -/
theorem Regular.galoisConnection (h : calendar.Regular) :
    GaloisConnection calendar.previousBusinessDay calendar.nextBusinessDay := by
  intro today valueDay
  exact (seek_back_le_iff (h.exists_before today) valueDay).trans
    (le_seek_forward_iff (h (valueDay + 1)) today).symm

/-- The next day is taken at once when it is open. -/
theorem seek_succ_of_isBusinessDay {step : Int} {fuel : Nat} {day : Day}
    (h : calendar.isBusinessDay (day + step) = true) :
    calendar.seek step (fuel + 1) day = day + step := by
  unfold seek
  rw [if_pos h]

theorem previousBusinessDay_lt (calendar : Calendar) (day : Day) :
    calendar.previousBusinessDay day < day := by
  have hstep : day + -1 < day := Int.sub_one_lt_of_le le_rfl
  unfold previousBusinessDay maxCalendarStepDays seek
  split
  next => exact hstep
  next => exact (calendar.seek_back_le _ (day + -1)).trans_lt hstep

theorem lt_nextBusinessDay (calendar : Calendar) (day : Day) :
    day < calendar.nextBusinessDay day := by
  have hstep : day < day + 1 := Int.lt_add_one_of_le le_rfl
  unfold nextBusinessDay maxCalendarStepDays seek
  split
  next => exact hstep
  next => exact hstep.trans_le (calendar.le_seek_forward _ (day + 1))

/-- No business day is passed on the way back. -/
theorem Regular.le_previousBusinessDay (h : calendar.Regular) {day later : Day}
    (hopen : calendar.isBusinessDay day = true) (hlater : day < later) :
    day ≤ calendar.previousBusinessDay later := by
  by_contra hearly
  have hafter := (h.galoisConnection _ _).mp (Int.le_sub_one_of_lt (not_le.mp hearly))
  have hstart : calendar.nextBusinessDay (day - 1) = day := by
    refine (seek_succ_of_isBusinessDay ?_).trans (sub_add_cancel day 1)
    rw [sub_add_cancel]
    exact hopen
  rw [hstart] at hafter
  exact absurd hlater (not_lt.mpr hafter)

theorem Regular.nextBusinessDay_le (h : calendar.Regular) {earlier day : Day}
    (hopen : calendar.isBusinessDay day = true) (hearlier : earlier < day) :
    calendar.nextBusinessDay earlier ≤ day := by
  by_contra hlate
  have hbefore := (h.galoisConnection _ _).mpr (Int.add_one_le_of_lt (not_le.mp hlate))
  have hstart : calendar.previousBusinessDay (day + 1) = day := by
    refine (seek_succ_of_isBusinessDay ?_).trans (add_neg_cancel_right day 1)
    rw [add_neg_cancel_right]
    exact hopen
  rw [hstart] at hbefore
  exact absurd hearlier (not_lt.mpr hbefore)

/-- From a business day, going on and back again comes home. -/
theorem Regular.previous_next (h : calendar.Regular) {day : Day}
    (hopen : calendar.isBusinessDay day = true) :
    calendar.previousBusinessDay (calendar.nextBusinessDay day) = day :=
  le_antisymm ((h.galoisConnection _ _).mpr le_rfl)
    (h.le_previousBusinessDay hopen (calendar.lt_nextBusinessDay day))

theorem Regular.next_previous (h : calendar.Regular) {day : Day}
    (hopen : calendar.isBusinessDay day = true) :
    calendar.nextBusinessDay (calendar.previousBusinessDay day) = day :=
  le_antisymm (h.nextBusinessDay_le hopen (calendar.previousBusinessDay_lt day))
    ((h.galoisConnection _ _).mp le_rfl)

/-- A day is rolled to the last business day that is not after it. -/
theorem Regular.roll_isGreatest (h : calendar.Regular) (day : Day) :
    IsGreatest {earlier | calendar.isBusinessDay earlier = true ∧ earlier ≤ day}
      (calendar.roll day) := by
  unfold roll
  split
  next hopen => exact ⟨⟨hopen, le_rfl⟩, fun earlier hearlier => hearlier.2⟩
  next hclosed =>
    refine ⟨⟨h.previousBusinessDay_isBusinessDay day, (calendar.previousBusinessDay_lt day).le⟩, ?_⟩
    rintro earlier ⟨hopen, hle⟩
    refine h.le_previousBusinessDay hopen (lt_of_le_of_ne hle ?_)
    rintro rfl
    exact hclosed hopen

/-- A value date is within so many business days before a day exactly when the
day is within so many after the value date. -/
theorem Regular.addBusinessDays_neg_le_iff (h : calendar.Regular) {window : Int}
    (hwindow : 0 < window) (valueDay today : Day) :
    calendar.addBusinessDays today (-window) ≤ valueDay ↔
      today ≤ calendar.addBusinessDays valueDay window := by
  unfold addBusinessDays
  have hcount : (-window).natAbs = window.toNat := by omega
  rw [if_pos (neg_lt_zero.mpr hwindow), if_neg (not_lt.mpr hwindow.le), hcount]
  exact (h.galoisConnection.iterate window.toNat) today valueDay

/-- A calendar that only closes at the weekend is regular. -/
theorem regular_of_weekend (calendarId : String) :
    ({ calendarId } : Calendar).Regular := by
  intro day
  refine ⟨((1 - day) % 7).toNat, ?_, ?_⟩
  · have hbound : ∀ a : Int, ((1 - a) % 7).toNat < 30 := by omega
    exact hbound day
  · have hmonday : (day + ((1 - day) % 7).toNat) % 7 = 1 := by
      have hmod : ∀ a : Int, (a + ((1 - a) % 7).toNat) % 7 = 1 := by omega
      exact hmod day
    have hweekday : Day.weekday (day + ((1 - day) % 7).toNat) = .monday := by
      unfold Day.weekday
      rw [hmonday]
      rfl
    unfold isBusinessDay
    rw [hweekday]
    rfl

end Calendar

end Harbormaster
