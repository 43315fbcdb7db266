import Harbormaster.Regular
import Mathlib.Data.Set.Function

/-! # Counting business days

`BusinessDaysBetween` of `go/internal/registry` takes steps until it has reached
the other day. On a calendar without a closed month it inverts
`addBusinessDays`, and counts the same in both directions.
-/

namespace Harbormaster

namespace Calendar

variable (calendar : Calendar)

def maxCountedSteps : Nat := 400

/-- The number of steps taken from `day` until one arrives, at most `fuel`. -/
def stepsUntil (step : Day → Day) (arrived : Day → Bool) : Nat → Day → Nat
  | 0, _ => 0
  | fuel + 1, day =>
      if arrived (step day) then 1 else stepsUntil step arrived fuel (step day) + 1

/-- The business days from one day to another, signed. -/
def businessDaysBetween (first last : Day) : Int :=
  if first = last then 0
  else if last < first then
    -(stepsUntil calendar.previousBusinessDay (fun day => day ≤ last) maxCountedSteps first : Int)
  else stepsUntil calendar.nextBusinessDay (fun day => last ≤ day) maxCountedSteps first

/-! ## The loop -/

/-- The loop ends on the first step that arrives. -/
theorem stepsUntil_eq {step : Day → Day} {arrived : Day → Bool} {count fuel : Nat} {day : Day}
    (hfuel : count + 1 ≤ fuel) (harrived : arrived (step^[count + 1] day) = true)
    (hbefore : ∀ earlier < count, arrived (step^[earlier + 1] day) = false) :
    stepsUntil step arrived fuel day = count + 1 := by
  induction fuel generalizing count day with
  | zero => exact absurd hfuel (Nat.not_succ_le_zero count)
  | succ fuel ih =>
      unfold stepsUntil
      cases count with
      | zero => exact if_pos harrived
      | succ count =>
          have hfirst := hbefore 0 (Nat.zero_lt_succ count)
          rw [Function.iterate_one] at hfirst
          rw [hfirst, if_neg Bool.false_ne_true]
          have hrest : ∀ earlier < count, arrived (step^[earlier + 1] (step day)) = false :=
            fun earlier hearlier => hbefore (earlier + 1) (Nat.succ_lt_succ hearlier)
          rw [ih (Nat.le_of_succ_le_succ hfuel) harrived hrest]

/-- Two walks that arrive on the same steps are counted the same. -/
theorem stepsUntil_congr {step other : Day → Day} {arrived reached : Day → Bool} {day start : Day}
    (h : ∀ count, arrived (step^[count + 1] day) = reached (other^[count + 1] start)) (fuel : Nat) :
    stepsUntil step arrived fuel day = stepsUntil other reached fuel start := by
  induction fuel generalizing day start with
  | zero => rfl
  | succ fuel ih =>
      have hfirst := h 0
      rw [Function.iterate_one, Function.iterate_one] at hfirst
      unfold stepsUntil
      rw [hfirst, ih fun count => h (count + 1)]

/-! ## Walks over business days -/

/-- A step that moves on moves further on with every repetition. -/
theorem iterate_lt_iterate {step : Day → Day} (h : ∀ day, day < step day) (day : Day)
    {fewer more : Nat} (hlt : fewer < more) : step^[fewer] day < step^[more] day := by
  refine strictMono_nat_of_lt_succ (f := fun count => step^[count] day) (fun count => ?_) hlt
  rw [Function.iterate_succ_apply']
  exact h _

theorem iterate_gt_iterate {step : Day → Day} (h : ∀ day, step day < day) (day : Day)
    {fewer more : Nat} (hlt : fewer < more) : step^[more] day < step^[fewer] day := by
  refine strictAnti_nat_of_succ_lt (f := fun count => step^[count] day) (fun count => ?_) hlt
  rw [Function.iterate_succ_apply']
  exact h _

variable {calendar}

/-- A way back that undoes one step from business days undoes a walk. -/
theorem iterate_iterate_eq {step back : Day → Day}
    (hlands : ∀ day, calendar.isBusinessDay (step day) = true)
    (hback : ∀ day, calendar.isBusinessDay day = true → back (step day) = day)
    (count : Nat) {day : Day} (hopen : calendar.isBusinessDay day = true) :
    back^[count] (step^[count] day) = day := by
  have hmaps : Set.MapsTo step {day | calendar.isBusinessDay day = true}
      {day | calendar.isBusinessDay day = true} := fun day _ => hlands day
  induction count with
  | zero => rfl
  | succ count ih =>
      have hstill : calendar.isBusinessDay (step^[count] day) = true := hmaps.iterate count hopen
      rw [Function.iterate_succ_apply' step, Function.iterate_succ_apply back,
        hback _ hstill, ih]

theorem addBusinessDays_natCast (day : Day) (count : Nat) :
    calendar.addBusinessDays day count = calendar.nextBusinessDay^[count] day := by
  unfold addBusinessDays
  rw [if_neg (Int.natCast_nonneg count).not_gt, Int.toNat_natCast]

theorem addBusinessDays_neg_natCast (day : Day) (count : Nat) :
    calendar.addBusinessDays day (-count) = calendar.previousBusinessDay^[count] day := by
  unfold addBusinessDays
  cases count with
  | zero => rfl
  | succ count => rw [if_pos (by omega), Int.natAbs_neg, Int.natAbs_natCast]

/-! ## Counting inverts moving -/

theorem businessDaysBetween_next (day : Day) {count : Nat} (hcount : count ≤ maxCountedSteps) :
    calendar.businessDaysBetween day (calendar.nextBusinessDay^[count] day) = count := by
  unfold businessDaysBetween
  cases count with
  | zero => exact if_pos rfl
  | succ count =>
      have hlate : day < calendar.nextBusinessDay^[count + 1] day :=
        iterate_lt_iterate calendar.lt_nextBusinessDay day (Nat.zero_lt_succ count)
      rw [if_neg hlate.ne, if_neg (not_lt.mpr hlate.le)]
      congr 1
      refine stepsUntil_eq hcount (decide_eq_true le_rfl) ?_
      intro earlier hearlier
      refine decide_eq_false (not_le.mpr ?_)
      exact iterate_lt_iterate calendar.lt_nextBusinessDay day (Nat.succ_lt_succ hearlier)

theorem businessDaysBetween_previous (day : Day) {count : Nat} (hcount : count ≤ maxCountedSteps) :
    calendar.businessDaysBetween day (calendar.previousBusinessDay^[count] day) = -count := by
  unfold businessDaysBetween
  cases count with
  | zero => exact if_pos rfl
  | succ count =>
      have hsoon : calendar.previousBusinessDay^[count + 1] day < day :=
        iterate_gt_iterate calendar.previousBusinessDay_lt day (Nat.zero_lt_succ count)
      rw [if_neg hsoon.ne', if_pos hsoon]
      congr 2
      refine stepsUntil_eq hcount (decide_eq_true le_rfl) ?_
      intro earlier hearlier
      refine decide_eq_false (not_le.mpr ?_)
      exact iterate_gt_iterate calendar.previousBusinessDay_lt day (Nat.succ_lt_succ hearlier)

theorem businessDaysBetween_addBusinessDays (day : Day) {count : Int}
    (hcount : count.natAbs ≤ maxCountedSteps) :
    calendar.businessDaysBetween day (calendar.addBusinessDays day count) = count := by
  obtain ⟨steps, rfl | rfl⟩ := count.eq_nat_or_neg
  · rw [addBusinessDays_natCast]
    exact businessDaysBetween_next day hcount
  · rw [addBusinessDays_neg_natCast]
    rw [Int.natAbs_neg] at hcount
    exact businessDaysBetween_previous day hcount

/-! ## Counting backwards -/

/-- Both directions arrive on the same step, since the steps are adjoint. -/
theorem Regular.businessDaysBetween_of_lt (h : calendar.Regular) {first last : Day}
    (hlt : first < last) :
    calendar.businessDaysBetween last first = -calendar.businessDaysBetween first last := by
  unfold businessDaysBetween
  rw [if_neg hlt.ne', if_pos hlt, if_neg hlt.ne, if_neg (not_lt.mpr hlt.le)]
  congr 2
  refine stepsUntil_congr (fun count => ?_) maxCountedSteps
  exact decide_eq_decide.mpr (h.galoisConnection.iterate (count + 1) last first)

theorem Regular.businessDaysBetween_comm (h : calendar.Regular) (first last : Day) :
    calendar.businessDaysBetween first last = -calendar.businessDaysBetween last first := by
  rcases lt_trichotomy first last with hlt | rfl | hgt
  · rw [h.businessDaysBetween_of_lt hlt, neg_neg]
  · unfold businessDaysBetween
    rw [if_pos rfl, neg_zero]
  · exact h.businessDaysBetween_of_lt hgt

/-! ## Moving back -/

theorem Regular.addBusinessDays_neg (h : calendar.Regular) {day : Day}
    (hopen : calendar.isBusinessDay day = true) (count : Int) :
    calendar.addBusinessDays (calendar.addBusinessDays day count) (-count) = day := by
  obtain ⟨steps, rfl | rfl⟩ := count.eq_nat_or_neg
  · rw [addBusinessDays_natCast, addBusinessDays_neg_natCast]
    exact iterate_iterate_eq h.nextBusinessDay_isBusinessDay (fun _ => h.previous_next) steps hopen
  · rw [neg_neg, addBusinessDays_neg_natCast, addBusinessDays_natCast]
    exact iterate_iterate_eq h.previousBusinessDay_isBusinessDay (fun _ => h.next_previous) steps
      hopen

/-- On a calendar without a closed month, counting business days inverts moving
by them, is antisymmetric, and every move from a business day can be taken
back. -/
theorem business_day_arithmetic (calendar : Calendar) (hregular : calendar.Regular) :
    (∀ (day : Day) (count : Int), -400 ≤ count → count ≤ 400 →
      calendar.businessDaysBetween day (calendar.addBusinessDays day count) = count) ∧
    (∀ first last : Day,
      calendar.businessDaysBetween first last = -calendar.businessDaysBetween last first) ∧
    ∀ day : Day, calendar.isBusinessDay day = true → ∀ count : Int,
      calendar.addBusinessDays (calendar.addBusinessDays day count) (-count) = day := by
  refine ⟨fun day count hlow hhigh => ?_, hregular.businessDaysBetween_comm,
    fun day hopen => hregular.addBusinessDays_neg hopen⟩
  have hcount : count.natAbs ≤ 400 := by omega
  exact businessDaysBetween_addBusinessDays day hcount

/-- Saturday 2026-08-29 and the Tuesday after it, on a calendar that closes at
the weekend. -/
theorem business_day_arithmetic_weekend :
    ({ calendarId := "US_EQUITY" } : Calendar).businessDaysBetween 739857
        (({ calendarId := "US_EQUITY" } : Calendar).addBusinessDays 739857 2) = 2 ∧
      ({ calendarId := "US_EQUITY" } : Calendar).businessDaysBetween 739857 739860 =
        -({ calendarId := "US_EQUITY" } : Calendar).businessDaysBetween 739860 739857 ∧
      ({ calendarId := "US_EQUITY" } : Calendar).addBusinessDays
        (({ calendarId := "US_EQUITY" } : Calendar).addBusinessDays 739856 (-3)) 3 = 739856 := by
  obtain ⟨hcount, hcomm, hback⟩ :=
    business_day_arithmetic { calendarId := "US_EQUITY" } (regular_of_weekend "US_EQUITY")
  exact ⟨hcount 739857 2 (by decide) (by decide), hcomm 739857 739860,
    hback 739856 (by decide) (-3)⟩

end Calendar

end Harbormaster
