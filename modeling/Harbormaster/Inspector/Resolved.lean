import Harbormaster.Inspector.SubBatches

/-! # Resolved days are dates

Where a resolved value date comes from, and that it is a date of the calendar as
long as the clock reads one.
-/

namespace Harbormaster.Inspector

open Ordered

variable {runtime : Runtime}

/-- The years of the dates that are read. -/
theorem bounds_of_parseDate {text : String} {day : Day} (h : parseDate runtime text = some day) :
    Civil.daysBeforeYear 1990 < day ∧ day ≤ Civil.daysBeforeYear 2101 := by
  unfold parseDate at h
  dsimp only at h
  split at h
  next => cases h
  next =>
    split at h
    next => cases h
    next =>
      obtain ⟨date, hdate, rfl⟩ := Option.map_eq_some_iff.mp h
      obtain ⟨format, _, hformat⟩ := List.exists_of_findSome?_eq_some hdate
      obtain ⟨_, hyears⟩ := Option.filter_eq_some_iff.mp hformat
      rw [Bool.and_eq_true, decide_eq_true_eq, decide_eq_true_eq] at hyears
      have hlow := Civil.daysBeforeYear_mono hyears.1
      have hhigh := Civil.daysBeforeYear_mono (Nat.succ_le_succ hyears.2)
      exact ⟨lt_of_le_of_lt hlow date.after_year, date.in_year.trans hhigh⟩

/-- What a resolved day is rolled from: a date that was read, the business day
after one, or the business day before the present. -/
inductive Source (runtime : Runtime) (calendar : Calendar) (today : Day) : Day → Prop where
  | read {text : String} {day : Day} (h : parseDate runtime text = some day) :
      Source runtime calendar today day
  | inferred {text : String} {day : Day} (h : parseDate runtime text = some day) :
      Source runtime calendar today (calendar.addBusinessDays day 1)
  | arrival : Source runtime calendar today (calendar.previousBusinessDay today)

variable {rows : List Row} {headers hints : List String} {filename : String} {today : Day}
variable {calendar : Calendar}

theorem read_of_mem_columnDates {column : Option String} {day : Day}
    (h : day ∈ columnDates runtime rows column) : ∃ text, parseDate runtime text = some day := by
  rw [columnDates_eq] at h
  obtain ⟨row, _, hrow⟩ := List.mem_filterMap.mp h
  obtain ⟨column, _, hcell⟩ := Option.bind_eq_some_iff.mp hrow
  exact ⟨_, hcell⟩

theorem resolve_source : ∃ source, Source runtime calendar today source ∧
    (resolve runtime headers rows filename today calendar hints).resolved =
      some (calendar.roll source) := by
  unfold resolve
  dsimp only
  split
  next first rest hdates =>
    have hmem := winner_mem first rest
    rw [← hdates] at hmem
    obtain ⟨text, hread⟩ := read_of_mem_columnDates hmem
    exact ⟨_, .read hread, rfl⟩
  next =>
    split
    next first rest hdates =>
      have hmem := winner_mem first rest
      rw [← hdates] at hmem
      obtain ⟨day, hday, hnext⟩ := List.mem_map.mp hmem
      obtain ⟨text, hread⟩ := read_of_mem_columnDates hday
      exact ⟨_, .inferred hread, by rw [hnext]; rfl⟩
    next =>
      split
      next day hfilename =>
        obtain ⟨token, _, hread⟩ := Option.bind_eq_some_iff.mp hfilename
        have hwinner : winner day [] = day := List.mem_singleton.mp (winner_mem day [])
        exact ⟨winner day [], hwinner.symm ▸ .read hread, rfl⟩
      next =>
        have hwinner := List.mem_singleton.mp (winner_mem (calendar.previousBusinessDay today) [])
        exact ⟨winner (calendar.previousBusinessDay today) [], hwinner.symm ▸ .arrival, rfl⟩

/-- A day of the second year or later, and of the calendar. -/
def Present (today : Day) : Prop := ∃ date : Civil.Date, 2 ≤ date.year ∧ date.ordinal = today

theorem Present.bounds (h : Present today) :
    365 < today ∧ today ≤ Civil.daysBeforeYear 10000 := by
  obtain ⟨date, hyear, rfl⟩ := h
  have hlow := Civil.daysBeforeYear_mono hyear
  have hhigh := Civil.daysBeforeYear_mono (Nat.succ_le_succ date.year_le)
  exact ⟨lt_of_le_of_lt hlow date.after_year, date.in_year.trans hhigh⟩

theorem Source.bounds {source : Day} (h : Source runtime calendar today source)
    (hpresent : Present today) : 31 ≤ source ∧ source ≤ Civil.daysBeforeYear 10000 := by
  have hspan : (365 : Int) < Civil.daysBeforeYear 1990 ∧
      Civil.daysBeforeYear 2101 + 30 ≤ Civil.daysBeforeYear 10000 := by decide
  obtain ⟨hlow, hhigh⟩ := hspan
  cases h with
  | read hread =>
      obtain ⟨hafter, hbefore⟩ := bounds_of_parseDate hread
      dsimp only [Day] at *
      omega
  | @inferred text day hread =>
      obtain ⟨hafter, hbefore⟩ := bounds_of_parseDate hread
      have hforward : day ≤ calendar.addBusinessDays day 1 := calendar.le_seek_forward _ day
      have hnear : calendar.addBusinessDays day 1 ≤ day + (30 : Nat) :=
        calendar.seek_forward_le_add 30 day
      dsimp only [Day] at *
      omega
  | arrival =>
      obtain ⟨hafter, hbefore⟩ := hpresent.bounds
      have hback : calendar.previousBusinessDay today ≤ today := calendar.seek_back_le _ today
      have hnear : today - (30 : Nat) ≤ calendar.previousBusinessDay today :=
        calendar.sub_le_seek_back 30 today
      dsimp only [Day] at *
      omega

/-- The resolved day is a date. -/
theorem resolved_date (hpresent : Present today) : ∃ date : Civil.Date,
    (resolve runtime headers rows filename today calendar hints).resolved = some date.ordinal := by
  obtain ⟨source, hsource, hresolved⟩ :=
    @resolve_source runtime rows headers hints filename today calendar
  obtain ⟨hlow, hhigh⟩ := hsource.bounds hpresent
  obtain ⟨hnear, hback⟩ := calendar.roll_bounds source
  dsimp only [Day] at *
  obtain ⟨date, _, hdate⟩ := Civil.exists_date (calendar.roll source) (by omega) (by omega)
  exact ⟨date, by rw [hresolved, hdate]⟩

end Harbormaster.Inspector
