import Harbormaster.BusinessDays
import Harbormaster.Foundation.Dict
import Harbormaster.Foundation.Fallible
import Harbormaster.Inspector.Text
import Mathlib.Data.List.TakeWhile
import Mathlib.Tactic.IntervalCases

/-! # The calendar in both languages

Both languages read a market's calendar from the same file and step through it
on their own: they number the weekdays differently, one keys the holidays by
their text and the other by their date, and each has its own loops. Either one
represents the calendar that the file describes, so they give the same answers.
-/

namespace Harbormaster

/-! ## The file -/

structure HolidayEntry where
  date : Option String
  name : Option String := none
deriving DecidableEq, Repr

/-- The values of one calendar file. An absent list is the empty one. -/
structure CalendarFile where
  calendarId : Option String
  weekend : List String := []
  holidays : List HolidayEntry := []
deriving DecidableEq, Repr

/-- Why a loader refuses a file. -/
inductive CalendarError where
  | calendarIdRequired
  | unknownWeekendDay (name : String)
  | badHoliday (date : Option String)
deriving DecidableEq, Repr

/-! ## `go/internal/registry` -/

/-- `unicode.IsSpace`. -/
def unicodeIsSpace (c : Char) : Bool :=
  (9 ≤ c.toNat && c.toNat ≤ 13) || c.toNat = 32 || (8192 ≤ c.toNat && c.toNat ≤ 8202) ||
    [0x85, 0xA0, 0x1680, 0x2028, 0x2029, 0x202F, 0x205F, 0x3000].contains c.toNat

/-- `strings.TrimSpace`. -/
def trimSpace (text : List Char) : List Char :=
  ((text.dropWhile unicodeIsSpace).reverse.dropWhile unicodeIsSpace).reverse

/-- `strings.ToUpper` of the trimmed name, letter by letter. -/
def upperName (toUpper : Char → Char) (name : String) : String :=
  String.ofList ((trimSpace name.toList).map toUpper)

/-- The number of a weekday, from `time.Sunday`, which is 0. -/
def weekdayByName (toUpper : Char → Char) (name : String) : Option Nat :=
  match upperName toUpper name with
  | "SUNDAY" => some 0
  | "MONDAY" => some 1
  | "TUESDAY" => some 2
  | "WEDNESDAY" => some 3
  | "THURSDAY" => some 4
  | "FRIDAY" => some 5
  | "SATURDAY" => some 6
  | _ => none

/-- `Calendar` of `go/internal/registry`, whose holidays are keyed by their text. -/
structure GoCalendar where
  calendarId : String
  weekendDays : List Nat
  holidaySet : Ordered.Dict String String
deriving DecidableEq

namespace GoCalendar

/-- The text of a holiday that `time.Parse` accepts. -/
def holidayText (h : HolidayEntry) : Option String :=
  (Civil.parseIso (h.date.getD "")).map fun _ => h.date.getD ""

/-- One round of `loadCalendars`. -/
def load (toUpper : Char → Char) (file : CalendarFile) : Except CalendarError GoCalendar :=
  let calendarId := file.calendarId.getD ""
  if calendarId = "" then .error .calendarIdRequired
  else do
    let weekendDays ← file.weekend.mapM fun name =>
      Fallible.require (.unknownWeekendDay name) (weekdayByName toUpper name)
    let holidays ← file.holidays.mapM fun h =>
      Fallible.require (.badHoliday h.date) ((holidayText h).map fun text => (text, h.name.getD ""))
    .ok { calendarId, weekendDays, holidaySet := .ofPairs holidays }

/-- `time.Time.Weekday`. -/
def weekday (day : Day) : Nat := (day % 7).toNat

/-- `Format("2006-01-02")`, for the years of four digits. The text of any other
day is longer, and no holiday is written so. -/
def format (day : Day) : Option String := (Civil.ofOrdinal? day).map Civil.Date.isoformat

variable (calendar : GoCalendar)

def isBusinessDay (day : Day) : Bool :=
  if calendar.weekendDays.contains (weekday day) then false
  else !(format day).any fun text => (calendar.holidaySet.get? text).isSome

/-- The loop of `PreviousBusinessDay` and of `NextBusinessDay`. -/
def seek (step : Int) : Nat → Day → Day
  | 0, day => day
  | fuel + 1, day =>
      let day := day + step
      if calendar.isBusinessDay day then day else seek step fuel day

def previousBusinessDay (day : Day) : Day := calendar.seek (-1) 30 day

def nextBusinessDay (day : Day) : Day := calendar.seek 1 30 day

/-- The count is a machine integer, whose least value is its own negation. -/
def addBusinessDays (day : Day) (count : Int64) : Day :=
  if count = 0 then day
  else if count < 0 then Nat.iterate calendar.previousBusinessDay (-count).toInt.toNat day
  else Nat.iterate calendar.nextBusinessDay count.toInt.toNat day

end GoCalendar

/-! ## `inspector/registry.py` -/

/-- The days that the language has a date for. -/
def minDay : Day := 1
def maxDay : Day := 3652059

/-- A day, where the language has a date for it; otherwise `OverflowError`. -/
def inRange (day : Day) : Option Day := if minDay ≤ day ∧ day ≤ maxDay then some day else none

theorem inRange_eq_some {day result : Day} :
    inRange day = some result ↔ (minDay ≤ day ∧ day ≤ maxDay) ∧ day = result := by
  unfold inRange
  split
  next h => rw [Option.some_inj, and_iff_right h]
  next h => simp [h]

/-- The Monday of the week that January 4th lies in. -/
def isoWeekOne (year : Nat) : Day :=
  let fourth := Civil.daysBeforeYear year + 4
  fourth - (fourth + 6) % 7

/-- The day of an ISO week date. -/
def isoWeekDay (year week day : List Char) : Option Day := do
  let year ← Civil.number? 0 year
  let week ← Civil.number? 0 week
  let day ← Civil.number? 0 day
  let monday := isoWeekOne year + 7 * ((week : Int) - 1)
  if 1 ≤ year ∧ 1 ≤ week ∧ monday < isoWeekOne (year + 1) ∧ 1 ≤ day ∧ day ≤ 7 then
    inRange (monday + ((day : Int) - 1))
  else none

/-- The day of a date without separators. -/
def basicDay (year month day : List Char) : Option Day := do
  let year ← Civil.number? 0 year
  let month ← Civil.number? 0 month
  let day ← Civil.number? 0 day
  inRange (← Civil.Date.of? year month day).ordinal

/-- `date.fromisoformat`: a date with or without separators, or a week date. -/
def fromisoformat (text : String) : Option Day :=
  match Civil.parseIso text with
  | some date => inRange date.ordinal
  | none =>
      match text.toList with
      | [y₁, y₂, y₃, y₄, '-', 'W', w₁, w₂, '-', d] => isoWeekDay [y₁, y₂, y₃, y₄] [w₁, w₂] [d]
      | [y₁, y₂, y₃, y₄, '-', 'W', w₁, w₂] => isoWeekDay [y₁, y₂, y₃, y₄] [w₁, w₂] ['1']
      | [y₁, y₂, y₃, y₄, 'W', w₁, w₂, d] => isoWeekDay [y₁, y₂, y₃, y₄] [w₁, w₂] [d]
      | [y₁, y₂, y₃, y₄, 'W', w₁, w₂] => isoWeekDay [y₁, y₂, y₃, y₄] [w₁, w₂] ['1']
      | [y₁, y₂, y₃, y₄, m₁, m₂, d₁, d₂] => basicDay [y₁, y₂, y₃, y₄] [m₁, m₂] [d₁, d₂]
      | _ => none

theorem fromisoformat_of_parseIso {text : String} {date : Civil.Date}
    (h : Civil.parseIso text = some date) : fromisoformat text = inRange date.ordinal := by
  unfold fromisoformat
  rw [h]

/-- `_WEEKDAYS`. -/
def weekdays : List (String × Nat) :=
  [("MONDAY", 0), ("TUESDAY", 1), ("WEDNESDAY", 2), ("THURSDAY", 3), ("FRIDAY", 4),
    ("SATURDAY", 5), ("SUNDAY", 6)]

/-- `Calendar` of `inspector/registry.py`, whose holidays are keyed by their date. -/
structure PythonCalendar where
  calendarId : String
  weekend : List Nat
  holidays : Ordered.Dict Day String
deriving DecidableEq

namespace PythonCalendar

open Inspector

/-- `_WEEKDAYS.get(name.strip().upper())`. -/
def weekdayNumber (runtime : Runtime) (name : String) : Option Nat :=
  weekdays.lookup (String.ofList (runtime.upper (stripChars name.toList)))

/-- The day of a holiday. An entry without a date is a `KeyError`. -/
def holidayDay (h : HolidayEntry) : Option Day := h.date.bind fromisoformat

/-- One round of `_load_calendars`. -/
def load (runtime : Runtime) (file : CalendarFile) : Except CalendarError PythonCalendar := do
  let weekend ← file.weekend.mapM fun name =>
    Fallible.require (.unknownWeekendDay name) (weekdayNumber runtime name)
  let holidays ← file.holidays.mapM fun h =>
    Fallible.require (.badHoliday h.date) ((holidayDay h).map fun day => (day, h.name.getD ""))
  let calendarId ← Fallible.require .calendarIdRequired file.calendarId
  .ok { calendarId, weekend, holidays := .ofPairs holidays }

/-- `date.weekday`. -/
def weekday (day : Day) : Nat := ((day + 6) % 7).toNat

variable (calendar : PythonCalendar)

def isBusinessDay (day : Day) : Bool :=
  !calendar.weekend.contains (weekday day) && !(calendar.holidays.get? day).isSome

/-- The loop of `previous_business_day` and of `next_business_day`. -/
def seek (step : Int) : Nat → Day → Option Day
  | 0, day => some day
  | fuel + 1, day => do
      let day ← inRange (day + step)
      if calendar.isBusinessDay day then some day else seek step fuel day

def previousBusinessDay (day : Day) : Option Day := calendar.seek (-1) Calendar.maxCalendarStepDays day

def nextBusinessDay (day : Day) : Option Day := calendar.seek 1 Calendar.maxCalendarStepDays day

/-- Take a step so many times. -/
def repeated (step : Day → Option Day) : Nat → Day → Option Day
  | 0, day => some day
  | count + 1, day => step day >>= repeated step count

def addBusinessDays (day : Day) (count : Int) : Option Day :=
  if count = 0 then some day
  else repeated (if 0 < count then calendar.nextBusinessDay else calendar.previousBusinessDay)
    count.natAbs day

end PythonCalendar

/-! ## The calendar a file describes -/

namespace Weekday

def ofName? : String → Option Weekday
  | "MONDAY" => some .monday
  | "TUESDAY" => some .tuesday
  | "WEDNESDAY" => some .wednesday
  | "THURSDAY" => some .thursday
  | "FRIDAY" => some .friday
  | "SATURDAY" => some .saturday
  | "SUNDAY" => some .sunday
  | _ => none

/-- The number of a weekday in a week that starts on Monday. -/
def fromMonday : Weekday → Nat
  | .monday => 0
  | .tuesday => 1
  | .wednesday => 2
  | .thursday => 3
  | .friday => 4
  | .saturday => 5
  | .sunday => 6

/-- The number of a weekday in a week that starts on Sunday. -/
def fromSunday (weekday : Weekday) : Nat := (weekday.fromMonday + 1) % 7

theorem fromMonday_injective : Function.Injective fromMonday := by
  intro weekday other
  cases weekday <;> cases other <;> decide

theorem fromSunday_injective : Function.Injective fromSunday := by
  intro weekday other
  cases weekday <;> cases other <;> decide

end Weekday

theorem weekdayByName_eq (toUpper : Char → Char) (name : String) :
    weekdayByName toUpper name =
      (Weekday.ofName? (upperName toUpper name)).map Weekday.fromSunday := by
  unfold weekdayByName Weekday.ofName?
  generalize upperName toUpper name = text
  split <;> first | rfl | skip
  next =>
    split <;> first | rfl | contradiction

theorem lookup_weekdays (text : String) :
    weekdays.lookup text = (Weekday.ofName? text).map Weekday.fromMonday := by
  unfold Weekday.ofName?
  split
  iterate 7 next => rfl
  next hmon htue hwed hthu hfri hsat hsun =>
    refine List.lookup_eq_none_iff.mpr ?_
    simp only [weekdays, List.forall_mem_cons, bne_iff_ne, ne_eq]
    exact ⟨hmon, htue, hwed, hthu, hfri, hsat, hsun, fun pair hpair => absurd hpair List.not_mem_nil⟩

theorem GoCalendar.weekday_eq (day : Day) : weekday day = day.weekday.fromSunday := by
  have hbound : ∀ day : Int, (day % 7).toNat < 7 := by omega
  unfold weekday Day.weekday
  have hlt := hbound day
  generalize (day % 7).toNat = number at hlt
  interval_cases number <;> rfl

theorem PythonCalendar.weekday_eq (day : Day) : weekday day = day.weekday.fromMonday := by
  have hshift : ∀ day : Int, ((day + 6) % 7).toNat = ((day % 7).toNat + 6) % 7 := by omega
  have hbound : ∀ day : Int, (day % 7).toNat < 7 := by omega
  unfold weekday Day.weekday
  rw [hshift day]
  have hlt := hbound day
  generalize (day % 7).toNat = number at hlt
  interval_cases number <;> rfl

/-- The calendar that a file describes: the weekdays its names stand for, and
the dates of its holidays. -/
def CalendarFile.calendar (toUpper : Char → Char) (file : CalendarFile) : Calendar where
  calendarId := file.calendarId.getD ""
  weekend := file.weekend.filterMap fun name => Weekday.ofName? (upperName toUpper name)
  holidays := file.holidays.filterMap fun h =>
    (Civil.parseIso (h.date.getD "")).map fun date => (date.ordinal, h.name.getD "")

theorem CalendarFile.isBusinessDay_iff {toUpper : Char → Char} {file : CalendarFile} {day : Day} :
    (file.calendar toUpper).isBusinessDay day = true ↔
      (¬ ∃ name ∈ file.weekend, Weekday.ofName? (upperName toUpper name) = some day.weekday) ∧
      ¬ ∃ h ∈ file.holidays, (Civil.parseIso (h.date.getD "")).map Civil.Date.ordinal = some day := by
  unfold Calendar.isBusinessDay calendar
  rw [Bool.and_eq_true, Bool.not_eq_true', Bool.not_eq_true', ← Bool.not_eq_true,
    ← Bool.not_eq_true, List.contains_iff_mem, List.mem_filterMap, List.any_eq_true]
  refine and_congr Iff.rfl (not_congr ?_)
  constructor
  · rintro ⟨entry, hentry, hday⟩
    obtain ⟨h, hmem, hmap⟩ := List.mem_filterMap.mp hentry
    obtain ⟨date, hparse, rfl⟩ := Option.map_eq_some_iff.mp hmap
    refine ⟨h, hmem, ?_⟩
    rw [hparse]
    exact congrArg some (of_decide_eq_true hday)
  · rintro ⟨h, hmem, hmap⟩
    obtain ⟨date, hparse, hday⟩ := Option.map_eq_some_iff.mp hmap
    refine ⟨(date.ordinal, h.name.getD ""), List.mem_filterMap.mpr ⟨h, hmem, ?_⟩,
      decide_eq_true hday⟩
    rw [hparse]
    rfl

/-! ## What the loaders read -/

theorem GoCalendar.load_eq_ok {toUpper : Char → Char} {file : CalendarFile}
    {calendar : GoCalendar} (h : load toUpper file = .ok calendar) :
    calendar.weekendDays = file.weekend.filterMap (weekdayByName toUpper) ∧
    (∀ name ∈ file.weekend, (weekdayByName toUpper name).isSome) ∧
    (∀ text, (calendar.holidaySet.get? text).isSome ↔
      ∃ h ∈ file.holidays, holidayText h = some text) ∧
    ∀ h ∈ file.holidays, (holidayText h).isSome := by
  unfold load at h
  dsimp only at h
  split at h
  next => cases h
  next =>
    obtain ⟨weekendDays, hweekend, h⟩ := Fallible.bind_eq_ok.mp h
    obtain ⟨holidays, hholidays, h⟩ := Fallible.bind_eq_ok.mp h
    cases h
    obtain ⟨hdays, hnamed⟩ := Fallible.mapM_require hweekend
    obtain ⟨rfl, hparsed⟩ := Fallible.mapM_require hholidays
    simp only [Option.isSome_map] at hparsed
    exact ⟨hdays, hnamed, fun text => Ordered.Dict.isSome_get?_ofPairs, hparsed⟩

theorem PythonCalendar.load_eq_ok {runtime : Inspector.Runtime} {file : CalendarFile}
    {calendar : PythonCalendar} (h : load runtime file = .ok calendar) :
    calendar.weekend = file.weekend.filterMap (weekdayNumber runtime) ∧
    (∀ name ∈ file.weekend, (weekdayNumber runtime name).isSome) ∧
    (∀ day, (calendar.holidays.get? day).isSome ↔
      ∃ h ∈ file.holidays, holidayDay h = some day) ∧
    ∀ h ∈ file.holidays, (holidayDay h).isSome := by
  unfold load at h
  obtain ⟨weekend, hweekend, h⟩ := Fallible.bind_eq_ok.mp h
  obtain ⟨holidays, hholidays, h⟩ := Fallible.bind_eq_ok.mp h
  obtain ⟨calendarId, _, h⟩ := Fallible.bind_eq_ok.mp h
  cases h
  obtain ⟨hdays, hnamed⟩ := Fallible.mapM_require hweekend
  obtain ⟨rfl, hparsed⟩ := Fallible.mapM_require hholidays
  simp only [Option.isSome_map] at hparsed
  exact ⟨hdays, hnamed, fun day => Ordered.Dict.isSome_get?_ofPairs, hparsed⟩

/-! ## Names -/

/-- How the upper case of both languages and the white space of `strip` agree on
the letters whose upper case is in the Latin alphabet. -/
structure CasingAgrees (runtime : Inspector.Runtime) (toUpper : Char → Char) : Prop where
  upper_eq : ∀ text : List Char, (∀ c ∈ text, (toUpper c).isUpper = true) →
    runtime.upper text = text.map toUpper
  not_space : ∀ c, (toUpper c).isUpper = true → Inspector.isspace c = false

theorem Weekday.ofName?_isUpper {text : String} {weekday : Weekday}
    (h : ofName? text = some weekday) :
    text.toList ≠ [] ∧ ∀ c ∈ text.toList, c.isUpper = true := by
  unfold ofName? at h
  split at h
  iterate 7 next => simp
  next => cases h

theorem isspace_of_unicodeIsSpace {c : Char} (h : unicodeIsSpace c = true) :
    Inspector.isspace c = true := by
  unfold unicodeIsSpace at h
  unfold Inspector.isspace
  simp only [Bool.or_eq_true, Bool.and_eq_true, decide_eq_true_eq] at h ⊢
  rcases h with ((hlow | hspace) | hhigh) | hother
  · exact .inl (.inl (.inl hlow))
  · exact .inl (.inl (.inr (by omega)))
  · exact .inl (.inr hhigh)
  · exact .inr hother

/-- What precedes the first letter is dropped. -/
theorem dropWhile_space {p : Char → Bool} {space core : List Char} (rest : List Char)
    (hne : core ≠ [])
    (hspace : ∀ c ∈ space, p c = true) (hcore : ∀ c ∈ core, p c = false) :
    (space ++ (core ++ rest)).dropWhile p = core ++ rest := by
  rw [List.dropWhile_append_of_pos hspace]
  obtain ⟨c, tail, rfl⟩ := List.exists_cons_of_ne_nil hne
  rw [List.cons_append, List.dropWhile_cons_of_neg]
  rw [hcore c List.mem_cons_self]
  exact Bool.false_ne_true

/-- The white space on both sides that trimming removes. -/
theorem eq_append_trimSpace (text : List Char) :
    ∃ before after, text = before ++ (trimSpace text ++ after) ∧
      (∀ c ∈ before, unicodeIsSpace c = true) ∧ ∀ c ∈ after, unicodeIsSpace c = true := by
  refine ⟨text.takeWhile unicodeIsSpace,
    ((text.dropWhile unicodeIsSpace).reverse.takeWhile unicodeIsSpace).reverse, ?_,
    fun c => List.mem_takeWhile_imp, fun c hc => List.mem_takeWhile_imp (List.mem_reverse.mp hc)⟩
  unfold trimSpace
  rw [← List.reverse_append, List.takeWhile_append_dropWhile, List.reverse_reverse,
    List.takeWhile_append_dropWhile]

/-- `strip` removes what `TrimSpace` removes, where a text with no white space
of its own is left. -/
theorem stripChars_eq_trimSpace {text : List Char} (hne : trimSpace text ≠ [])
    (hcore : ∀ c ∈ trimSpace text, Inspector.isspace c = false) :
    Inspector.stripChars text = trimSpace text := by
  obtain ⟨before, after, htext, hbefore, hafter⟩ := eq_append_trimSpace text
  generalize trimSpace text = core at htext hne hcore ⊢
  subst htext
  unfold Inspector.stripChars
  rw [dropWhile_space _ hne (fun c hc => isspace_of_unicodeIsSpace (hbefore c hc)) hcore,
    List.reverse_append]
  have hspace : ∀ c ∈ after.reverse, Inspector.isspace c = true :=
    fun c hc => isspace_of_unicodeIsSpace (hafter c (List.mem_reverse.mp hc))
  have hreverse := dropWhile_space [] (List.reverse_ne_nil_iff.mpr hne) hspace
    fun c hc => hcore c (List.mem_reverse.mp hc)
  rw [List.append_nil] at hreverse
  rw [hreverse, List.reverse_reverse]

/-- A weekday that Go knows by a name has the same name in Python. -/
theorem weekdayNumber_eq {runtime : Inspector.Runtime} {toUpper : Char → Char}
    (hcasing : CasingAgrees runtime toUpper) {name : String} {weekday : Weekday}
    (h : Weekday.ofName? (upperName toUpper name) = some weekday) :
    PythonCalendar.weekdayNumber runtime name = some weekday.fromMonday := by
  obtain ⟨hne, hupper⟩ := Weekday.ofName?_isUpper h
  unfold upperName at hne hupper
  rw [String.toList_ofList] at hne hupper
  have hletters : ∀ c ∈ trimSpace name.toList, (toUpper c).isUpper = true :=
    fun c hc => hupper (toUpper c) (List.mem_map_of_mem hc)
  have hstrip := stripChars_eq_trimSpace (fun hnil => hne (by rw [hnil]; rfl))
    fun c hc => hcasing.not_space c (hletters c hc)
  unfold PythonCalendar.weekdayNumber
  rw [hstrip, hcasing.upper_eq _ hletters, lookup_weekdays]
  change (Weekday.ofName? (upperName toUpper name)).map _ = _
  rw [h]
  rfl

/-! ## Both represent the calendar of the file -/

theorem GoCalendar.format_eq_some {day : Day} {text : String} :
    format day = some text ↔ ∃ date : Civil.Date, date.ordinal = day ∧ date.isoformat = text := by
  unfold format
  rw [Option.map_eq_some_iff]
  constructor
  · rintro ⟨date, hdate, htext⟩
    exact ⟨date, Civil.ordinal_of_ofOrdinal? hdate, htext⟩
  · rintro ⟨date, rfl, htext⟩
    exact ⟨date, Civil.ofOrdinal?_ordinal date, htext⟩

theorem GoCalendar.isBusinessDay_eq {toUpper : Char → Char} {file : CalendarFile}
    {calendar : GoCalendar} (h : load toUpper file = .ok calendar) (day : Day) :
    calendar.isBusinessDay day = (file.calendar toUpper).isBusinessDay day := by
  obtain ⟨hweekend, _, hholidays, _⟩ := load_eq_ok h
  have hclosed : weekday day ∈ calendar.weekendDays ↔
      ∃ name ∈ file.weekend, Weekday.ofName? (upperName toUpper name) = some day.weekday := by
    rw [hweekend, List.mem_filterMap, weekday_eq]
    refine exists_congr fun name => and_congr_right fun _ => ?_
    rw [weekdayByName_eq, Option.map_eq_some_iff]
    simp only [Weekday.fromSunday_injective.eq_iff, exists_eq_right]
  have hholiday : (format day).any (fun text => (calendar.holidaySet.get? text).isSome) = true ↔
      ∃ h ∈ file.holidays,
        (Civil.parseIso (h.date.getD "")).map Civil.Date.ordinal = some day := by
    rw [Option.any_eq_true]
    constructor
    · rintro ⟨text, hformat, hset⟩
      obtain ⟨date, rfl, rfl⟩ := format_eq_some.mp hformat
      obtain ⟨entry, hentry, htext⟩ := (hholidays _).mp hset
      obtain ⟨_, _, htext⟩ := Option.map_eq_some_iff.mp htext
      refine ⟨entry, hentry, ?_⟩
      rw [htext, Civil.parseIso_isoformat]
      rfl
    · rintro ⟨entry, hentry, hday⟩
      obtain ⟨date, hparse, hday⟩ := Option.map_eq_some_iff.mp hday
      refine ⟨date.isoformat, format_eq_some.mpr ⟨date, hday, rfl⟩, ?_⟩
      refine (hholidays _).mpr ⟨entry, hentry, ?_⟩
      unfold holidayText
      rw [hparse, Civil.isoformat_of_parseIso hparse]
      rfl
  rw [Bool.eq_iff_iff, CalendarFile.isBusinessDay_iff, ← hclosed, ← hholiday]
  unfold isBusinessDay
  by_cases hweekday : weekday day ∈ calendar.weekendDays
  · rw [if_pos (List.contains_iff_mem.mpr hweekday)]
    exact ⟨fun hopen => absurd hopen Bool.false_ne_true, fun hopen => absurd hweekday hopen.1⟩
  · rw [if_neg (List.contains_iff_mem.not.mpr hweekday), Bool.not_eq_true', ← Bool.not_eq_true]
    exact ⟨fun hopen => ⟨hweekday, hopen⟩, fun hopen => hopen.2⟩

theorem PythonCalendar.isBusinessDay_eq {runtime : Inspector.Runtime} {toUpper : Char → Char}
    (hcasing : CasingAgrees runtime toUpper) {file : CalendarFile} {calendar : PythonCalendar}
    {go : GoCalendar} (h : load runtime file = .ok calendar)
    (hgo : GoCalendar.load toUpper file = .ok go) (day : Day) :
    calendar.isBusinessDay day = (file.calendar toUpper).isBusinessDay day := by
  obtain ⟨hweekend, _, hholidays, hdates⟩ := load_eq_ok h
  obtain ⟨_, hnamed, _, hparsed⟩ := GoCalendar.load_eq_ok hgo
  have hclosed : weekday day ∈ calendar.weekend ↔
      ∃ name ∈ file.weekend, Weekday.ofName? (upperName toUpper name) = some day.weekday := by
    rw [hweekend, List.mem_filterMap, weekday_eq]
    refine exists_congr fun name => and_congr_right fun hname => ?_
    have hgoname := hnamed name hname
    rw [weekdayByName_eq, Option.isSome_map] at hgoname
    obtain ⟨named, hofName⟩ := Option.isSome_iff_exists.mp hgoname
    rw [weekdayNumber_eq hcasing hofName, hofName, Option.some_inj, Option.some_inj,
      Weekday.fromMonday_injective.eq_iff]
  have hholiday : (calendar.holidays.get? day).isSome = true ↔
      ∃ h ∈ file.holidays,
        (Civil.parseIso (h.date.getD "")).map Civil.Date.ordinal = some day := by
    rw [hholidays]
    refine exists_congr fun entry => and_congr_right fun hentry => ?_
    have hdate := hdates entry hentry
    have htext := hparsed entry hentry
    unfold GoCalendar.holidayText at htext
    rw [Option.isSome_map] at htext
    obtain ⟨date, hparse⟩ := Option.isSome_iff_exists.mp htext
    unfold holidayDay at hdate ⊢
    cases hentrydate : entry.date with
    | none =>
        rw [hentrydate] at hdate
        cases hdate
    | some text =>
        rw [hentrydate] at hdate hparse
        rw [Option.getD_some] at hparse ⊢
        rw [Option.bind_some, fromisoformat_of_parseIso hparse] at hdate ⊢
        obtain ⟨day', hday⟩ := Option.isSome_iff_exists.mp hdate
        rw [hparse, hday, ← (inRange_eq_some.mp hday).2]
        rfl
  rw [Bool.eq_iff_iff, CalendarFile.isBusinessDay_iff, ← hclosed, ← hholiday]
  unfold isBusinessDay
  rw [Bool.and_eq_true, Bool.not_eq_true', Bool.not_eq_true', ← Bool.not_eq_true,
    ← Bool.not_eq_true, List.contains_iff_mem]

/-! ## The loops -/

namespace GoCalendar

variable {toUpper : Char → Char} {file : CalendarFile} {calendar : GoCalendar}

theorem seek_eq (h : load toUpper file = .ok calendar) (step : Int) (fuel : Nat) (day : Day) :
    calendar.seek step fuel day = (file.calendar toUpper).seek step fuel day := by
  induction fuel generalizing day with
  | zero => rfl
  | succ fuel ih =>
      unfold seek Calendar.seek
      dsimp only
      rw [isBusinessDay_eq h, ih]

theorem previousBusinessDay_eq (h : load toUpper file = .ok calendar) :
    calendar.previousBusinessDay = (file.calendar toUpper).previousBusinessDay :=
  funext fun day => seek_eq h (-1) 30 day

theorem nextBusinessDay_eq (h : load toUpper file = .ok calendar) :
    calendar.nextBusinessDay = (file.calendar toUpper).nextBusinessDay :=
  funext fun day => seek_eq h 1 30 day

/-- The least count, which negation leaves as it is, is the only one that moves
by another number of business days. -/
theorem addBusinessDays_eq (h : load toUpper file = .ok calendar) (day : Day) {count : Int64}
    (hcount : -2 ^ 63 < count.toInt) :
    calendar.addBusinessDays day count =
      (file.calendar toUpper).addBusinessDays day count.toInt := by
  have hlow : count = 0 ↔ count.toInt = 0 := Int64.toInt_inj.symm
  have hsign : count < 0 ↔ count.toInt < 0 := Int64.lt_iff_toInt_lt
  have hneg : (-count).toInt = -count.toInt := by
    have hlt := count.toInt_lt
    rw [Int64.toInt_neg]
    exact Int.bmod_eq_of_le (by omega) (by omega)
  unfold addBusinessDays Calendar.addBusinessDays
  rw [previousBusinessDay_eq h, nextBusinessDay_eq h, hneg]
  simp only [hlow, hsign]
  generalize count.toInt = number
  split
  next hzero =>
    rw [hzero]
    rfl
  next =>
    split
    next hback =>
      have hsteps : (-number).toNat = number.natAbs := by omega
      rw [hsteps]
    next => rfl

end GoCalendar

namespace PythonCalendar

variable {calendar : PythonCalendar} {described : Calendar}

theorem seek_eq (h : ∀ day, calendar.isBusinessDay day = described.isBusinessDay day) {step : Int}
    {fuel : Nat} {day result : Day} (hseek : calendar.seek step fuel day = some result) :
    described.seek step fuel day = result := by
  induction fuel generalizing day with
  | zero => exact Option.some.inj hseek
  | succ fuel ih =>
      unfold seek at hseek
      obtain ⟨moved, hmoved, hrest⟩ := Option.bind_eq_some_iff.mp hseek
      obtain ⟨_, rfl⟩ := inRange_eq_some.mp hmoved
      unfold Calendar.seek
      rw [h] at hrest
      split at hrest
      next hopen =>
        rw [if_pos hopen]
        exact Option.some.inj hrest
      next hclosed =>
        rw [if_neg hclosed]
        exact ih hrest

theorem minDay_le_seek {step : Int} {fuel : Nat} {day result : Day} (hday : minDay ≤ day)
    (hseek : calendar.seek step fuel day = some result) : minDay ≤ result := by
  induction fuel generalizing day with
  | zero => exact hday.trans_eq (Option.some.inj hseek)
  | succ fuel ih =>
      unfold seek at hseek
      obtain ⟨moved, hmoved, hrest⟩ := Option.bind_eq_some_iff.mp hseek
      obtain ⟨⟨hmin, _⟩, rfl⟩ := inRange_eq_some.mp hmoved
      split at hrest
      next => exact hmin.trans_eq (Option.some.inj hrest)
      next => exact ih hmin hrest

theorem repeated_eq {step : Day → Option Day} {described : Day → Day}
    (h : ∀ day result, step day = some result → described day = result) {count : Nat}
    {day result : Day} (hrepeated : repeated step count day = some result) :
    described^[count] day = result := by
  induction count generalizing day with
  | zero => exact Option.some.inj hrepeated
  | succ count ih =>
      obtain ⟨moved, hmoved, hrest⟩ := Option.bind_eq_some_iff.mp hrepeated
      rw [Function.iterate_succ_apply, h day moved hmoved]
      exact ih hrest

theorem minDay_le_repeated {step : Day → Option Day}
    (h : ∀ day result, minDay ≤ day → step day = some result → minDay ≤ result) {count : Nat}
    {day result : Day} (hday : minDay ≤ day) (hrepeated : repeated step count day = some result) :
    minDay ≤ result := by
  induction count generalizing day with
  | zero => exact hday.trans_eq (Option.some.inj hrepeated)
  | succ count ih =>
      obtain ⟨moved, hmoved, hrest⟩ := Option.bind_eq_some_iff.mp hrepeated
      exact ih (h day moved hday hmoved) hrest

theorem addBusinessDays_eq (h : ∀ day, calendar.isBusinessDay day = described.isBusinessDay day)
    {day : Day} {count : Int} {result : Day}
    (hmove : calendar.addBusinessDays day count = some result) :
    described.addBusinessDays day count = result := by
  unfold addBusinessDays at hmove
  unfold Calendar.addBusinessDays
  split at hmove
  next hzero =>
    rw [hzero]
    exact Option.some.inj hmove
  next hzero =>
    split at hmove
    next hpos =>
      rw [if_neg (not_lt.mpr hpos.le)]
      rw [← Int.toNat_of_nonneg hpos.le, Int.natAbs_natCast] at hmove
      exact repeated_eq (fun _ _ => seek_eq h) hmove
    next hneg =>
      rw [if_pos (lt_of_le_of_ne (not_lt.mp hneg) hzero)]
      exact repeated_eq (fun _ _ => seek_eq h) hmove

theorem minDay_le_addBusinessDays {day : Day} {count : Int} {result : Day} (hday : minDay ≤ day)
    (hmove : calendar.addBusinessDays day count = some result) : minDay ≤ result := by
  unfold addBusinessDays at hmove
  split at hmove
  next => exact hday.trans_eq (Option.some.inj hmove)
  next =>
    refine minDay_le_repeated (fun day result hday hstep => ?_) hday hmove
    split at hstep
    next => exact minDay_le_seek hday hstep
    next => exact minDay_le_seek hday hstep

end PythonCalendar

/-- So many business days back are at least so many days back. -/
theorem Calendar.addBusinessDays_neg_le_sub (calendar : Calendar) (day : Day) (count : Nat) :
    calendar.addBusinessDays day (-count) ≤ day - count := by
  rw [addBusinessDays_neg_natCast]
  induction count generalizing day with
  | zero => exact (sub_zero day).ge
  | succ count ih =>
      have hstep := calendar.previousBusinessDay_lt day
      have hrest := ih (calendar.previousBusinessDay day)
      rw [Function.iterate_succ_apply]
      have hsum : ∀ moved result : Int, moved < day → result ≤ moved - count →
          result ≤ day - (count + 1 : Nat) := by omega
      exact hsum _ _ hstep hrest

/-- On one calendar file that both languages accept, they find the same business
days, and wherever Python stays among its dates, both take the same steps. -/
theorem calendar_parity (runtime : Inspector.Runtime) (toUpper : Char → Char)
    (hcasing : CasingAgrees runtime toUpper) (file : CalendarFile) (go : GoCalendar)
    (python : PythonCalendar) (hgo : GoCalendar.load toUpper file = .ok go)
    (hpython : PythonCalendar.load runtime file = .ok python) (day : Day) (hmin : minDay ≤ day)
    (hmax : day ≤ maxDay) :
    python.isBusinessDay day = go.isBusinessDay day ∧
    (∀ result, python.previousBusinessDay day = some result →
      go.previousBusinessDay day = result) ∧
    (∀ result, python.nextBusinessDay day = some result → go.nextBusinessDay day = result) ∧
    ∀ (count : Int64) (result : Day), python.addBusinessDays day count.toInt = some result →
      go.addBusinessDays day count = result := by
  have hopen := PythonCalendar.isBusinessDay_eq hcasing hpython hgo
  refine ⟨(hopen day).trans (GoCalendar.isBusinessDay_eq hgo day).symm, ?_, ?_, ?_⟩
  · intro result hresult
    rw [GoCalendar.previousBusinessDay_eq hgo]
    exact PythonCalendar.seek_eq hopen hresult
  · intro result hresult
    rw [GoCalendar.nextBusinessDay_eq hgo]
    exact PythonCalendar.seek_eq hopen hresult
  · intro count result hresult
    have hmove := PythonCalendar.addBusinessDays_eq hopen hresult
    rw [GoCalendar.addBusinessDays_eq hgo day ?_, hmove]
    -- the least count leads Python below its first date
    by_contra hleast
    have hcount : count.toInt = -(2 ^ 63 : Nat) := by
      have hlow := count.le_toInt
      omega
    have hfar := (file.calendar toUpper).addBusinessDays_neg_le_sub day (2 ^ 63)
    rw [← hcount, hmove] at hfar
    have hstay := PythonCalendar.minDay_le_addBusinessDays hmin hresult
    have hbounds : ∀ low high day result : Int, low ≤ result → day ≤ high → high - low < 2 ^ 63 →
        ¬ result ≤ day - (2 ^ 63 : Nat) := by omega
    exact hbounds minDay maxDay day result hstay hmax (by decide) hfar

theorem casingAgrees_ascii : CasingAgrees Inspector.Runtime.ascii Char.toUpper where
  upper_eq text _ := rfl
  not_space c h := by
    have hbounds : 65 ≤ c.toNat ∧ c.toNat ≤ 122 := by
      unfold Char.toUpper at h
      split at h
      next hlower =>
        have hlow : 97 ≤ c.toNat := hlower.1
        have hhigh : c.toNat ≤ 122 := hlower.2
        exact ⟨(by decide : 65 ≤ 97).trans hlow, hhigh⟩
      next =>
        unfold Char.isUpper at h
        simp only [decide_eq_true_eq] at h
        have hlow : 65 ≤ c.toNat := h.1
        have hhigh : c.toNat ≤ 90 := h.2
        exact ⟨hlow, hhigh.trans (by decide)⟩
    obtain ⟨hlow, hhigh⟩ := hbounds
    unfold Inspector.isspace
    generalize c.toNat = code at hlow hhigh
    interval_cases code <;> rfl

def sampleCalendarFile : CalendarFile where
  calendarId := some "US_EQUITY"
  weekend := ["saturday", " Sunday "]
  holidays := [{ date := some "2026-09-07", name := some "Labor Day" }]

/-- Two business days back from Tuesday 2026-09-08, over Labor Day. -/
theorem calendar_parity_laborDay :
    ∃ go python, GoCalendar.load Char.toUpper sampleCalendarFile = .ok go ∧
      PythonCalendar.load Inspector.Runtime.ascii sampleCalendarFile = .ok python ∧
      python.isBusinessDay 739866 = go.isBusinessDay 739866 ∧
      go.addBusinessDays 739867 (-2) = 739862 := by
  let go : GoCalendar :=
    { calendarId := "US_EQUITY"
      weekendDays := [6, 0]
      holidaySet := .ofPairs [("2026-09-07", "Labor Day")] }
  let python : PythonCalendar :=
    { calendarId := "US_EQUITY"
      weekend := [5, 6]
      holidays := .ofPairs [(739866, "Labor Day")] }
  have hgo : GoCalendar.load Char.toUpper sampleCalendarFile = .ok go := by decide +kernel
  have hpython : PythonCalendar.load Inspector.Runtime.ascii sampleCalendarFile = .ok python := by
    decide +kernel
  have hfirst := calendar_parity _ _ casingAgrees_ascii sampleCalendarFile go python hgo hpython
    739866 (by decide) (by decide)
  have hsecond := calendar_parity _ _ casingAgrees_ascii sampleCalendarFile go python hgo hpython
    739867 (by decide) (by decide)
  exact ⟨go, python, hgo, hpython, hfirst.1, hsecond.2.2.2 (-2) 739862 (by decide +kernel)⟩

end Harbormaster
