import Mathlib.Data.List.Basic
import Mathlib.Tactic.IntervalCases

/-! # Civil dates

Dates of the proleptic Gregorian calendar up to the year 9999, their position
on the day count in which day 1 is 0001-01-01, and their ISO text
`YYYY-MM-DD`. The text determines the date, and reading a text as a date
succeeds only on the text of that date.
-/

namespace Civil

/-- Leap years of the Gregorian calendar. -/
def isLeap (year : Nat) : Bool :=
  year % 4 = 0 && (year % 100 ≠ 0 || year % 400 = 0)

/-- Days in a month. -/
def daysIn (year month : Nat) : Nat :=
  if month = 2 then if isLeap year then 29 else 28
  else if month = 4 ∨ month = 6 ∨ month = 9 ∨ month = 11 then 30
  else 31

/-- A calendar date. -/
structure Date where
  year : Nat
  month : Nat
  day : Nat
  year_le : year ≤ 9999
  month_valid : 1 ≤ month ∧ month ≤ 12
  day_valid : 1 ≤ day ∧ day ≤ daysIn year month
deriving DecidableEq, Repr

/-- The date with these components, if there is one. -/
def Date.of? (year month day : Nat) : Option Date :=
  if h : year ≤ 9999 ∧ (1 ≤ month ∧ month ≤ 12) ∧ 1 ≤ day ∧ day ≤ daysIn year month then
    some ⟨year, month, day, h.1, h.2.1, h.2.2⟩
  else none

theorem Date.of?_eq_some {year month day : Nat} {date : Date}
    (h : Date.of? year month day = some date) :
    date.year = year ∧ date.month = month ∧ date.day = day := by
  unfold Date.of? at h
  split at h
  · cases h
    exact ⟨rfl, rfl, rfl⟩
  · cases h

/-! ## Day count -/

/-- Days before the first of January. The count starts before the year 1, so a
year 0 lies at negative positions. -/
def daysBeforeYear (year : Nat) : Int :=
  let elapsed : Int := (year : Int) - 1
  365 * elapsed + elapsed / 4 - elapsed / 100 + elapsed / 400

/-- Days before the first of a month within its year. -/
def daysBeforeMonth (year : Nat) : Nat → Nat
  | 0 => 0
  | 1 => 0
  | month + 2 => daysBeforeMonth year (month + 1) + daysIn year (month + 1)

/-- The position of a date on the day count. -/
def Date.ordinal (date : Date) : Int :=
  daysBeforeYear date.year + daysBeforeMonth date.year date.month + date.day

/-- The date of a month at a position of the day count, if it lies in that month. -/
def dateIn (ordinal : Int) (year month : Nat) : Option Date :=
  let day := ordinal - daysBeforeYear year - daysBeforeMonth year month
  if 0 < day then Date.of? year month day.toNat else none

/-- The date at a position of the day count. Its year is one of the two after
the position's share of the 400-year cycle. -/
def ofOrdinal? (ordinal : Int) : Option Date :=
  let share := (ordinal - 1) * 400 / 146097
  [(share + 1).toNat, (share + 2).toNat].findSome? fun year =>
    (List.range 12).findSome? fun month => dateIn ordinal year (month + 1)

theorem ordinal_of_dateIn {ordinal : Int} {year month : Nat} {date : Date}
    (h : dateIn ordinal year month = some date) : date.ordinal = ordinal := by
  unfold dateIn at h
  dsimp only at h
  split at h
  next hpos =>
    obtain ⟨hyear, hmonth, hday⟩ := Date.of?_eq_some h
    rw [Date.ordinal, hyear, hmonth, hday, Int.toNat_of_nonneg (by omega)]
    omega
  next => cases h

theorem ordinal_of_ofOrdinal? {ordinal : Int} {date : Date}
    (h : ofOrdinal? ordinal = some date) : date.ordinal = ordinal := by
  obtain ⟨year, _, hyear⟩ := List.exists_of_findSome?_eq_some h
  obtain ⟨month, _, hmonth⟩ := List.exists_of_findSome?_eq_some hyear
  exact ordinal_of_dateIn hmonth

/-- The days of a year. -/
def yearDays (year : Nat) : Nat := if isLeap year then 366 else 365

theorem daysBeforeYear_succ (year : Nat) :
    daysBeforeYear (year + 1) = daysBeforeYear year + yearDays year := by
  unfold daysBeforeYear yearDays isLeap
  by_cases h4 : year % 4 = 0 <;> by_cases h100 : year % 100 = 0 <;>
    by_cases h400 : year % 400 = 0 <;> simp [h4, h100, h400] <;> omega

theorem daysBeforeYear_mono {year year' : Nat} (h : year ≤ year') :
    daysBeforeYear year ≤ daysBeforeYear year' := by
  induction h with
  | refl => exact le_refl _
  | step _ ih =>
      rw [daysBeforeYear_succ]
      omega

theorem daysBeforeMonth_succ (year : Nat) {month : Nat} (h : 1 ≤ month) :
    daysBeforeMonth year (month + 1) = daysBeforeMonth year month + daysIn year month := by
  obtain ⟨month, rfl⟩ := Nat.exists_eq_add_of_le' h
  rfl

theorem daysBeforeMonth_mono (year : Nat) {month month' : Nat} (hpos : 1 ≤ month)
    (h : month ≤ month') : daysBeforeMonth year month ≤ daysBeforeMonth year month' := by
  induction h with
  | refl => exact le_refl _
  | step hle ih =>
      rw [daysBeforeMonth_succ year (hpos.trans hle)]
      omega

theorem daysBeforeMonth_end (year : Nat) : daysBeforeMonth year 13 = yearDays year := by
  cases h : isLeap year <;> simp [daysBeforeMonth, daysIn, yearDays, h]

/-- A date lies within its month. -/
theorem Date.in_month (date : Date) :
    daysBeforeMonth date.year date.month + date.day ≤
      daysBeforeMonth date.year (date.month + 1) := by
  rw [daysBeforeMonth_succ _ date.month_valid.1]
  exact Nat.add_le_add_left date.day_valid.2 _

/-- A date lies within its year. -/
theorem Date.in_year (date : Date) : date.ordinal ≤ daysBeforeYear (date.year + 1) := by
  have hmonth := date.in_month
  have hend := daysBeforeMonth_mono date.year (Nat.le_add_left 1 date.month)
    (Nat.succ_le_succ date.month_valid.2)
  rw [daysBeforeMonth_end] at hend
  rw [Date.ordinal, daysBeforeYear_succ]
  omega

theorem Date.after_year (date : Date) : daysBeforeYear date.year < date.ordinal := by
  have hday := date.day_valid.1
  rw [Date.ordinal]
  omega

theorem daysIn_pos (year month : Nat) : 1 ≤ daysIn year month := by
  unfold daysIn
  split
  · split <;> decide
  · split <;> decide

/-- A date that is not the last one has a successor. -/
theorem Date.exists_next (date : Date) (h : date.ordinal < daysBeforeYear 10000) :
    ∃ next : Date, date.year ≤ next.year ∧ next.ordinal = date.ordinal + 1 := by
  have hmonth := date.month_valid
  have hday := date.day_valid
  by_cases hlast : date.day < daysIn date.year date.month
  · exact ⟨⟨date.year, date.month, date.day + 1, date.year_le, hmonth, by omega⟩, le_rfl,
      by simp only [Date.ordinal]; omega⟩
  have hend : date.day = daysIn date.year date.month := by omega
  have hsucc := daysBeforeMonth_succ date.year hmonth.1
  by_cases hdecember : date.month < 12
  · refine ⟨⟨date.year, date.month + 1, 1, date.year_le, by omega, le_rfl, daysIn_pos _ _⟩, le_rfl, ?_⟩
    simp only [Date.ordinal]
    omega
  have hyearEnd := daysBeforeMonth_end date.year
  rw [show 13 = date.month + 1 by omega] at hyearEnd
  have hyear := daysBeforeYear_succ date.year
  have hordinal : date.ordinal = daysBeforeYear (date.year + 1) := by
    simp only [Date.ordinal]
    omega
  have hle : date.year + 1 ≤ 9999 := by
    have hyears := date.year_le
    by_contra hlt
    rw [hordinal, show date.year + 1 = 10000 by omega] at h
    exact lt_irrefl _ h
  refine ⟨⟨date.year + 1, 1, 1, hle, by omega, le_rfl, daysIn_pos _ _⟩, Nat.le_succ _, ?_⟩
  rw [hordinal]
  simp [Date.ordinal, daysBeforeMonth]

/-- Every position of the years 1 to 9999 is that of a date. -/
theorem exists_date (ordinal : Int) (hpos : 1 ≤ ordinal) (hle : ordinal ≤ daysBeforeYear 10000) :
    ∃ date : Date, 1 ≤ date.year ∧ date.ordinal = ordinal := by
  obtain ⟨n, rfl⟩ := Int.le.dest hpos
  induction n with
  | zero => exact ⟨⟨1, 1, 1, by decide, by decide, by decide⟩, le_rfl, by decide⟩
  | succ n ih =>
      obtain ⟨date, hyear, hdate⟩ := ih (by omega) (by omega)
      obtain ⟨next, hnext, hordinal⟩ := date.exists_next (by omega)
      exact ⟨next, hyear.trans hnext, by omega⟩

theorem Date.year_le_of_ordinal {date date' : Date} (h : date.ordinal ≤ date'.ordinal) :
    date.year ≤ date'.year := by
  by_contra hlt
  have hnext : date'.year + 1 ≤ date.year := Nat.lt_of_not_le hlt
  have hmono := daysBeforeYear_mono hnext
  have hyear := date'.in_year
  have hday := date.day_valid.1
  rw [Date.ordinal] at h
  omega

/-- The position of a date determines it. -/
theorem Date.ordinal_injective {date date' : Date} (h : date.ordinal = date'.ordinal) :
    date = date' := by
  have hyear : date.year = date'.year :=
    Nat.le_antisymm (year_le_of_ordinal h.le) (year_le_of_ordinal h.ge)
  have hle : ∀ {date date' : Date}, date.year = date'.year → date.ordinal = date'.ordinal →
      date.month ≤ date'.month := by
    intro date date' hyear h
    by_contra hlt
    have hnext : date'.month + 1 ≤ date.month := Nat.lt_of_not_le hlt
    have hmono := daysBeforeMonth_mono date.year (Nat.le_add_left 1 date'.month) hnext
    have hmonth := date'.in_month
    have hday := date.day_valid.1
    rw [Date.ordinal, Date.ordinal, ← hyear] at h
    rw [← hyear] at hmonth
    omega
  have hmonth : date.month = date'.month :=
    Nat.le_antisymm (hle hyear h) (hle hyear.symm h.symm)
  have hday : date.day = date'.day := by
    rw [Date.ordinal, Date.ordinal, ← hyear, ← hmonth] at h
    omega
  cases date
  cases date'
  congr

/-- The share of the cycle is one or two years below the year of a date. -/
theorem Date.share_bounds (date : Date) :
    let share := (date.ordinal - 1) * 400 / 146097
    share + 1 = date.year ∨ share + 2 = date.year := by
  have hyear := date.in_year
  have hday := date.day_valid.1
  unfold Date.ordinal daysBeforeYear at *
  dsimp only at *
  omega

theorem Date.of?_self (date : Date) : Date.of? date.year date.month date.day = some date := by
  unfold Date.of?
  rw [dif_pos ⟨date.year_le, date.month_valid, date.day_valid⟩]

theorem dateIn_ordinal (date : Date) : dateIn date.ordinal date.year date.month = some date := by
  have hday := date.day_valid.1
  have hsame : date.ordinal - daysBeforeYear date.year - daysBeforeMonth date.year date.month =
      date.day := by
    rw [Date.ordinal]
    omega
  unfold dateIn
  dsimp only
  rw [hsame, if_pos (by omega), Int.toNat_natCast]
  exact date.of?_self

/-- Every date is found at its position. -/
theorem ofOrdinal?_ordinal (date : Date) : ofOrdinal? date.ordinal = some date := by
  have hsome : (ofOrdinal? date.ordinal).isSome := by
    unfold ofOrdinal?
    dsimp only
    rw [List.findSome?_isSome_iff]
    refine ⟨date.year, ?_, ?_⟩
    · have hshare := date.share_bounds
      simp only [List.mem_cons, List.not_mem_nil, or_false]
      omega
    · rw [List.findSome?_isSome_iff]
      have hmonth := date.month_valid
      refine ⟨date.month - 1, List.mem_range.mpr (by omega), ?_⟩
      rw [Nat.sub_add_cancel hmonth.1, dateIn_ordinal]
      rfl
  obtain ⟨date', hdate'⟩ := Option.isSome_iff_exists.mp hsome
  rw [hdate', Date.ordinal_injective (ordinal_of_ofOrdinal? hdate')]

/-! ## Text -/

/-- The value of a decimal digit. -/
def digit? (c : Char) : Option Nat :=
  if c.isDigit then some (c.toNat - '0'.toNat) else none

theorem digit?_eq_some {c : Char} {value : Nat} (h : digit? c = some value) :
    value < 10 ∧ c = value.digitChar := by
  unfold digit? at h
  split at h
  next hdigit =>
    have hbounds := Char.isDigit_iff_toNat.mp hdigit
    have hzero : '0'.toNat = 48 := rfl
    have hnine : '9'.toNat = 57 := rfl
    obtain ⟨hlow, hhigh⟩ := hbounds
    rw [hzero] at hlow
    rw [hnine] at hhigh
    have hvalue : c.toNat - 48 = value := Option.some.inj h
    have hc : c = Char.ofNat c.toNat := (Char.ofNat_toNat c).symm
    generalize c.toNat = n at hlow hhigh hvalue hc
    subst hc
    interval_cases n <;> subst hvalue <;> decide
  next => cases h

/-- The number written by a list of digits, read onto `acc`. -/
def number? (acc : Nat) : List Char → Option Nat
  | [] => some acc
  | c :: rest => do number? (10 * acc + (← digit? c)) rest

/-- Two digits. -/
def twoDigits (n : Nat) : List Char := [(n / 10).digitChar, (n % 10).digitChar]

/-- Four digits. -/
def fourDigits (n : Nat) : List Char := twoDigits (n / 100) ++ twoDigits (n % 100)

theorem twoDigits_of_number? {a b : Char} {n : Nat} (h : number? 0 [a, b] = some n) :
    twoDigits n = [a, b] := by
  simp only [number?, Option.bind_eq_bind, Option.bind_eq_some_iff] at h
  obtain ⟨x, hx, y, hy, hn⟩ := h
  obtain ⟨hx10, rfl⟩ := digit?_eq_some hx
  obtain ⟨hy10, rfl⟩ := digit?_eq_some hy
  cases hn
  have hdiv : (10 * (10 * 0 + x) + y) / 10 = x := by omega
  have hmod : (10 * (10 * 0 + x) + y) % 10 = y := by omega
  rw [twoDigits, hdiv, hmod]

theorem fourDigits_of_number? {a b c d : Char} {n : Nat}
    (h : number? 0 [a, b, c, d] = some n) : fourDigits n = [a, b, c, d] := by
  simp only [number?, Option.bind_eq_bind, Option.bind_eq_some_iff] at h
  obtain ⟨x, hx, y, hy, z, hz, w, hw, hn⟩ := h
  obtain ⟨hx10, rfl⟩ := digit?_eq_some hx
  obtain ⟨hy10, rfl⟩ := digit?_eq_some hy
  obtain ⟨hz10, rfl⟩ := digit?_eq_some hz
  obtain ⟨hw10, rfl⟩ := digit?_eq_some hw
  cases hn
  generalize hn : 10 * (10 * (10 * (10 * 0 + x) + y) + z) + w = n
  have h1 : n / 100 / 10 = x := by omega
  have h2 : n / 100 % 10 = y := by omega
  have h3 : n % 100 / 10 = z := by omega
  have h4 : n % 100 % 10 = w := by omega
  rw [fourDigits, twoDigits, twoDigits, h1, h2, h3, h4]
  rfl

/-- The characters of `YYYY-MM-DD`. -/
def Date.isoChars (date : Date) : List Char :=
  fourDigits date.year ++ '-' :: twoDigits date.month ++ '-' :: twoDigits date.day

/-- The text `YYYY-MM-DD`. -/
def Date.isoformat (date : Date) : String := String.ofList date.isoChars

/-- Read a text of the shape `YYYY-MM-DD`. -/
def parseIso (text : String) : Option Date :=
  match text.toList with
  | [y1, y2, y3, y4, s1, m1, m2, s2, d1, d2] =>
      if s1 = '-' ∧ s2 = '-' then do
        Date.of? (← number? 0 [y1, y2, y3, y4]) (← number? 0 [m1, m2]) (← number? 0 [d1, d2])
      else none
  | _ => none

/-- Only the text of a date is read as that date. -/
theorem isoformat_of_parseIso {text : String} {date : Date} (h : parseIso text = some date) :
    date.isoformat = text := by
  unfold parseIso at h
  split at h
  next y1 y2 y3 y4 s1 m1 m2 s2 d1 d2 hchars =>
    split at h
    next hseps =>
      simp only [Option.bind_eq_bind, Option.bind_eq_some_iff] at h
      obtain ⟨year, hyear, month, hmonth, day, hday, hdate⟩ := h
      obtain ⟨rfl, rfl, rfl⟩ := Date.of?_eq_some hdate
      have htext : String.ofList text.toList = text := String.ofList_toList
      rw [Date.isoformat, Date.isoChars, fourDigits_of_number? hyear,
        twoDigits_of_number? hmonth, twoDigits_of_number? hday, ← htext, hchars, hseps.1, hseps.2]
      rfl
    next => cases h
  next => cases h

theorem isoChars_length (date : Date) : date.isoChars.length = 10 := rfl

theorem digitChar_injective : ∀ n < 10, ∀ m < 10, n.digitChar = m.digitChar → n = m := by
  decide

theorem twoDigits_injective {n m : Nat} (hn : n < 100) (hm : m < 100)
    (h : twoDigits n = twoDigits m) : n = m := by
  simp only [twoDigits, List.cons.injEq, and_true] at h
  have htens := digitChar_injective (n / 10) (by omega) (m / 10) (by omega) h.1
  have hones := digitChar_injective (n % 10) (by omega) (m % 10) (by omega) h.2
  omega

theorem fourDigits_injective {n m : Nat} (hn : n < 10000) (hm : m < 10000)
    (h : fourDigits n = fourDigits m) : n = m := by
  obtain ⟨hhigh, hlow⟩ := List.append_inj h rfl
  have hhigh := twoDigits_injective (by omega) (by omega) hhigh
  have hlow := twoDigits_injective (by omega) (by omega) hlow
  omega

theorem daysIn_le (year month : Nat) : daysIn year month ≤ 31 := by
  unfold daysIn
  split
  · split <;> decide
  · split <;> decide

/-- The text of a date determines it. -/
theorem Date.isoformat_injective {date date' : Date} (h : date.isoformat = date'.isoformat) :
    date = date' := by
  have hchars : date.isoChars = date'.isoChars := String.ofList_injective h
  obtain ⟨hfront, hday⟩ := List.append_inj hchars rfl
  obtain ⟨hyear, hmonth⟩ := List.append_inj hfront rfl
  have hbounds := date.day_valid.2.trans (daysIn_le _ _)
  have hbounds' := date'.day_valid.2.trans (daysIn_le _ _)
  have hmonths := date.month_valid.2
  have hmonths' := date'.month_valid.2
  have hyears := date.year_le
  have hyears' := date'.year_le
  have hyear := fourDigits_injective (by omega) (by omega) hyear
  have hmonth := twoDigits_injective (by omega) (by omega) (List.cons.inj hmonth).2
  have hday := twoDigits_injective (by omega) (by omega) (List.cons.inj hday).2
  cases date
  cases date'
  congr

/-! ## Reading a written date -/

theorem digit?_digitChar : ∀ n < 10, digit? n.digitChar = some n := by decide

theorem number?_twoDigits {n : Nat} (h : n < 100) (acc : Nat) (rest : List Char) :
    number? acc (twoDigits n ++ rest) = number? (100 * acc + n) rest := by
  simp only [twoDigits, List.cons_append, List.nil_append, number?,
    digit?_digitChar _ (show n / 10 < 10 by omega), digit?_digitChar _ (show n % 10 < 10 by omega),
    Option.bind_eq_bind, Option.bind_some]
  congr 1
  omega

theorem number?_fourDigits {n : Nat} (h : n < 10000) : number? 0 (fourDigits n) = some n := by
  have hlow := number?_twoDigits (show n % 100 < 100 by omega) (100 * 0 + n / 100) []
  rw [List.append_nil] at hlow
  rw [fourDigits, number?_twoDigits (by omega), hlow, number?]
  congr 1
  omega

/-- The text of a date is read as that date. -/
theorem parseIso_isoformat (date : Date) : parseIso date.isoformat = some date := by
  have hday := date.day_valid.2.trans (daysIn_le _ _)
  have hmonth := date.month_valid.2
  have hyears := number?_fourDigits (show date.year < 10000 by have := date.year_le; omega)
  have hmonths := number?_twoDigits (show date.month < 100 by omega) 0 []
  have hdays := number?_twoDigits (show date.day < 100 by omega) 0 []
  rw [List.append_nil, number?, Nat.mul_zero, Nat.zero_add] at hmonths hdays
  unfold parseIso Date.isoformat
  rw [String.toList_ofList]
  change (number? 0 (fourDigits date.year)).bind (fun year =>
    (number? 0 (twoDigits date.month)).bind fun month =>
      (number? 0 (twoDigits date.day)).bind fun day => Date.of? year month day) = some date
  rw [hyears, hmonths, hdays]
  exact date.of?_self

end Civil
