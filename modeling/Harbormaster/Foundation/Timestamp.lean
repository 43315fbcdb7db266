import Harbormaster.Foundation.Bytes
import Harbormaster.Foundation.Civil
import Mathlib.Data.List.DropRight

/-! # Timestamps

The text `YYYY-MM-DDTHH:MM:SS.fZ` of a moment in UTC, to the nanosecond and
without the zeros that end the fraction. Years before 0 and after 9999 are
written in full. The text determines the moment.
-/

namespace Civil

/-! ## Years without bounds -/

/-- The 400-year cycle of a position of the day count. -/
def cycleOf (ordinal : Int) : Int := (ordinal - 1) / 146097

/-- The date at the same place of the first cycle. -/
def dateOfCycle (ordinal : Int) : Option Date := ofOrdinal? ((ordinal - 1) % 146097 + 1)

theorem dateOfCycle_spec (ordinal : Int) :
    ∃ date, dateOfCycle ordinal = some date ∧ 1 ≤ date.year ∧ date.year ≤ 400 ∧
      ordinal = cycleOf ordinal * 146097 + date.ordinal := by
  have hlast : daysBeforeYear 401 = 146097 := by decide
  have hnext : daysBeforeYear 401 ≤ daysBeforeYear 10000 := daysBeforeYear_mono (by omega)
  obtain ⟨date, hyear, hdate⟩ := exists_date ((ordinal - 1) % 146097 + 1) (by omega) (by omega)
  refine ⟨date, by rw [dateOfCycle, ← hdate, ofOrdinal?_ordinal], hyear, ?_, ?_⟩
  · by_contra hlate
    have hstart := daysBeforeYear_mono (show 401 ≤ date.year by omega)
    have hafter := date.after_year
    omega
  · rw [hdate, cycleOf]
    omega

/-! ## Numbers -/

/-- A number with at least `width` digits. -/
def padded (width n : Nat) : List Char := (Nat.toDigits 10 n).leftpad width '0'

theorem ofDigitChars_padded (width n : Nat) : Nat.ofDigitChars 10 (padded width n) 0 = n := by
  rw [padded, List.leftpad, Nat.ofDigitChars_append, Nat.ofDigitChars_replicate_zero, Nat.mul_zero,
    Nat.ofDigitChars_toDigits (by decide) (by decide)]

theorem padded_injective {width n m : Nat} (h : padded width n = padded width m) : n = m := by
  rw [← ofDigitChars_padded width n, h, ofDigitChars_padded]

theorem padded_length {width n : Nat} (hpos : 0 < width) (h : n < 10 ^ width) :
    (padded width n).length = width := by
  have hle := (Nat.length_toDigits_le_iff (b := 10) (by decide) hpos).mpr h
  rw [padded, List.length_leftpad]
  omega

theorem isDigit_of_mem_padded {width n : Nat} {c : Char} (h : c ∈ padded width n) :
    c.isDigit = true := by
  rw [padded, List.leftpad, List.mem_append] at h
  rcases h with hzero | hdigit
  · rw [List.eq_of_mem_replicate hzero]
    decide
  · exact Nat.isDigit_of_mem_toDigits (by decide) (by decide) hdigit

/-- A year, with a sign before the year 0. -/
def yearChars (year : Int) : List Char :=
  if year < 0 then '-' :: padded 4 year.natAbs else padded 4 year.natAbs

theorem yearChars_injective {year year' : Int} (h : yearChars year = yearChars year') :
    year = year' := by
  have hsign : ∀ n m : Nat, '-' :: padded 4 n ≠ padded 4 m := by
    intro n m heq
    exact absurd (isDigit_of_mem_padded (heq ▸ List.mem_cons_self)) (by decide)
  unfold yearChars at h
  split at h
  next hneg =>
    split at h
    next hneg' =>
      have habs := padded_injective (List.cons.inj h).2
      omega
    next => exact absurd h (hsign _ _)
  next hpos =>
    split at h
    next => exact absurd h.symm (hsign _ _)
    next hpos' =>
      have habs := padded_injective h
      omega

/-- Nine digits behind the point, without the zeros at their end. -/
def fractionChars (nanos : Nat) : List Char :=
  match (padded 9 nanos).rdropWhile (fun c => c = '0') with
  | [] => []
  | digits => '.' :: digits

theorem fractionChars_injective {n m : Nat} (hn : n < 10 ^ 9) (hm : m < 10 ^ 9)
    (h : fractionChars n = fractionChars m) : n = m := by
  have hkept : (padded 9 n).rdropWhile (fun c => c = '0') =
      (padded 9 m).rdropWhile (fun c => c = '0') := by
    unfold fractionChars at h
    split at h
    next hnone =>
      split at h
      next hnone' => rw [hnone, hnone']
      next => cases h
    next =>
      split at h
      next => cases h
      next => exact (List.cons.inj h).2
  have hrebuild : ∀ k < 10 ^ 9, padded 9 k =
      (padded 9 k).rdropWhile (fun c => c = '0') ++
        List.replicate (9 - ((padded 9 k).rdropWhile (fun c => c = '0')).length) '0' := by
    intro k hk
    have hsplit := @List.rdropWhile_append_rtakeWhile _ (fun c => decide (c = '0')) (padded 9 k)
    have hzeros : (padded 9 k).rtakeWhile (fun c => c = '0') =
        List.replicate ((padded 9 k).rtakeWhile (fun c => c = '0')).length '0' :=
      List.eq_replicate_of_mem fun c hc => by simpa using List.mem_rtakeWhile_imp hc
    have hlength := congrArg List.length hsplit
    rw [List.length_append, padded_length (by decide) hk] at hlength
    rw [show 9 - ((padded 9 k).rdropWhile (fun c => c = '0')).length =
      ((padded 9 k).rtakeWhile (fun c => c = '0')).length by omega, ← hzeros, hsplit]
  have hsame := hrebuild n hn
  rw [hkept, ← hrebuild m hm] at hsame
  exact padded_injective hsame

/-! ## Moments -/

def nanosPerSecond : Int := 1000000000
def nanosPerDay : Int := 24 * 60 * 60 * nanosPerSecond

/-- The date of a moment. -/
def dateChars (day : Int) : List Char :=
  match dateOfCycle day with
  | none => []
  | some date =>
      yearChars (400 * cycleOf day + date.year) ++
        ('-' :: padded 2 date.month ++ '-' :: padded 2 date.day)

/-- The time of a day, given in nanoseconds. -/
def clockChars (nanos : Nat) : List Char :=
  let seconds := nanos / 1000000000
  padded 2 (seconds / 3600) ++ ':' :: padded 2 (seconds / 60 % 60) ++
    ':' :: padded 2 (seconds % 60) ++ fractionChars (nanos % 1000000000) ++ ['Z']

/-- The text of a moment given in nanoseconds from the start of day 0. -/
def rfc3339Nano (moment : Int) : List Char :=
  dateChars (moment / nanosPerDay) ++ 'T' :: clockChars (moment % nanosPerDay).toNat

example : String.ofList (rfc3339Nano (739859 * nanosPerDay + 21600500000000)) =
    "2026-08-31T06:00:00.5Z" := by
  decide +kernel

/-! ## The text determines the moment -/

theorem dateChars_injective {day day' : Int} (h : dateChars day = dateChars day') :
    day = day' := by
  obtain ⟨date, hdate, hfirst, hlast, hday⟩ := dateOfCycle_spec day
  obtain ⟨date', hdate', hfirst', hlast', hday'⟩ := dateOfCycle_spec day'
  have htwo : ∀ date : Date, (padded 2 date.month).length = 2 ∧ (padded 2 date.day).length = 2 := by
    intro date
    have hmonth := date.month_valid
    have hday := date.day_valid
    have hend := daysIn_le date.year date.month
    exact ⟨padded_length (by decide) (by omega), padded_length (by decide) (by omega)⟩
  unfold dateChars at h
  rw [hdate, hdate'] at h
  dsimp only at h
  obtain ⟨hyear, hrest⟩ := List.append_inj' h (by simp [htwo])
  obtain ⟨hmonth, hrest⟩ := List.append_inj (List.cons.inj hrest).2 (by simp [htwo])
  have hyear := yearChars_injective hyear
  have hmonth := padded_injective hmonth
  have hdate_day := padded_injective (List.cons.inj hrest).2
  have hsame : date = date' := by
    apply Date.ordinal_injective
    have hcycle : date.year = date'.year := by omega
    rw [Date.ordinal, Date.ordinal, hcycle, hmonth, hdate_day]
  have hcycle : cycleOf day = cycleOf day' := by
    rw [hsame] at hyear
    omega
  rw [hday, hday', hsame, hcycle]

theorem clockChars_injective {nanos nanos' : Nat} (hlt : nanos < nanosPerDay)
    (hlt' : nanos' < nanosPerDay) (h : clockChars nanos = clockChars nanos') :
    nanos = nanos' := by
  unfold nanosPerDay nanosPerSecond at hlt hlt'
  unfold clockChars at h
  simp only [List.append_assoc, List.cons_append] at h
  have htwo : ∀ n < 100, (padded 2 n).length = 2 := fun n hn => padded_length (by decide) hn
  obtain ⟨hhour, h⟩ := List.append_inj h (by rw [htwo _ (by omega), htwo _ (by omega)])
  obtain ⟨hminute, h⟩ := List.append_inj (List.cons.inj h).2
    (by rw [htwo _ (by omega), htwo _ (by omega)])
  obtain ⟨hsecond, h⟩ := List.append_inj (List.cons.inj h).2
    (by rw [htwo _ (by omega), htwo _ (by omega)])
  have hfraction := fractionChars_injective (by omega) (by omega) (List.append_cancel_right h)
  have hhour := padded_injective hhour
  have hminute := padded_injective hminute
  have hsecond := padded_injective hsecond
  omega

/-- The characters of a date and of a time of day. -/
def StampChar (c : Char) : Prop := c.isDigit = true ∨ c ∈ ['-', ':', '.', 'Z']

theorem stampChar_padded {width n : Nat} {c : Char} (h : c ∈ padded width n) : StampChar c :=
  .inl (isDigit_of_mem_padded h)

theorem stampChar_dateChars {day : Int} {c : Char} (h : c ∈ dateChars day) : StampChar c := by
  have hyear : ∀ year, c ∈ yearChars year → StampChar c := by
    intro year hc
    unfold yearChars at hc
    split at hc
    · rcases List.mem_cons.mp hc with rfl | hc
      · exact .inr (by decide)
      · exact stampChar_padded hc
    · exact stampChar_padded hc
  unfold dateChars at h
  split at h
  next => cases h
  next date _ =>
    simp only [List.mem_append, List.mem_cons] at h
    rcases h with hc | (rfl | hc) | rfl | hc
    · exact hyear _ hc
    · exact .inr (by decide)
    · exact stampChar_padded hc
    · exact .inr (by decide)
    · exact stampChar_padded hc

theorem stampChar_clockChars {nanos : Nat} {c : Char} (h : c ∈ clockChars nanos) :
    StampChar c := by
  have hfraction : ∀ n, c ∈ fractionChars n → StampChar c := by
    intro n hc
    unfold fractionChars at hc
    split at hc
    next => cases hc
    next digits hdigits =>
      rcases List.mem_cons.mp hc with rfl | hc
      · exact .inr (by decide)
      · exact stampChar_padded ((List.rdropWhile_prefix _ _).subset hc)
  unfold clockChars at h
  simp only [List.mem_append, List.mem_cons, List.not_mem_nil, or_false] at h
  rcases h with (((hc | rfl | hc) | rfl | hc) | hc) | rfl
  · exact stampChar_padded hc
  · exact .inr (by decide)
  · exact stampChar_padded hc
  · exact .inr (by decide)
  · exact stampChar_padded hc
  · exact hfraction _ hc
  · exact .inr (by decide)

theorem StampChar.plain {c : Char} (h : StampChar c) : Bytes.Plain c := by
  rcases h with hdigit | hmark
  · simp only [Char.isDigit, Bool.and_eq_true, decide_eq_true_eq, UInt32.le_iff_toNat_le] at hdigit
    have hlow : 48 ≤ c.toNat := hdigit.1
    have hhigh : c.toNat ≤ 57 := hdigit.2
    exact ⟨by omega, by omega⟩
  · simp only [List.mem_cons, List.not_mem_nil, or_false] at hmark
    obtain rfl | rfl | rfl | rfl := hmark
    · exact ⟨by decide, by decide⟩
    · exact ⟨by decide, by decide⟩
    · exact ⟨by decide, by decide⟩
    · exact ⟨by decide, by decide⟩

theorem rfc3339Nano_injective {moment moment' : Int}
    (h : rfc3339Nano moment = rfc3339Nano moment') : moment = moment' := by
  have hmark : ∀ day, 'T' ∉ dateChars day := by
    intro day hmem
    rcases stampChar_dateChars hmem with hdigit | hother
    · exact absurd hdigit (by decide)
    · exact absurd hother (by decide)
  obtain ⟨hdate, hclock⟩ := Bytes.append_cons_injective (hmark _) (hmark _) h
  have hday := dateChars_injective hdate
  have hpos : 0 < nanosPerDay := by decide
  have hlt := Int.emod_lt_of_pos moment hpos
  have hlt' := Int.emod_lt_of_pos moment' hpos
  have hle := Int.emod_nonneg moment hpos.ne'
  have hle' := Int.emod_nonneg moment' hpos.ne'
  have hnanos := clockChars_injective (by omega) (by omega) hclock
  have hwhole := Int.mul_ediv_add_emod moment nanosPerDay
  have hwhole' := Int.mul_ediv_add_emod moment' nanosPerDay
  rw [hday] at hwhole
  omega

/-- A timestamp is a plain text. -/
theorem plain_rfc3339Nano (moment : Int) : ∀ c ∈ rfc3339Nano moment, Bytes.Plain c := by
  intro c hc
  rcases List.mem_append.mp hc with hdate | hrest
  · exact (stampChar_dateChars hdate).plain
  · rcases List.mem_cons.mp hrest with rfl | hclock
    · exact ⟨by decide, by decide⟩
    · exact (stampChar_clockChars hclock).plain

end Civil
