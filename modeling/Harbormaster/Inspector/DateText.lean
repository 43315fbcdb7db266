import Harbormaster.Foundation.Readings
import Harbormaster.Inspector.Dates

/-! # Dates as they are written

What the date parser makes of a date that was written in one of its own formats,
with the month in any letter case and a time behind it.
-/

namespace Harbormaster.Inspector

open Matching Matcher Civil

variable {runtime : Runtime}

/-- On ASCII text the decimal digits are those of ASCII. -/
def ReadsAsciiDigits (runtime : Runtime) : Prop :=
  ∀ c : Char, c.toNat < 128 → runtime.decimal c = digit? c

theorem readsAsciiDigits_ascii : ReadsAsciiDigits .ascii := fun _ _ => rfl

theorem ReadsAsciiDigits.decimal_digitChar (h : ReadsAsciiDigits runtime) {n : Nat} (hn : n < 10) :
    runtime.decimal n.digitChar = some n := by
  have hascii : ∀ n < 10, n.digitChar.toNat < 128 := by decide
  rw [h _ (hascii n hn), digit?_digitChar n hn]

/-! ## Fields -/

section Fields

variable {rest : List Char}

theorem prefers_digits (h : ReadsAsciiDigits runtime) {digits : List Nat}
    (hdigits : ∀ n ∈ digits, n < 10) (rest : List Char) :
    (times (digit runtime) digits.length).Prefers (digits.map Nat.digitChar ++ rest) digits
      rest := by
  induction digits with
  | nil => exact prefers_pure []
  | cons n digits ih =>
      refine (prefers_char (h.decimal_digitChar (hdigits n List.mem_cons_self))).bind ?_
      exact (ih fun m hm => hdigits m (List.mem_cons_of_mem n hm)).bind (prefers_pure _)

theorem prefers_year (h : ReadsAsciiDigits runtime) {year : Nat} (hyear : year ≤ 9999) :
    (yearField runtime).Prefers (fourDigits year ++ rest) year rest := by
  have hsmall : ∀ n ∈ [year / 100 / 10, year / 100 % 10, year % 100 / 10, year % 100 % 10],
      n < 10 := by
    intro n hn
    simp only [List.mem_cons, List.not_mem_nil, or_false] at hn
    omega
  have hdigits := prefers_digits h hsmall rest
  have hvalue : [year / 100 / 10, year / 100 % 10, year % 100 / 10, year % 100 % 10].foldl
      (fun year value => 10 * year + value) 0 = year := by
    simp only [List.foldl_cons, List.foldl_nil]
    omega
  have hfield : (yearField runtime).Prefers (fourDigits year ++ rest)
      ([year / 100 / 10, year / 100 % 10, year % 100 / 10, year % 100 % 10].foldl
        (fun year value => 10 * year + value) 0) rest :=
    hdigits.bind (prefers_pure _)
  rw [hvalue] at hfield
  exact hfield

theorem prefers_month {month : Nat} (h : 1 ≤ month ∧ month ≤ 12) :
    monthField.Prefers (twoDigits month ++ rest) month rest := by
  obtain ⟨hpos, hle⟩ := h
  intro before
  interval_cases month <;> exact ⟨_, _, rfl⟩

theorem prefers_asciiDigit {low high n : Nat} (hlow : low ≤ n) (hhigh : n ≤ high) (hn : n < 10) :
    (asciiDigit low high).Prefers (n.digitChar :: rest) n rest := by
  refine prefers_char ?_
  rw [digit?_digitChar n hn]
  exact if_pos ⟨hlow, hhigh⟩

theorem refuses_asciiDigit {low high n : Nat} (hout : n < low ∨ high < n) (hn : n < 10) :
    (asciiDigit low high).Refuses (n.digitChar :: rest) := by
  refine refuses_char ?_
  rw [digit?_digitChar n hn]
  exact if_neg (by omega)

theorem refuses_digitLiteral {n m : Nat} (hn : n < 10) (hm : m < 10) (hne : n ≠ m) :
    (literal m.digitChar).Refuses (n.digitChar :: rest) :=
  refuses_literal fun hsame => hne (digitChar_injective n hn m hm hsame)

theorem prefers_day (h : ReadsAsciiDigits runtime) {day : Nat} (hday : 1 ≤ day ∧ day ≤ 31) :
    (dayField runtime).Prefers (twoDigits day ++ rest) day rest := by
  obtain ⟨hpos, hle⟩ := hday
  have htens : day / 10 < 10 := by omega
  have hones : day % 10 < 10 := by omega
  have hvalue : 10 * (day / 10) + day % 10 = day := Nat.div_add_mod day 10
  change (dayField runtime).Prefers ((day / 10).digitChar :: (day % 10).digitChar :: rest) day rest
  unfold dayField
  by_cases hthirty : 3 ≤ day / 10
  · have hthree : day / 10 = 3 := by omega
    rw [hthree]
    refine Prefers.oneOf ((prefers_literal '3').bind ?_) _
    have hlast : (asciiDigit 0 1 >>= fun n => (pure (30 + n) : Matcher Nat)).Prefers
        ((day % 10).digitChar :: rest) (30 + day % 10) rest :=
      (prefers_asciiDigit (Nat.zero_le _) (by omega) hones).bind (prefers_pure _)
    rwa [show 30 + day % 10 = day by omega] at hlast
  · have hfirst : (literal '3' >>= fun _ => asciiDigit 0 1 >>= fun n =>
        (pure (30 + n) : Matcher Nat)).Refuses
        ((day / 10).digitChar :: (day % 10).digitChar :: rest) :=
      (refuses_digitLiteral (m := 3) htens (by decide) (by omega)).bind _
    refine hfirst.oneOf ?_
    by_cases hten : 1 ≤ day / 10
    · refine Prefers.oneOf ((prefers_asciiDigit hten (by omega) htens).bind ?_) _
      have hlast : (digit runtime >>= fun n =>
          (pure (10 * (day / 10) + n) : Matcher Nat)).Prefers ((day % 10).digitChar :: rest)
          (10 * (day / 10) + day % 10) rest :=
        (prefers_char (h.decimal_digitChar hones)).bind (prefers_pure _)
      rwa [hvalue] at hlast
    · have hzero : day / 10 = 0 := by omega
      have hsecond : (asciiDigit 1 2 >>= fun tens => digit runtime >>= fun n =>
          (pure (10 * tens + n) : Matcher Nat)).Refuses
          ((day / 10).digitChar :: (day % 10).digitChar :: rest) :=
        (refuses_asciiDigit (by omega) htens).bind _
      refine hsecond.oneOf ?_
      rw [hzero]
      refine Prefers.oneOf ((prefers_literal '0').bind ?_) _
      have hlast : (asciiDigit 1 9).Prefers ((day % 10).digitChar :: rest) (day % 10) rest :=
        prefers_asciiDigit (by omega) (by omega) hones
      rwa [show day % 10 = day by omega] at hlast ⊢

/-- A day takes one character or two. -/
theorem leaves_day (a b : Char) (rest : List Char) :
    (dayField runtime).Leaves (a :: b :: rest) fun _ rest' => rest' = b :: rest ∨ rest' = rest := by
  have hone (low high : Nat) : (asciiDigit low high).Leaves (a :: b :: rest) fun _ rest' =>
      rest' = b :: rest ∨ rest' = rest :=
    leaves_char fun _ _ => .inl rfl
  have htwo {β γ : Type} (first : Char → Option β) (second : Char → Option γ) (value : β → γ → Nat) :
      (char first >>= fun tens => char second >>= fun ones =>
        (pure (value tens ones) : Matcher Nat)).Leaves (a :: b :: rest) fun _ rest' =>
        rest' = b :: rest ∨ rest' = rest := by
    refine (leaves_char_rest first a (b :: rest)).bind ?_
    rintro tens _ rfl
    refine (leaves_char_rest second b rest).bind ?_
    rintro ones _ rfl
    exact leaves_pure (.inr rfl)
  have hafter (c : Char) : (literal c >>= fun _ => asciiDigit 1 9).Leaves (a :: b :: rest)
      fun _ rest' => rest' = b :: rest ∨ rest' = rest := by
    refine (leaves_char_rest _ a (b :: rest)).bind ?_
    rintro _ _ rfl
    exact leaves_char fun _ _ => .inr rfl
  refine leaves_oneOf fun matcher hmatcher => ?_
  simp only [List.mem_cons, List.not_mem_nil, or_false] at hmatcher
  rcases hmatcher with rfl | rfl | rfl | rfl | rfl
  · exact htwo _ _ fun _ ones => 30 + ones
  · exact htwo _ _ fun tens ones => 10 * tens + ones
  · exact hafter '0'
  · exact hone 1 9
  · exact hafter ' '

/-- A month takes one character or two. -/
theorem leaves_month (a b : Char) (rest : List Char) :
    monthField.Leaves (a :: b :: rest) fun _ rest' => rest' = b :: rest ∨ rest' = rest := by
  refine leaves_oneOf fun matcher hmatcher => ?_
  simp only [List.mem_cons, List.not_mem_nil, or_false] at hmatcher
  rcases hmatcher with rfl | rfl | rfl
  · refine (leaves_char_rest _ a (b :: rest)).bind ?_
    rintro _ _ rfl
    refine (leaves_char_rest _ b rest).bind ?_
    rintro _ _ rfl
    exact leaves_pure (.inr rfl)
  · refine (leaves_char_rest _ a (b :: rest)).bind ?_
    rintro _ _ rfl
    exact leaves_char fun _ _ => .inr rfl
  · exact leaves_char fun _ _ => .inl rfl

/-- A year takes four characters. -/
theorem leaves_year (a b c d : Char) (rest : List Char) :
    (yearField runtime).Leaves (a :: b :: c :: d :: rest) fun _ rest' => rest' = rest := by
  have htimes (count : Nat) (text : List Char) : (times (digit runtime) count).Leaves text
      fun _ rest' => rest' = text.drop count := by
    induction count generalizing text with
    | zero => exact leaves_pure rfl
    | succ count ih =>
        cases text with
        | nil => exact ((refuses_char_nil _).bind _).leaves _
        | cons first rest =>
            refine (leaves_char_rest _ first rest).bind ?_
            rintro _ _ rfl
            refine (ih _).bind ?_
            rintro _ _ rfl
            exact leaves_pure rfl
  refine (htimes 4 _).bind ?_
  rintro _ _ rfl
  exact leaves_pure rfl

theorem refuses_year {c : Char} (hc : runtime.decimal c = none) (a b : Char) (rest : List Char) :
    (yearField runtime).Refuses (a :: b :: c :: rest) := by
  refine Refuses.bind ?_ _
  refine (leaves_char_rest _ a _).bind ?_
  rintro _ _ rfl
  refine Refuses.bind ?_ _
  refine (leaves_char_rest _ b _).bind ?_
  rintro _ _ rfl
  refine Refuses.bind ?_ _
  exact (refuses_char hc).bind _

/-! ## Month names -/

def abbreviatedMonths : List String :=
  ["jan", "feb", "mar", "apr", "may", "jun", "jul", "aug", "sep", "oct", "nov", "dec"]

def fullMonths : List String :=
  ["january", "february", "march", "april", "may", "june", "july", "august", "september",
    "october", "november", "december"]

theorem prefers_word {name month : List Char} (h : month.map Char.toLower = name) :
    (word name).Prefers (month ++ rest) () rest := by
  induction month generalizing name with
  | nil =>
      subst h
      exact prefers_pure ()
  | cons c month ih =>
      subst h
      exact (prefers_char (if_pos (decide_eq_true rfl))).bind (ih rfl)

/-- A word is read from its letters. -/
theorem leaves_word (name text : List Char) :
    (word name).Leaves text fun _ rest => ∃ read, text = read ++ rest ∧
      read.map Char.toLower = name := by
  induction name generalizing text with
  | nil => exact leaves_pure ⟨[], rfl, rfl⟩
  | cons c name ih =>
      cases text with
      | nil => exact ((refuses_char_nil _).bind _).leaves _
      | cons first text =>
          have hfirst : (satisfy fun c' => c'.toLower = c).Leaves (first :: text) fun _ rest =>
              first.toLower = c ∧ rest = text := by
            refine leaves_char fun _ hread => ⟨?_, rfl⟩
            by_contra hne
            have hnone : (if decide (first.toLower = c) = true then some first else none) = none :=
              if_neg (by simpa using hne)
            cases hnone.symm.trans hread
          refine hfirst.bind ?_
          rintro _ _ ⟨hsame, rfl⟩
          refine (ih _).mono ?_
          rintro _ rest ⟨read, hsplit, hread⟩
          exact ⟨first :: read, by rw [hsplit]; rfl, by rw [List.map_cons, hsame, hread]⟩

/-- Of names of one length, the one that is written is read. -/
theorem prefers_named {names : List String} {length index : Nat} {month : List Char}
    {name : String} (hlength : ∀ name ∈ names, name.toList.length = length)
    (hnodup : names.Nodup) (hname : names[index]? = some name)
    (hmonth : month.map Char.toLower = name.toList) (rest : List Char) :
    (named names).Prefers (month ++ rest) (index + 1) rest := by
  have hpositions : ∀ pairs : List (String × Nat), (∀ pair ∈ pairs, pair.1 ∈ names) →
      (pairs.map Prod.fst).Nodup → (name, index) ∈ pairs →
      (oneOf (pairs.map fun pair => do
        word pair.1.toList
        return pair.2 + 1)).Prefers (month ++ rest) (index + 1) rest := by
    intro pairs hpairs hunique hmem
    induction pairs with
    | nil => cases hmem
    | cons pair pairs ih =>
        rw [List.map_cons, List.nodup_cons] at hunique
        rcases List.mem_cons.mp hmem with rfl | hmem
        · have hread : (do word name.toList; return index + 1 : Matcher Nat).Prefers
              (month ++ rest) (index + 1) rest :=
            (prefers_word hmonth).bind (prefers_pure _)
          exact hread.oneOf _
        · refine Refuses.oneOf ((leaves_word _ _).bind ?_)
            (ih (fun pair hpair => hpairs pair (List.mem_cons_of_mem _ hpair)) hunique.2 hmem)
          rintro _ rest' ⟨read, hsplit, hread⟩
          -- both names have been read from the same letters
          have hsize : read.length = month.length := by
            rw [← List.length_map (f := Char.toLower), hread,
              hlength _ (hpairs pair List.mem_cons_self), ← List.length_map (f := Char.toLower),
              hmonth, hlength name (List.mem_of_getElem? hname)]
          obtain ⟨rfl, -⟩ := List.append_inj hsplit.symm hsize
          have hsame : pair.1 = name := String.toList_inj.mp (hread.symm.trans hmonth)
          exact absurd (List.mem_map.mpr ⟨_, hmem, hsame.symm⟩) hunique.1
  refine hpositions names.zipIdx (fun pair hpair => List.fst_mem_of_mem_zipIdx hpair) ?_ ?_
  · rw [List.zipIdx_map_fst]
    exact hnodup
  · rw [List.mem_zipIdx_iff_getElem?]
    exact hname

/-- A name begins with a letter. -/
theorem refuses_named {names : List String}
    (hnames : ∀ name ∈ names, name.toList.head?.any Char.isLower = true) {c : Char}
    (hc : c.toLower.isLower = false) : (named names).Refuses (c :: rest) := by
  refine leaves_oneOf fun matcher hmatcher => ?_
  obtain ⟨⟨name, index⟩, hpair, rfl⟩ := List.mem_map.mp hmatcher
  have hlower := hnames name (List.fst_mem_of_mem_zipIdx hpair)
  dsimp only
  cases hletters : name.toList with
  | nil =>
      rw [hletters] at hlower
      cases hlower
  | cons first letters =>
      rw [hletters] at hlower
      have hfirst : first.isLower = true := hlower
      have hne : c.toLower ≠ first := by
        rintro rfl
        rw [hc] at hfirst
        cases hfirst
      have hread : (if decide (c.toLower = first) = true then some c else none) = none := by
        rw [decide_eq_false hne]
        rfl
      exact ((refuses_char hread).bind _).bind _

end Fields

/-! ## Formats -/

section Formats

variable {a b : Char} {rest : List Char} {month : Matcher Nat} {separator second : Matcher Unit}

theorem yearFirst_refuses {c : Char} (hc : runtime.decimal c = none) :
    (yearFirst runtime separator).Refuses (a :: b :: c :: rest) :=
  (refuses_year hc a b rest).bind _

theorem yearFirst_refuses_separator {c d : Char} (h : separator.Refuses rest) :
    (yearFirst runtime separator).Refuses (a :: b :: c :: d :: rest) := by
  refine (leaves_year a b c d rest).bind ?_
  rintro year _ rfl
  exact h.bind _

theorem dayFirst_refuses (hone : separator.Refuses (b :: rest)) (htwo : separator.Refuses rest) :
    (dayFirst runtime month separator).Refuses (a :: b :: rest) := by
  refine (leaves_day a b rest).bind ?_
  rintro day _ (rfl | rfl)
  · exact hone.bind _
  · exact htwo.bind _

/-- A month follows the day at once. -/
theorem dayFirst_refuses_month (hone : month.Refuses (b :: rest)) (htwo : month.Refuses rest) :
    (dayFirst runtime month (pure ())).Refuses (a :: b :: rest) := by
  refine (leaves_day a b rest).bind ?_
  rintro day rest' hrest
  have hnothing : (pure () : Matcher Unit).Leaves rest' fun _ text => text = rest' :=
    leaves_pure rfl
  refine hnothing.bind ?_
  rintro _ _ rfl
  rcases hrest with rfl | rfl
  · exact hone.bind _
  · exact htwo.bind _

theorem monthFirst_refuses (hone : separator.Refuses (b :: rest)) (htwo : separator.Refuses rest) :
    (monthFirst runtime monthField separator second).Refuses (a :: b :: rest) := by
  refine (leaves_month a b rest).bind ?_
  rintro month _ (rfl | rfl)
  · exact hone.bind _
  · exact htwo.bind _

theorem monthFirst_refuses_month (h : month.Refuses rest) :
    (monthFirst runtime month separator second).Refuses rest :=
  h.bind _

theorem refuses_spaces {c : Char} (hc : isspace c = false) : spaces.Refuses (c :: rest) := by
  have hread : (satisfy isspace).Refuses (c :: rest) :=
    refuses_char (if_neg (by rw [hc]; exact Bool.false_ne_true))
  have hmany : (many1 (satisfy isspace)).Refuses (c :: rest) := fun before reading hreading =>
    ((hread.bind _).bind _ : (between (satisfy isspace) 1
      (c :: rest).length).Refuses (c :: rest)) before reading hreading
  exact hmany.bind _

variable {text text' : List Char} {date : Date}

theorem prefers_yearFirst (h : ReadsAsciiDigits runtime)
    (hfirst : separator.Prefers text () (twoDigits date.month ++ text'))
    (hsecond : separator.Prefers text' () (twoDigits date.day)) :
    (yearFirst runtime separator).Prefers (fourDigits date.year ++ text)
      ⟨date.year, date.month, date.day⟩ [] := by
  rw [← List.append_nil (twoDigits date.day)] at hsecond
  refine (prefers_year h date.year_le).bind (hfirst.bind ?_)
  refine (prefers_month date.month_valid).bind (hsecond.bind ?_)
  refine (prefers_day h ⟨date.day_valid.1, date.day_valid.2.trans (daysIn_le _ _)⟩).bind ?_
  exact prefers_pure _

theorem prefers_dayFirst (h : ReadsAsciiDigits runtime)
    (hfirst : separator.Prefers text () text')
    (hmonth : month.Prefers text' date.month rest)
    (hsecond : separator.Prefers rest () (fourDigits date.year)) :
    (dayFirst runtime month separator).Prefers (twoDigits date.day ++ text)
      ⟨date.year, date.month, date.day⟩ [] := by
  rw [← List.append_nil (fourDigits date.year)] at hsecond
  refine (prefers_day h ⟨date.day_valid.1, date.day_valid.2.trans (daysIn_le _ _)⟩).bind ?_
  refine hfirst.bind (hmonth.bind (hsecond.bind ?_))
  exact (prefers_year h date.year_le).bind (prefers_pure _)

theorem strptime_of_prefers {format : Matcher DateFields} {raw : List Char}
    (h : format.Prefers raw ⟨date.year, date.month, date.day⟩ []) (hyear : 1 ≤ date.year) :
    strptime format raw = some date := by
  unfold strptime
  rw [h.exec]
  dsimp only
  rw [if_pos hyear, Date.of?_self]

theorem strptime_of_refuses {format : Matcher DateFields} {raw : List Char}
    (h : format.Refuses raw) : strptime format raw = none := by
  unfold strptime
  rw [h.exec]

end Formats

/-! ## How short a date can be -/

section Lengths

theorem takes_literal (c : Char) : Takes 0 (literal c) := (takes_char _).mono (Nat.zero_le 1)

theorem takes_year : Takes 4 (yearField runtime) :=
  ((takes_char runtime.decimal).times 4).bind fun _ => takes_pure _

theorem takes_month : Takes 1 monthField := by
  refine .oneOf fun matcher hmatcher => ?_
  simp only [List.mem_cons, List.not_mem_nil, or_false] at hmatcher
  rcases hmatcher with rfl | rfl | rfl
  · exact (takes_literal '1').bind fun _ => (takes_char _).bind fun _ => takes_pure _
  · exact (takes_literal '0').bind fun _ => takes_char _
  · exact takes_char _

theorem takes_day : Takes 1 (dayField runtime) := by
  refine .oneOf fun matcher hmatcher => ?_
  simp only [List.mem_cons, List.not_mem_nil, or_false] at hmatcher
  rcases hmatcher with rfl | rfl | rfl | rfl | rfl
  · exact (takes_literal '3').bind fun _ => (takes_char _).bind fun _ => takes_pure _
  · exact (takes_char _).bind fun _ => ((takes_char _).mono (Nat.zero_le 1)).bind fun _ =>
      takes_pure _
  · exact (takes_literal '0').bind fun _ => takes_char _
  · exact takes_char _
  · exact (takes_literal ' ').bind fun _ => takes_char _

theorem takes_word (name : List Char) : Takes name.length (word name) := by
  induction name with
  | nil => exact takes_pure ()
  | cons c name ih =>
      have hboth : Takes (1 + name.length) (word (c :: name)) := (takes_char _).bind fun _ => ih
      exact hboth.mono (by rw [List.length_cons]; omega)

theorem takes_named {names : List String} (hnames : ∀ name ∈ names, 1 ≤ name.toList.length) :
    Takes 1 (named names) := by
  refine .oneOf fun matcher hmatcher => ?_
  obtain ⟨⟨name, index⟩, hpair, rfl⟩ := List.mem_map.mp hmatcher
  exact ((takes_word name.toList).mono (hnames name (List.fst_mem_of_mem_zipIdx hpair))).bind
    fun _ => takes_pure _

theorem takes_spaces : Takes 0 spaces :=
  (((takes_char _).many1).mono (Nat.zero_le 1)).bind fun _ => takes_pure _

variable {month : Matcher Nat} {separator second : Matcher Unit}

theorem takes_yearFirst (h : Takes 0 separator) : Takes 6 (yearFirst runtime separator) :=
  takes_year.bind fun _ => h.bind fun _ => takes_month.bind fun _ => h.bind fun _ =>
    takes_day.bind fun _ => takes_pure _

theorem takes_dayFirst (hmonth : Takes 1 month) (h : Takes 0 separator) :
    Takes 6 (dayFirst runtime month separator) :=
  takes_day.bind fun _ => h.bind fun _ => hmonth.bind fun _ => h.bind fun _ =>
    takes_year.bind fun _ => takes_pure _

theorem takes_monthFirst (hmonth : Takes 1 month) (h : Takes 0 separator)
    (hsecond : Takes 0 second) : Takes 6 (monthFirst runtime month separator second) :=
  hmonth.bind fun _ => h.bind fun _ => takes_day.bind fun _ => hsecond.bind fun _ =>
    takes_year.bind fun _ => takes_pure _

theorem takes_dateFormats : ∀ format ∈ dateFormats runtime, Takes 6 format := by
  have hnames : ∀ name ∈ abbreviatedMonths ++ fullMonths, 1 ≤ name.toList.length := by
    decide
  have habbreviated : Takes 1 abbreviatedMonth :=
    takes_named fun name hname => hnames name (List.mem_append_left _ hname)
  have hfull : Takes 1 fullMonth :=
    takes_named fun name hname => hnames name (List.mem_append_right _ hname)
  have hcomma : Takes 0 (do literal ','; spaces) :=
    (takes_literal ',').bind fun _ => takes_spaces
  intro format hformat
  simp only [dateFormats, List.mem_cons, List.not_mem_nil, or_false] at hformat
  rcases hformat with rfl | rfl | rfl | rfl | rfl | rfl | rfl | rfl | rfl | rfl
  · exact takes_yearFirst (takes_literal '-')
  · exact takes_yearFirst (takes_literal '/')
  · exact takes_dayFirst takes_month (takes_literal '/')
  · exact takes_monthFirst takes_month (takes_literal '/') (takes_literal '/')
  · exact takes_dayFirst habbreviated (takes_literal '-')
  · exact takes_dayFirst habbreviated (takes_pure ())
  · exact takes_monthFirst habbreviated takes_spaces hcomma
  · exact takes_dayFirst hfull takes_spaces
  · exact takes_yearFirst (takes_pure ())
  · exact takes_dayFirst takes_month (takes_literal '.')

/-- Nothing shorter than the digits of a year, a month and a day is a date. -/
theorem parseFormats_of_short {raw : List Char} (h : raw.length < 6) :
    parseFormats runtime raw = none := by
  refine List.findSome?_eq_none_iff.mpr fun format hformat => ?_
  have hnone : strptime format raw = none := by
    unfold strptime
    split
    next fields hexec =>
      have hlength := ((takes_dateFormats format hformat) raw).exec hexec
      rw [List.length_nil] at hlength
      omega
    next => rfl
  rw [hnone]
  rfl

end Lengths

/-! ## Dates in a format -/

/-- The formats of `_DATE_FORMATS`, without the month first and a slash. -/
inductive DateFormat where
  /-- `%Y-%m-%d` -/
  | yearDash
  /-- `%Y/%m/%d` -/
  | yearSlash
  /-- `%d/%m/%Y` -/
  | daySlash
  /-- `%d-%b-%Y` -/
  | dayNameDash
  /-- `%d%b%Y` -/
  | dayName
  /-- `%b %d, %Y` -/
  | nameDay
  /-- `%d %B %Y` -/
  | dayFullName
  /-- `%Y%m%d` -/
  | compact
  /-- `%d.%m.%Y` -/
  | dayDot
deriving DecidableEq, Repr

namespace DateFormat

/-- The name of a month in a format, in small letters. -/
def monthName : DateFormat → Nat → List Char
  | .dayNameDash, month | .dayName, month | .nameDay, month =>
      ((abbreviatedMonths[month - 1]?).getD "").toList
  | .dayFullName, month => ((fullMonths[month - 1]?).getD "").toList
  | _, _ => []

/-- `strftime`, with the letters of the month's name. -/
def write (format : DateFormat) (date : Date) (month : List Char) : List Char :=
  let year := fourDigits date.year
  let number := twoDigits date.month
  let day := twoDigits date.day
  match format with
  | .yearDash => year ++ '-' :: (number ++ '-' :: day)
  | .yearSlash => year ++ '/' :: (number ++ '/' :: day)
  | .daySlash => day ++ '/' :: (number ++ '/' :: year)
  | .dayNameDash => day ++ '-' :: (month ++ '-' :: year)
  | .dayName => day ++ (month ++ year)
  | .nameDay => month ++ ' ' :: (day ++ ',' :: ' ' :: year)
  | .dayFullName => day ++ ' ' :: (month ++ ' ' :: year)
  | .compact => year ++ (number ++ day)
  | .dayDot => day ++ '.' :: (number ++ '.' :: year)

end DateFormat

/-- Letters are ASCII, and no digits. -/
theorem ascii_of_isAlpha {c : Char} (h : c.isAlpha = true) : c.toNat < 128 ∧ c.isDigit = false := by
  have hsame : c.toNat = c.val.toNat := rfl
  delta Char.isAlpha Char.isUpper Char.isLower at h
  delta Char.isDigit
  simp [UInt32.le_iff_toNat_le] at h ⊢
  omega

theorem letter_of_toLower {c : Char} (h : c.toLower.isLower = true) :
    c.toNat < 128 ∧ c.isDigit = false := by
  apply ascii_of_isAlpha
  unfold Char.toLower at h
  split at h
  next hupper => exact Bool.or_eq_true_iff.mpr (.inl (decide_eq_true hupper))
  next => exact Bool.or_eq_true_iff.mpr (.inr h)

section Written

variable {rest text : List Char} {n : Nat}

theorem refuses_literal_digit {c : Char} (hc : c.isDigit = false) (hn : n < 10) :
    (literal c).Refuses (n.digitChar :: rest) := by
  have hdigit : ∀ n < 10, n.digitChar.isDigit = true := by decide
  refine refuses_literal fun hsame => ?_
  rw [← hsame, hdigit n hn] at hc
  cases hc

theorem refuses_spaces_digit (hn : n < 10) : spaces.Refuses (n.digitChar :: rest) := by
  have hdigit : ∀ n < 10, isspace n.digitChar = false := by decide
  exact refuses_spaces (hdigit n hn)

theorem abbreviatedMonths_isLower :
    ∀ name ∈ abbreviatedMonths, name.toList.head?.any Char.isLower = true := by
  decide

theorem refuses_abbreviatedMonth {c : Char} (hc : c.toLower.isLower = false) :
    abbreviatedMonth.Refuses (c :: rest) :=
  refuses_named abbreviatedMonths_isLower hc

theorem refuses_abbreviatedMonth_digit (hn : n < 10) :
    abbreviatedMonth.Refuses (n.digitChar :: rest) := by
  have hdigit : ∀ n < 10, n.digitChar.toLower.isLower = false := by decide
  exact refuses_abbreviatedMonth (hdigit n hn)

theorem decimal_eq_none (h : ReadsAsciiDigits runtime) {c : Char} (hc : c.toNat < 128)
    (hdigit : c.isDigit = false) : runtime.decimal c = none := by
  rw [h c hc]
  unfold digit?
  rw [hdigit]
  rfl

variable {date : Date} {month : List Char}

/-- The month that is written is the month that is read. -/
theorem prefers_abbreviatedMonth
    (hmonth : month.map Char.toLower = ((abbreviatedMonths[date.month - 1]?).getD "").toList)
    (rest : List Char) : abbreviatedMonth.Prefers (month ++ rest) date.month rest := by
  obtain ⟨hpos, hle⟩ := date.month_valid
  have hlength : ∀ name ∈ abbreviatedMonths, name.toList.length = 3 := by decide
  obtain ⟨name, hname⟩ : ∃ name, abbreviatedMonths[date.month - 1]? = some name :=
    ⟨_, List.getElem?_eq_getElem (by change date.month - 1 < 12; omega)⟩
  rw [hname] at hmonth
  have hread := prefers_named hlength (by decide) hname hmonth rest
  rwa [Nat.sub_add_cancel hpos] at hread

/-- The name of a month begins with a letter. -/
theorem month_eq_cons
    (hmonth : month.map Char.toLower = ((abbreviatedMonths[date.month - 1]?).getD "").toList) :
    ∃ c letters, month = c :: letters ∧ c.toLower.isLower = true := by
  obtain ⟨hpos, hle⟩ := date.month_valid
  obtain ⟨name, hname⟩ : ∃ name, abbreviatedMonths[date.month - 1]? = some name :=
    ⟨_, List.getElem?_eq_getElem (by change date.month - 1 < 12; omega)⟩
  have hlower := abbreviatedMonths_isLower name (List.mem_of_getElem? hname)
  rw [hname, Option.getD_some] at hmonth
  rw [← hmonth, List.head?_map] at hlower
  cases month with
  | nil => cases hlower
  | cons c letters => exact ⟨c, letters, rfl, hlower⟩

/-- The first format that reads a text decides, when the earlier ones refuse it. -/
theorem parseFormats_of_refuses {raw : List Char} (earlier : List (Matcher DateFields))
    {later : List (Matcher DateFields)} {format : Matcher DateFields}
    (hsplit : dateFormats runtime = earlier ++ format :: later)
    (hearlier : ∀ format ∈ earlier, format.Refuses raw)
    (hformat : format.Prefers raw ⟨date.year, date.month, date.day⟩ [])
    (hafter : 1990 ≤ date.year) (hbefore : date.year ≤ 2100) :
    parseFormats runtime raw = some date := by
  have hnone : earlier.findSome? (fun format => (strptime format raw).filter fun parsed =>
      1990 ≤ parsed.year && parsed.year ≤ 2100) = none := by
    refine List.findSome?_eq_none_iff.mpr fun format hmem => ?_
    rw [strptime_of_refuses (hearlier format hmem)]
    rfl
  have hsome : (strptime format raw).filter (fun parsed =>
      1990 ≤ parsed.year && parsed.year ≤ 2100) = some date := by
    rw [strptime_of_prefers hformat (by omega)]
    exact Option.filter_eq_some_iff.mpr ⟨rfl, by simp [hafter, hbefore]⟩
  unfold parseFormats
  rw [hsplit, List.findSome?_append, hnone, Option.none_or, List.findSome?_cons, hsome]

/-- The formats that begin with a year refuse a text with no digit in third place. -/
theorem yearFirst_refuses_third (h : ReadsAsciiDigits runtime) {c : Char} (hc : c.toNat < 128)
    (hdigit : c.isDigit = false) (a b : Char) (separator : Matcher Unit) :
    (yearFirst runtime separator).Refuses (a :: b :: c :: rest) :=
  yearFirst_refuses (decimal_eq_none h hc hdigit)

/-- The formats with numbers and a separator after two digits refuse another separator. -/
theorem dayFirst_refuses_separator {b separator c : Char} (hb : separator ≠ b) (hc : separator ≠ c)
    (a : Char) (month : Matcher Nat) :
    (dayFirst runtime month (literal separator)).Refuses (a :: b :: c :: rest) :=
  dayFirst_refuses (refuses_literal hb.symm) (refuses_literal hc.symm)

theorem monthFirst_refuses_separator {b separator c : Char} (hb : separator ≠ b)
    (hc : separator ≠ c) (a : Char) (second : Matcher Unit) :
    (monthFirst runtime monthField (literal separator) second).Refuses (a :: b :: c :: rest) :=
  monthFirst_refuses (refuses_literal hb.symm) (refuses_literal hc.symm)

theorem digitChar_ne {c : Char} (hc : c.isDigit = false) (hn : n < 10) : c ≠ n.digitChar := by
  have hdigit : ∀ n < 10, n.digitChar.isDigit = true := by decide
  rintro rfl
  rw [hdigit n hn] at hc
  cases hc

/-- A date is read in the format it is written in. -/
theorem parseFormats_write (h : ReadsAsciiDigits runtime) {format : DateFormat}
    (hnameDay : format ≠ .nameDay) (hdayFullName : format ≠ .dayFullName)
    (hafter : 1990 ≤ date.year) (hbefore : date.year ≤ 2100)
    (hmonth : month.map Char.toLower = format.monthName date.month) :
    parseFormats runtime (format.write date month) = some date := by
  have hday : date.day ≤ 31 := date.day_valid.2.trans (daysIn_le _ _)
  have hnumber : date.month ≤ 12 := date.month_valid.2
  have hten : date.day / 10 < 10 := by omega
  have hone : date.day % 10 < 10 := by omega
  have hyear : ∀ n ∈ [date.year / 100 / 10, date.year / 100 % 10, date.year % 100 / 10,
      date.year % 100 % 10], n < 10 := by
    intro n hn
    simp only [List.mem_cons, List.not_mem_nil, or_false] at hn
    omega
  simp only [List.forall_mem_cons] at hyear
  obtain ⟨hfirst, hsecond, hthird, hfourth, -⟩ := hyear
  cases format with
  | nameDay => exact absurd rfl hnameDay
  | dayFullName => exact absurd rfl hdayFullName
  | yearDash =>
      refine parseFormats_of_refuses [] rfl nofun ?_ hafter hbefore
      exact prefers_yearFirst h (prefers_literal '-') (prefers_literal '-')
  | yearSlash =>
      refine parseFormats_of_refuses [_] rfl ?_ ?_ hafter hbefore
      · rw [List.forall_mem_singleton]
        exact yearFirst_refuses_separator (refuses_literal (by decide))
      · exact prefers_yearFirst h (prefers_literal '/') (prefers_literal '/')
  | daySlash =>
      refine parseFormats_of_refuses [_, _] rfl ?_ ?_ hafter hbefore
      · simp only [List.forall_mem_cons, List.not_mem_nil, false_imp_iff, implies_true, and_true]
        exact ⟨yearFirst_refuses_third h (by decide) rfl _ _ _,
          yearFirst_refuses_third h (by decide) rfl _ _ _⟩
      · exact prefers_dayFirst h (prefers_literal '/')
          (prefers_month date.month_valid) (prefers_literal '/')
  | dayNameDash =>
      refine parseFormats_of_refuses [_, _, _, _] rfl ?_ ?_ hafter hbefore
      · simp only [List.forall_mem_cons, List.not_mem_nil, false_imp_iff, implies_true, and_true]
        exact ⟨yearFirst_refuses_third h (by decide) rfl _ _ _,
          yearFirst_refuses_third h (by decide) rfl _ _ _,
          dayFirst_refuses_separator (digitChar_ne rfl hone) (by decide) _ _,
          monthFirst_refuses_separator (digitChar_ne rfl hone) (by decide) _ _⟩
      · exact prefers_dayFirst h (prefers_literal '-')
          (prefers_abbreviatedMonth hmonth _) (prefers_literal '-')
  | dayName =>
      have hread := prefers_abbreviatedMonth hmonth (fourDigits date.year)
      obtain ⟨c, letters, rfl, hlower⟩ := month_eq_cons hmonth
      obtain ⟨hascii, hletter⟩ := letter_of_toLower hlower
      have hslash : '/' ≠ c := by
        rintro rfl
        exact absurd hlower (by decide)
      have hdash : '-' ≠ c := by
        rintro rfl
        exact absurd hlower (by decide)
      refine parseFormats_of_refuses [_, _, _, _, _] rfl ?_ ?_ hafter hbefore
      · simp only [List.forall_mem_cons, List.not_mem_nil, false_imp_iff, implies_true, and_true]
        exact ⟨yearFirst_refuses_third h hascii hletter _ _ _,
          yearFirst_refuses_third h hascii hletter _ _ _,
          dayFirst_refuses_separator (digitChar_ne rfl hone) hslash _ _,
          monthFirst_refuses_separator (digitChar_ne rfl hone) hslash _ _,
          dayFirst_refuses_separator (digitChar_ne rfl hone) hdash _ _⟩
      · exact prefers_dayFirst h (prefers_pure ()) hread (prefers_pure ())
  | compact =>
      refine parseFormats_of_refuses [_, _, _, _, _, _, _, _] rfl ?_ ?_ hafter hbefore
      · simp only [List.forall_mem_cons, List.not_mem_nil, false_imp_iff, implies_true, and_true]
        exact ⟨yearFirst_refuses_separator (refuses_literal_digit rfl (by omega)),
          yearFirst_refuses_separator (refuses_literal_digit rfl (by omega)),
          dayFirst_refuses_separator (digitChar_ne rfl hsecond) (digitChar_ne rfl hthird) _ _,
          monthFirst_refuses_separator (digitChar_ne rfl hsecond) (digitChar_ne rfl hthird) _ _,
          dayFirst_refuses_separator (digitChar_ne rfl hsecond) (digitChar_ne rfl hthird) _ _,
          dayFirst_refuses_month (refuses_abbreviatedMonth_digit hsecond)
            (refuses_abbreviatedMonth_digit hthird),
          monthFirst_refuses_month (refuses_abbreviatedMonth_digit hfirst),
          dayFirst_refuses (refuses_spaces_digit hsecond) (refuses_spaces_digit hthird)⟩
      · exact prefers_yearFirst h (prefers_pure ()) (prefers_pure ())
  | dayDot =>
      refine parseFormats_of_refuses [_, _, _, _, _, _, _, _, _] rfl ?_ ?_ hafter
        hbefore
      · simp only [List.forall_mem_cons, List.not_mem_nil, false_imp_iff, implies_true, and_true]
        exact ⟨yearFirst_refuses_third h (by decide) rfl _ _ _,
          yearFirst_refuses_third h (by decide) rfl _ _ _,
          dayFirst_refuses_separator (digitChar_ne rfl hone) (by decide) _ _,
          monthFirst_refuses_separator (digitChar_ne rfl hone) (by decide) _ _,
          dayFirst_refuses_separator (digitChar_ne rfl hone) (by decide) _ _,
          dayFirst_refuses_month (refuses_abbreviatedMonth_digit hone)
            (refuses_abbreviatedMonth rfl),
          monthFirst_refuses_month (refuses_abbreviatedMonth_digit hten),
          dayFirst_refuses (refuses_spaces_digit hone) (refuses_spaces rfl),
          yearFirst_refuses_third h (by decide) rfl _ _ _⟩
      · exact prefers_dayFirst h (prefers_literal '.')
          (prefers_month date.month_valid) (prefers_literal '.')

end Written

/-! ## A time behind the date -/

section Times

variable {text suffix first : List Char}

/-- A text is cut before such a character. -/
def cuts (c : Char) : Bool := c = 'T' || c = ' '

theorem takeWhile_eq (text : List Char) :
    (text.takeWhile fun c => c ≠ 'T' && c ≠ ' ') = text.takeWhile fun c => !cuts c := by
  refine congrArg (fun p => text.takeWhile p) (funext fun c => ?_)
  simp [cuts]

theorem stripChars_length (text : List Char) : (stripChars text).length ≤ text.length := by
  unfold stripChars
  rw [List.length_reverse]
  refine (List.dropWhile_suffix _).length_le.trans ?_
  rw [List.length_reverse]
  exact (List.dropWhile_suffix _).length_le

/-- Only what follows the text is stripped. -/
theorem stripChars_append (suffix : List Char) {front : List Char} {head last : Char}
    (hhead : text.head? = some head) (hlast : text = front ++ [last])
    (hheadSpace : isspace head = false) (hlastSpace : isspace last = false) :
    ∃ kept, kept <+: suffix ∧ stripChars (text ++ suffix) = text ++ kept := by
  have hfront : (text ++ suffix).dropWhile isspace = text ++ suffix := by
    obtain ⟨rest, hcons⟩ := List.head?_eq_some_iff.mp hhead
    rw [hcons, List.cons_append,
      List.dropWhile_cons_of_neg (by rw [hheadSpace]; exact Bool.false_ne_true)]
  have hend : text.reverse.dropWhile isspace = text.reverse := by
    rw [hlast, List.reverse_append, List.reverse_singleton, List.singleton_append,
      List.dropWhile_cons_of_neg (by rw [hlastSpace]; exact Bool.false_ne_true)]
  unfold stripChars
  rw [hfront, List.reverse_append, List.dropWhile_append, hend]
  split
  next => exact ⟨[], List.nil_prefix, by rw [List.reverse_reverse, List.append_nil]⟩
  next =>
    refine ⟨(suffix.reverse.dropWhile isspace).reverse, ?_, by
      rw [List.reverse_append, List.reverse_reverse]⟩
    rw [← List.reverse_suffix, List.reverse_reverse]
    exact List.dropWhile_suffix _

/-- A text without a cut is what is left of it. -/
theorem takeWhile_of_prefix {kept : List Char} (htext : ∀ c ∈ text, cuts c = false)
    (hsuffix : ∀ c ∈ suffix.head?, cuts c = true) (hkept : kept <+: suffix) :
    ((text ++ kept).takeWhile fun c => !cuts c) = text := by
  rw [List.takeWhile_append_of_pos fun c hc => by rw [htext c hc]; rfl]
  cases kept with
  | nil => exact List.append_nil text
  | cons c kept =>
      obtain ⟨rest, rfl⟩ := hkept
      have hcut : cuts c = true := hsuffix c rfl
      rw [List.takeWhile_cons_of_neg (by rw [hcut]; exact Bool.false_ne_true), List.append_nil]

/-- A cut within the first characters leaves fewer than these. -/
theorem takeWhile_length_lt {c : Char} (hc : c ∈ first) (hcut : cuts c = true) (rest : List Char) :
    ((first ++ rest).takeWhile fun c => !cuts c).length < first.length := by
  obtain ⟨front, back, rfl⟩ := List.append_of_mem hc
  have hstop : (c :: back ++ rest).takeWhile (fun c => !cuts c) = [] :=
    List.takeWhile_cons_of_neg (by rw [hcut]; exact Bool.false_ne_true)
  rw [List.append_assoc, List.takeWhile_append, hstop]
  have hle := (List.takeWhile_prefix (l := front) fun c => !cuts c).length_le
  split
  · rw [List.length_append, List.length_append, List.length_cons, List.length_nil]
    omega
  · rw [List.length_append, List.length_cons]
    omega

variable {format : DateFormat} {date : Date} {month : List Char} {c : Char}

theorem mem_twoDigits {n : Nat} (hn : n < 100) (hc : c ∈ twoDigits n) : ∃ m < 10, c = m.digitChar := by
  rcases List.mem_cons.mp hc with rfl | hc
  · exact ⟨n / 10, by omega, rfl⟩
  · exact ⟨n % 10, by omega, List.mem_singleton.mp hc⟩

theorem mem_fourDigits {n : Nat} (hn : n ≤ 9999) (hc : c ∈ fourDigits n) :
    ∃ m < 10, c = m.digitChar := by
  rcases List.mem_append.mp hc with hc | hc
  · exact mem_twoDigits (by omega) hc
  · exact mem_twoDigits (by omega) hc

theorem digitChar_plain : ∀ n < 10, cuts n.digitChar = false ∧ isspace n.digitChar = false := by
  decide

/-- A date begins with a character that is not stripped. -/
theorem write_head (date : Date)
    (hmonth : month.map Char.toLower = format.monthName date.month) :
    ∃ head, (format.write date month).head? = some head ∧ isspace head = false := by
  have hday : date.day / 10 < 10 := by
    have := date.day_valid.2.trans (daysIn_le date.year date.month)
    omega
  have hyear : date.year / 100 / 10 < 10 := by
    have := date.year_le
    omega
  cases format with
  | yearDash | yearSlash | compact => exact ⟨_, rfl, (digitChar_plain _ hyear).2⟩
  | nameDay =>
      obtain ⟨c, letters, rfl, hlower⟩ := month_eq_cons hmonth
      have hletter := letter_of_toLower hlower
      have hspace : ∀ n < 128, (Char.ofNat n).toLower.isLower = true →
          isspace (Char.ofNat n) = false := by
        decide
      refine ⟨c, rfl, ?_⟩
      have hchecked := hspace c.toNat hletter.1
      rw [Char.ofNat_toNat] at hchecked
      exact hchecked hlower
  | _ => exact ⟨_, rfl, (digitChar_plain _ hday).2⟩

/-- A date ends with a digit. -/
theorem write_last (format : DateFormat) (date : Date) (month : List Char) :
    ∃ front last, format.write date month = front ++ [last] ∧ isspace last = false := by
  have hyear : ∀ front : List Char, ∃ front' last,
      front ++ fourDigits date.year = front' ++ [last] ∧ isspace last = false := by
    intro front
    refine ⟨front ++ (twoDigits (date.year / 100) ++ [(date.year % 100 / 10).digitChar]),
      (date.year % 100 % 10).digitChar, ?_, (digitChar_plain _ (Nat.mod_lt _ (by decide))).2⟩
    rw [List.append_assoc]
    rfl
  have hday : ∀ front : List Char, ∃ front' last,
      front ++ twoDigits date.day = front' ++ [last] ∧ isspace last = false := by
    intro front
    refine ⟨front ++ [(date.day / 10).digitChar], (date.day % 10).digitChar, ?_,
      (digitChar_plain _ (Nat.mod_lt _ (by decide))).2⟩
    rw [List.append_assoc]
    rfl
  cases format with
  | yearDash => exact hday (fourDigits date.year ++ '-' :: (twoDigits date.month ++ ['-']))
  | yearSlash => exact hday (fourDigits date.year ++ '/' :: (twoDigits date.month ++ ['/']))
  | compact => exact hday (fourDigits date.year ++ twoDigits date.month)
  | daySlash => exact hyear (twoDigits date.day ++ '/' :: (twoDigits date.month ++ ['/']))
  | dayDot => exact hyear (twoDigits date.day ++ '.' :: (twoDigits date.month ++ ['.']))
  | dayNameDash => simpa [DateFormat.write] using hyear (twoDigits date.day ++ '-' :: (month ++ ['-']))
  | dayName => simpa [DateFormat.write] using hyear (twoDigits date.day ++ month)
  | nameDay => simpa [DateFormat.write] using hyear (month ++ ' ' :: (twoDigits date.day ++ [',', ' ']))
  | dayFullName => simpa [DateFormat.write] using hyear (twoDigits date.day ++ ' ' :: (month ++ [' ']))

theorem mem_digits_plain (hc : c ∈ fourDigits date.year ∨ c ∈ twoDigits date.month ∨
    c ∈ twoDigits date.day) : cuts c = false := by
  have hday := date.day_valid.2.trans (daysIn_le date.year date.month)
  have hnumber := date.month_valid.2
  obtain ⟨n, hn, rfl⟩ : ∃ n < 10, c = n.digitChar := by
    rcases hc with hc | hc | hc
    · exact mem_fourDigits date.year_le hc
    · exact mem_twoDigits (by omega) hc
    · exact mem_twoDigits (by omega) hc
  exact (digitChar_plain n hn).1

/-- The name of a month in a format with a dash or nothing behind the day has
three letters. -/
theorem month_letters
    (hmonth : month.map Char.toLower = ((abbreviatedMonths[date.month - 1]?).getD "").toList) :
    month.length = 3 ∧ ' ' ∉ month := by
  obtain ⟨hpos, hle⟩ := date.month_valid
  obtain ⟨name, hname⟩ : ∃ name, abbreviatedMonths[date.month - 1]? = some name :=
    ⟨_, List.getElem?_eq_getElem (by change date.month - 1 < 12; omega)⟩
  have hletters : ∀ name ∈ abbreviatedMonths, name.toList.length = 3 ∧ ' ' ∉ name.toList := by
    decide
  obtain ⟨hlength, hspace⟩ := hletters name (List.mem_of_getElem? hname)
  rw [hname, Option.getD_some] at hmonth
  rw [← hmonth] at hlength hspace
  exact ⟨by rwa [List.length_map] at hlength, fun hmem => hspace (List.mem_map_of_mem hmem)⟩

/-- The date keeps clear of the characters at which a time begins. -/
def Clear (format : DateFormat) (month : List Char) : Prop :=
  format ≠ .nameDay ∧ format ≠ .dayFullName ∧ 'T' ∉ month

theorem cuts_of_clear (hmonth : month.map Char.toLower = format.monthName date.month)
    (hclear : Clear format month) : ∀ c ∈ format.write date month, cuts c = false := by
  obtain ⟨hnameDay, hdayFullName, hletter⟩ := hclear
  have hname : ∀ c ∈ month, ' ' ∉ month → cuts c = false := by
    intro c hc hspace
    have hT : c ≠ 'T' := fun hsame => hletter (hsame ▸ hc)
    have hblank : c ≠ ' ' := fun hsame => hspace (hsame ▸ hc)
    simp [cuts, hT, hblank]
  have hdash : cuts '-' = false := rfl
  have hslash : cuts '/' = false := rfl
  have hdot : cuts '.' = false := rfl
  intro c hc
  cases format with
  | nameDay => exact absurd rfl hnameDay
  | dayFullName => exact absurd rfl hdayFullName
  | dayNameDash =>
      simp only [DateFormat.write, List.mem_append, List.mem_cons] at hc
      rcases hc with hc | rfl | hc | rfl | hc
      · exact mem_digits_plain (.inr (.inr hc))
      · exact hdash
      · exact hname c hc (month_letters hmonth).2
      · exact hdash
      · exact mem_digits_plain (.inl hc)
  | dayName =>
      simp only [DateFormat.write, List.mem_append] at hc
      rcases hc with hc | hc | hc
      · exact mem_digits_plain (.inr (.inr hc))
      · exact hname c hc (month_letters hmonth).2
      · exact mem_digits_plain (.inl hc)
  | _ =>
      simp only [DateFormat.write, List.mem_append, List.mem_cons] at hc
      have hdigits : c ∈ fourDigits date.year ∨ c ∈ twoDigits date.month ∨
          c ∈ twoDigits date.day → cuts c = false := mem_digits_plain
      grind

/-- A date that is not clear is cut within its first six characters. -/
theorem exists_cut (hmonth : month.map Char.toLower = format.monthName date.month)
    (hclear : ¬ Clear format month) : ∃ first rest c, format.write date month = first ++ rest ∧
      first.length ≤ 6 ∧ c ∈ first ∧ cuts c = true := by
  cases format with
  | nameDay =>
      refine ⟨month ++ [' '], _, ' ', List.append_cons .., ?_, by simp, rfl⟩
      rw [List.length_append, (month_letters hmonth).1]
      decide
  | dayFullName =>
      exact ⟨twoDigits date.day ++ [' '], _, ' ', List.append_cons .., by simp [twoDigits],
        by simp, rfl⟩
  | dayNameDash =>
      have hmem : 'T' ∈ month := by simpa [Clear] using hclear
      refine ⟨twoDigits date.day ++ '-' :: month, '-' :: fourDigits date.year, 'T', ?_, ?_, ?_, rfl⟩
      · simp [DateFormat.write]
      · rw [List.length_append, List.length_cons, (month_letters hmonth).1]
        exact le_rfl
      · exact List.mem_append_right _ (List.mem_cons_of_mem _ hmem)
  | dayName =>
      have hmem : 'T' ∈ month := by simpa [Clear] using hclear
      refine ⟨twoDigits date.day ++ month, fourDigits date.year, 'T', ?_, ?_, ?_, rfl⟩
      · simp [DateFormat.write]
      · rw [List.length_append, (month_letters hmonth).1]
        simp [twoDigits]
      · exact List.mem_append_right _ hmem
  | _ =>
      obtain rfl := List.map_eq_nil_iff.mp hmonth
      exact absurd ⟨by simp, by simp, List.not_mem_nil⟩ hclear

/-- The parser works on the date and what is kept of the time. -/
theorem parseDate_write (runtime : Runtime)
    (hmonth : month.map Char.toLower = format.monthName date.month)
    (suffix : List Char) : ∃ kept, kept <+: suffix ∧
      parseDate runtime (String.ofList (format.write date month ++ suffix)) =
        if stripChars ((format.write date month ++ kept).takeWhile fun c => !cuts c) = [] then none
        else (parseFormats runtime
          (stripChars ((format.write date month ++ kept).takeWhile fun c => !cuts c))).map
          Date.ordinal := by
  obtain ⟨head, hhead, hheadSpace⟩ := write_head date hmonth
  obtain ⟨front, last, hlast, hlastSpace⟩ := write_last format date month
  obtain ⟨kept, hkept, hstrip⟩ := stripChars_append suffix hhead hlast hheadSpace
    hlastSpace
  have hne : format.write date month ++ kept ≠ [] := by
    intro hnil
    rw [(List.append_eq_nil_iff.mp hnil).1] at hhead
    cases hhead
  refine ⟨kept, hkept, ?_⟩
  unfold parseDate
  dsimp only
  rw [String.toList_ofList, hstrip, if_neg hne, takeWhile_eq]

/-- A date that is not clear is not read at all. -/
theorem parseDate_of_not_clear (runtime : Runtime) (date : Date)
    (hmonth : month.map Char.toLower = format.monthName date.month)
    (hclear : ¬ Clear format month) (suffix : List Char) :
    parseDate runtime (String.ofList (format.write date month ++ suffix)) = none := by
  obtain ⟨kept, -, hparse⟩ := parseDate_write runtime hmonth suffix
  obtain ⟨first, rest, c, hsplit, hlength, hc, hcut⟩ := exists_cut hmonth hclear
  have hshort : (stripChars ((format.write date month ++ kept).takeWhile fun c => !cuts c)).length
      < 6 := by
    refine (stripChars_length _).trans_lt ?_
    rw [hsplit, List.append_assoc]
    exact (takeWhile_length_lt hc hcut _).trans_le hlength
  rw [hparse, parseFormats_of_short hshort]
  exact ite_self none

/-- A date that is written in one of the formats, with a time behind it, is read
back exactly when the date itself keeps clear of the characters at which a time
begins: it has no space in it, and no capital T in the name of its month. -/
theorem date_text_round_trip (runtime : Runtime) (h : ReadsAsciiDigits runtime)
    (format : DateFormat) (date : Date) (hafter : 1990 ≤ date.year) (hbefore : date.year ≤ 2100)
    (month : List Char) (hmonth : month.map Char.toLower = format.monthName date.month)
    (suffix : List Char) (hsuffix : ∀ c ∈ suffix.head?, c = ' ' ∨ c = 'T') :
    parseDate runtime (String.ofList (format.write date month ++ suffix)) = some date.ordinal ↔
      format ≠ .nameDay ∧ format ≠ .dayFullName ∧ 'T' ∉ month := by
  constructor
  · intro hread
    by_contra hclear
    rw [parseDate_of_not_clear runtime date hmonth hclear] at hread
    cases hread
  · intro hclear
    obtain ⟨kept, hkept, hparse⟩ := parseDate_write runtime hmonth suffix
    obtain ⟨head, hhead, hheadSpace⟩ := write_head date hmonth
    obtain ⟨front, last, hlast, hlastSpace⟩ := write_last format date month
    have hcuts : ∀ c ∈ suffix.head?, cuts c = true := by
      intro c hc
      rcases hsuffix c hc with rfl | rfl <;> rfl
    have hplain : stripChars (format.write date month) = format.write date month := by
      obtain ⟨none, hnone, hsame⟩ := stripChars_append [] hhead hlast hheadSpace
        hlastSpace
      rw [List.append_nil, List.prefix_nil.mp hnone, List.append_nil] at hsame
      exact hsame
    have hempty : format.write date month ≠ [] := by
      intro hnil
      rw [hnil] at hhead
      cases hhead
    rw [hparse, takeWhile_of_prefix (cuts_of_clear hmonth hclear) hcuts hkept, hplain,
      if_neg hempty, parseFormats_write h hclear.1 hclear.2.1 hafter hbefore hmonth]
    rfl

end Times

/-- 28 August 2026. -/
def friday : Date where
  year := 2026
  month := 8
  day := 28
  year_le := by decide
  month_valid := by decide
  day_valid := by decide

theorem date_text_round_trip_friday :
    parseDate .ascii (String.ofList (DateFormat.dayNameDash.write friday "AUG".toList ++
      " 17:30:00".toList)) = some friday.ordinal :=
  (date_text_round_trip .ascii readsAsciiDigits_ascii .dayNameDash friday (by decide) (by decide)
    "AUG".toList (by decide) " 17:30:00".toList fun _ h => .inl (Option.some.inj h).symm).mpr
    ⟨nofun, nofun, by decide⟩

/-- 31 October 2026. -/
def halloween : Date where
  year := 2026
  month := 10
  day := 31
  year_le := by decide
  month_valid := by decide
  day_valid := by decide

/-- The cut takes the day and the year, or the end of the month. -/
theorem cut_within_date :
    (DateFormat.nameDay.write friday "Aug".toList = "Aug 28, 2026".toList ∧
      parseDate .ascii (String.ofList (DateFormat.nameDay.write friday "Aug".toList)) = none) ∧
    (DateFormat.dayNameDash.write halloween "OCT".toList = "31-OCT-2026".toList ∧
      parseDate .ascii (String.ofList (DateFormat.dayNameDash.write halloween "OCT".toList)) =
        none) := by
  have hfriday : ¬ Clear .nameDay "Aug".toList := fun hclear => hclear.1 rfl
  have hhalloween : ¬ Clear .dayNameDash "OCT".toList := fun hclear =>
    hclear.2.2 (by decide)
  have hcut := parseDate_of_not_clear .ascii friday (by decide)
    hfriday []
  have hcut' := parseDate_of_not_clear .ascii halloween (by decide)
    hhalloween []
  rw [List.append_nil] at hcut hcut'
  exact ⟨⟨by decide, hcut⟩, by decide, hcut'⟩

end Harbormaster.Inspector
