import Harbormaster.Inspector.DateText

/-! # Dates in filenames

A filename may hold several pieces of the shapes that the filename pattern knows.
The pattern finds the first of them, and only that one is read as a date.
-/

namespace Harbormaster.Inspector

open Matching Matcher Civil

section Tokens

variable (runtime : Runtime)

/-- A number of decimal digits. -/
def Digits (count : Nat) (text : List Char) : Prop :=
  text.length = count ∧ ∀ c ∈ text, (runtime.decimal c).isSome = true

/-- A piece of a text, in one of the three shapes of the filename pattern, with
what stands before it and after it. -/
inductive Token (before : List Char) : List Char → List Char → Prop
  | iso {year month day : List Char} (after : List Char) (hyear : Digits runtime 4 year)
      (hmonth : Digits runtime 2 month) (hday : Digits runtime 2 day) :
      Token before (year ++ '-' :: (month ++ '-' :: day)) after
  | compact {text after : List Char} (htext : Digits runtime 8 text)
      (hbefore : ∀ c ∈ before.getLast?, runtime.decimal c = none)
      (hafter : ∀ c ∈ after.head?, runtime.decimal c = none) : Token before text after
  | dmy {day month year : List Char} (after : List Char) (hday : Digits runtime 2 day)
      (hmonth : month.length = 3 ∧ ∀ c ∈ month, c.isAlpha = true) (hyear : Digits runtime 4 year) :
      Token before (day ++ (month ++ year)) after

/-- The token stands in the name, behind `before`. -/
def TokenIn (name before text : List Char) : Prop :=
  ∃ after, name = before ++ (text ++ after) ∧ Token runtime before text after

end Tokens

variable {runtime : Runtime} {before text after : List Char}

/-! ## The pattern and the tokens -/

theorem any_isSome_eq_false {c : Option Char} :
    (!c.any fun c => (runtime.decimal c).isSome) = true ↔ ∀ c' ∈ c, runtime.decimal c' = none := by
  cases c with
  | none => simp
  | some c => cases h : runtime.decimal c <;> simp [h]

/-- What the pattern reads is a token. -/
theorem reads_filenameDate (rest : List Char) :
    (filenameDate runtime).Reads before.reverse rest fun result read after =>
      result = read ∧ Token runtime before read after := by
  have hdash (c : Char) {before text : List Char} :
      (literal c).Reads before text fun _ read _ => read = [c] :=
    reads_literal fun _ => rfl
  refine Reads.oneOf fun matcher hmatcher => ?_
  simp only [List.mem_cons, List.not_mem_nil, or_false] at hmatcher
  rcases hmatcher with rfl | rfl | rfl
  · refine Reads.captured ((reads_times runtime.decimal 4).bind ?_)
    rintro _ year _ hyear
    refine (hdash '-').bind ?_
    rintro _ _ _ rfl
    refine (reads_times runtime.decimal 2).bind ?_
    rintro _ month _ hmonth
    refine (hdash '-').bind ?_
    rintro _ _ _ rfl
    refine (reads_times runtime.decimal 2).bind ?_
    rintro _ day rest hday
    refine reads_pure ⟨rfl, ?_⟩
    rw [List.append_nil]
    exact .iso rest hyear hmonth hday
  · have hbehind : (behind fun c => !c.any fun c => (runtime.decimal c).isSome).Reads
        before.reverse rest fun _ read _ => read = [] ∧
          ∀ c ∈ before.getLast?, runtime.decimal c = none := by
      refine reads_behind fun hpast => ⟨rfl, ?_⟩
      rw [List.head?_reverse] at hpast
      exact any_isSome_eq_false.mp hpast
    refine Reads.captured (hbehind.bind ?_)
    rintro _ _ _ ⟨rfl, hbefore⟩
    refine (reads_times runtime.decimal 8).bind ?_
    rintro _ digits rest hdigits
    have hahead {before : List Char} :
        (ahead fun rest => !(rest.head?.any fun c => (runtime.decimal c).isSome)).Reads before rest
          fun _ read after => read = [] ∧ ∀ c ∈ after.head?, runtime.decimal c = none :=
      reads_ahead fun hnext => ⟨rfl, any_isSome_eq_false.mp hnext⟩
    refine hahead.bind ?_
    rintro _ _ after ⟨rfl, hafter⟩
    refine reads_pure ⟨rfl, ?_⟩
    rw [List.append_nil, List.append_nil]
    exact .compact hdigits hbefore hafter
  · refine Reads.captured ((reads_times runtime.decimal 2).bind ?_)
    rintro _ day _ hday
    have hletters {before text : List Char} : (times (satisfy Char.isAlpha) 3).Reads before text
        fun _ read _ => read.length = 3 ∧ ∀ c ∈ read, c.isAlpha = true := by
      refine (reads_times _ 3).mono fun _ read _ hread => ⟨hread.1, fun c hc => ?_⟩
      by_contra halpha
      have hsome := hread.2 c hc
      rw [if_neg halpha] at hsome
      cases hsome
    refine hletters.bind ?_
    rintro _ month _ hmonth
    refine (reads_times runtime.decimal 4).bind ?_
    rintro _ year rest hyear
    refine reads_pure ⟨rfl, ?_⟩
    rw [List.append_nil]
    exact .dmy rest hday hmonth hyear

theorem captured_ne_nil {α : Type} {matcher : Matcher α} {cursor : Cursor}
    (h : matcher cursor ≠ []) : captured matcher cursor ≠ [] :=
  fun hnil => h (List.map_eq_nil_iff.mp hnil)

theorem oneOf_ne_nil {α : Type} {matchers : List (Matcher α)} {matcher : Matcher α}
    {cursor : Cursor} (hmem : matcher ∈ matchers) (h : matcher cursor ≠ []) :
    oneOf matchers cursor ≠ [] := by
  obtain ⟨reading, hreading⟩ := List.exists_mem_of_ne_nil _ h
  exact List.ne_nil_of_mem (List.mem_flatMap.mpr ⟨matcher, hmem, hreading⟩)

theorem Digits.prefers {count : Nat} (h : Digits runtime count text) (rest : List Char) :
    ∃ values, (times (digit runtime) count).Prefers (text ++ rest) values rest := by
  obtain ⟨rfl, hdigits⟩ := h
  exact prefers_times hdigits rest

/-- The pattern reads every token. -/
theorem filenameDate_ne_nil (h : Token runtime before text after) :
    filenameDate runtime ⟨before.reverse, text ++ after⟩ ≠ [] := by
  cases h with
  | @iso year month day after hyear hmonth hday =>
      have hjoin : year ++ '-' :: (month ++ '-' :: day) ++ after =
          year ++ ('-' :: (month ++ ('-' :: (day ++ after)))) := by
        simp
      obtain ⟨years, hyear⟩ := hyear.prefers ('-' :: (month ++ ('-' :: (day ++ after))))
      obtain ⟨months, hmonth⟩ := hmonth.prefers ('-' :: (day ++ after))
      obtain ⟨days, hday⟩ := hday.prefers after
      refine oneOf_ne_nil List.mem_cons_self (captured_ne_nil ?_)
      rw [hjoin]
      refine @Prefers.ne_nil _ _ _ after () ?_ _
      refine hyear.bind ((prefers_literal '-').bind ?_)
      refine hmonth.bind ((prefers_literal '-').bind ?_)
      exact hday.bind (prefers_pure ())
  | compact htext hbefore hafter =>
      obtain ⟨values, htext⟩ := htext.prefers after
      refine oneOf_ne_nil (List.mem_cons_of_mem _ List.mem_cons_self) (captured_ne_nil ?_)
      have hbehind : (!before.reverse.head?.any fun c => (runtime.decimal c).isSome) = true := by
        rw [List.head?_reverse]
        exact any_isSome_eq_false.mpr hbefore
      change List.flatMap _ (behind _ _) ≠ []
      unfold behind
      rw [if_pos hbehind, List.flatMap_cons, List.flatMap_nil, List.append_nil]
      dsimp only
      refine @Prefers.ne_nil _ _ _ after () ?_ _
      exact htext.bind ((prefers_ahead (any_isSome_eq_false.mpr hafter)).bind (prefers_pure ()))
  | @dmy day month year after hday hmonth hyear =>
      have hletters : ∀ c ∈ month, (if c.isAlpha = true then some c else none).isSome = true := by
        intro c hc
        rw [if_pos (hmonth.2 c hc)]
        rfl
      obtain ⟨days, hday⟩ := hday.prefers (month ++ (year ++ after))
      obtain ⟨letters, hmonth'⟩ := prefers_times hletters (year ++ after)
      obtain ⟨years, hyear⟩ := hyear.prefers after
      rw [hmonth.1] at hmonth'
      refine oneOf_ne_nil (List.mem_cons_of_mem _ (List.mem_cons_of_mem _ List.mem_cons_self))
        (captured_ne_nil ?_)
      rw [List.append_assoc, List.append_assoc]
      refine @Prefers.ne_nil _ _ _ after () ?_ _
      exact hday.bind (hmonth'.bind (hyear.bind (prefers_pure ())))

/-! ## One token at a position -/

theorem not_decimal_of_isAlpha (h : ReadsAsciiDigits runtime) {c : Char} (hc : c.isAlpha = true) :
    runtime.decimal c = none := by
  obtain ⟨hascii, hdigit⟩ := ascii_of_isAlpha hc
  exact decimal_eq_none h hascii hdigit

/-- How the third and the fifth character and the length of a token tell its shape. -/
inductive Shaped (runtime : Runtime) (text : List Char) : Prop
  | iso (hlength : text.length = 10) (hthird : ∃ c, text[2]? = some c ∧ (runtime.decimal c).isSome)
      (hfifth : text[4]? = some '-')
  | compact (hlength : text.length = 8)
      (hthird : ∃ c, text[2]? = some c ∧ (runtime.decimal c).isSome)
      (hfifth : ∃ c, text[4]? = some c ∧ (runtime.decimal c).isSome)
  | dmy (hlength : text.length = 9) (hthird : ∃ c, text[2]? = some c ∧ c.isAlpha = true)

theorem Digits.getElem? {count : Nat} (h : Digits runtime count text) {index : Nat}
    (hindex : index < count) (rest : List Char) :
    ∃ c, (text ++ rest)[index]? = some c ∧ (runtime.decimal c).isSome := by
  have hbound : index < text.length := h.1.symm ▸ hindex
  exact ⟨text[index], by rw [List.getElem?_append_left hbound, List.getElem?_eq_getElem hbound],
    h.2 _ (List.getElem_mem hbound)⟩

theorem Token.shaped (h : Token runtime before text after) : Shaped runtime text := by
  cases h with
  | @iso year month day after hyear hmonth hday =>
      refine .iso ?_ (hyear.getElem? (by decide) _) ?_
      · simp [hyear.1, hmonth.1, hday.1]
      · rw [List.getElem?_append_right (by rw [hyear.1]), hyear.1]
        rfl
  | compact htext hbefore hafter =>
      have hthird := htext.getElem? (by decide : 2 < 8) []
      have hfifth := htext.getElem? (by decide : 4 < 8) []
      rw [List.append_nil] at hthird hfifth
      exact .compact htext.1 hthird hfifth
  | @dmy day month year after hday hmonth hyear =>
      refine .dmy ?_ ?_
      · simp [hday.1, hmonth.1, hyear.1]
      · have hbound : 0 < month.length := hmonth.1 ▸ (by decide)
        refine ⟨month[0], ?_, hmonth.2 _ (List.getElem_mem hbound)⟩
        rw [List.getElem?_append_right (by rw [hday.1]), hday.1,
          List.getElem?_append_left hbound, List.getElem?_eq_getElem hbound]

theorem Shaped.length_ge (h : Shaped runtime text) : 8 ≤ text.length := by
  rcases h with ⟨hlength, -, -⟩ | ⟨hlength, -, -⟩ | ⟨hlength, -⟩ <;> omega

/-- Texts of two shapes differ in the third or the fifth character. -/
theorem Shaped.length_eq (h : ReadsAsciiDigits runtime) {text' : List Char}
    (hshaped : Shaped runtime text) (hshaped' : Shaped runtime text')
    (hthird : text[2]? = text'[2]?) (hfifth : text[4]? = text'[4]?) :
    text.length = text'.length := by
  have hdash : ∀ c, some '-' = some c → (runtime.decimal c).isSome ≠ true := by
    rintro _ ⟨⟩ hsome
    rw [decimal_eq_none h (by decide) rfl] at hsome
    cases hsome
  have hletter : ∀ c c', some c = some c' → (runtime.decimal c).isSome = true →
      c'.isAlpha ≠ true := by
    rintro c _ ⟨⟩ hsome halpha
    rw [not_decimal_of_isAlpha h halpha] at hsome
    cases hsome
  cases hshaped with
  | iso hlength hdigit hsign =>
      obtain ⟨c, hc, hdigit⟩ := hdigit
      cases hshaped' with
      | iso hlength' _ _ => exact hlength.trans hlength'.symm
      | compact _ _ hdigit' =>
          obtain ⟨d, hd, hdigit'⟩ := hdigit'
          exact absurd hdigit' (hdash d (hsign.symm.trans (hfifth.trans hd)))
      | dmy _ halpha =>
          obtain ⟨d, hd, halpha⟩ := halpha
          exact absurd halpha (hletter c d (hc.symm.trans (hthird.trans hd)) hdigit)
  | compact hlength hdigit hdigit' =>
      obtain ⟨c, hc, hdigit⟩ := hdigit
      cases hshaped' with
      | iso _ _ hsign =>
          obtain ⟨d, hd, hdigit'⟩ := hdigit'
          exact absurd hdigit' (hdash d (hsign.symm.trans (hfifth.symm.trans hd)))
      | compact hlength' _ _ => exact hlength.trans hlength'.symm
      | dmy _ halpha =>
          obtain ⟨d, hd, halpha⟩ := halpha
          exact absurd halpha (hletter c d (hc.symm.trans (hthird.trans hd)) hdigit)
  | dmy hlength halpha =>
      obtain ⟨c, hc, halpha⟩ := halpha
      cases hshaped' with
      | iso _ hdigit _ | compact _ hdigit _ =>
          obtain ⟨d, hd, hdigit⟩ := hdigit
          exact absurd halpha (hletter d c (hd.symm.trans (hthird.symm.trans hc)) hdigit)
      | dmy hlength' _ => exact hlength.trans hlength'.symm

/-- At one position there is one token at most. -/
theorem Token.unique (h : ReadsAsciiDigits runtime) {text' after' : List Char}
    (htoken : Token runtime before text after) (htoken' : Token runtime before text' after')
    (hsame : text ++ after = text' ++ after') : text = text' := by
  have hsize := htoken.shaped.length_ge
  have hsize' := htoken'.shaped.length_ge
  have hcommon : ∀ index < 8, text[index]? = text'[index]? := by
    intro index hindex
    have hleft : (text ++ after)[index]? = text[index]? := List.getElem?_append_left (by omega)
    have hright : (text' ++ after')[index]? = text'[index]? :=
      List.getElem?_append_left (by omega)
    rw [← hleft, ← hright, hsame]
  have hlength := htoken.shaped.length_eq h htoken'.shaped (hcommon 2 (by decide))
    (hcommon 4 (by decide))
  exact (List.append_inj hsame hlength).1

/-! ## The first token decides -/

/-- The token comes before every other token of the name. -/
def FirstIn (runtime : Runtime) (name before text : List Char) : Prop :=
  TokenIn runtime name before text ∧ ∀ before' text', TokenIn runtime name before' text' →
    before.length ≤ before'.length

theorem FirstIn.unique (h : ReadsAsciiDigits runtime) {name before' text' : List Char}
    (hfirst : FirstIn runtime name before text) (hfirst' : FirstIn runtime name before' text') :
    text = text' := by
  obtain ⟨⟨after, hname, htoken⟩, hleast⟩ := hfirst
  obtain ⟨⟨after', hname', htoken'⟩, hleast'⟩ := hfirst'
  have hlength : before.length = before'.length :=
    le_antisymm (hleast _ _ ⟨after', hname', htoken'⟩) (hleast' _ _ ⟨after, hname, htoken⟩)
  obtain ⟨rfl, hrest⟩ := List.append_inj (hname.symm.trans hname') hlength
  exact htoken.unique h htoken' hrest

/-- The search finds the first token. -/
theorem search_filenameDate {name : List Char} {text : List Char}
    (hsearch : (filenameDate runtime).search name = some text) :
    ∃ before, FirstIn runtime name before text := by
  obtain ⟨⟨result, after⟩, hfound, rfl⟩ := Option.map_eq_some_iff.mp hsearch
  obtain ⟨before, rest, rfl, hhead, hearlier⟩ := searchFrom_eq_some hfound
  rw [List.append_nil] at hhead
  obtain ⟨read, rfl, -, rfl, htoken⟩ := reads_filenameDate rest _ (List.mem_of_mem_head? hhead)
  refine ⟨before, ⟨after.rest, rfl, htoken⟩, fun before' text' htoken' => ?_⟩
  obtain ⟨after', hname, htoken'⟩ := htoken'
  by_contra hless
  have hnil := hearlier before' (text' ++ after') hname (not_le.mp hless)
  rw [List.append_nil] at hnil
  exact filenameDate_ne_nil htoken' hnil

theorem search_filenameDate_eq_none {name : List Char}
    (hsearch : (filenameDate runtime).search name = none) :
    ¬ TokenIn runtime name before text := by
  rintro ⟨after, hname, htoken⟩
  have hnil := searchFrom_eq_none (Option.map_eq_none_iff.mp hsearch) before (text ++ after) hname
  rw [List.append_nil] at hnil
  exact filenameDate_ne_nil htoken hnil

/-- A token that the parser accepts as a date. -/
def Accepted (runtime : Runtime) (name before text : List Char) : Prop :=
  TokenIn runtime name before text ∧ (parseDate runtime (String.ofList text)).isSome = true

/-- The date of some token is found in a name that has an accepted token, exactly
when the first token of such a name is accepted. -/
theorem filename_date_found (runtime : Runtime) (h : ReadsAsciiDigits runtime) (name : String) :
    ((∃ before text, Accepted runtime name.toList before text) →
      ∃ before text day, TokenIn runtime name.toList before text ∧
        parseDate runtime (String.ofList text) = some day ∧
        dateFromFilename runtime name = some day) ↔
    ((∃ before text, Accepted runtime name.toList before text) →
      ∃ before text, FirstIn runtime name.toList before text ∧
        (parseDate runtime (String.ofList text)).isSome = true) := by
  refine imp_congr_right fun hsome => ?_
  constructor
  · rintro ⟨-, -, day, -, -, hfound⟩
    obtain ⟨text, hsearch, hday⟩ := Option.bind_eq_some_iff.mp hfound
    obtain ⟨before, hfirst⟩ := search_filenameDate hsearch
    exact ⟨before, text, hfirst, by rw [hday]; rfl⟩
  · rintro ⟨before, text, hfirst, haccepted⟩
    obtain ⟨day, hday⟩ := Option.isSome_iff_exists.mp haccepted
    refine ⟨before, text, day, hfirst.1, hday, ?_⟩
    cases hsearch : (filenameDate runtime).search name.toList with
    | none => exact absurd hfirst.1 (search_filenameDate_eq_none hsearch)
    | some found =>
        obtain ⟨before', hfirst'⟩ := search_filenameDate hsearch
        obtain rfl := hfirst.unique h hfirst'
        exact Option.bind_eq_some_iff.mpr ⟨_, hsearch, hday⟩

theorem sampleDigits : Digits .ascii 8 "20260828".toList := by
  have hall : "20260828".toList.all (fun c => (digit? c).isSome) = true := by decide
  exact ⟨by decide, List.all_eq_true.mp hall⟩

/-- A name with one date in it. -/
theorem filename_date_found_positions :
    ∃ before text, FirstIn .ascii "positions_20260828.csv".toList before text ∧
      (parseDate .ascii (String.ofList text)).isSome = true := by
  have htoken : TokenIn .ascii "positions_20260828.csv".toList "positions_".toList
      "20260828".toList := by
    refine ⟨".csv".toList, by decide, .compact sampleDigits ?_ ?_⟩
    · intro c hc
      obtain rfl : '_' = c := Option.some.inj hc
      rfl
    · intro c hc
      obtain rfl : '.' = c := Option.some.inj hc
      rfl
  have hday : parseDate .ascii (String.ofList "20260828".toList) = some 739856 := by
    decide +kernel
  have hfound : dateFromFilename .ascii "positions_20260828.csv" = some 739856 := by
    decide +kernel
  exact (filename_date_found .ascii readsAsciiDigits_ascii "positions_20260828.csv").mp
    (fun _ => ⟨_, _, 739856, htoken, hday, hfound⟩) ⟨_, _, htoken, by rw [hday]; rfl⟩

/-- An account number of eight digits stands before the date. -/
theorem account_number_hides_date :
    Accepted .ascii "10045678_20260828.csv".toList "10045678_".toList "20260828".toList ∧
      dateFromFilename .ascii "10045678_20260828.csv" = none := by
  refine ⟨⟨⟨".csv".toList, by decide, .compact sampleDigits ?_ ?_⟩, ?_⟩, by decide +kernel⟩
  · intro c hc
    obtain rfl : '_' = c := Option.some.inj hc
    rfl
  · intro c hc
    obtain rfl : '.' = c := Option.some.inj hc
    rfl
  · decide +kernel

end Harbormaster.Inspector
