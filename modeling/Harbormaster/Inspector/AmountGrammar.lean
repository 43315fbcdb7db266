import Harbormaster.Foundation.Fallible
import Harbormaster.Inspector.DecimalText

/-! # Amounts as they are written

The grammar of an amount in a cell: digits, in groups of three or in one, with a
fraction and one sign, among white space, currencies and percent signs. The parser
takes far more texts for amounts than these, and it rounds the numbers it negates.
-/

namespace Harbormaster.Inspector

open Decimal

/-! ## The grammar -/

/-- The sign conventions. -/
inductive SignForm where
  | absent | minus | parentheses | trailing
deriving DecidableEq, Repr

namespace SignForm

def wrap : SignForm → List Char → List Char
  | .absent, text => text
  | .minus, text => '-' :: text
  | .parentheses, text => '(' :: (text ++ [')'])
  | .trailing, text => text ++ ['-']

def negative : SignForm → Bool
  | .absent => false
  | _ => true

/-- The number is negated after it was read. -/
def negated : SignForm → Bool
  | .parentheses | .trailing => true
  | _ => false

end SignForm

section Grammar

variable (runtime : Runtime)

/-- An integer part: digits, or one to three of them and then groups of three behind
a comma each. -/
inductive WholeText : List Char → List Nat → Prop where
  | plain {text : List Char} {values : List Nat} (h : Decimal.Digits runtime text values) :
      WholeText text values
  | grouped {first : List Char} {groups : List (List Char)} {values : List Nat}
      (hfirst : 1 ≤ first.length ∧ first.length ≤ 3) (hgroups : ∀ group ∈ groups, group.length = 3)
      (h : Decimal.Digits runtime (first ++ groups.flatten) values) :
      WholeText (first ++ groups.flatMap fun group => ',' :: group) values

/-- A number without its sign: an integer part and a fraction, not both empty. -/
structure Magnitude (text : List Char) (whole fraction : List Nat) : Prop where
  parts : ∃ wholeText fractionText, text = wholeText ++ fractionText ∧
    WholeText runtime wholeText whole ∧ FractionText runtime fractionText fraction
  nonempty : whole ++ fraction ≠ []

/-- White space, currencies and the percent sign. -/
def isSymbol (c : Char) : Bool := isNumericNoise c && c ≠ ','

/-- A cell without its symbols. -/
def visible (raw : String) : List Char := raw.toList.filter fun c => !isSymbol c

/-- A cell in which a number is written. -/
def Written (raw : String) (form : SignForm) (whole fraction : List Nat) : Prop :=
  ∃ text, visible raw = form.wrap text ∧ Magnitude runtime text whole fraction

/-- The number that is written. -/
def writtenValue (form : SignForm) (whole fraction : List Nat) : ℚ :=
  signed form.negative (number (whole ++ fraction)) * 10 ^ (-(fraction.length : Int))

end Grammar

/-! ## The steps of the parser -/

/-- A cell in parentheses, but for white space. -/
def enclosed (raw : String) : Bool :=
  (stripChars raw.toList).head? = some '(' && (stripChars raw.toList).getLast? = some ')'

/-- The cell without parentheses, separators and symbols. -/
def cleaned (raw : String) : List Char :=
  (if enclosed raw then (stripChars raw.toList).tail.dropLast else stripChars raw.toList).filter
    fun c => !isNumericNoise c

/-- What is left for the library to read. -/
def amountText (raw : String) : List Char :=
  if (cleaned raw).getLast? = some '-' then (cleaned raw).dropLast else cleaned raw

def amountPlaceholders : List String := ["", "-", "--", "n/a", "N/A", "NULL", "null"]

variable {runtime : Runtime}

theorem toDecimal_eq (raw : String) :
    toDecimal runtime raw =
      if amountPlaceholders.contains (String.ofList (stripChars raw.toList)) then .ok none
      else if amountText raw = [] then .ok none
      else match ofText? runtime (amountText raw) with
        | none => .ok none
        | some value =>
            if enclosed raw || (cleaned raw).getLast? = some '-' then some <$> value.neg
            else .ok (some value) := by
  simp only [toDecimal, amountText, cleaned, enclosed, amountPlaceholders]
  congr!

/-! ## What is left of a cell -/

theorem filter_dropWhile {p : Char → Bool} (hspace : ∀ c, isspace c = true → p c = false)
    (text : List Char) : (text.dropWhile isspace).filter p = text.filter p := by
  induction text with
  | nil => rfl
  | cons c rest ih =>
      rw [List.dropWhile_cons]
      split
      next hc => rw [ih, List.filter_cons_of_neg (by rw [hspace c hc]; exact Bool.false_ne_true)]
      next => rfl

theorem filter_stripChars {p : Char → Bool} (hspace : ∀ c, isspace c = true → p c = false)
    (text : List Char) : (stripChars text).filter p = text.filter p := by
  unfold stripChars
  rw [List.filter_reverse, filter_dropWhile hspace, List.filter_reverse, List.reverse_reverse,
    filter_dropWhile hspace]

theorem isSymbol_of_isspace {c : Char} (h : isspace c = true) : isSymbol c = true := by
  have hcomma : c ≠ ',' := by
    rintro rfl
    exact absurd h (by decide)
  simp [isSymbol, isNumericNoise, h, hcomma]

/-- The noise is the symbols and the comma. -/
theorem filter_noise (text : List Char) :
    text.filter (fun c => !isNumericNoise c) =
      (text.filter fun c => !isSymbol c).filter fun c => c ≠ ',' := by
  rw [List.filter_filter]
  refine List.filter_congr fun c _ => ?_
  by_cases hcomma : c = ','
  · subst hcomma
    rfl
  · simp [isSymbol, hcomma]

theorem filter_strip (raw : String) :
    (stripChars raw.toList).filter (fun c => !isSymbol c) = visible raw :=
  filter_stripChars (fun c hc => by rw [isSymbol_of_isspace hc]; rfl) raw.toList

theorem cleaned_of_not_enclosed {raw : String} (h : enclosed raw = false) :
    cleaned raw = (visible raw).filter fun c => c ≠ ',' := by
  rw [cleaned, h, if_neg Bool.false_ne_true, filter_noise, filter_strip]

/-- Inside its parentheses a cell is as it was. -/
theorem cleaned_of_enclosed {raw : String} (h : enclosed raw = true) :
    ∃ inner, visible raw = '(' :: (inner ++ [')']) ∧ cleaned raw = inner.filter fun c => c ≠ ',' := by
  unfold enclosed at h
  rw [Bool.and_eq_true, decide_eq_true_eq, decide_eq_true_eq] at h
  obtain ⟨rest, hopen⟩ := List.head?_eq_some_iff.mp h.1
  obtain ⟨front, hclose⟩ := List.getLast?_eq_some_iff.mp h.2
  cases front with
  | nil =>
      rw [hopen] at hclose
      exact absurd (List.cons.inj hclose).1 (by decide)
  | cons c inner =>
      have hwhole : stripChars raw.toList = '(' :: (inner ++ [')']) := by
        rw [hopen] at hclose ⊢
        exact congrArg ('(' :: ·) (List.cons.inj hclose).2
      have henclosed : enclosed raw = true := by
        unfold enclosed
        rw [Bool.and_eq_true, decide_eq_true_eq, decide_eq_true_eq]
        exact h
      refine ⟨inner.filter fun c => !isSymbol c, ?_, ?_⟩
      · rw [← filter_strip, hwhole, List.filter_cons_of_pos (by decide), List.filter_append]
        rfl
      · rw [cleaned, henclosed, if_pos rfl, hwhole, List.tail_cons, List.dropLast_concat,
          filter_noise]

theorem no_space_of_amountText (raw : String) : ∀ c ∈ amountText raw, isspace c = false := by
  have hcleaned : ∀ c ∈ cleaned raw, isspace c = false := by
    intro c hc
    have hnoise : isNumericNoise c = false := by simpa using (List.mem_filter.mp hc).2
    cases hspace : isspace c with
    | false => rfl
    | true => simp [isNumericNoise, hspace] at hnoise
  intro c hc
  unfold amountText at hc
  split at hc
  next => exact hcleaned c (List.mem_of_mem_dropLast hc)
  next => exact hcleaned c hc

/-! ## Written numbers -/

section Ascii

variable (hascii : ReadsAsciiDigits runtime)

include hascii

theorem ne_of_digit {c other : Char} (h : (runtime.decimal c).isSome) (hother : other.toNat < 128)
    (hdigit : other.isDigit = false) : c ≠ other := by
  rintro rfl
  rw [decimal_eq_none hascii hother hdigit] at h
  cases h

/-- An integer part without its commas. -/
theorem WholeText.digits {text : List Char} {values : List Nat} (h : WholeText runtime text values) :
    Decimal.Digits runtime (text.filter fun c => c ≠ ',') values := by
  have hkeep : ∀ {text : List Char}, (∀ c ∈ text, (runtime.decimal c).isSome) →
      (text.filter fun c => c ≠ ',') = text := fun htext =>
    List.filter_eq_self.mpr fun c hc =>
      decide_eq_true (ne_of_digit hascii (htext c hc) (by decide) rfl)
  cases h with
  | plain hdigits => rwa [hkeep hdigits.mem]
  | @grouped first groups values hfirst hgroups hdigits =>
      have hmem := hdigits.mem
      have hflat : (groups.flatMap fun group => ',' :: group).filter (fun c => c ≠ ',') =
          groups.flatten := by
        have hgroup : ∀ group ∈ groups, (',' :: group).filter (fun c => c ≠ ',') = group := by
          intro group hgroup
          rw [List.filter_cons_of_neg (by decide)]
          exact hkeep fun c hc => hmem c
            (List.mem_append_right first (List.mem_flatten_of_mem hgroup hc))
        rw [List.filter_flatMap, List.flatMap_congr hgroup, List.flatMap_id']
      rw [List.filter_append, hflat, hkeep fun c hc => hmem c (List.mem_append_left _ hc)]
      exact hdigits

/-- A written number without its commas. -/
theorem Magnitude.plain {text : List Char} {whole fraction : List Nat}
    (h : Magnitude runtime text whole fraction) :
    ∃ digits fractionText, (text.filter fun c => c ≠ ',') = digits ++ fractionText ∧
      Decimal.Digits runtime digits whole ∧ FractionText runtime fractionText fraction := by
  obtain ⟨wholeText, fractionText, rfl, hwhole, hfraction⟩ := h.parts
  have hpoint : (fractionText.filter fun c => c ≠ ',') = fractionText := by
    refine List.filter_eq_self.mpr fun c hc => decide_eq_true ?_
    rcases hfraction.mem c hc with rfl | hdigit
    · decide
    · exact ne_of_digit hascii hdigit (by decide) rfl
  refine ⟨wholeText.filter fun c => c ≠ ',', fractionText, ?_, hwhole.digits hascii, hfraction⟩
  rw [List.filter_append, hpoint]

/-- It is a number of the library. -/
theorem Magnitude.scientific {text : List Char} {whole fraction : List Nat}
    (h : Magnitude runtime text whole fraction) :
    Scientific runtime (text.filter fun c => c ≠ ',') whole fraction 0 := by
  obtain ⟨digits, fractionText, hplain, hwhole, hfraction⟩ := h.plain hascii
  refine ⟨⟨digits, fractionText, [], ?_, hwhole, hfraction, .absent⟩, h.nonempty⟩
  rw [hplain, List.append_nil]

theorem Magnitude.mem {text : List Char} {whole fraction : List Nat}
    (h : Magnitude runtime text whole fraction) :
    ∀ c ∈ text, c = ',' ∨ c = '.' ∨ (runtime.decimal c).isSome := by
  obtain ⟨wholeText, fractionText, rfl, hwhole, hfraction⟩ := h.parts
  intro c hc
  rcases List.mem_append.mp hc with hc | hc
  · by_cases hcomma : c = ','
    · exact Or.inl hcomma
    · have hkept : c ∈ wholeText.filter fun c => c ≠ ',' :=
        List.mem_filter.mpr ⟨hc, decide_eq_true hcomma⟩
      exact Or.inr (Or.inr ((hwhole.digits hascii).mem c hkept))
  · exact Or.inr (hfraction.mem c hc)

/-- No sign or parenthesis stands in a number. -/
theorem Magnitude.not_mem {text : List Char} {whole fraction : List Nat}
    (h : Magnitude runtime text whole fraction) {c : Char} (hc : c.toNat < 128)
    (hdigit : c.isDigit = false) (hcomma : c ≠ ',') (hpoint : c ≠ '.') : c ∉ text := by
  intro hmem
  rcases h.mem hascii c hmem with hsame | hsame | hsome
  · exact hcomma hsame
  · exact hpoint hsame
  · exact ne_of_digit hascii hsome hc hdigit rfl

/-- The library has nothing to read in a placeholder. -/
theorem ofText?_placeholder {raw : String}
    (h : amountPlaceholders.contains (String.ofList (stripChars raw.toList)) = true) :
    ofText? runtime (amountText raw) = none := by
  have hword : ∀ word : List Char, word ∈ [['n', '/', 'a'], ['n', 'u', 'l', 'l']] →
      ofUnsigned? runtime false word = none := by
    intro word hword
    rcases List.mem_pair.mp hword with rfl | rfl <;>
      exact ofUnsigned?_eq_none hascii false (by decide) rfl (by decide) (by decide) (by decide)
        (by decide) (by decide)
  have hnil : ∀ negative, ofUnsigned? runtime negative [] = none := fun _ => rfl
  have htext : ∀ {word : String}, String.ofList (stripChars raw.toList) = word →
      stripChars raw.toList = word.toList := fun h => by rw [← h, String.toList_ofList]
  rw [ofText?_eq (no_space_of_amountText raw)]
  have hmem : String.ofList (stripChars raw.toList) ∈ amountPlaceholders := by simpa using h
  simp only [amountPlaceholders, List.mem_cons, List.not_mem_nil, or_false] at hmem
  unfold amountText cleaned enclosed
  rcases hmem with hmem | hmem | hmem | hmem | hmem | hmem | hmem <;> rw [htext hmem]
  · exact hnil false
  · exact hnil false
  · exact hnil true
  · exact hword _ List.mem_cons_self
  · exact hword _ List.mem_cons_self
  · exact hword _ (List.mem_cons_of_mem _ List.mem_cons_self)
  · exact hword _ (List.mem_cons_of_mem _ List.mem_cons_self)

theorem toDecimal_eq_match (raw : String) :
    toDecimal runtime raw =
      match ofText? runtime (amountText raw) with
      | none => .ok none
      | some value =>
          if enclosed raw || (cleaned raw).getLast? = some '-' then some <$> value.neg
          else .ok (some value) := by
  rw [toDecimal_eq]
  split
  next hplaceholder => rw [ofText?_placeholder hascii hplaceholder]
  next =>
    split
    next hempty =>
      rw [hempty]
      rfl
    next => rfl

/-- What the library makes of a written number, with the sign it reads itself. -/
theorem ofText?_amountText {raw : String} {sign text : List Char} {whole fraction : List Nat}
    (h : Magnitude runtime text whole fraction) (hsign : sign = [] ∨ sign = ['-'])
    (hamount : amountText raw = sign ++ text.filter fun c => c ≠ ',') :
    ofText? runtime (amountText raw) =
      ofDigits? (decide (sign = ['-'])) whole fraction 0 := by
  have hplain : ∀ c ∈ text.filter fun c => c ≠ ',', c = '.' ∨ (runtime.decimal c).isSome := by
    intro c hc
    obtain ⟨hmem, hcomma⟩ := List.mem_filter.mp hc
    exact (h.mem hascii c hmem).resolve_left (of_decide_eq_true hcomma)
  have hchars : ∀ c ∈ amountText raw, c = '-' ∨ c = '.' ∨ (runtime.decimal c).isSome := by
    intro c hc
    rw [hamount] at hc
    rcases List.mem_append.mp hc with hc | hc
    · rcases hsign with rfl | rfl
      · cases hc
      · exact Or.inl (List.mem_singleton.mp hc)
    · exact Or.inr (hplain c hc)
  have hnumber := h.scientific hascii
  have hstart : ∀ c ∈ (text.filter fun c => c ≠ ',').head?, c ≠ '-' ∧ c ≠ '+' := by
    intro c hc
    rcases hplain c (List.mem_of_mem_head? hc) with rfl | hdigit
    · decide
    · exact ⟨ne_of_digit hascii hdigit (by decide) rfl, ne_of_digit hascii hdigit (by decide) rfl⟩
  have hsigns : sign ∈ signTexts := by
    rcases hsign with rfl | rfl <;> decide
  rw [ofText?_eq (no_space_of_amountText raw), plain_eq hascii hchars, hamount,
    takeSign_append hsigns hstart]
  exact ofUnsigned?_number hascii hnumber

theorem Magnitude.filter_ne_nil {text : List Char} {whole fraction : List Nat}
    (h : Magnitude runtime text whole fraction) : (text.filter fun c => c ≠ ',') ≠ [] := by
  intro hnil
  have hnumber := h.scientific hascii
  rw [hnil] at hnumber
  obtain ⟨wholeText, fractionText, exponentText, hsplit, hwhole, hfraction, -⟩ := hnumber.parts
  obtain ⟨rfl, hrest⟩ := List.append_eq_nil_iff.mp hsplit.symm
  obtain ⟨rfl, -⟩ := List.append_eq_nil_iff.mp hrest
  obtain rfl := List.map_eq_nil_iff.mp hwhole.symm
  cases hfraction
  exact h.nonempty rfl

/-- A written number is read with its sign, unless something stands outside of its
parentheses. -/
theorem toDecimal_written {raw : String} {form : SignForm} {whole fraction : List Nat}
    (h : Written runtime raw form whole fraction)
    (houter : form = .parentheses → enclosed raw = true) :
    toDecimal runtime raw =
      match ofDigits? (decide (form = .minus)) whole fraction 0 with
      | none => .ok none
      | some value => if form.negated then some <$> value.neg else .ok (some value) := by
  obtain ⟨text, hvisible, hnumber⟩ := h
  have hparen : '(' ∉ text := hnumber.not_mem hascii (by decide) rfl (by decide) (by decide)
  have hminus : '-' ∉ text.filter fun c => c ≠ ',' := fun hmem =>
    hnumber.not_mem hascii (by decide) rfl (by decide) (by decide) (List.mem_filter.mp hmem).1
  have hlast : (text.filter fun c => c ≠ ',').getLast? ≠ some '-' := fun hlast =>
    hminus (List.mem_of_getLast? hlast)
  have hopen : form ≠ .parentheses → enclosed raw = false := by
    intro hform
    by_contra henclosed
    obtain ⟨inner, hinner, -⟩ := cleaned_of_enclosed (Bool.not_eq_false _ ▸ henclosed)
    have hmem : '(' ∈ form.wrap text := by
      rw [← hvisible, hinner]
      exact List.mem_cons_self
    cases form with
    | absent => exact hparen hmem
    | minus => exact hparen (List.mem_of_ne_of_mem (by decide) hmem)
    | parentheses => exact hform rfl
    | trailing =>
        rcases List.mem_append.mp hmem with hmem | hmem
        · exact hparen hmem
        · exact absurd (List.mem_singleton.mp hmem) (by decide)
  rw [toDecimal_eq_match hascii]
  cases form with
  | absent =>
      have hclosed := hopen (by decide)
      have hcleaned : cleaned raw = text.filter fun c => c ≠ ',' := by
        rw [cleaned_of_not_enclosed hclosed, hvisible]
        rfl
      have hamount : amountText raw = [] ++ text.filter fun c => c ≠ ',' := by
        rw [amountText, hcleaned, if_neg hlast, List.nil_append]
      rw [ofText?_amountText hascii hnumber (Or.inl rfl) hamount, hclosed, hcleaned,
        decide_eq_false hlast]
      rfl
  | minus =>
      have hclosed := hopen (by decide)
      have hcleaned : cleaned raw = '-' :: text.filter fun c => c ≠ ',' := by
        rw [cleaned_of_not_enclosed hclosed, hvisible]
        exact List.filter_cons_of_pos (by decide)
      have hend : (cleaned raw).getLast? ≠ some '-' := by
        rw [hcleaned, List.getLast?_cons_of_ne_nil (hnumber.filter_ne_nil hascii)]
        exact hlast
      have hamount : amountText raw = ['-'] ++ text.filter fun c => c ≠ ',' := by
        rw [amountText, if_neg hend, hcleaned]
        rfl
      rw [ofText?_amountText hascii hnumber (Or.inr rfl) hamount, hclosed, decide_eq_false hend]
      rfl
  | parentheses =>
      have henclosed := houter rfl
      obtain ⟨inner, hinner, hcleaned⟩ := cleaned_of_enclosed henclosed
      obtain rfl : inner = text :=
        List.append_cancel_right (List.cons.inj (hinner.symm.trans hvisible)).2
      have hamount : amountText raw = [] ++ inner.filter fun c => c ≠ ',' := by
        rw [amountText, hcleaned, if_neg hlast, List.nil_append]
      rw [ofText?_amountText hascii hnumber (Or.inl rfl) hamount, henclosed]
      rfl
  | trailing =>
      have hclosed := hopen (by decide)
      have hcleaned : cleaned raw = (text.filter fun c => c ≠ ',') ++ ['-'] := by
        rw [cleaned_of_not_enclosed hclosed, hvisible]
        exact List.filter_append _ _
      have hend : (cleaned raw).getLast? = some '-' := by
        rw [hcleaned, List.getLast?_concat]
      have hamount : amountText raw = [] ++ text.filter fun c => c ≠ ',' := by
        rw [amountText, if_pos hend, hcleaned, List.dropLast_concat, List.nil_append]
      rw [ofText?_amountText hascii hnumber (Or.inl rfl) hamount, decide_eq_true hend,
        Bool.or_true]
      rfl

/-- What stands outside of the parentheses keeps a number from being read. -/
theorem toDecimal_of_not_enclosed {raw : String} {whole fraction : List Nat}
    (h : Written runtime raw .parentheses whole fraction) (houter : enclosed raw = false) :
    toDecimal runtime raw = .ok none := by
  obtain ⟨text, hvisible, -⟩ := h
  have hcleaned : cleaned raw = '(' :: ((text.filter fun c => c ≠ ',') ++ [')']) := by
    rw [cleaned_of_not_enclosed houter, hvisible]
    exact (List.filter_cons_of_pos (by decide)).trans (congrArg ('(' :: ·) (List.filter_append _ _))
  have hend : (cleaned raw).getLast? ≠ some '-' := by
    rw [hcleaned, ← List.cons_append, List.getLast?_concat]
    exact fun h => absurd (Option.some.inj h) (by decide)
  have hamount : amountText raw = cleaned raw := by rw [amountText, if_neg hend]
  rw [toDecimal_eq_match hascii, ofText?_eq (no_space_of_amountText raw), hamount, hcleaned,
    List.filter_cons_of_pos (by decide), List.map_cons]
  change (match ofUnsigned? runtime false ('(' :: _) with | none => _ | some value => _) = _
  rw [ofUnsigned?_eq_none hascii false (by decide) rfl (by decide) (by decide)]
  · rintro (h | h) <;> exact absurd (List.cons.inj h).1 (by decide)
  · exact fun h => absurd (List.cons_prefix_cons.mp h).1 (by decide)
  · exact fun h => absurd (List.cons_prefix_cons.mp h).1 (by decide)

end Ascii

/-! ## The grammar is unambiguous -/

/-- The sign convention of a number, and the number in it. -/
def unwrap : List Char → SignForm × List Char
  | '-' :: rest => (.minus, rest)
  | '(' :: rest => (.parentheses, rest.dropLast)
  | text => if text.getLast? = some '-' then (.trailing, text.dropLast) else (.absent, text)

theorem unwrap_cons {c : Char} (rest : List Char) (hminus : c ≠ '-') (hparen : c ≠ '(') :
    unwrap (c :: rest) =
      if (c :: rest).getLast? = some '-' then (.trailing, (c :: rest).dropLast)
      else (.absent, c :: rest) :=
  unwrap.eq_3 _ (fun _ h => hminus (List.cons.inj h).1) fun _ h => hparen (List.cons.inj h).1

theorem unwrap_wrap {form : SignForm} {text : List Char} (hne : text ≠ []) (hminus : '-' ∉ text)
    (hparen : '(' ∉ text) : unwrap (form.wrap text) = (form, text) := by
  obtain ⟨c, rest, rfl⟩ := List.exists_cons_of_ne_nil hne
  have hfirst : c ≠ '-' := fun h => hminus (h ▸ List.mem_cons_self)
  have hopen : c ≠ '(' := fun h => hparen (h ▸ List.mem_cons_self)
  cases form with
  | absent =>
      change unwrap (c :: rest) = _
      rw [unwrap_cons rest hfirst hopen, if_neg fun h => hminus (List.mem_of_getLast? h)]
  | minus => rfl
  | parentheses =>
      change (SignForm.parentheses, (c :: rest ++ [')']).dropLast) = _
      rw [List.dropLast_concat]
  | trailing =>
      change unwrap (c :: (rest ++ ['-'])) = _
      rw [unwrap_cons _ hfirst hopen, ← List.cons_append, List.getLast?_concat, if_pos rfl,
        List.dropLast_concat]

/-- A cell is written in one way only. -/
theorem Written.unique (hascii : ReadsAsciiDigits runtime) {raw : String} {form form' : SignForm}
    {whole whole' fraction fraction' : List Nat} (h : Written runtime raw form whole fraction)
    (h' : Written runtime raw form' whole' fraction') :
    form = form' ∧ whole = whole' ∧ fraction = fraction' := by
  obtain ⟨text, hvisible, hnumber⟩ := h
  obtain ⟨text', hvisible', hnumber'⟩ := h'
  have hunwrap : ∀ {form text whole fraction}, Magnitude runtime text whole fraction →
      unwrap (SignForm.wrap form text) = (form, text) := by
    intro form text whole fraction hnumber
    refine unwrap_wrap (fun hnil => ?_)
      (hnumber.not_mem hascii (by decide) rfl (by decide) (by decide))
      (hnumber.not_mem hascii (by decide) rfl (by decide) (by decide))
    exact hnumber.filter_ne_nil hascii (by rw [hnil]; rfl)
  have hread : ∀ {text whole fraction}, Magnitude runtime text whole fraction →
      ∃ fractionText, takeDigits runtime (text.filter fun c => c ≠ ',') = (whole, fractionText) ∧
        FractionText runtime fractionText fraction := by
    intro text whole fraction hnumber
    obtain ⟨digits, fractionText, hplain, hwhole, hfraction⟩ := hnumber.plain hascii
    refine ⟨fractionText, ?_, hfraction⟩
    have hpoint : runtime.decimal '.' = none := decimal_eq_none hascii (by decide) rfl
    rw [hplain, takeDigits_append hwhole]
    cases hfraction with
    | absent => simp
    | present _ => simpa using hpoint
  have hsame : (form, text) = (form', text') := by
    rw [← hunwrap hnumber, ← hunwrap hnumber', ← hvisible, ← hvisible']
  obtain ⟨rfl, rfl⟩ := Prod.mk.inj hsame
  obtain ⟨fractionText, htake, hfraction⟩ := hread hnumber
  obtain ⟨fractionText', htake', hfraction'⟩ := hread hnumber'
  obtain ⟨rfl, rfl⟩ := Prod.mk.inj (htake.symm.trans htake')
  exact ⟨rfl, rfl, hfraction.unique hfraction'⟩

/-! ## Agreement -/

/-- The parser does what the grammar says: the number that is written, nothing for a
cell in which none is, and no exception. -/
def MeetsGrammar (runtime : Runtime) (raw : String) : Prop :=
  ∃ result, toDecimal runtime raw = .ok result ∧
    (∀ form whole fraction, Written runtime raw form whole fraction →
      ∃ d, result = some d ∧ d.value? = some (writtenValue form whole fraction)) ∧
    ((∀ form whole fraction, ¬ Written runtime raw form whole fraction) → result = none)

/-- A written number is read as it is: nothing but white space stands outside of its
parentheses, it is in the range of the library and, where it is negated, fits the context. -/
structure ReadExactly (raw : String) (form : SignForm) (whole fraction : List Nat) : Prop where
  outermost : form = .parentheses → enclosed raw = true
  inRange : InRange whole fraction (-(fraction.length : Int))
  fits : form.negated = true → Fits (number (whole ++ fraction)) (-(fraction.length : Int))

/-- A negation is exact when the number fits. -/
theorem neg_exact_iff {coefficient : Nat} {exponent : Int} :
    (∃ d, (Decimal.finite false coefficient exponent).neg = .ok d ∧
      d.value? = some ((signed true coefficient : ℚ) * 10 ^ exponent)) ↔
      Fits coefficient exponent := by
  have hsigned : signed (decide (coefficient ≠ 0)) coefficient = signed true coefficient := by
    by_cases hzero : coefficient = 0
    · subst hzero
      rfl
    · rw [decide_eq_true hzero]
  rw [← @finalize_exact_iff (decide (coefficient ≠ 0)) coefficient exponent, hsigned]
  rfl

section Ascii

variable (hascii : ReadsAsciiDigits runtime)

include hascii

theorem toDecimal_value_iff {raw : String} {form : SignForm} {whole fraction : List Nat}
    (h : Written runtime raw form whole fraction) :
    (∃ d, toDecimal runtime raw = .ok (some d) ∧
      d.value? = some (writtenValue form whole fraction)) ↔
      ReadExactly raw form whole fraction := by
  have hnonempty : whole ++ fraction ≠ [] := by
    obtain ⟨text, -, hnumber⟩ := h
    exact hnumber.nonempty
  by_cases houter : form = .parentheses → enclosed raw = true
  · have hread : ∀ negative, ofDigits? negative whole fraction 0 =
        if InRange whole fraction (-(fraction.length : Int)) then
          some (Decimal.finite negative (number (whole ++ fraction)) (-(fraction.length : Int)))
        else none := by
      intro negative
      rw [ofDigits?_eq hnonempty, zero_sub]
    rw [toDecimal_written hascii h houter, hread]
    by_cases hrange : InRange whole fraction (-(fraction.length : Int))
    · rw [if_pos hrange]
      have hexact : ReadExactly raw form whole fraction ↔
          (form.negated = true → Fits (number (whole ++ fraction)) (-(fraction.length : Int))) :=
        ⟨fun h => h.fits, fun h => ⟨houter, hrange, h⟩⟩
      rw [hexact]
      cases form with
      | absent => exact iff_of_true ⟨_, rfl, rfl⟩ nofun
      | minus => exact iff_of_true ⟨_, rfl, rfl⟩ nofun
      | parentheses | trailing =>
          rw [← neg_exact_iff]
          constructor
          · rintro ⟨d, hd, hvalue⟩ -
            obtain ⟨d', hneg, hsame⟩ := Fallible.map_eq_ok.mp hd
            obtain rfl := Option.some.inj hsame
            exact ⟨d', hneg, hvalue⟩
          · intro hfits
            obtain ⟨d, hneg, hvalue⟩ := hfits rfl
            exact ⟨d, Fallible.map_eq_ok.mpr ⟨d, hneg, rfl⟩, hvalue⟩
    · rw [if_neg hrange]
      exact iff_of_false (by rintro ⟨d, hd, -⟩; cases hd) fun h => hrange h.inRange
  · refine iff_of_false ?_ fun h => houter h.outermost
    have hform : form = .parentheses := by
      by_contra hform
      exact houter fun h => absurd h hform
    subst hform
    have henclosed : enclosed raw = false := by
      by_contra henclosed
      exact houter fun _ => Bool.not_eq_false _ ▸ henclosed
    rw [toDecimal_of_not_enclosed hascii h henclosed]
    rintro ⟨d, hd, -⟩
    cases hd

omit hascii in
/-- Nothing is read where the library takes nothing for a number. -/
theorem toDecimal_ne_none {raw : String} (hascii : ReadsAsciiDigits runtime)
    (h : Decimal.Accepted runtime (amountText raw)) : toDecimal runtime raw ≠ .ok none := by
  obtain ⟨value, hvalue⟩ := (exists_ofText? hascii (no_space_of_amountText raw)).mpr h
  rw [toDecimal_eq_match hascii, hvalue]
  dsimp only
  split
  next =>
    intro hnone
    obtain ⟨d, -, hd⟩ := Fallible.map_eq_ok.mp hnone
    cases hd
  next => exact nofun

theorem toDecimal_of_not_accepted {raw : String} (h : ¬ Decimal.Accepted runtime (amountText raw)) :
    toDecimal runtime raw = .ok none := by
  rw [toDecimal_eq_match hascii]
  cases hvalue : ofText? runtime (amountText raw) with
  | none => rfl
  | some value =>
      exact absurd ((exists_ofText? hascii (no_space_of_amountText raw)).mp ⟨value, hvalue⟩) h

end Ascii

/-- The parser meets the grammar exactly where the number in a cell is read as it is, and
where no number is written and nothing is left that the library takes for one. -/
theorem meetsGrammar_iff (runtime : Runtime) (hascii : ReadsAsciiDigits runtime) (raw : String) :
    MeetsGrammar runtime raw ↔
      (∃ form whole fraction, Written runtime raw form whole fraction ∧
        ReadExactly raw form whole fraction) ∨
      ((∀ form whole fraction, ¬ Written runtime raw form whole fraction) ∧
        ¬ Decimal.Accepted runtime (amountText raw)) := by
  constructor
  · rintro ⟨result, hresult, hwritten, hnone⟩
    by_cases hsome : ∃ form whole fraction, Written runtime raw form whole fraction
    · obtain ⟨form, whole, fraction, hform⟩ := hsome
      obtain ⟨d, rfl, hvalue⟩ := hwritten form whole fraction hform
      exact Or.inl ⟨form, whole, fraction, hform,
        (toDecimal_value_iff hascii hform).mp ⟨d, hresult, hvalue⟩⟩
    · have hother : ∀ form whole fraction, ¬ Written runtime raw form whole fraction :=
        fun form whole fraction hform => hsome ⟨form, whole, fraction, hform⟩
      refine Or.inr ⟨hother, fun haccepted => toDecimal_ne_none hascii haccepted ?_⟩
      rw [hresult, hnone hother]
  · rintro (⟨form, whole, fraction, hform, hread⟩ | ⟨hother, hrefused⟩)
    · obtain ⟨d, hresult, hvalue⟩ := (toDecimal_value_iff hascii hform).mpr hread
      refine ⟨some d, hresult, fun form' whole' fraction' hform' => ?_,
        fun hnone => absurd hform (hnone form whole fraction)⟩
      obtain ⟨rfl, rfl, rfl⟩ := hform.unique hascii hform'
      exact ⟨d, rfl, hvalue⟩
    · exact ⟨none, toDecimal_of_not_accepted hascii hrefused,
        fun form whole fraction hform => absurd hform (hother form whole fraction), fun _ => rfl⟩

/-- A negated number beyond the context leaves the parser as a signal. -/
theorem overflow_raised :
    toDecimal .ascii "(1E+1000000)" = .error .overflow ∧ ¬ MeetsGrammar .ascii "(1E+1000000)" := by
  have hraised : toDecimal .ascii "(1E+1000000)" = .error .overflow := by decide +kernel
  refine ⟨hraised, ?_⟩
  rintro ⟨result, hresult, -⟩
  rw [hraised] at hresult
  cases hresult

-- leading zeros do not count toward the limits of the library
example : toDecimal .ascii "(01E999999999999999999)" = .error .overflow := by decide +kernel

/-- An accounting negative with a thousands separator. -/
theorem meetsGrammar_thousands : MeetsGrammar .ascii "(1,234.56)" := by
  refine (meetsGrammar_iff .ascii readsAsciiDigits_ascii "(1,234.56)").mpr (Or.inl
    ⟨.parentheses, [1, 2, 3, 4], [5, 6], ⟨"1,234.56".toList, by decide, ⟨⟨"1,234".toList,
      ".56".toList, by decide, ?_, ?_⟩, by decide⟩⟩, ⟨fun _ => by decide, by decide, fun _ => ?_⟩⟩)
  · have hgroups : ∀ group ∈ [['2', '3', '4']], group.length = 3 := by decide
    exact @WholeText.grouped .ascii ['1'] _ _ (by decide) hgroups rfl
  · exact .present rfl
  · refine ⟨123456, 0, by decide, by decide, by decide, ?_⟩
    calc ((number ([1, 2, 3, 4] ++ [5, 6]) : Nat) : ℚ) * 10 ^ (-(([5, 6] : List Nat).length : Int))
        < 10 ^ (4 : Int) := by norm_num [number]
      _ ≤ contextLimit := zpow_le_zpow_right₀ (by norm_num) (by decide)

end Harbormaster.Inspector
