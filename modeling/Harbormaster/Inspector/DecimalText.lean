import Harbormaster.Inspector.DateText
import Harbormaster.Inspector.DecimalContext

/-! # Texts of decimal numbers

The texts that the language takes for a decimal number: infinities, what is not a
number, and digits with a fraction, an exponent and a sign, in any letter case and
with underscores anywhere.
-/

namespace Harbormaster.Inspector.Decimal

section Grammar

variable (runtime : Runtime)

/-- Digits, and their values. -/
def Digits (text : List Char) (values : List Nat) : Prop :=
  text.map runtime.decimal = values.map some

def signTexts : List (List Char) := [[], ['-'], ['+']]

/-- What is no finite number; digits may stand behind what is none at all. -/
def Special (text : List Char) : Prop :=
  text = "inf".toList ∨ text = "infinity".toList ∨ ∃ payload values, Digits runtime payload values ∧
    (values.dropWhile fun value => value = 0).length ≤ maxPrec ∧
    (text = "nan".toList ++ payload ∨ text = "snan".toList ++ payload)

/-- The digits behind a point, or nothing. -/
inductive FractionText : List Char → List Nat → Prop where
  | absent : FractionText [] []
  | present {digits : List Char} {values : List Nat} (h : Digits runtime digits values) :
      FractionText ('.' :: digits) values

/-- A letter with a signed number behind it, or nothing. -/
inductive ExponentText : List Char → Int → Prop where
  | absent : ExponentText [] 0
  | present {sign digits : List Char} {values : List Nat} (hsign : sign ∈ signTexts)
      (h : Digits runtime digits values) (hne : values ≠ []) :
      ExponentText ('e' :: (sign ++ digits))
        (if sign = ['-'] then -(number values) else number values)

/-- Digits with a fraction and an exponent. -/
structure Scientific (text : List Char) (whole fraction : List Nat) (exponent : Int) : Prop where
  parts : ∃ wholeText fractionText exponentText, text = wholeText ++ (fractionText ++ exponentText) ∧
    Digits runtime wholeText whole ∧ FractionText runtime fractionText fraction ∧
    ExponentText runtime exponentText exponent
  nonempty : whole ++ fraction ≠ []

/-- A number without its sign. -/
def Unsigned (text : List Char) : Prop :=
  Special runtime text ∨ ∃ whole fraction exponent, Scientific runtime text whole fraction exponent ∧
    InRange whole fraction (exponent - fraction.length)

/-- A number, however it is written. -/
def Accepted (text : List Char) : Prop :=
  ∃ sign body, (text.filter fun c => c ≠ '_').map Char.toLower = sign ++ body ∧ sign ∈ signTexts ∧
    Unsigned runtime body

end Grammar

variable {runtime : Runtime}

/-! ## Reading digits -/

theorem takeDigits_append {text rest : List Char} {values : List Nat}
    (h : Digits runtime text values) (hrest : ∀ c ∈ rest.head?, runtime.decimal c = none) :
    takeDigits runtime (text ++ rest) = (values, rest) := by
  induction text generalizing values with
  | nil =>
      obtain rfl := List.map_eq_nil_iff.mp h.symm
      cases rest with
      | nil => rfl
      | cons c rest => simp [takeDigits, hrest c rfl]
  | cons c text ih =>
      cases values with
      | nil => cases h
      | cons value values =>
          obtain ⟨hvalue, hrun⟩ := List.cons.inj h
          rw [List.cons_append, takeDigits, hvalue, ih hrun]

theorem takeDigits_digits {text : List Char} {values : List Nat} (h : Digits runtime text values) :
    takeDigits runtime text = (values, []) := by
  simpa using @takeDigits_append _ text [] values h (by simp)

variable (runtime) in
theorem takeDigits_spec (text : List Char) :
    ∃ run, text = run ++ (takeDigits runtime text).2 ∧
      Digits runtime run (takeDigits runtime text).1 := by
  induction text with
  | nil => exact ⟨[], rfl, rfl⟩
  | cons c rest ih =>
      rw [takeDigits]
      cases hvalue : runtime.decimal c with
      | none => exact ⟨[], rfl, rfl⟩
      | some value =>
          obtain ⟨run, hrest, hrun⟩ := ih
          refine ⟨c :: run, congrArg (c :: ·) hrest, ?_⟩
          change runtime.decimal c :: run.map runtime.decimal = _
          rw [hvalue, hrun]
          rfl

theorem isPayload_iff {text : List Char} :
    isPayload runtime text = true ↔ ∃ values, Digits runtime text values ∧
      (values.dropWhile fun value => value = 0).length ≤ maxPrec := by
  unfold isPayload
  rw [Bool.and_eq_true, decide_eq_true_eq, decide_eq_true_eq]
  constructor
  · rintro ⟨hrest, hlength⟩
    obtain ⟨run, hsplit, hrun⟩ := takeDigits_spec runtime text
    rw [hrest, List.append_nil] at hsplit
    rw [hsplit] at hrun hlength ⊢
    exact ⟨_, hrun, hlength⟩
  · rintro ⟨values, hdigits, hlength⟩
    rw [takeDigits_digits hdigits]
    exact ⟨rfl, hlength⟩

theorem head_of_digits {text : List Char} {values : List Nat} (h : Digits runtime text values) :
    ∀ c ∈ text.head?, (runtime.decimal c).isSome := by
  intro c hc
  obtain ⟨rest, rfl⟩ := List.head?_eq_some_iff.mp hc
  cases values with
  | nil => cases h
  | cons value values =>
      rw [(List.cons.inj h).1]
      rfl

theorem takeSign_append {sign rest : List Char} (hsign : sign ∈ signTexts)
    (hrest : ∀ c ∈ rest.head?, c ≠ '-' ∧ c ≠ '+') :
    takeSign (sign ++ rest) = (decide (sign = ['-']), rest) := by
  simp only [signTexts, List.mem_cons, List.not_mem_nil, or_false] at hsign
  rcases hsign with rfl | rfl | rfl
  · cases rest with
    | nil => rfl
    | cons c rest =>
        obtain ⟨hminus, hplus⟩ := hrest c rfl
        rw [List.nil_append, takeSign.eq_3 _ (fun rest h => hminus (List.cons.inj h).1)
          (fun rest h => hplus (List.cons.inj h).1)]
        rfl
  · rfl
  · rfl

theorem takeSign_spec (text : List Char) : ∃ sign ∈ signTexts,
    text = sign ++ (takeSign text).2 ∧ (takeSign text).1 = decide (sign = ['-']) := by
  unfold takeSign
  split
  next rest => exact ⟨['-'], by decide, rfl, rfl⟩
  next rest => exact ⟨['+'], by decide, rfl, rfl⟩
  next => exact ⟨[], by decide, rfl, rfl⟩

theorem Digits.mem {text : List Char} {values : List Nat} (h : Digits runtime text values) :
    ∀ c ∈ text, (runtime.decimal c).isSome := by
  intro c hc
  have hmem : runtime.decimal c ∈ values.map some := h ▸ List.mem_map_of_mem hc
  obtain ⟨value, -, hvalue⟩ := List.mem_map.mp hmem
  rw [← hvalue]
  rfl

theorem FractionText.mem {text : List Char} {values : List Nat}
    (h : FractionText runtime text values) :
    ∀ c ∈ text, c = '.' ∨ (runtime.decimal c).isSome := by
  cases h with
  | absent => simp
  | present hdigits =>
      intro c hc
      rcases List.mem_cons.mp hc with rfl | hc
      · exact Or.inl rfl
      · exact Or.inr (hdigits.mem c hc)

theorem FractionText.unique {text : List Char} {values values' : List Nat}
    (h : FractionText runtime text values) (h' : FractionText runtime text values') :
    values = values' := by
  cases h with
  | absent =>
      cases h'
      rfl
  | present hdigits =>
      cases h' with
      | present hdigits' =>
          exact List.map_injective_iff.mpr (Option.some_injective _) (hdigits.symm.trans hdigits')

/-! ## Numbers -/

section Ascii

variable (hascii : ReadsAsciiDigits runtime)

include hascii

theorem no_sign_of_digits {text : List Char} {values : List Nat}
    (h : Digits runtime text values) : ∀ c ∈ text.head?, c ≠ '-' ∧ c ≠ '+' := by
  intro c hc
  have hdigit := head_of_digits h c hc
  constructor <;> rintro rfl <;> rw [decimal_eq_none hascii (by decide) rfl] at hdigit <;> cases hdigit

omit hascii in
theorem exponentOf_cons (rest : List Char) :
    exponentOf runtime ('e' :: rest) =
      match takeDigits runtime (takeSign rest).2 with
      | ([], _) => none
      | (digits, []) => some (if (takeSign rest).1 then -(number digits) else number digits)
      | (_, _ :: _) => none := rfl

theorem exponentOf_eq_some {text : List Char} {exponent : Int} :
    exponentOf runtime text = some exponent ↔ ExponentText runtime text exponent := by
  constructor
  · intro h
    cases text with
    | nil =>
        obtain rfl := Option.some.inj h
        exact .absent
    | cons c rest =>
        by_cases hletter : c = 'e'
        · subst hletter
          rw [exponentOf_cons] at h
          obtain ⟨sign, hsign, hrest, hnegative⟩ := takeSign_spec rest
          obtain ⟨run, hafter, hrun⟩ := takeDigits_spec runtime (takeSign rest).2
          generalize (takeSign rest).1 = negative at h hnegative
          generalize (takeSign rest).2 = unsigned at h hafter hrest hrun
          cases hread : takeDigits runtime unsigned with
          | mk values after =>
              rw [hread] at h hafter hrun
              -- an exponent has digits, and nothing behind them
              cases values with
              | nil => cases h
              | cons value values =>
                  cases after with
                  | cons c after => cases h
                  | nil =>
                      obtain rfl := Option.some.inj h
                      subst hnegative hrest
                      rw [hafter, List.append_nil]
                      simpa using ExponentText.present hsign hrun (List.cons_ne_nil value values)
        · rw [exponentOf.eq_3 _ _ (List.cons_ne_nil c rest) fun rest h =>
            hletter (List.cons.inj h).1] at h
          cases h
  · intro h
    cases h with
    | absent => rfl
    | @present sign digits values hsign hdigits hne =>
        rw [exponentOf_cons, takeSign_append hsign (no_sign_of_digits hascii hdigits),
          takeDigits_digits hdigits]
        cases values with
        | nil => exact absurd rfl hne
        | cons value values => simp

omit hascii in
/-- The last part of `ofUnsigned?`. -/
theorem ofUnsigned?_eq (negative : Bool) (text : List Char) :
    ofUnsigned? runtime negative text =
      if text = "inf".toList ∨ text = "infinity".toList then some (.infinity negative)
      else if "nan".toList <+: text ∧ isPayload runtime (text.drop 3) then
        some (.nan negative false)
      else if "snan".toList <+: text ∧ isPayload runtime (text.drop 4) then
        some (.nan negative true)
      else match takeDigits runtime text with
        | (whole, '.' :: rest) => exponentOf runtime (takeDigits runtime rest).2 >>=
            ofDigits? negative whole (takeDigits runtime rest).1
        | (whole, rest) => exponentOf runtime rest >>= ofDigits? negative whole [] := rfl

omit hascii in
/-- A number starts with a digit or with its point. -/
theorem Scientific.head {text : List Char} {whole fraction : List Nat} {exponent : Int}
    (h : Scientific runtime text whole fraction exponent) :
    ∀ c ∈ text.head?, c = '.' ∨ (runtime.decimal c).isSome := by
  obtain ⟨wholeText, fractionText, exponentText, rfl, hwhole, hfraction, -⟩ := h.parts
  cases wholeText with
  | cons c wholeText =>
      intro c' hc'
      obtain rfl := Option.some.inj hc'
      exact Or.inr (head_of_digits hwhole c rfl)
  | nil =>
      obtain rfl := List.map_eq_nil_iff.mp hwhole.symm
      cases hfraction with
      | absent => exact absurd rfl h.nonempty
      | present _ =>
          intro c' hc'
          exact Or.inl (Option.some.inj hc').symm

/-- A number starts with no letter. -/
theorem Scientific.not_prefix {text : List Char} {whole fraction : List Nat} {exponent : Int}
    (h : Scientific runtime text whole fraction exponent) {c : Char} {word : List Char}
    (hc : c.toNat < 128) (hdigit : c.isDigit = false) (hpoint : c ≠ '.') : ¬ c :: word <+: text := by
  rintro ⟨rest, rfl⟩
  rcases h.head c rfl with hsame | hsome
  · exact hpoint hsame
  · rw [decimal_eq_none hascii hc hdigit] at hsome
    cases hsome

theorem ofUnsigned?_number {negative : Bool} {text : List Char} {whole fraction : List Nat}
    {exponent : Int} (h : Scientific runtime text whole fraction exponent) :
    ofUnsigned? runtime negative text = ofDigits? negative whole fraction exponent := by
  have hinf : ¬ (text = "inf".toList ∨ text = "infinity".toList) := by
    rintro (hsame | hsame)
    · have hprefix : "inf".toList <+: text := hsame ▸ List.prefix_rfl
      exact h.not_prefix hascii (by decide) rfl (by decide) hprefix
    · have hprefix : "infinity".toList <+: text := hsame ▸ List.prefix_rfl
      exact h.not_prefix hascii (by decide) rfl (by decide) hprefix
  have hnan : ¬ ("nan".toList <+: text ∧ isPayload runtime (text.drop 3)) := fun hnan =>
    h.not_prefix hascii (by decide) rfl (by decide) hnan.1
  have hsnan : ¬ ("snan".toList <+: text ∧ isPayload runtime (text.drop 4)) := fun hnan =>
    h.not_prefix hascii (by decide) rfl (by decide) hnan.1
  rw [ofUnsigned?_eq, if_neg hinf, if_neg hnan, if_neg hsnan]
  obtain ⟨wholeText, fractionText, exponentText, rfl, hwhole, hfraction, hexponent⟩ := h.parts
  have hletter : runtime.decimal 'e' = none := decimal_eq_none hascii (by decide) rfl
  have hexponentHead : ∀ c ∈ exponentText.head?, runtime.decimal c = none := by
    cases hexponent with
    | absent => simp
    | present _ _ _ => simpa using hletter
  have hread := (exponentOf_eq_some hascii).mpr hexponent
  cases hfraction with
  | absent =>
      rw [List.nil_append, takeDigits_append hwhole hexponentHead]
      cases hexponent with
      | absent => rfl
      | present _ _ _ =>
          change exponentOf runtime _ >>= ofDigits? negative whole [] = _
          rw [hread]
          rfl
  | @present digits values hdigits =>
      have hpoint : runtime.decimal '.' = none := decimal_eq_none hascii (by decide) rfl
      rw [List.cons_append, takeDigits_append hwhole (by simpa using hpoint)]
      change exponentOf runtime (takeDigits runtime (digits ++ exponentText)).2 >>= _ = _
      rw [takeDigits_append hdigits hexponentHead, hread]
      rfl

omit hascii in
theorem ofDigits?_eq {negative : Bool} {whole fraction : List Nat} {exponent : Int}
    (hne : whole ++ fraction ≠ []) :
    ofDigits? negative whole fraction exponent =
      if InRange whole fraction (exponent - fraction.length) then
        some (.finite negative (number (whole ++ fraction)) (exponent - fraction.length))
      else none := by
  unfold ofDigits?
  rw [if_neg hne]

omit hascii in
theorem ofDigits?_nonempty {negative : Bool} {whole fraction : List Nat} {exponent : Int}
    {d : Decimal} (h : ofDigits? negative whole fraction exponent = some d) :
    whole ++ fraction ≠ [] ∧ InRange whole fraction (exponent - fraction.length) := by
  unfold ofDigits? at h
  dsimp only at h
  split at h
  next => cases h
  next hne =>
    split at h
    next hrange => exact ⟨hne, hrange⟩
    next => cases h

/-- Only the texts of numbers are taken for one. -/
theorem unsigned_of_ofUnsigned? {negative : Bool} {text : List Char} {d : Decimal}
    (h : ofUnsigned? runtime negative text = some d) : Unsigned runtime text := by
  rw [ofUnsigned?_eq] at h
  split at h
  next hinf => exact Or.inl (hinf.elim Or.inl fun hinf => Or.inr (Or.inl hinf))
  next =>
    split at h
    next hnan =>
      obtain ⟨⟨payload, rfl⟩, hrest⟩ := hnan
      obtain ⟨values, hdigits, hlength⟩ := isPayload_iff.mp hrest
      exact Or.inl (Or.inr (Or.inr ⟨payload, values, hdigits, hlength, Or.inl rfl⟩))
    next =>
      split at h
      next hsnan =>
        obtain ⟨⟨payload, rfl⟩, hrest⟩ := hsnan
        obtain ⟨values, hdigits, hlength⟩ := isPayload_iff.mp hrest
        exact Or.inl (Or.inr (Or.inr ⟨payload, values, hdigits, hlength, Or.inr rfl⟩))
      next =>
        obtain ⟨run, hsplit, hrun⟩ := takeDigits_spec runtime text
        cases hread : takeDigits runtime text with
        | mk whole rest =>
            rw [hread] at h hsplit hrun
            -- what follows the first digits is a point or no part of the number
            by_cases hpoint : ∃ after, rest = '.' :: after
            · obtain ⟨after, rfl⟩ := hpoint
              obtain ⟨exponent, hexponent, hdigits⟩ := Option.bind_eq_some_iff.mp h
              obtain ⟨fractionRun, hfraction, hfractionRun⟩ := takeDigits_spec runtime after
              obtain ⟨hne, hrange⟩ := ofDigits?_nonempty hdigits
              refine Or.inr ⟨whole, _, exponent, ⟨⟨run, '.' :: fractionRun,
                (takeDigits runtime after).2, ?_, hrun, .present hfractionRun,
                (exponentOf_eq_some hascii).mp hexponent⟩, hne⟩, hrange⟩
              rw [hsplit, List.cons_append, ← hfraction]
            · have hwhole : exponentOf runtime rest >>= ofDigits? negative whole [] = some d := by
                split at h
                next after hsame => exact absurd ⟨after, (Prod.mk.inj hsame).2⟩ hpoint
                next hsame =>
                  obtain ⟨rfl, rfl⟩ := Prod.mk.inj hsame
                  exact h
              obtain ⟨exponent, hexponent, hdigits⟩ := Option.bind_eq_some_iff.mp hwhole
              obtain ⟨hne, hrange⟩ := ofDigits?_nonempty hdigits
              exact Or.inr ⟨whole, [], exponent, ⟨⟨run, [], rest, hsplit, hrun, .absent,
                (exponentOf_eq_some hascii).mp hexponent⟩, hne⟩, hrange⟩

theorem exists_ofUnsigned? (negative : Bool) {text : List Char} (h : Unsigned runtime text) :
    ∃ d, ofUnsigned? runtime negative text = some d := by
  rcases h with hspecial | ⟨whole, fraction, exponent, hnumber, hrange⟩
  · rw [ofUnsigned?_eq]
    rcases hspecial with hinf | hinf | ⟨payload, values, hpayload, hlength, rfl | rfl⟩
    · exact ⟨_, if_pos (Or.inl hinf)⟩
    · exact ⟨_, if_pos (Or.inr hinf)⟩
    · have hrest : isPayload runtime (("nan".toList ++ payload).drop 3) :=
        isPayload_iff.mpr ⟨values, hpayload, hlength⟩
      split
      next => exact ⟨_, rfl⟩
      next => exact ⟨_, if_pos ⟨List.prefix_append _ _, hrest⟩⟩
    · have hrest : isPayload runtime (("snan".toList ++ payload).drop 4) :=
        isPayload_iff.mpr ⟨values, hpayload, hlength⟩
      split
      next => exact ⟨_, rfl⟩
      next =>
        split
        next => exact ⟨_, rfl⟩
        next => exact ⟨_, if_pos ⟨List.prefix_append _ _, hrest⟩⟩
  · rw [ofUnsigned?_number hascii hnumber, ofDigits?_eq hnumber.nonempty]
    exact ⟨_, if_pos hrange⟩

/-- A text that starts with neither a digit, a point nor a word of the library. -/
theorem ofUnsigned?_eq_none (negative : Bool) {c : Char} {rest : List Char} (hc : c.toNat < 128)
    (hdigit : c.isDigit = false) (hpoint : c ≠ '.') (hletter : c ≠ 'e')
    (hinf : ¬ (c :: rest = "inf".toList ∨ c :: rest = "infinity".toList))
    (hnan : ¬ "nan".toList <+: c :: rest) (hsnan : ¬ "snan".toList <+: c :: rest) :
    ofUnsigned? runtime negative (c :: rest) = none := by
  have hread : takeDigits runtime (c :: rest) = ([], c :: rest) := by
    rw [takeDigits, decimal_eq_none hascii hc hdigit]
  rw [ofUnsigned?_eq, if_neg hinf, if_neg fun h => hnan h.1, if_neg fun h => hsnan h.1, hread]
  have hexponent : exponentOf runtime (c :: rest) = none :=
    exponentOf.eq_3 _ _ (List.cons_ne_nil c rest) fun _ h => hletter (List.cons.inj h).1
  split
  next h => exact absurd (List.cons.inj (Prod.mk.inj h).2).1 hpoint
  next h =>
    obtain ⟨rfl, rfl⟩ := Prod.mk.inj h
    rw [hexponent]
    rfl

/-- No number starts with two signs. -/
theorem Unsigned.head {text : List Char} (h : Unsigned runtime text) :
    ∀ c ∈ text.head?, c ≠ '-' ∧ c ≠ '+' := by
  rcases h with hspecial | ⟨whole, fraction, exponent, hnumber, -⟩
  · rcases hspecial with rfl | rfl | ⟨payload, values, -, -, rfl | rfl⟩ <;>
      (intro c hc; obtain rfl := Option.some.inj hc; decide)
  · intro c hc
    rcases hnumber.head c hc with rfl | hdigit
    · decide
    · constructor <;> rintro rfl <;> rw [decimal_eq_none hascii (by decide) rfl] at hdigit <;>
        cases hdigit

omit hascii in
theorem stripChars_of_forall {text : List Char} (h : ∀ c ∈ text, isspace c = false) :
    stripChars text = text := by
  have hkeep : ∀ list : List Char, (∀ c ∈ list, isspace c = false) →
      list.dropWhile isspace = list := by
    intro list hlist
    cases list with
    | nil => rfl
    | cons c rest => rw [List.dropWhile_cons, hlist c List.mem_cons_self, if_neg Bool.false_ne_true]
  unfold stripChars
  rw [hkeep text h, hkeep text.reverse (by simpa using h), List.reverse_reverse]

omit hascii in
theorem ofText?_eq {text : List Char} (h : ∀ c ∈ text, isspace c = false) :
    ofText? runtime text = ofUnsigned? runtime
      (takeSign ((text.filter fun c => c ≠ '_').map Char.toLower)).1
      (takeSign ((text.filter fun c => c ≠ '_').map Char.toLower)).2 := by
  unfold ofText?
  rw [stripChars_of_forall h]

/-- The texts that the language takes for a number. -/
theorem exists_ofText? {text : List Char} (h : ∀ c ∈ text, isspace c = false) :
    (∃ d, ofText? runtime text = some d) ↔ Accepted runtime text := by
  rw [ofText?_eq h]
  constructor
  · rintro ⟨d, hd⟩
    obtain ⟨sign, hsign, hsplit, -⟩ := takeSign_spec ((text.filter fun c => c ≠ '_').map Char.toLower)
    exact ⟨sign, _, hsplit, hsign, unsigned_of_ofUnsigned? hascii hd⟩
  · rintro ⟨sign, body, hsplit, hsign, hunsigned⟩
    rw [hsplit, takeSign_append hsign (hunsigned.head hascii)]
    exact exists_ofUnsigned? hascii _ hunsigned

theorem toLower_of_digit {c : Char} (h : (runtime.decimal c).isSome) : c.toLower = c := by
  unfold Char.toLower
  split
  -- no capital letter is a digit
  next hupper =>
    have hlow : 65 ≤ c.toNat := UInt32.le_iff_toNat_le.mp hupper.1
    have hhigh : c.toNat ≤ 90 := UInt32.le_iff_toNat_le.mp hupper.2
    have hdigit : c.isDigit = false := by
      have hall : ∀ code, 65 ≤ code → code ≤ 90 → (Char.ofNat code).isDigit = false := by
        intro code hlow hhigh
        interval_cases code <;> rfl
      have hcode := hall c.toNat hlow hhigh
      rwa [Char.ofNat_toNat] at hcode
    rw [decimal_eq_none hascii (by omega) hdigit] at h
    cases h
  next => rfl

/-- The text of an amount as the library reads it: digits and a point, behind a sign. -/
theorem plain_eq {text : List Char}
    (h : ∀ c ∈ text, c = '-' ∨ c = '.' ∨ (runtime.decimal c).isSome) :
    (text.filter fun c => c ≠ '_').map Char.toLower = text := by
  have hkeep : ∀ c ∈ text, c ≠ '_' ∧ c.toLower = c := by
    intro c hc
    rcases h c hc with rfl | rfl | hdigit
    · decide
    · decide
    · refine ⟨?_, toLower_of_digit hascii hdigit⟩
      rintro rfl
      rw [decimal_eq_none hascii (by decide) rfl] at hdigit
      cases hdigit
  rw [List.filter_eq_self.mpr fun c hc => decide_eq_true (hkeep c hc).1]
  calc text.map Char.toLower = text.map id := List.map_congr_left fun c hc => (hkeep c hc).2
    _ = text := List.map_id text

end Ascii

end Harbormaster.Inspector.Decimal
