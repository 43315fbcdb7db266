import Harbormaster.Foundation.Readings
import Harbormaster.Inspector.DateText
import Harbormaster.Inspector.DelimitedText

/-! # Free-text email bodies

The extraction of `EmailTextParser`: each line that names an amount and a currency is a
movement, and its direction is decided by the words in it. A word counts wherever its
letters occur, inside other words too, so a credit can be read as a debit.
-/

namespace Harbormaster.Inspector.EmailTextParser

open Matching Matcher Ordered Utf8

/-- The tables the extraction needs beside those of the inspector. -/
structure Advice where
  runtime : Runtime
  /-- `str.isdigit` of one character. -/
  isdigit : Char → Bool
  /-- The nearest double; beyond the largest it is infinite. -/
  double : ℚ → WithTop ℚ

variable (advice : Advice)

/-! ## Amounts -/

def digitChar : Matcher Char := satisfy fun c => (advice.runtime.decimal c).isSome

/-- `(?:\.\d+)?`. -/
def fraction : Matcher (List Char) :=
  orElse (do
    literal '.'
    return '.' :: (← many1 (digitChar advice))) (pure [])

/-- `(?:,\d{3})*`. -/
def thousands : Matcher (List Char) := fun cursor => (do
  let groups ← upTo (do
    literal ','
    return ',' :: (← times (digitChar advice) 3)) cursor.rest.length
  return groups.flatten) cursor

/-- The number of an amount. -/
def number : Matcher (List Char) :=
  oneOf [
    do
      let first ← between (digitChar advice) 1 3
      let groups ← thousands advice
      return first ++ (groups ++ (← fraction advice)),
    do
      let whole ← many1 (digitChar advice)
      return whole ++ (← fraction advice)]

structure AmountMatch where
  symbol : Option Char
  number : List Char

/-- `_AMOUNT`. -/
def amountPattern : Matcher AmountMatch := do
  let symbol ← orElse (do return some (← satisfy fun c => currencySymbols.contains c)) (pure none)
  let _ ← fun cursor => upTo (satisfy isspace) cursor.rest.length cursor
  let number ← number advice
  ahead fun rest => !(rest.head?.any fun c => (advice.runtime.decimal c).isSome)
  return { symbol, number }

/-- The number that digits and a point denote. -/
def amountValue (text : List Char) : ℚ :=
  let whole := text.takeWhile (· ≠ '.')
  let fraction := (text.dropWhile (· ≠ '.')).tail
  let digits := (whole ++ fraction).map fun c => (advice.runtime.decimal c).getD 0
  (digits.foldl (fun value digit => 10 * value + digit) 0 : Nat) / 10 ^ fraction.length

/-- The amount found so far. -/
structure BestAmount where
  text : Option (List Char) := none
  value : WithTop ℚ := ((-1 : ℚ) : WithTop ℚ)

/-- Not an account number, a part of a date, or less than the amount found so far. -/
def BestAmount.consider (best : BestAmount) (found : AmountMatch) : BestAmount :=
  let bare := ',' ∉ found.number ∧ '.' ∉ found.number
  let text := found.number.filter (· ≠ ',')
  let value := advice.double (amountValue advice text)
  if bare ∧ 5 ≤ found.number.length then best
  else if ((1900 : ℚ) : WithTop ℚ) ≤ value ∧ value ≤ ((2100 : ℚ) : WithTop ℚ) ∧ bare then best
  else if found.symbol = none ∧ bare then best
  else if best.value < value then { text := some text, value } else best

/-- Pick the monetary amount. -/
def amount (line : List Char) : Option (List Char) :=
  (((amountPattern advice).findAll line).foldl (BestAmount.consider advice) {}).text

/-! ## Currencies, accounts and dates -/

def isWord (c : Char) : Bool := advice.runtime.isalnum c || c = '_'

def symbolCurrency : List (Char × String) :=
  [('$', "USD"), ('€', "EUR"), ('£', "GBP"), ('¥', "JPY")]

def currency (line : List Char) : Option String :=
  match (captured (currencyCode advice.runtime)).search line with
  | some code => some (String.ofList code)
  | none => (symbolCurrency.find? fun (symbol, _) => line.contains symbol).map Prod.snd

def upperAlnum : Matcher Char := satisfy fun c => c.isUpper || c.isDigit

def hyphen : Matcher Char := satisfy fun c => c = '-' || c = '_'

/-- `_ACCOUNT`. -/
def account : Matcher (List Char) := captured do
  boundary (isWord advice)
  let _ ← between upperAlnum 2 6
  let _ ← hyphen
  let _ ← between upperAlnum 2 6
  optional (do
    let _ ← hyphen
    between upperAlnum 2 6)
  boundary (isWord advice)

/-- A pattern between the boundaries of words. -/
def wholeWord (matcher : Matcher Unit) : Matcher (List Char) := captured do
  boundary (isWord advice)
  matcher
  boundary (isWord advice)

/-- `_DATE_PATTERNS`. -/
def datePatterns : List (Matcher (List Char)) :=
  let digits (low high : Nat) : Matcher Unit := do
    let _ ← between (digitChar advice) low high
    return ()
  [wholeWord advice do
      digits 4 4
      literal '-'
      digits 2 2
      literal '-'
      digits 2 2,
    wholeWord advice do
      digits 1 2
      spaces
      let _ ← satisfy Char.isUpper
      let _ ← many1 (satisfy Char.isLower)
      spaces
      digits 4 4,
    wholeWord advice do
      digits 1 2
      literal '/'
      digits 1 2
      literal '/'
      digits 4 4,
    wholeWord advice do
      digits 1 2
      literal '-'
      let _ ← times (satisfy Char.isAlpha) 3
      literal '-'
      digits 4 4]

/-- The first pattern whose first match can be read as a date. -/
def firstDate (text : List Char) : Option String :=
  (datePatterns advice).findSome? fun pattern => do
    let found ← pattern.search text
    match parseDate advice.runtime (String.ofList found) with
    | some day => some (isoformat day)
    | none =>
        (strptime (dayFirst advice.runtime fullMonth spaces) found).map Civil.Date.isoformat

/-! ## Directions -/

inductive Direction where
  | debit | credit | unknown
deriving DecidableEq

def Direction.text : Direction → String
  | debit => "DEBIT"
  | credit => "CREDIT"
  | unknown => "UNKNOWN"

def debitWords : List String :=
  ["debit", "withdrawal", "outgoing", "paid", "payment out", "sent"]

def creditWords : List String := ["credit", "deposit", "incoming", "received", "receipt"]

/-- One of the words is a part of the text, in lower case. -/
def mentions (words : List String) (line : List Char) : Bool :=
  words.any fun word => word.toList <:+: advice.runtime.lower line

def direction (line : List Char) : Direction :=
  if mentions advice debitWords line then .debit
  else if mentions advice creditWords line then .credit
  else if '(' ∈ line ∧ ')' ∈ line ∧ line.any advice.isdigit then .debit
  else .unknown

/-! ## Movements -/

structure Movement where
  accountId : String
  netAmount : List Char
  currency : String
  valueDate : String
  direction : Direction
  extractionConfidence : ℚ
  sourceLine : String

def Movement.row (movement : Movement) : Row := .ofPairs [
  ("Account ID", movement.accountId),
  ("Net Amount", String.ofList movement.netAmount),
  ("Currency", movement.currency),
  ("Value Date", movement.valueDate),
  ("Direction", movement.direction.text),
  ("Extraction Confidence", fixed 2 (min movement.extractionConfidence 1)),
  ("Source Line", movement.sourceLine)]

/-- `EmailTextParser._extract`. -/
def extract (line : List Char) (defaultDate : Option String) : Option Movement := do
  let currency ← currency advice line
  let amount ← amount advice line
  let direction := direction advice line
  let accountMatch := (account advice).search line
  let valueDate := ((firstDate advice line).or (truthy defaultDate)).getD ""
  let confidence : ℚ := 1 / 2 + (if accountMatch.isSome then 1 / 5 else 0) +
    (if valueDate ≠ "" then 1 / 5 else 0) + (if direction ≠ .unknown then 1 / 10 else 0)
  if confidence < 1 / 2 then none
  else
    return {
      accountId := String.ofList (accountMatch.getD [])
      netAmount := if direction ≠ .debit then amount else '-' :: amount
      currency
      valueDate
      direction
      extractionConfidence := confidence
      sourceLine := String.ofList (line.take 300) }

/-! ## Bodies -/

def isHeaderLine (line : List Char) : Bool :=
  emailMarkers.any fun marker => marker.toList <+: advice.runtime.lower line

def looksLikeAMovement (line : List Char) : Bool :=
  ((account advice).search line).isSome || (currency advice line).isSome

def subject (text : List Char) : List Char :=
  match ((splitlines [] text).take 20).find? fun line =>
    "subject:".toList <+: advice.runtime.lower line with
  | some line => stripChars (line.dropWhile (· ≠ ':')).tail
  | none => []

/-- The movements of a body, and the lines that resemble one. -/
structure Advices where
  movements : List Movement := []
  nearMisses : Nat := 0

def Advices.add (defaultDate : Option String) (advices : Advices) (line : List Char) : Advices :=
  let candidate := stripChars line
  if candidate = [] ∨ isHeaderLine advice candidate then advices
  else match extract advice candidate defaultDate with
    | some movement => { advices with movements := advices.movements ++ [movement] }
    | none =>
        if looksLikeAMovement advice candidate then
          { advices with nearMisses := advices.nearMisses + 1 }
        else advices

def headers : List String :=
  ["Account ID", "Net Amount", "Currency", "Value Date", "Direction", "Extraction Confidence",
    "Source Line"]

/-- `EmailTextParser.parse`. -/
def parse (raw : Content) : Except String ParsedTable :=
  let text := decodeText raw
  if stripChars text = [] then .error "email body is empty"
  else
    let subject := subject advice text
    let defaultDate := (firstDate advice subject).or (firstDate advice text)
    let advices := (splitlines [] text).foldl (Advices.add advice defaultDate) {}
    if advices.movements = [] then .error "no cash movements could be extracted from the body"
    else
      .ok {
        headers := headers
        rows := advices.movements.map Movement.row
        evidence := .ofPairs [("subject", String.ofList (subject.take 200)),
          ("movements_found", toString advices.movements.length),
          ("near_misses", toString advices.nearMisses)]
        warnings :=
          if 0 < advices.nearMisses then
            [toString advices.nearMisses ++
              " line(s) resembled a movement but could not be extracted"]
          else []
        headers_nodup := by decide }

/-! ## Signs -/

section Signs

variable {advice : Advice} {line text : List Char} {defaultDate : Option String}
  {movement : Movement}

/-- The number of a net amount, which may be negative. -/
def netValue (advice : Advice) : List Char → ℚ
  | '-' :: text => -amountValue advice text
  | text => amountValue advice text

/-- The text begins with a digit. -/
def BeginsWithDigit (advice : Advice) (text : List Char) : Prop :=
  ∃ c rest, text = c :: rest ∧ (advice.runtime.decimal c).isSome = true

theorem amountValue_nonneg (text : List Char) : 0 ≤ amountValue advice text := by
  unfold amountValue
  positivity

theorem leaves_number (text : List Char) :
    (number advice).Leaves text fun result _ => BeginsWithDigit advice result := by
  have hdigit : ∀ text, (digitChar advice).Leaves text fun c _ =>
      (advice.runtime.decimal c).isSome = true := leaves_satisfy _
  refine leaves_oneOf fun matcher hmatcher => ?_
  rcases List.mem_pair.mp hmatcher with rfl | rfl
  · refine (leaves_between hdigit 3 text).bind ?_
    rintro _ rest ⟨c, first, rfl, hc⟩
    refine (leaves_true _ rest).bind fun groups rest _ => ?_
    exact (leaves_true _ rest).bind fun more _ _ => leaves_pure ⟨c, _, rfl, hc⟩
  · refine (leaves_many1 hdigit text).bind ?_
    rintro _ rest ⟨c, whole, rfl, hc⟩
    exact (leaves_true _ rest).bind fun more _ _ => leaves_pure ⟨c, _, rfl, hc⟩

theorem leaves_amountPattern (text : List Char) :
    (amountPattern advice).Leaves text fun found _ => BeginsWithDigit advice found.number := by
  refine (leaves_true _ text).bind fun symbol rest _ => ?_
  refine (leaves_true _ rest).bind fun _ rest _ => ?_
  refine (leaves_number rest).bind fun number rest hnumber => ?_
  exact (leaves_true _ rest).bind fun _ _ _ => leaves_pure hnumber

/-- The amount of a line begins with a digit. -/
theorem beginsWithDigit_of_amount (hascii : ReadsAsciiDigits advice.runtime)
    (h : amount advice line = some text) : BeginsWithDigit advice text := by
  have hcomma : advice.runtime.decimal ',' = none := hascii ',' (by decide)
  have hkept : ∀ found ∈ (amountPattern advice).findAll line,
      BeginsWithDigit advice (found.number.filter (· ≠ ',')) := by
    intro found hfound
    obtain ⟨cursor, after, hreading⟩ := mem_findAll hfound
    obtain ⟨c, rest, hnumber, hc⟩ := leaves_amountPattern cursor.rest cursor.before _ hreading
    refine ⟨c, rest.filter (· ≠ ','), ?_, hc⟩
    dsimp only at hnumber
    rw [hnumber, List.filter_cons_of_pos]
    refine decide_eq_true fun heq => ?_
    rw [heq, hcomma] at hc
    cases hc
  have hbest : ∀ text, (((amountPattern advice).findAll line).foldl (BestAmount.consider advice)
      {}).text = some text → BeginsWithDigit advice text := by
    refine List.foldlRecOn (motive := fun best : BestAmount => ∀ text, best.text = some text →
      BeginsWithDigit advice text) _ _ (fun _ hnone => by cases hnone) ?_
    intro best hbest found hfound text htext
    unfold BestAmount.consider at htext
    dsimp only at htext
    split_ifs at htext
    · exact hbest text htext
    · exact hbest text htext
    · exact hbest text htext
    · obtain rfl := Option.some.inj htext
      exact hkept found hfound
    · exact hbest text htext
  exact hbest text h

theorem netValue_amount (hascii : ReadsAsciiDigits advice.runtime)
    (h : amount advice line = some text) : netValue advice text = amountValue advice text := by
  obtain ⟨c, rest, rfl, hc⟩ := beginsWithDigit_of_amount hascii h
  have hdash : advice.runtime.decimal '-' = none := hascii '-' (by decide)
  unfold netValue
  split
  next heq =>
    obtain ⟨rfl, -⟩ := List.cons.inj heq
    rw [hdash] at hc
    cases hc
  next => rfl

/-- What a movement says about its line. -/
theorem extract_eq_some (h : extract advice line defaultDate = some movement) :
    ∃ text, amount advice line = some text ∧ movement.direction = direction advice line ∧
      movement.netAmount = if direction advice line ≠ .debit then text else '-' :: text := by
  obtain ⟨currency, _, h⟩ := Option.bind_eq_some_iff.mp h
  obtain ⟨text, htext, h⟩ := Option.bind_eq_some_iff.mp h
  obtain ⟨-, h⟩ := Option.ite_none_left_eq_some.mp h
  obtain rfl := Option.some.inj h
  exact ⟨text, htext, rfl, rfl⟩

/-- The amount that is extracted is negative exactly when the line is read as a debit of
something. -/
theorem netValue_nonneg_iff_direction (hascii : ReadsAsciiDigits advice.runtime)
    (h : extract advice line defaultDate = some movement) :
    0 ≤ netValue advice movement.netAmount ↔
      direction advice line ≠ .debit ∨
        ∃ text, amount advice line = some text ∧ amountValue advice text = 0 := by
  obtain ⟨text, htext, -, hnet⟩ := extract_eq_some h
  rw [hnet]
  have hnonneg := @amountValue_nonneg advice text
  by_cases hdebit : direction advice line = .debit
  · rw [if_neg (not_not.mpr hdebit)]
    have hvalue : netValue advice ('-' :: text) = -amountValue advice text := rfl
    rw [hvalue]
    constructor
    · exact fun hle => Or.inr ⟨text, htext, by linarith⟩
    · rintro (hother | ⟨text', htext', hzero⟩)
      · exact absurd hdebit hother
      · obtain rfl := Option.some.inj (htext.symm.trans htext')
        rw [hzero, neg_zero]
  · rw [if_pos hdebit, netValue_amount hascii htext]
    exact iff_of_true hnonneg (Or.inl hdebit)

theorem direction_ne_debit_iff (hparens : '(' ∉ line ∨ ')' ∉ line) :
    direction advice line ≠ .debit ↔ mentions advice debitWords line = false := by
  unfold direction
  have hplain : ¬ ('(' ∈ line ∧ ')' ∈ line ∧ line.any advice.isdigit) := fun h =>
    hparens.elim (fun hleft => hleft h.1) fun hright => hright h.2.1
  cases hmentions : mentions advice debitWords line with
  | true => simp
  | false =>
      rw [if_neg hplain]
      simp only [Bool.false_eq_true, if_false]
      split_ifs <;> simp

/-- One of the words or phrases stands in the text by itself, in lower case. -/
def mentionsWord (advice : Advice) (words : List String) (line : List Char) : Bool :=
  words.any fun word =>
    ((wholeWord advice (word.toList.forM literal)).search (advice.runtime.lower line)).isSome

/-- A line about a credit, without the words of a debit and without parentheses. -/
structure CreditAdvice (advice : Advice) (line : List Char) : Prop where
  credit : mentions advice creditWords line = true
  noDebit : mentionsWord advice debitWords line = false
  plain : '(' ∉ line ∧ ')' ∉ line

/-- The movement of a credit is not negative exactly when no debit word occurs inside another
word either, or the amount is zero. -/
theorem netValue_nonneg_iff (hascii : ReadsAsciiDigits advice.runtime)
    (h : extract advice line defaultDate = some movement) (hcredit : CreditAdvice advice line) :
    0 ≤ netValue advice movement.netAmount ↔
      mentions advice debitWords line = false ∨
        ∃ text, amount advice line = some text ∧ amountValue advice text = 0 := by
  rw [netValue_nonneg_iff_direction hascii h, direction_ne_debit_iff (Or.inl hcredit.plain.1)]

end Signs

/-- The tables on ASCII text, with exact numbers. -/
def asciiAdvice : Advice where
  runtime := .ascii
  isdigit := Char.isDigit
  double value := value

def depositLine : List Char := "Deposit of USD 1,000.00".toList

theorem netValue_nonneg_deposit : ∃ movement, extract asciiAdvice depositLine none = some movement ∧
    0 ≤ netValue asciiAdvice movement.netAmount := by
  obtain ⟨movement, h⟩ : ∃ movement, extract asciiAdvice depositLine none = some movement :=
    Option.isSome_iff_exists.mp (by decide +kernel)
  have hcredit : CreditAdvice asciiAdvice depositLine :=
    ⟨by decide +kernel, by decide +kernel, by decide, by decide⟩
  exact ⟨movement, h, (netValue_nonneg_iff readsAsciiDigits_ascii h hcredit).mpr
    (Or.inl (by decide))⟩

def presentedLine : List Char := "Incoming receipt presented USD 1,000.00".toList

/-- What is presented counts as sent. -/
theorem presented_negative : CreditAdvice asciiAdvice presentedLine ∧
    ∃ movement, extract asciiAdvice presentedLine none = some movement ∧
      netValue asciiAdvice movement.netAmount < 0 := by
  refine ⟨⟨by decide +kernel, by decide +kernel, by decide, by decide⟩, ?_⟩
  obtain ⟨movement, h⟩ : ∃ movement, extract asciiAdvice presentedLine none = some movement :=
    Option.isSome_iff_exists.mp (by decide +kernel)
  refine ⟨movement, h, not_le.mp fun hnonneg => ?_⟩
  rcases (netValue_nonneg_iff_direction readsAsciiDigits_ascii h).mp hnonneg with hother | hzero
  · exact hother (by decide +kernel)
  · have hamount : amount asciiAdvice presentedLine = some "1000.00".toList := by decide +kernel
    obtain ⟨text, htext, hzero⟩ := hzero
    obtain rfl := Option.some.inj (hamount.symm.trans htext)
    exact absurd hzero (by decide +kernel)

end Harbormaster.Inspector.EmailTextParser
