import Harbormaster.Inspector.Text

/-! # Amounts in cells

`to_decimal` of the inspector, with the decimal numbers of the language: their
text, and the negation that rounds to the default context and may signal.
-/

namespace Harbormaster.Inspector

open Rounding

/-- A decimal number as the language keeps it. -/
inductive Decimal where
  | finite (negative : Bool) (coefficient : Nat) (exponent : Int)
  | infinity (negative : Bool)
  | nan (negative signaling : Bool)
deriving DecidableEq, Repr

/-- The conditions that the default context raises. -/
inductive Signal where
  | invalidOperation | overflow
deriving DecidableEq, Repr

namespace Decimal

variable (runtime : Runtime)

/-- The digits at the start of a text, of any script, and what follows. -/
def takeDigits : List Char → List Nat × List Char
  | [] => ([], [])
  | c :: rest =>
      match runtime.decimal c with
      | some value => (value :: (takeDigits rest).1, (takeDigits rest).2)
      | none => ([], c :: rest)

def number (digits : List Nat) : Nat := digits.foldl (fun n value => 10 * n + value) 0

def takeSign : List Char → Bool × List Char
  | '-' :: rest => (true, rest)
  | '+' :: rest => (false, rest)
  | rest => (false, rest)

/-- The exponent written after the digits, if it is well formed. -/
def exponentOf : List Char → Option Int
  | [] => some 0
  | 'e' :: rest =>
      match takeSign rest with
      | (negative, rest) =>
          match takeDigits runtime rest with
          | ([], _) => none
          | (digits, []) => some (if negative then -(number digits) else number digits)
          | (_, _ :: _) => none
  | _ => none

/-- The most digits, and the largest exponent, of the library. -/
def maxPrec : Nat := 999999999999999999

/-- The number of digits behind the leading zeros; a zero has one. -/
def significant (digits : List Nat) : Nat := max 1 (digits.dropWhile fun value => value = 0).length

/-- The limits of the library. -/
def InRange (whole fraction : List Nat) (exponent : Int) : Prop :=
  fraction.length ≤ maxPrec ∧ significant (whole ++ fraction) ≤ maxPrec ∧
    exponent + significant (whole ++ fraction) - 1 ≤ maxPrec ∧ -1999999999999999997 ≤ exponent

instance (whole fraction : List Nat) (exponent : Int) : Decidable (InRange whole fraction exponent) :=
  inferInstanceAs (Decidable (_ ∧ _))

/-- The number with these digits, within the limits of the library. -/
def ofDigits? (negative : Bool) (whole fraction : List Nat) (exponent : Int) : Option Decimal :=
  let exponent := exponent - fraction.length
  let digits := whole ++ fraction
  if digits = [] then none
  else if InRange whole fraction exponent then some (.finite negative (number digits) exponent)
  else none

/-- What may stand behind a NaN: digits, no more than the library holds. -/
def isPayload (text : List Char) : Bool :=
  (takeDigits runtime text).2 = [] &&
    ((takeDigits runtime text).1.dropWhile fun value => value = 0).length ≤ maxPrec

def ofUnsigned? (negative : Bool) (text : List Char) : Option Decimal :=
  if text = "inf".toList ∨ text = "infinity".toList then some (.infinity negative)
  else if "nan".toList <+: text ∧ isPayload runtime (text.drop 3) then some (.nan negative false)
  else if "snan".toList <+: text ∧ isPayload runtime (text.drop 4) then some (.nan negative true)
  else
    match takeDigits runtime text with
    | (whole, '.' :: rest) =>
        match takeDigits runtime rest with
        | (fraction, rest) => exponentOf runtime rest >>= ofDigits? negative whole fraction
    | (whole, rest) => exponentOf runtime rest >>= ofDigits? negative whole []

/-- `Decimal(text)`; `none` is the conversion error. -/
def ofText? (text : List Char) : Option Decimal :=
  match takeSign (((stripChars text).filter fun c => c ≠ '_').map Char.toLower) with
  | (negative, text) => ofUnsigned? runtime negative text

def contextPrecision : Nat := 28
def contextEmax : Int := 999999

/-- Drop `excess` decimal places, half to even. -/
def dropPlaces (coefficient excess : Nat) : Nat :=
  (roundHalfEven ((coefficient : ℚ) / 10 ^ excess)).toNat

/-- Round a coefficient and its exponent to the default context. -/
def finalize (negative : Bool) (coefficient : Nat) (exponent : Int) : Except Signal Decimal :=
  let length := (Nat.toDigits 10 coefficient).length
  -- the least exponent of the context, below which a result is subnormal
  let least := -contextEmax - contextPrecision + 1
  let excess := max (length - contextPrecision) (least - exponent).toNat
  let rounded := dropPlaces coefficient excess
  let exponent := exponent + excess
  let carried := contextPrecision < (Nat.toDigits 10 rounded).length
  let rounded := if carried then rounded / 10 else rounded
  let exponent := if carried then exponent + 1 else exponent
  if rounded ≠ 0 ∧ contextEmax < exponent + (Nat.toDigits 10 rounded).length - 1 then
    .error .overflow
  else .ok (.finite negative rounded exponent)

/-- `-value`; a zero loses its sign. -/
def neg : Decimal → Except Signal Decimal
  | .finite negative coefficient exponent =>
      finalize (!negative && coefficient ≠ 0) coefficient exponent
  | .infinity negative => .ok (.infinity (!negative))
  | .nan negative signaling =>
      if signaling then .error .invalidOperation else .ok (.nan negative false)

end Decimal

variable (runtime : Runtime)

/-- The characters removed from an amount: separators, white space, currencies. -/
def isNumericNoise (c : Char) : Bool :=
  [',', '$', '%'].contains c || isspace c || [0x20AC, 0xA3, 0xA5].contains c.toNat

/-- Parse a monetary or quantity cell: thousands separators, currency symbols,
parenthesised and trailing-minus negatives. -/
def toDecimal (raw : String) : Except Signal (Option Decimal) :=
  let text := stripChars raw.toList
  if ["", "-", "--", "n/a", "N/A", "NULL", "null"].contains (String.ofList text) then .ok none
  else
    let parenthesised := text.head? = some '(' && text.getLast? = some ')'
    let text := if parenthesised then text.tail.dropLast else text
    let text := text.filter fun c => !isNumericNoise c
    let trailing := text.getLast? = some '-'
    let text := if trailing then text.dropLast else text
    if text = [] then .ok none
    else match Decimal.ofText? runtime text with
      | none => .ok none
      | some value => if parenthesised || trailing then some <$> value.neg else .ok (some value)

end Harbormaster.Inspector
