import Harbormaster.Calendar
import Harbormaster.Foundation.Matching
import Harbormaster.Foundation.Rounding
import Mathlib.Data.List.Infix

/-! # Text

The string operations of the inspector. What depends on the character tables of
the language is a parameter.
-/

namespace Harbormaster.Inspector

open Rounding

/-- The character tables and the libraries that the inspector runs on. -/
structure Runtime where
  /-- `str.lower`. -/
  lower : List Char → List Char
  /-- `str.upper`. -/
  upper : List Char → List Char
  /-- `str.isalnum` of one character. -/
  isalnum : Char → Bool
  /-- The value of a decimal digit of any script. -/
  decimal : Char → Option Nat
  /-- `str.isprintable` of one character. -/
  isprintable : Char → Bool
  /-- `re.compile(pattern).match(name).groupdict()`; a group may not take part. -/
  groupdict : String → String → Option (List (String × Option String))
  /-- The 8-byte BLAKE2b digest of a text, in hexadecimal. -/
  blake2b : String → String

/-- The tables on ASCII text, without patterns and digests. -/
def Runtime.ascii : Runtime where
  lower text := text.map Char.toLower
  upper text := text.map Char.toUpper
  isalnum := Char.isAlphanum
  decimal := Civil.digit?
  isprintable c := 32 ≤ c.toNat && c.toNat < 127
  groupdict _ _ := none
  blake2b _ := ""

/-- The characters that `strip` removes. -/
def isspace (c : Char) : Bool :=
  (9 ≤ c.toNat && c.toNat ≤ 13) || (28 ≤ c.toNat && c.toNat ≤ 32) ||
    (8192 ≤ c.toNat && c.toNat ≤ 8202) ||
    [0x85, 0xA0, 0x1680, 0x2028, 0x2029, 0x202F, 0x205F, 0x3000].contains c.toNat

def stripChars (text : List Char) : List Char :=
  ((text.dropWhile isspace).reverse.dropWhile isspace).reverse

def strip (text : String) : String := String.ofList (stripChars text.toList)

/-- `needle in text`. -/
def within (needle text : String) : Bool := needle.toList <:+: text.toList

/-- `text.startswith(start)`. -/
def startsWith (text start : String) : Bool := start.toList <+: text.toList

/-- `text.endswith(suffix)`. -/
def endsWith (text final : String) : Bool := final.toList <:+ text.toList

/-- A text that is present and not empty. -/
def truthy (text : Option String) : Option String := text.filter fun text => text ≠ ""

@[simp] theorem truthy_none : truthy none = none := rfl

@[simp] theorem truthy_empty : truthy (some "") = none := rfl

theorem truthy_of_ne {text : String} (h : text ≠ "") : truthy (some text) = some text := by
  simp [truthy, Option.filter, h]

theorem truthy_eq_some {text : Option String} {value : String} :
    truthy text = some value ↔ text = some value ∧ value ≠ "" := by
  simp [truthy]

variable (runtime : Runtime)

/-- A header in comparable form. -/
def normalizeHeader (raw : String) : String :=
  String.ofList ((runtime.lower raw.toList).filter runtime.isalnum)

/-! ## Numbers -/

/-- A number with a fixed number of decimals. -/
def fixed (digits : Nat) (value : ℚ) : String :=
  let scaled := roundHalfEven (value * 10 ^ digits)
  let fraction := toString (scaled.natAbs % 10 ^ digits)
  let sign := if scaled < 0 then "-" else ""
  let whole := sign ++ toString (scaled.natAbs / 10 ^ digits)
  if digits = 0 then whole
  else whole ++ "." ++ String.ofList (List.replicate (digits - fraction.length) '0') ++ fraction

def percent (value : ℚ) : String := fixed 0 (value * 100) ++ "%"

/-! ## Quotation -/

/-- A number in base 16 with at least `width` digits. -/
def hexadecimal (width n : Nat) : String :=
  let digits := Nat.toDigits 16 n
  String.ofList (List.replicate (width - digits.length) '0' ++ digits)

def singleQuote : Char := Char.ofNat 39
def doubleQuote : Char := Char.ofNat 34
def backslash : Char := Char.ofNat 92

def quotedChar (quote c : Char) : String :=
  if c = quote || c = backslash then String.ofList [backslash, c]
  else if c = '\n' then "\\n"
  else if c = '\r' then "\\r"
  else if c = '\t' then "\\t"
  else if runtime.isprintable c then String.ofList [c]
  else if c.toNat < 0x100 then "\\x" ++ hexadecimal 2 c.toNat
  else if c.toNat < 0x10000 then "\\u" ++ hexadecimal 4 c.toNat
  else "\\U" ++ hexadecimal 8 c.toNat

/-- `repr` of a text. -/
def quoted (text : String) : String :=
  let quote := if text.toList.contains singleQuote && !text.toList.contains doubleQuote then
    doubleQuote else singleQuote
  String.ofList [quote] ++ String.join (text.toList.map (quotedChar runtime quote)) ++
    String.ofList [quote]

/-- `separator.join(parts)`. -/
def join (separator : String) (parts : List String) : String := separator.intercalate parts

end Harbormaster.Inspector
