import Harbormaster.Inspector.Decimal
import Mathlib.Tactic.NormNum

/-! # Differences of decimal numbers

The subtraction, the absolute value and the comparison of the language's decimal
numbers, in its default context, and what the comparison of a difference with a
tolerance says of amounts in the columns of a canonical file.
-/

namespace Harbormaster.Inspector

open Rounding

namespace Decimal

def signed (negative : Bool) (coefficient : Nat) : Int :=
  if negative then -coefficient else coefficient

theorem signed_natAbs (n : Int) : signed (n < 0) n.natAbs = n := by
  unfold signed
  split
  next hneg => simp at hneg; omega
  next hpos => simp at hpos; omega

/-- `a - b`. -/
def sub : Decimal → Decimal → Except Signal Decimal
  | .nan negative signaling, other =>
      if signaling || other matches .nan _ true then .error .invalidOperation
      else .ok (.nan negative false)
  | _, .nan negative signaling =>
      if signaling then .error .invalidOperation else .ok (.nan negative false)
  | .infinity negative, .infinity negative' =>
      if negative = negative' then .error .invalidOperation else .ok (.infinity negative)
  | .infinity negative, .finite _ _ _ => .ok (.infinity negative)
  | .finite _ _ _, .infinity negative => .ok (.infinity (!negative))
  | .finite negative coefficient exponent, .finite negative' coefficient' exponent' =>
      let least := min exponent exponent'
      let difference := signed negative coefficient * 10 ^ (exponent - least).toNat -
        signed negative' coefficient' * 10 ^ (exponent' - least).toNat
      finalize (difference < 0) difference.natAbs least

/-- `abs(value)`. -/
def abs : Decimal → Except Signal Decimal
  | .finite _ coefficient exponent => finalize false coefficient exponent
  | .infinity _ => .ok (.infinity false)
  | .nan negative signaling =>
      if signaling then .error .invalidOperation else .ok (.nan negative false)

/-- `value > bound`, which signals for what is not a number. -/
def gt (bound : ℚ) : Decimal → Except Signal Bool
  | .finite negative coefficient exponent =>
      .ok (bound < signed negative coefficient * (10 : ℚ) ^ exponent)
  | .infinity negative => .ok (!negative)
  | .nan _ _ => .error .invalidOperation

/-- `abs(a - b) > tolerance`. -/
def exceeds (tolerance : ℚ) (a b : Decimal) : Except Signal Bool := do
  gt tolerance (← abs (← sub a b))

/-! ## Rounding to the context -/

/-- The least exponent of the context, below which a result is subnormal. -/
abbrev leastExponent : Int := -contextEmax - contextPrecision + 1

theorem dropPlaces_zero (coefficient : Nat) : dropPlaces coefficient 0 = coefficient := by
  have hround := roundHalfEven_intCast coefficient
  rw [Int.cast_natCast] at hround
  simp [dropPlaces, hround]

/-- A number that fits the context is left as it is. -/
theorem finalize_of_lt (negative : Bool) {coefficient : Nat} {exponent : Int}
    (hcoefficient : coefficient < 10 ^ contextPrecision) (hleast : leastExponent ≤ exponent)
    (hmost : exponent + contextPrecision ≤ contextEmax + 1) :
    finalize negative coefficient exponent = .ok (.finite negative coefficient exponent) := by
  have hlength : (Nat.toDigits 10 coefficient).length ≤ contextPrecision :=
    (Nat.length_toDigits_le_iff (by decide) (by decide)).mpr hcoefficient
  have hkept : max ((Nat.toDigits 10 coefficient).length - contextPrecision)
      (leastExponent - exponent).toNat = 0 := by omega
  have hfits : ¬ contextPrecision < (Nat.toDigits 10 coefficient).length := not_lt.mpr hlength
  have hrange : ¬ contextEmax < exponent + (Nat.toDigits 10 coefficient).length - 1 := by omega
  unfold finalize
  simp [hkept, dropPlaces_zero, hfits, hrange]

/-- A number of one place too many loses its last place. -/
theorem finalize_of_long (negative : Bool) {coefficient : Nat} (exponent : Int)
    (hlong : 10 ^ contextPrecision ≤ coefficient)
    (hcoefficient : coefficient < 2 * 10 ^ contextPrecision) (hleast : leastExponent ≤ exponent)
    (hmost : exponent + contextPrecision ≤ contextEmax) :
    ∃ rounded, 10 ^ 27 ≤ rounded ∧ rounded < 10 ^ contextPrecision ∧
      finalize negative coefficient exponent = .ok (.finite negative rounded (exponent + 1)) := by
  have hlength : (Nat.toDigits 10 coefficient).length = contextPrecision + 1 := by
    have hle : (Nat.toDigits 10 coefficient).length ≤ contextPrecision + 1 :=
      (Nat.length_toDigits_le_iff (by decide) (by decide)).mpr
        (by simp [contextPrecision] at *; omega)
    have hlt : ¬ (Nat.toDigits 10 coefficient).length ≤ contextPrecision :=
      mt (Nat.length_toDigits_le_iff (by decide) (by decide)).mp (by omega)
    omega
  have hkept : max ((Nat.toDigits 10 coefficient).length - contextPrecision)
      (leastExponent - exponent).toNat = 1 := by omega
  have hlow : (10 ^ 27 : Int) ≤ roundHalfEven ((coefficient : ℚ) / 10 ^ 1) := by
    apply le_roundHalfEven
    rw [le_div_iff₀ (by norm_num)]
    exact_mod_cast hlong
  have hhigh : roundHalfEven ((coefficient : ℚ) / 10 ^ 1) ≤ (2 * 10 ^ 27 : Int) := by
    apply roundHalfEven_le_of_le
    rw [div_le_iff₀ (by norm_num)]
    exact_mod_cast hcoefficient.le
  have hrounded : 10 ^ 27 ≤ dropPlaces coefficient 1 ∧
      dropPlaces coefficient 1 < 10 ^ contextPrecision := by
    simp only [dropPlaces, contextPrecision]
    omega
  have hfits : ¬ contextPrecision < (Nat.toDigits 10 (dropPlaces coefficient 1)).length :=
    not_lt.mpr ((Nat.length_toDigits_le_iff (by decide) (by decide)).mpr hrounded.2)
  have hrange : ¬ contextEmax <
      exponent + 1 + (Nat.toDigits 10 (dropPlaces coefficient 1)).length - 1 := by omega
  refine ⟨dropPlaces coefficient 1, hrounded.1, hrounded.2, ?_⟩
  unfold finalize
  simp [hkept, hfits, hrange]

/-! ## Amounts -/

end Decimal

/-- An amount of a canonical file, whose columns hold decimals of 28 digits and
eight places. -/
structure Amount where
  units : Int
  bounded : units.natAbs < 10 ^ 28
deriving DecidableEq, Repr

namespace Amount

def decimal (amount : Amount) : Decimal :=
  .finite (amount.units < 0) amount.units.natAbs (-8)

/-- One hundredth, in the units of an amount. -/
def tolerance : Int := 10 ^ 6

theorem sub_decimal (a b : Amount) :
    a.decimal.sub b.decimal =
      Decimal.finalize (a.units - b.units < 0) (a.units - b.units).natAbs (-8) := by
  simp [decimal, Decimal.sub, Decimal.signed_natAbs]

theorem gt_hundredth (coefficient scale : Nat) {exponent : Int}
    (hscale : (10 : ℚ) ^ exponent = 1 / (100 * scale)) (hpos : 0 < scale) :
    Decimal.gt (1 / 100) (.finite false coefficient exponent) =
      .ok (decide (scale < coefficient)) := by
  have hpos : (0 : ℚ) < 100 * scale := by positivity
  have hiff : 1 / 100 < (Decimal.signed false coefficient : ℚ) * 10 ^ exponent ↔
      scale < coefficient := by
    rw [hscale, Decimal.signed, if_neg Bool.false_ne_true, mul_one_div, lt_div_iff₀ hpos,
      Int.cast_natCast, ← mul_assoc, one_div_mul_cancel (by norm_num), one_mul, Nat.cast_lt]
  simp only [Decimal.gt, hiff]

/-- The comparison of two amounts is exact, also where their difference is rounded. -/
theorem exceeds_decimal (a b : Amount) :
    Decimal.exceeds (1 / 100) a.decimal b.decimal =
      .ok (decide (tolerance < |a.units - b.units|)) := by
  have ha := a.bounded
  have hb := b.bounded
  unfold Decimal.exceeds
  rw [sub_decimal]
  by_cases hfits : (a.units - b.units).natAbs < 10 ^ Decimal.contextPrecision
  · rw [Decimal.finalize_of_lt _ hfits (by decide) (by decide)]
    change Decimal.finalize false _ _ >>= _ = _
    rw [Decimal.finalize_of_lt _ hfits (by decide) (by decide)]
    refine (gt_hundredth _ (10 ^ 6) (by norm_num) (by norm_num)).trans ?_
    refine congrArg Except.ok (decide_eq_decide.mpr ?_)
    rw [tolerance, Int.abs_eq_natAbs]
    omega
  · obtain ⟨rounded, hlow, hhigh, hfinalize⟩ := Decimal.finalize_of_long
      (a.units - b.units < 0) (-8) (not_lt.mp hfits)
      (by simp only [Decimal.contextPrecision]; omega) (by decide) (by decide)
    rw [hfinalize]
    change Decimal.finalize false _ _ >>= _ = _
    rw [Decimal.finalize_of_lt _ hhigh (by decide) (by decide)]
    refine (gt_hundredth _ (10 ^ 5) (by norm_num) (by norm_num)).trans ?_
    refine congrArg Except.ok (decide_eq_decide.mpr ?_)
    rw [tolerance, Int.abs_eq_natAbs]
    simp only [Decimal.contextPrecision] at hfits
    omega

end Amount

end Harbormaster.Inspector
