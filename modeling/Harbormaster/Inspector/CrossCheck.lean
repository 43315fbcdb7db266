import Harbormaster.Foundation.Fallible
import Harbormaster.Inspector.AmountGrammar
import Harbormaster.Inspector.Tier1

/-! # The arithmetic cross-check

`cross_check_amount` of the inspector multiplies quantities by prices and compares the
product with the amount, row by row, in the default context of the language. It
returns exactly when every cell it reads can be negated, where it is, and no operation
on three numbers signals.
-/

namespace Harbormaster.Inspector

namespace Decimal

/-- `a * b`. -/
def mul : Decimal → Decimal → Except Signal Decimal
  | .nan negative signaling, other =>
      if signaling || other matches .nan _ true then .error .invalidOperation
      else .ok (.nan negative false)
  | _, .nan negative signaling =>
      if signaling then .error .invalidOperation else .ok (.nan negative false)
  | .infinity negative, .infinity negative' => .ok (.infinity (negative ^^ negative'))
  | .infinity negative, .finite negative' coefficient _ =>
      if coefficient = 0 then .error .invalidOperation
      else .ok (.infinity (negative ^^ negative'))
  | .finite negative coefficient _, .infinity negative' =>
      if coefficient = 0 then .error .invalidOperation
      else .ok (.infinity (negative ^^ negative'))
  | .finite negative coefficient exponent, .finite negative' coefficient' exponent' =>
      finalize (negative ^^ negative') (coefficient * coefficient') (exponent + exponent')

/-- `value == 0`; only a signaling value signals. -/
def isZero : Decimal → Except Signal Bool
  | .finite _ coefficient _ => .ok (coefficient = 0)
  | .infinity _ => .ok false
  | .nan _ signaling => if signaling then .error .invalidOperation else .ok false

/-- `a <= b`, which signals for what is not a number. -/
def le : Decimal → Decimal → Except Signal Bool
  | .nan _ _, _ => .error .invalidOperation
  | _, .nan _ _ => .error .invalidOperation
  | .infinity negative, .infinity negative' => .ok (negative || !negative')
  | .infinity negative, .finite _ _ _ => .ok negative
  | .finite _ _ _, .infinity negative => .ok (!negative)
  | .finite negative coefficient exponent, .finite negative' coefficient' exponent' =>
      .ok (decide ((signed negative coefficient : ℚ) * 10 ^ exponent ≤
        signed negative' coefficient' * 10 ^ exponent'))

end Decimal

open Decimal

variable (runtime : Runtime)

/-- `Decimal("0.05")`. -/
def crossCheckTolerance : Decimal := .finite false 5 (-2)

/-- The product of a row agrees with its amount. -/
def rowAgrees (quantity price amount : Decimal) : Except Signal Bool := do
  let expected ← (← quantity.mul price).abs
  let difference ← (← expected.sub (← amount.abs)).abs
  difference.le (← (← amount.abs).mul crossCheckTolerance)

/-- Rows that were compared, and how many of them agree. -/
structure CrossCheck where
  agree : Nat := 0
  checked : Nat := 0
deriving DecidableEq

/-- One round of `cross_check_amount`. -/
def checkRow (quantityColumn priceColumn amountColumn : String) (state : CrossCheck) (row : Row) :
    Except Signal CrossCheck := do
  let quantity ← toDecimal runtime (row.cell quantityColumn)
  let price ← toDecimal runtime (row.cell priceColumn)
  let amount ← toDecimal runtime (row.cell amountColumn)
  match quantity, price, amount with
  | some quantity, some price, some amount =>
      if ← amount.isZero then return state
      else
        let agrees ← rowAgrees quantity price amount
        return { agree := if agrees then state.agree + 1 else state.agree,
                 checked := state.checked + 1 }
  | _, _, _ => return state

/-- The column of a field; of several mappings the last one. -/
def columnOf (mappings : List Mapping) (field : String) : Option String :=
  (Ordered.Dict.ofPairs (mappings.filterMap fun m =>
    (truthy m.canonicalField).map fun field => (field, m.sourceField))).get? field

/-- The columns of quantity, price and amount, if there are all three. -/
def crossCheckColumns (mappings : List Mapping) : Option (String × String × String) := do
  let quantity ← truthy (columnOf mappings "quantity")
  let price ← truthy (columnOf mappings "trade_price")
  let amount ← (truthy (columnOf mappings "net_amount")).or
    (truthy (columnOf mappings "gross_amount"))
  return (quantity, price, amount)

/-- `cross_check_amount`. -/
def crossCheckAmount (table : ParsedTable) (mappings : List Mapping) :
    Except Signal (Option Bool × String) :=
  match crossCheckColumns mappings with
  | none => .ok (none, "insufficient columns for an arithmetic cross-check")
  | some (quantityColumn, priceColumn, amountColumn) => do
      let result ← (table.rows.take 200).foldlM
        (checkRow runtime quantityColumn priceColumn amountColumn) {}
      if result.checked = 0 then return (none, "no rows had all three values populated")
      else return (some ((4 / 5 : ℚ) ≤ result.agree / result.checked),
        "quantity x price reconciles to amount on " ++ toString result.agree ++ "/" ++
          toString result.checked ++ " rows")

/-! ## When the operations signal -/

namespace Decimal

def IsNan : Decimal → Prop
  | .nan _ _ => True
  | _ => False

def IsInfinite : Decimal → Prop
  | .infinity _ => True
  | _ => False

def IsZero : Decimal → Prop
  | .finite _ coefficient _ => coefficient = 0
  | _ => False

/-- The product of two numbers is beyond the context. -/
def ProductOverflows : Decimal → Decimal → Prop
  | .finite _ coefficient exponent, .finite _ coefficient' exponent' =>
      Overflows (coefficient * coefficient') (exponent + exponent')
  | _, _ => False

/-- The number is beyond the context. -/
def TooLarge : Decimal → Prop
  | .finite _ coefficient exponent => Overflows coefficient exponent
  | _ => False

/-- A value that an operation leaves: a number of the context, or infinite. -/
inductive Settled : Decimal → Prop where
  | finite {negative : Bool} {coefficient : Nat} {exponent : Int} (h : Fits coefficient exponent) :
      Settled (.finite negative coefficient exponent)
  | infinity (negative : Bool) : Settled (.infinity negative)

/-- An absolute value of the context. -/
inductive Absolute : Decimal → Prop where
  | finite {coefficient : Nat} {exponent : Int} (h : Fits coefficient exponent) :
      Absolute (.finite false coefficient exponent)
  | infinity : Absolute (.infinity false)

theorem Settled.not_isNan {d : Decimal} (h : Settled d) : ¬ d.IsNan := by
  cases h <;> exact id

theorem Absolute.settled {d : Decimal} (h : Absolute d) : Settled d := by
  cases h with
  | finite hfits => exact .finite hfits
  | infinity => exact .infinity false

/-! ### What is no number -/

theorem isNan_of_ite {c : Prop} [Decidable c] {negative : Bool} {result : Decimal}
    (h : (if c then .error .invalidOperation else .ok (.nan negative false) :
      Except Signal Decimal) = .ok result) : result.IsNan := by
  split at h
  next => cases h
  next =>
    obtain rfl := Except.ok.inj h
    trivial

theorem isNan_of_mul {a b result : Decimal} (h : a.mul b = .ok result)
    (hnan : a.IsNan ∨ b.IsNan) : result.IsNan := by
  cases a with
  | nan => exact isNan_of_ite h
  | finite | infinity =>
      cases b with
      | nan => exact isNan_of_ite h
      | finite | infinity => exact absurd hnan (not_or.mpr ⟨id, id⟩)

theorem isNan_of_sub {a b result : Decimal} (h : a.sub b = .ok result)
    (hnan : a.IsNan ∨ b.IsNan) : result.IsNan := by
  cases a with
  | nan => exact isNan_of_ite h
  | finite | infinity =>
      cases b with
      | nan => exact isNan_of_ite h
      | finite | infinity => exact absurd hnan (not_or.mpr ⟨id, id⟩)

theorem isNan_of_abs {a result : Decimal} (h : a.abs = .ok result) (hnan : a.IsNan) :
    result.IsNan := by
  cases a with
  | nan => exact isNan_of_ite h
  | finite | infinity => exact absurd hnan id

theorem exists_le_iff {a b : Decimal} :
    (∃ result, a.le b = .ok result) ↔ ¬ a.IsNan ∧ ¬ b.IsNan := by
  cases a <;> cases b <;> simp [le, IsNan]

/-! ### Results -/

theorem exists_mul_iff {a b : Decimal} (ha : ¬ a.IsNan) (hb : ¬ b.IsNan) :
    (∃ result, a.mul b = .ok result) ↔ ¬ (a.IsZero ∧ b.IsInfinite) ∧ ¬ (a.IsInfinite ∧ b.IsZero) ∧
      ¬ ProductOverflows a b := by
  cases a with
  | nan => exact absurd trivial ha
  | infinity =>
      cases b with
      | nan => exact absurd trivial hb
      | infinity => simp [mul, IsZero, IsInfinite, ProductOverflows]
      | finite negative coefficient exponent =>
          by_cases hzero : coefficient = 0 <;>
            simp [mul, IsZero, IsInfinite, ProductOverflows, hzero]
  | finite negative coefficient exponent =>
      cases b with
      | nan => exact absurd trivial hb
      | infinity =>
          by_cases hzero : coefficient = 0 <;>
            simp [mul, IsZero, IsInfinite, ProductOverflows, hzero]
      | finite => simp [mul, IsZero, IsInfinite, ProductOverflows, exists_finalize_iff]

theorem mul_settled {a b result : Decimal} (h : a.mul b = .ok result) (ha : ¬ a.IsNan)
    (hb : ¬ b.IsNan) :
    Settled result ∧ (result.IsInfinite ↔ a.IsInfinite ∨ b.IsInfinite) := by
  have hinfinite : ∀ {coefficient negative}, (if coefficient = 0 then
      (.error .invalidOperation : Except Signal Decimal) else .ok (.infinity negative)) =
        .ok result → Settled result ∧ result.IsInfinite := by
    intro coefficient negative h
    split at h
    next => cases h
    next =>
      obtain rfl := Except.ok.inj h
      exact ⟨.infinity negative, trivial⟩
  cases a with
  | nan => exact absurd trivial ha
  | infinity =>
      cases b with
      | nan => exact absurd trivial hb
      | infinity =>
          obtain rfl := Except.ok.inj h
          exact ⟨.infinity _, iff_of_true trivial (Or.inl trivial)⟩
      | finite =>
          obtain ⟨hsettled, hresult⟩ := hinfinite h
          exact ⟨hsettled, iff_of_true hresult (Or.inl trivial)⟩
  | finite =>
      cases b with
      | nan => exact absurd trivial hb
      | infinity =>
          obtain ⟨hsettled, hresult⟩ := hinfinite h
          exact ⟨hsettled, iff_of_true hresult (Or.inr trivial)⟩
      | finite =>
          obtain ⟨digits, power, rfl, hfits⟩ := fits_of_finalize h
          exact ⟨.finite hfits, iff_of_false id (not_or.mpr ⟨id, id⟩)⟩

theorem exists_abs_iff {a : Decimal} (ha : ¬ a.IsNan) :
    (∃ result, a.abs = .ok result) ↔ ¬ TooLarge a := by
  cases a with
  | nan => exact absurd trivial ha
  | infinity => simp [abs, TooLarge]
  | finite => exact exists_finalize_iff

theorem abs_absolute {a result : Decimal} (h : a.abs = .ok result) (ha : ¬ a.IsNan) :
    Absolute result ∧ (result.IsInfinite ↔ a.IsInfinite) := by
  cases a with
  | nan => exact absurd trivial ha
  | infinity =>
      obtain rfl := Except.ok.inj h
      exact ⟨.infinity, Iff.rfl⟩
  | finite =>
      obtain ⟨digits, power, rfl, hfits⟩ := fits_of_finalize h
      exact ⟨.finite hfits, Iff.rfl⟩

theorem Settled.not_tooLarge {d : Decimal} (h : Settled d) : ¬ TooLarge d := by
  cases h with
  | finite hfits => exact not_overflows_of_le hfits le_rfl
  | infinity => exact id

/-- The difference of two absolute values does not exceed them. -/
theorem exists_sub_iff {a b : Decimal} (ha : Absolute a) (hb : Absolute b) :
    (∃ result, a.sub b = .ok result) ↔ ¬ (a.IsInfinite ∧ b.IsInfinite) := by
  cases ha with
  | infinity => cases hb <;> simp [sub, IsInfinite]
  | @finite coefficient exponent hfits =>
      cases hb with
      | infinity => simp [sub, IsInfinite]
      | @finite coefficient' exponent' hfits' =>
          refine iff_of_true (exists_finalize_iff.mpr ?_) fun h => h.1
          have hshift : ∀ {n : Nat} {power : Int}, min exponent exponent' ≤ power →
              (n : ℚ) * 10 ^ power =
                (((n : Int) * 10 ^ (power - min exponent exponent').toNat : Int) : ℚ) *
                  10 ^ min exponent exponent' := by
            intro n power hle
            obtain ⟨more, rfl⟩ := Int.le.dest hle
            rw [add_sub_cancel_left, Int.toNat_natCast, zpow_add₀ (by norm_num), zpow_natCast]
            push_cast
            ring
          have hpos : (0 : ℚ) < 10 ^ min exponent exponent' := zpow_pos (by norm_num) _
          simp only [signed, Bool.false_eq_true, if_false]
          set first : Int := (coefficient : Int) * 10 ^ (exponent - min exponent exponent').toNat
          set second : Int := (coefficient' : Int) * 10 ^ (exponent' - min exponent exponent').toNat
          have hfirst : 0 ≤ first := by positivity
          have hsecond : 0 ≤ second := by positivity
          rcases le_total second first with horder | horder
          · refine not_overflows_of_le hfits ?_
            rw [hshift (min_le_left exponent exponent')]
            refine mul_le_mul_of_nonneg_right ?_ hpos.le
            rw [← Int.cast_natCast, Int.cast_le]
            omega
          · refine not_overflows_of_le hfits' ?_
            rw [hshift (min_le_right exponent exponent')]
            refine mul_le_mul_of_nonneg_right ?_ hpos.le
            rw [← Int.cast_natCast, Int.cast_le]
            omega

theorem sub_settled {a b result : Decimal} (h : a.sub b = .ok result) (ha : Absolute a)
    (hb : Absolute b) : Settled result := by
  cases ha with
  | infinity =>
      cases hb with
      | infinity => cases h
      | finite =>
          obtain rfl := Except.ok.inj h
          exact .infinity _
  | finite =>
      cases hb with
      | infinity =>
          obtain rfl := Except.ok.inj h
          exact .infinity _
      | finite =>
          obtain ⟨digits, power, rfl, hfits⟩ := fits_of_finalize h
          exact .finite hfits

/-- The twentieth part of an absolute value is within the context. -/
theorem exists_mul_tolerance {a : Decimal} (ha : Absolute a) :
    ∃ result, a.mul crossCheckTolerance = .ok result ∧ Settled result := by
  have hexists : ∃ result, a.mul crossCheckTolerance = .ok result := by
    cases ha with
    | infinity => exact ⟨_, rfl⟩
    | @finite coefficient exponent hfits =>
        refine exists_finalize_iff.mpr (not_overflows_of_le hfits ?_)
        have hpos : (0 : ℚ) < 10 ^ exponent := zpow_pos (by norm_num) exponent
        have hnonneg : (0 : ℚ) ≤ coefficient * 10 ^ exponent := by positivity
        calc ((coefficient * 5 : Nat) : ℚ) * 10 ^ (exponent + -2)
            = coefficient * 10 ^ exponent * (5 * 10 ^ (-2 : Int)) := by
              rw [zpow_add₀ (by norm_num)]
              push_cast
              ring
          _ ≤ coefficient * 10 ^ exponent := mul_le_of_le_one_right hnonneg (by norm_num)
  obtain ⟨result, hresult⟩ := hexists
  exact ⟨result, hresult, (mul_settled hresult ha.settled.not_isNan id).1⟩

/-- A negation signals: of a signaling value, and beyond the context. -/
def SignalsNegated : Decimal → Prop
  | .nan _ signaling => signaling = true
  | d => TooLarge d

theorem exists_neg_iff {a : Decimal} : (∃ result, a.neg = .ok result) ↔ ¬ SignalsNegated a := by
  cases a with
  | nan negative signaling => cases signaling <;> simp [neg, SignalsNegated]
  | infinity => simp [neg, SignalsNegated, TooLarge]
  | finite => exact exists_finalize_iff

theorem exists_isZero_iff {a : Decimal} :
    (∃ result, a.isZero = .ok result) ↔ ∀ negative, a ≠ .nan negative true := by
  cases a with
  | nan negative signaling => cases signaling <;> simp [isZero]
  | infinity | finite => simp [isZero]

theorem isZero_eq_true {a : Decimal} : a.isZero = .ok true ↔ IsZero a := by
  cases a with
  | nan negative signaling => cases signaling <;> simp [isZero, IsZero]
  | infinity => simp [isZero, IsZero]
  | finite => simp [isZero, IsZero]

end Decimal

/-! ## When the cross-check returns -/

/-- Three numbers whose product can be compared with the amount. -/
structure Comparable (quantity price amount : Decimal) : Prop where
  numbers : ¬ quantity.IsNan ∧ ¬ price.IsNan ∧ ¬ amount.IsNan
  product : ¬ (quantity.IsZero ∧ price.IsInfinite) ∧ ¬ (quantity.IsInfinite ∧ price.IsZero) ∧
    ¬ ProductOverflows quantity price
  amountInContext : ¬ amount.TooLarge
  difference : ¬ ((quantity.IsInfinite ∨ price.IsInfinite) ∧ amount.IsInfinite)

theorem exists_rowAgrees_iff {quantity price amount : Decimal} :
    (∃ result, rowAgrees quantity price amount = .ok result) ↔ Comparable quantity price amount := by
  constructor
  · rintro ⟨result, h⟩
    obtain ⟨product, hproduct, h⟩ := Fallible.bind_eq_ok.mp h
    obtain ⟨expected, hexpected, h⟩ := Fallible.bind_eq_ok.mp h
    obtain ⟨magnitude, hmagnitude, h⟩ := Fallible.bind_eq_ok.mp h
    obtain ⟨signed, hsigned, h⟩ := Fallible.bind_eq_ok.mp h
    obtain ⟨difference, hdifference, h⟩ := Fallible.bind_eq_ok.mp h
    obtain ⟨_, -, h⟩ := Fallible.bind_eq_ok.mp h
    obtain ⟨bound, -, h⟩ := Fallible.bind_eq_ok.mp h
    -- what is no number is carried to the comparison, which signals
    have hlast := (exists_le_iff.mp ⟨result, h⟩).1
    have hsignedNumber := mt (isNan_of_abs hdifference) hlast
    have hsub := not_or.mp (mt (isNan_of_sub hsigned) hsignedNumber)
    have hproductNumber := mt (isNan_of_abs hexpected) hsub.1
    have hmul := not_or.mp (mt (isNan_of_mul hproduct) hproductNumber)
    have hamount := mt (isNan_of_abs hmagnitude) hsub.2
    obtain ⟨hexpectedAbsolute, hexpectedInfinite⟩ := abs_absolute hexpected hproductNumber
    obtain ⟨hmagnitudeAbsolute, hmagnitudeInfinite⟩ := abs_absolute hmagnitude hamount
    refine ⟨⟨hmul.1, hmul.2, hamount⟩, (exists_mul_iff hmul.1 hmul.2).mp ⟨product, hproduct⟩,
      (exists_abs_iff hamount).mp ⟨magnitude, hmagnitude⟩, ?_⟩
    rw [← (mul_settled hproduct hmul.1 hmul.2).2, ← hexpectedInfinite, ← hmagnitudeInfinite]
    exact (exists_sub_iff hexpectedAbsolute hmagnitudeAbsolute).mp ⟨signed, hsigned⟩
  · rintro ⟨⟨hquantity, hprice, hamount⟩, hmul, hlarge, hinfinite⟩
    obtain ⟨product, hproduct⟩ := (exists_mul_iff hquantity hprice).mpr hmul
    obtain ⟨hproductSettled, hproductInfinite⟩ := mul_settled hproduct hquantity hprice
    obtain ⟨expected, hexpected⟩ :=
      (exists_abs_iff hproductSettled.not_isNan).mpr hproductSettled.not_tooLarge
    obtain ⟨hexpectedAbsolute, hexpectedInfinite⟩ :=
      abs_absolute hexpected hproductSettled.not_isNan
    obtain ⟨magnitude, hmagnitude⟩ := (exists_abs_iff hamount).mpr hlarge
    obtain ⟨hmagnitudeAbsolute, hmagnitudeInfinite⟩ := abs_absolute hmagnitude hamount
    rw [← hproductInfinite, ← hexpectedInfinite, ← hmagnitudeInfinite] at hinfinite
    obtain ⟨signed, hsigned⟩ := (exists_sub_iff hexpectedAbsolute hmagnitudeAbsolute).mpr hinfinite
    have hsignedSettled := sub_settled hsigned hexpectedAbsolute hmagnitudeAbsolute
    obtain ⟨difference, hdifference⟩ :=
      (exists_abs_iff hsignedSettled.not_isNan).mpr hsignedSettled.not_tooLarge
    have hdifferenceAbsolute := (abs_absolute hdifference hsignedSettled.not_isNan).1
    obtain ⟨bound, hbound, hboundSettled⟩ := exists_mul_tolerance hmagnitudeAbsolute
    obtain ⟨result, hresult⟩ := exists_le_iff.mpr
      ⟨hdifferenceAbsolute.settled.not_isNan, hboundSettled.not_isNan⟩
    refine ⟨result, ?_⟩
    unfold rowAgrees
    simp only [Fallible.bind_eq_ok]
    exact ⟨product, hproduct, expected, hexpected, magnitude, hmagnitude, signed, hsigned,
      difference, hdifference, magnitude, hmagnitude, bound, hbound, hresult⟩

/-- A cell is negated after it was read as a value whose negation signals. -/
def NegationSignals (raw : String) : Prop :=
  amountPlaceholders.contains (String.ofList (stripChars raw.toList)) = false ∧
    (enclosed raw = true ∨ (cleaned raw).getLast? = some '-') ∧
    ∃ value, ofText? runtime (amountText raw) = some value ∧ value.SignalsNegated

/-- A row that the cross-check takes without a signal. -/
structure Checkable (quantityColumn priceColumn amountColumn : String) (row : Row) : Prop where
  read : ¬ NegationSignals runtime (row.cell quantityColumn) ∧
    ¬ NegationSignals runtime (row.cell priceColumn) ∧
    ¬ NegationSignals runtime (row.cell amountColumn)
  compared : ∀ quantity price amount,
    toDecimal runtime (row.cell quantityColumn) = .ok (some quantity) →
    toDecimal runtime (row.cell priceColumn) = .ok (some price) →
    toDecimal runtime (row.cell amountColumn) = .ok (some amount) →
    amount.IsZero ∨ Comparable quantity price amount

variable {runtime}

theorem exists_toDecimal_iff {raw : String} :
    (∃ result, toDecimal runtime raw = .ok result) ↔ ¬ NegationSignals runtime raw := by
  rw [toDecimal_eq]
  split
  next hplaceholder =>
    refine iff_of_true ⟨none, rfl⟩ fun h => ?_
    rw [h.1] at hplaceholder
    cases hplaceholder
  next hplaceholder =>
    have hother := Bool.not_eq_true _ ▸ hplaceholder
    split
    next hempty =>
      refine iff_of_true ⟨none, rfl⟩ ?_
      rintro ⟨-, -, value, hvalue, -⟩
      rw [hempty] at hvalue
      cases hvalue
    next =>
      cases hvalue : ofText? runtime (amountText raw) with
      | none =>
          refine iff_of_true ⟨none, rfl⟩ ?_
          rintro ⟨-, -, value, hsome, -⟩
          rw [hvalue] at hsome
          cases hsome
      | some value =>
          by_cases hnegated : enclosed raw = true ∨ (cleaned raw).getLast? = some '-'
          · dsimp only
            rw [if_pos (by simpa using hnegated)]
            have hsignals : NegationSignals runtime raw ↔ value.SignalsNegated := by
              constructor
              · rintro ⟨-, -, value', hsome, hsignal⟩
                obtain rfl := Option.some.inj (hvalue.symm.trans hsome)
                exact hsignal
              · exact fun hsignal => ⟨hother, hnegated, value, hvalue, hsignal⟩
            rw [hsignals, ← exists_neg_iff]
            simp only [Fallible.map_eq_ok]
            exact ⟨fun ⟨_, d, hd, _⟩ => ⟨d, hd⟩, fun ⟨d, hd⟩ => ⟨some d, d, hd, rfl⟩⟩
          · dsimp only
            rw [if_neg (by simpa using hnegated)]
            exact iff_of_true ⟨_, rfl⟩ fun h => hnegated h.2.1

theorem exists_checkRow_iff {quantityColumn priceColumn amountColumn : String}
    (state : CrossCheck) (row : Row) :
    (∃ next, checkRow runtime quantityColumn priceColumn amountColumn state row = .ok next) ↔
      Checkable runtime quantityColumn priceColumn amountColumn row := by
  constructor
  · rintro ⟨next, h⟩
    obtain ⟨quantity, hquantity, h⟩ := Fallible.bind_eq_ok.mp h
    obtain ⟨price, hprice, h⟩ := Fallible.bind_eq_ok.mp h
    obtain ⟨amount, hamount, h⟩ := Fallible.bind_eq_ok.mp h
    refine ⟨⟨exists_toDecimal_iff.mp ⟨_, hquantity⟩, exists_toDecimal_iff.mp ⟨_, hprice⟩,
      exists_toDecimal_iff.mp ⟨_, hamount⟩⟩, ?_⟩
    intro q p a hq hp ha
    obtain rfl := Except.ok.inj (hquantity.symm.trans hq)
    obtain rfl := Except.ok.inj (hprice.symm.trans hp)
    obtain rfl := Except.ok.inj (hamount.symm.trans ha)
    obtain ⟨zero, hzero, h⟩ := Fallible.bind_eq_ok.mp h
    cases zero with
    | true => exact Or.inl (isZero_eq_true.mp hzero)
    | false =>
        obtain ⟨agrees, hagrees, -⟩ := Fallible.bind_eq_ok.mp h
        exact Or.inr (exists_rowAgrees_iff.mp ⟨agrees, hagrees⟩)
  · rintro ⟨⟨hquantity, hprice, hamount⟩, hcompared⟩
    obtain ⟨quantity, hquantity⟩ := exists_toDecimal_iff.mpr hquantity
    obtain ⟨price, hprice⟩ := exists_toDecimal_iff.mpr hprice
    obtain ⟨amount, hamount⟩ := exists_toDecimal_iff.mpr hamount
    unfold checkRow
    rw [hquantity, hprice, hamount]
    cases quantity with
    | none => exact ⟨state, rfl⟩
    | some quantity =>
        cases price with
        | none => exact ⟨state, rfl⟩
        | some price =>
            cases amount with
            | none => exact ⟨state, rfl⟩
            | some amount =>
                rcases hcompared quantity price amount hquantity hprice hamount with hzero | hsafe
                · refine ⟨state, ?_⟩
                  show (amount.isZero >>= _) = _
                  rw [isZero_eq_true.mpr hzero]
                  rfl
                · obtain ⟨agrees, hagrees⟩ := exists_rowAgrees_iff.mpr hsafe
                  have hnotNan : ∀ negative, amount ≠ .nan negative true := by
                    rintro negative rfl
                    exact hsafe.numbers.2.2 trivial
                  obtain ⟨zero, hzero⟩ := exists_isZero_iff.mpr hnotNan
                  show ∃ next, (amount.isZero >>= _) = _
                  rw [hzero]
                  cases zero with
                  | true => exact ⟨state, rfl⟩
                  | false =>
                      show ∃ next, (rowAgrees quantity price amount >>= _) = _
                      rw [hagrees]
                      exact ⟨_, rfl⟩

/-- The cross-check returns exactly for the tables whose first rows it can all take. -/
theorem exists_crossCheckAmount_iff (runtime : Runtime) (table : ParsedTable)
    (mappings : List Mapping) :
    (∃ result, crossCheckAmount runtime table mappings = .ok result) ↔
      ∀ quantityColumn priceColumn amountColumn,
        crossCheckColumns mappings = some (quantityColumn, priceColumn, amountColumn) →
          ∀ row ∈ table.rows.take 200,
            Checkable runtime quantityColumn priceColumn amountColumn row := by
  unfold crossCheckAmount
  cases hcolumns : crossCheckColumns mappings with
  | none => exact iff_of_true ⟨_, rfl⟩ fun _ _ _ h => by cases h
  | some columns =>
      obtain ⟨quantityColumn, priceColumn, amountColumn⟩ := columns
      have hrows : (∃ result, (table.rows.take 200).foldlM
          (checkRow runtime quantityColumn priceColumn amountColumn) {} = .ok result) ↔
            ∀ row ∈ table.rows.take 200,
              Checkable runtime quantityColumn priceColumn amountColumn row :=
        Fallible.exists_foldlM_eq_ok exists_checkRow_iff {}
      constructor
      · rintro ⟨result, h⟩ _ _ _ heq
        cases heq
        obtain ⟨counted, hcounted, -⟩ := Fallible.bind_eq_ok.mp h
        exact hrows.mp ⟨counted, hcounted⟩
      · intro h
        obtain ⟨counted, hcounted⟩ := hrows.mpr (h _ _ _ rfl)
        simp only [Fallible.bind_eq_ok]
        by_cases hchecked : counted.checked = 0
        · exact ⟨_, counted, hcounted, if_pos hchecked⟩
        · exact ⟨_, counted, hcounted, if_neg hchecked⟩

/-- A quantity that is no number. -/
def notANumberTable : ParsedTable where
  headers := ["Qty", "Price", "Net"]
  rows := [.ofPairs [("Qty", "NaN"), ("Price", "1"), ("Net", "1")]]
  headers_nodup := by decide

def crossCheckMappings : List Mapping :=
  [⟨"Qty", some "quantity", .tierAlias, 1, ""⟩, ⟨"Price", some "trade_price", .tierAlias, 1, ""⟩,
    ⟨"Net", some "net_amount", .tierAlias, 1, ""⟩]

theorem crossCheck_raises :
    crossCheckAmount .ascii notANumberTable crossCheckMappings = .error .invalidOperation := by
  decide +kernel

end Harbormaster.Inspector
