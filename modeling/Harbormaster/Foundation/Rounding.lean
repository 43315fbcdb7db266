import Mathlib.Algebra.Order.Field.Rat
import Mathlib.Data.Int.Log
import Mathlib.Data.Rat.Floor
import Mathlib.Tactic.Linarith
import Mathlib.Tactic.Ring

/-! # Rounding half to even

The nearest integer is monotone and leaves integers as they are, and so is the
rounding to a number of decimals. The nearest double has 53 binary digits. An
arithmetic rounds the result of every operation; a bound on exact numbers that
leaves a little room holds in each.
-/

namespace Rounding

/-! ## The nearest integer -/

/-- The nearest integer; of two, the even one. -/
def roundHalfEven (value : ℚ) : Int :=
  let low := value.floor
  if value - low < 1 / 2 then low
  else if 1 / 2 < value - low then low + 1
  else if low % 2 = 0 then low else low + 1

theorem roundHalfEven_intCast (n : Int) : roundHalfEven n = n := by
  simp [roundHalfEven, Rat.floor_intCast]

theorem floor_le_roundHalfEven (value : ℚ) : value.floor ≤ roundHalfEven value := by
  simp only [roundHalfEven]
  split_ifs <;> omega

theorem roundHalfEven_le (value : ℚ) : roundHalfEven value ≤ value.floor + 1 := by
  simp only [roundHalfEven]
  split_ifs <;> omega

theorem roundHalfEven_mono {value value' : ℚ} (h : value ≤ value') :
    roundHalfEven value ≤ roundHalfEven value' := by
  rcases (Rat.floor_monotone h).lt_or_eq with hlt | heq
  · calc roundHalfEven value ≤ value.floor + 1 := roundHalfEven_le value
      _ ≤ value'.floor := hlt
      _ ≤ roundHalfEven value' := floor_le_roundHalfEven value'
  · -- in one unit interval the distance to its end decides
    have hdistance : value - value.floor ≤ value' - value'.floor := by
      rw [heq]
      linarith
    simp only [roundHalfEven, heq] at hdistance ⊢
    split_ifs <;> first | omega | linarith

/-- Rounding does not leave an interval between integers. -/
theorem roundHalfEven_le_of_le {value : ℚ} {n : Int} (h : value ≤ n) : roundHalfEven value ≤ n := by
  have hmono := roundHalfEven_mono h
  rwa [roundHalfEven_intCast] at hmono

theorem le_roundHalfEven {value : ℚ} {n : Int} (h : n ≤ value) : n ≤ roundHalfEven value := by
  have hmono := roundHalfEven_mono h
  rwa [roundHalfEven_intCast] at hmono

theorem floor_eq_of_mem {value : ℚ} {n : Int} (hlow : n ≤ value) (hhigh : value < n + 1) :
    value.floor = n :=
  Int.floor_eq_iff.mpr ⟨hlow, hhigh⟩

/-- What is nearer to an integer than a half is rounded to it. -/
theorem roundHalfEven_eq {value : ℚ} {n : Int} (hlow : n - 1 / 2 < value)
    (hhigh : value < n + 1 / 2) : roundHalfEven value = n := by
  rcases le_or_gt (n : ℚ) value with hle | hlt
  · rw [roundHalfEven, floor_eq_of_mem hle (by linarith), if_pos (by linarith)]
  · have hfloor : value.floor = n - 1 :=
      floor_eq_of_mem (by push_cast; linarith) (by push_cast; linarith)
    rw [roundHalfEven, hfloor]
    push_cast
    rw [if_neg (by linarith), if_pos (by linarith)]
    ring

/-- Of two integers at the same distance the even one is taken. -/
theorem roundHalfEven_half (n : Int) :
    roundHalfEven (n + 1 / 2) = if n % 2 = 0 then n else n + 1 := by
  rw [roundHalfEven, floor_eq_of_mem (n := n) (by linarith) (by linarith)]
  rw [add_sub_cancel_left, if_neg (lt_irrefl _), if_neg (lt_irrefl _)]

theorem roundHalfEven_neg (value : ℚ) : roundHalfEven (-value) = -roundHalfEven value := by
  have hlow : (value.floor : ℚ) ≤ value := Int.floor_le value
  have hhigh : value < value.floor + 1 := Int.lt_floor_add_one value
  rcases lt_trichotomy (value - value.floor) (1 / 2) with hless | hhalf | hmore
  · have hdown : roundHalfEven value = value.floor :=
      roundHalfEven_eq (by linarith) (by linarith)
    rw [hdown]
    exact roundHalfEven_eq (by push_cast; linarith) (by push_cast; linarith)
  · have hvalue : value = value.floor + 1 / 2 := by linarith
    have hneg : -value = ((-value.floor - 1 : Int) : ℚ) + 1 / 2 := by
      push_cast
      linarith
    rw [hneg, roundHalfEven_half]
    conv_rhs => rw [hvalue, roundHalfEven_half]
    split_ifs <;> omega
  · have hup : roundHalfEven value = value.floor + 1 :=
      roundHalfEven_eq (by push_cast; linarith) (by push_cast; linarith)
    rw [hup]
    exact roundHalfEven_eq (by push_cast; linarith) (by push_cast; linarith)

/-- The nearest number with so many decimals. -/
def roundTo (digits : Nat) (value : ℚ) : ℚ := roundHalfEven (value * 10 ^ digits) / 10 ^ digits

theorem roundTo_mono (digits : Nat) {value value' : ℚ} (h : value ≤ value') :
    roundTo digits value ≤ roundTo digits value' := by
  have hscale : (0 : ℚ) < 10 ^ digits := by positivity
  have hround := roundHalfEven_mono (mul_le_mul_of_nonneg_right h hscale.le)
  exact div_le_div_of_nonneg_right (Int.cast_le.mpr hround) hscale.le

/-- A number with so many decimals is left as it is. -/
theorem roundTo_of_decimals (digits : Nat) (n : Int) :
    roundTo digits (n / 10 ^ digits) = n / 10 ^ digits := by
  have hscale : (10 : ℚ) ^ digits ≠ 0 := by positivity
  rw [roundTo, div_mul_cancel₀ _ hscale, roundHalfEven_intCast]

/-- Rounding does not exceed a bound with so many decimals. -/
theorem roundTo_le {digits : Nat} {value : ℚ} (n : Int) (h : value ≤ n / 10 ^ digits) :
    roundTo digits value ≤ n / 10 ^ digits := by
  rw [← roundTo_of_decimals digits n]
  exact roundTo_mono digits h

/-! ## Doubles -/

/-- The distance of the doubles around a number below the largest. -/
def ulp (value : ℚ) : ℚ := 2 ^ max (Int.log 2 |value| - 52) (-1074)

/-- The nearest double of a number below the largest. -/
def double (value : ℚ) : ℚ := roundHalfEven (value / ulp value) * ulp value

theorem ulp_pos (value : ℚ) : 0 < ulp value := zpow_pos two_pos _

theorem ulp_neg (value : ℚ) : ulp (-value) = ulp value := by rw [ulp, ulp, abs_neg]

@[simp] theorem double_zero : double 0 = 0 := by
  rw [double, zero_div, ← Int.cast_zero, roundHalfEven_intCast, Int.cast_zero, zero_mul]

theorem double_neg (value : ℚ) : double (-value) = -double value := by
  rw [double, double, ulp_neg, neg_div, roundHalfEven_neg, Int.cast_neg, neg_mul]

theorem double_nonneg {value : ℚ} (h : 0 ≤ value) : 0 ≤ double value := by
  have hscaled : ((0 : Int) : ℚ) ≤ value / ulp value := by
    rw [Int.cast_zero]
    exact div_nonneg h (ulp_pos value).le
  exact mul_nonneg (Int.cast_nonneg (le_roundHalfEven hscaled)) (ulp_pos value).le

theorem two_pow_mul_ulp (value : ℚ) (digits : Nat) :
    ((2 ^ digits : Int) : ℚ) * ulp value = 2 ^ (digits + max (Int.log 2 |value| - 52) (-1074)) := by
  rw [ulp, Int.cast_pow, Int.cast_ofNat, ← zpow_natCast, ← zpow_add₀ two_ne_zero]

/-- A double has at most 53 binary digits. -/
theorem double_le_pow {value : ℚ} (h : 0 < value) : double value ≤ (2 ^ 53 : Int) * ulp value := by
  refine mul_le_mul_of_nonneg_right (Int.cast_le.mpr (roundHalfEven_le_of_le ?_)) (ulp_pos value).le
  rw [div_le_iff₀ (ulp_pos value), two_pow_mul_ulp]
  have hlog : value < 2 ^ (Int.log 2 value + 1) := by
    exact_mod_cast Int.lt_zpow_succ_log_self (b := 2) one_lt_two value
  refine hlog.le.trans (zpow_le_zpow_right₀ one_le_two ?_)
  rw [abs_of_pos h]
  push_cast
  omega

/-- Powers of two are doubles, which the nearest double does not cross. -/
theorem pow_log_le_double {value : ℚ} (h : 0 < value) (hlog : -1022 ≤ Int.log 2 value) :
    2 ^ Int.log 2 value ≤ double value := by
  have hpow : ((2 ^ 52 : Int) : ℚ) * ulp value = 2 ^ Int.log 2 value := by
    rw [two_pow_mul_ulp, abs_of_pos h]
    congr 1
    omega
  have hle : ((2 ^ 52 : Int) : ℚ) ≤ value / ulp value := by
    rw [le_div_iff₀ (ulp_pos value), hpow]
    exact_mod_cast Int.zpow_log_le_self (b := 2) one_lt_two h
  rw [← hpow, double]
  exact mul_le_mul_of_nonneg_right (Int.cast_le.mpr (le_roundHalfEven hle)) (ulp_pos value).le

theorem one_le_double {value : ℚ} (h : 1 ≤ value) : 1 ≤ double value := by
  have hlog : 0 ≤ Int.log 2 value := by
    rw [Int.log_of_one_le_right 2 h]
    exact Int.natCast_nonneg _
  exact (one_le_zpow₀ one_le_two hlog).trans
    (pow_log_le_double (one_pos.trans_le h) (by omega))

theorem double_le_double_of_pos {value value' : ℚ} (hpos : 0 < value) (h : value ≤ value') :
    double value ≤ double value' := by
  have hpos' : 0 < value' := hpos.trans_le h
  have hlog : Int.log 2 value ≤ Int.log 2 value' := Int.log_mono_right hpos h
  by_cases hsame : ulp value = ulp value'
  · rw [double, double, hsame]
    refine mul_le_mul_of_nonneg_right (Int.cast_le.mpr (roundHalfEven_mono ?_)) (ulp_pos value').le
    exact div_le_div_of_nonneg_right h (ulp_pos value').le
  · -- the larger number has more binary digits, and a power of two lies between
    have hless : max (Int.log 2 value - 52) (-1074) < max (Int.log 2 value' - 52) (-1074) := by
      refine lt_of_le_of_ne (max_le_max (by omega) le_rfl) fun heq => hsame ?_
      rw [ulp, ulp, abs_of_pos hpos, abs_of_pos hpos', heq]
    have hnormal : -1022 ≤ Int.log 2 value' := by omega
    refine (double_le_pow hpos).trans (le_trans ?_ (pow_log_le_double hpos' hnormal))
    rw [two_pow_mul_ulp, abs_of_pos hpos]
    refine zpow_le_zpow_right₀ one_le_two ?_
    push_cast
    omega

theorem double_mono : Monotone double := by
  intro value value' h
  rcases lt_or_ge 0 value with hpos | hnonpos
  · exact double_le_double_of_pos hpos h
  · rcases le_or_gt 0 value' with hnonneg | hneg
    · have hlow := double_nonneg (neg_nonneg.mpr hnonpos)
      rw [double_neg] at hlow
      exact (neg_nonneg.mp hlow).trans (double_nonneg hnonneg)
    · have hswap := double_le_double_of_pos (neg_pos.mpr hneg) (neg_le_neg h)
      rw [double_neg, double_neg] at hswap
      exact neg_le_neg_iff.mp hswap

/-- A multiple of the distance around it is a double. -/
theorem double_of_multiple {value : ℚ} (n : Int) (h : value = n * ulp value) :
    double value = value := by
  have hscaled : value / ulp value = n := by
    rw [div_eq_iff (ulp_pos value).ne']
    exact h
  rw [double, hscaled, roundHalfEven_intCast]
  exact h.symm

/-- A number is a double if the doubles around it are so far apart that it is a multiple
of a larger power of two. -/
theorem double_of_ulp_le {value : ℚ} (n : Int) (e : Int) (hvalue : value = n * 2 ^ e)
    (h : max (Int.log 2 |value| - 52) (-1074) ≤ e) : double value = value := by
  obtain ⟨shift, hshift⟩ := Int.le.dest h
  refine double_of_multiple (n * 2 ^ shift) ?_
  rw [Int.cast_mul, mul_assoc, two_pow_mul_ulp, add_comm, hshift]
  exact hvalue

theorem abs_double (value : ℚ) : |double value| = double |value| := by
  rcases le_or_gt 0 value with hnonneg | hneg
  · rw [abs_of_nonneg hnonneg, abs_of_nonneg (double_nonneg hnonneg)]
  · have hopposite := double_nonneg (neg_pos.mpr hneg).le
    rw [double_neg] at hopposite
    rw [abs_of_neg hneg, double_neg, abs_of_nonpos (neg_nonneg.mp hopposite)]

/-- Negative or not, a double has at most 53 binary digits. -/
theorem abs_digits_le (value : ℚ) : |roundHalfEven (value / ulp value)| ≤ 2 ^ 53 := by
  rcases eq_or_ne value 0 with hzero | hne
  · rw [hzero, zero_div, ← Int.cast_zero, roundHalfEven_intCast, abs_zero]
    norm_num
  · have hbound := double_le_pow (abs_pos.mpr hne)
    rw [← abs_double, ulp, abs_abs, double, abs_mul, abs_of_pos (ulp_pos value)] at hbound
    exact_mod_cast le_of_mul_le_mul_right hbound (ulp_pos value)

/-- The double of a double is the same. -/
theorem double_double (value : ℚ) : double (double value) = double value := by
  set e := max (Int.log 2 |value| - 52) (-1074) with he
  set n := roundHalfEven (value / ulp value) with hn
  have hvalue : double value = n * 2 ^ e := rfl
  rcases eq_or_ne n 0 with hzero | hne
  · rw [hvalue, hzero, Int.cast_zero, zero_mul, double_zero]
  have habs : |double value| = (|n| : Int) * 2 ^ e := by
    rw [hvalue, abs_mul, abs_of_pos (zpow_pos two_pos e : (0 : ℚ) < 2 ^ e), Int.cast_abs]
  have hpos : 0 < |double value| := by
    rw [habs]
    exact mul_pos (Int.cast_pos.mpr (abs_pos.mpr hne)) (zpow_pos two_pos e)
  have hdigits : |n| ≤ 2 ^ 53 := abs_digits_le value
  rcases hdigits.lt_or_eq with hless | htop
  · refine double_of_ulp_le n e hvalue ?_
    have hlog : Int.log 2 |double value| < 53 + e := by
      rw [← Int.lt_zpow_iff_log_lt one_lt_two hpos, habs, Nat.cast_ofNat, zpow_add₀ two_ne_zero]
      exact mul_lt_mul_of_pos_right (by exact_mod_cast hless) (zpow_pos two_pos e)
    omega
  · -- one binary digit more, and the last one is zero
    have hpow : |double value| = 2 ^ (53 + e) := by
      rw [habs, htop, zpow_add₀ two_ne_zero]
      norm_cast
    have hlog : Int.log 2 |double value| = 53 + e := by
      rw [hpow]
      exact_mod_cast Int.log_zpow (R := ℚ) one_lt_two (53 + e)
    have hhalf : double value = (n / 2 : Int) * 2 ^ (e + 1) := by
      have heven : n = 2 * (n / 2) := by
        rcases (abs_eq (by norm_num)).mp htop with hpos | hneg
        · rw [hpos]
          norm_num
        · rw [hneg]
          norm_num
      rw [hvalue, zpow_add₀ two_ne_zero, zpow_one]
      conv_lhs => rw [heven]
      push_cast
      ring
    refine double_of_ulp_le (n / 2) (e + 1) hhalf ?_
    omega

/-- Binary fractions of up to 53 digits are doubles. -/
theorem double_dyadic {n : Int} {k : Nat} (hn : |n| < 2 ^ 53) (hk : k ≤ 1074) :
    double (n / 2 ^ k) = n / 2 ^ k := by
  rcases eq_or_ne n 0 with rfl | hne
  · rw [Int.cast_zero, zero_div, double_zero]
  · have hpos : (0 : ℚ) < |(n : ℚ)| / 2 ^ k := by positivity
    have habs : |(n : ℚ) / 2 ^ k| = |(n : ℚ)| / 2 ^ k := by
      rw [abs_div, abs_of_pos (by positivity : (0 : ℚ) < 2 ^ k)]
    have hless : |(n : ℚ)| / 2 ^ k < 2 ^ (53 - (k : Int)) := by
      rw [zpow_sub₀ two_ne_zero, zpow_natCast]
      refine div_lt_div_of_pos_right ?_ (by positivity)
      exact_mod_cast hn
    have hlog : Int.log 2 (|(n : ℚ)| / 2 ^ k) < 53 - k := by
      rw [← Int.lt_zpow_iff_log_lt one_lt_two hpos]
      exact_mod_cast hless
    have hexponent : max (Int.log 2 |(n : ℚ) / 2 ^ k| - 52) (-1074) ≤ -(k : Int) := by
      rw [habs]
      omega
    refine double_of_ulp_le n (-k) ?_ hexponent
    rw [zpow_neg, zpow_natCast, div_eq_mul_inv]

/-- Integers of up to 53 binary digits are doubles. -/
theorem double_natCast {n : Nat} (h : n < 2 ^ 53) : double n = n := by
  have hdyadic := double_dyadic (n := n) (k := 0) (by rw [Nat.abs_cast]; exact_mod_cast h)
    (Nat.zero_le _)
  simpa using hdyadic

/-- Numbers of which some are representable, binary fractions among them. -/
structure Arithmetic where
  /-- The representable number that stands for a number. -/
  round : ℚ → ℚ
  mono : Monotone round
  round_round : ∀ value, round (round value) = round value
  dyadic : ∀ (n : Int) (k : Nat), |n| < 2 ^ 53 → k ≤ 1074 → round (n / 2 ^ k) = n / 2 ^ k

namespace Arithmetic

/-- Every number is representable. -/
def exact : Arithmetic where
  round value := value
  mono := monotone_id
  round_round _ := rfl
  dyadic _ _ _ _ := rfl

/-- The representable numbers are the doubles. -/
protected def double : Arithmetic where
  round := double
  mono := double_mono
  round_round := double_double
  dyadic _ _ hn hk := double_dyadic hn hk

variable (arithmetic : Arithmetic)

def add (x y : ℚ) : ℚ := arithmetic.round (x + y)

def mul (x y : ℚ) : ℚ := arithmetic.round (x * y)

def div (x y : ℚ) : ℚ := arithmetic.round (x / y)

/-- Rounding to a number of decimals. -/
def roundTo (digits : Nat) (value : ℚ) : ℚ := arithmetic.round (Rounding.roundTo digits value)

@[simp] theorem round_zero : arithmetic.round 0 = 0 := by
  simpa using arithmetic.dyadic 0 0 (by norm_num) (Nat.zero_le _)

@[simp] theorem round_one : arithmetic.round 1 = 1 := by
  simpa using arithmetic.dyadic 1 0 (by norm_num) (Nat.zero_le _)

variable {arithmetic}

theorem round_nonneg {x : ℚ} (h : 0 ≤ x) : 0 ≤ arithmetic.round x := by
  have hmono := arithmetic.mono h
  rwa [round_zero] at hmono

theorem round_dyadic {n k : Nat} (hn : n < 2 ^ 53) (hk : k ≤ 1074) :
    arithmetic.round (n / 2 ^ k) = n / 2 ^ k := by
  rw [← Int.cast_natCast n]
  exact arithmetic.dyadic n k (by rw [Nat.abs_cast]; exact_mod_cast hn) hk

/-- No rounding crosses a binary fraction. -/
theorem round_le {x : ℚ} {n k : Nat} (h : x ≤ n / 2 ^ k) (hn : n < 2 ^ 53) (hk : k ≤ 1074) :
    arithmetic.round x ≤ n / 2 ^ k := by
  rw [← round_dyadic hn hk]
  exact arithmetic.mono h

theorem le_round {x : ℚ} {n k : Nat} (h : n / 2 ^ k ≤ x) (hn : n < 2 ^ 53) (hk : k ≤ 1074) :
    n / 2 ^ k ≤ arithmetic.round x := by
  rw [← round_dyadic hn hk]
  exact arithmetic.mono h

/-- Small integers are representable. -/
theorem round_natCast {n : Nat} (h : n < 2 ^ 53) : arithmetic.round n = n := by
  simpa using @round_dyadic arithmetic n 0 h (Nat.zero_le _)

theorem round_le_natCast {x : ℚ} {n : Nat} (h : x ≤ n) (hn : n < 2 ^ 53) :
    arithmetic.round x ≤ n := by
  have hmono := arithmetic.mono h
  rwa [round_natCast hn] at hmono

theorem round_le_one {x : ℚ} (h : x ≤ 1) : arithmetic.round x ≤ 1 := by
  rw [← round_one arithmetic]
  exact arithmetic.mono h

theorem add_mono {x x' y y' : ℚ} (hx : x ≤ x') (hy : y ≤ y') :
    arithmetic.add x y ≤ arithmetic.add x' y' :=
  arithmetic.mono (add_le_add hx hy)

theorem mul_mono_right {x y y' : ℚ} (hx : 0 ≤ x) (hy : y ≤ y') :
    arithmetic.mul x y ≤ arithmetic.mul x y' :=
  arithmetic.mono (mul_le_mul_of_nonneg_left hy hx)

theorem div_mono_left {x x' y : ℚ} (hx : x ≤ x') (hy : 0 ≤ y) :
    arithmetic.div x y ≤ arithmetic.div x' y :=
  arithmetic.mono (div_le_div_of_nonneg_right hx hy)

theorem roundTo_mono (digits : Nat) {x x' : ℚ} (h : x ≤ x') :
    arithmetic.roundTo digits x ≤ arithmetic.roundTo digits x' :=
  arithmetic.mono (Rounding.roundTo_mono digits h)

/-- A sum in units of a binary digit. -/
theorem add_round_le {x y : ℚ} {m n k : Nat} (hx : x ≤ m / 2 ^ k) (hy : y ≤ n / 2 ^ k)
    (hk : k ≤ 1074) (hsmall : m + n < 2 ^ 53) : arithmetic.add x y ≤ (m + n : Nat) / 2 ^ k := by
  refine round_le ?_ hsmall hk
  rw [Nat.cast_add, add_div]
  exact add_le_add hx hy

/-- A product of two rounded numbers in units of a binary digit, rounded up. -/
theorem mul_round_le {x y : ℚ} {m n k : Nat} (hk : k < 52) (hpos : 0 ≤ x) (hx : x ≤ m / 2 ^ k)
    (hy : y ≤ n / 2 ^ k) (hm : m ≤ 2 ^ k) (hn : n ≤ 2 ^ k) :
    arithmetic.mul (arithmetic.round x) (arithmetic.round y) ≤ (m * n / 2 ^ k + 1 : Nat) / 2 ^ k := by
  have hpow : 2 ^ k + 1 < 2 ^ 53 := by
    have := Nat.pow_le_pow_right (n := 2) (by norm_num) hk
    omega
  have hx' : arithmetic.round x ≤ m / 2 ^ k := round_le hx (by omega) (by omega)
  have hy' : arithmetic.round y ≤ n / 2 ^ k := round_le hy (by omega) (by omega)
  have hceil : m * n ≤ (m * n / 2 ^ k + 1) * 2 ^ k := by
    rw [mul_comm _ (2 ^ k)]
    exact (Nat.lt_mul_div_succ _ (by positivity)).le
  have hquotient : m * n / 2 ^ k ≤ 2 ^ k := by
    calc m * n / 2 ^ k ≤ 2 ^ k * 2 ^ k / 2 ^ k := Nat.div_le_div_right (Nat.mul_le_mul hm hn)
      _ = 2 ^ k := Nat.mul_div_cancel _ (by positivity)
  refine round_le ?_ (by omega) (by omega)
  calc arithmetic.round x * arithmetic.round y
      ≤ arithmetic.round x * (n / 2 ^ k) := mul_le_mul_of_nonneg_left hy' (round_nonneg hpos)
    _ ≤ m / 2 ^ k * (n / 2 ^ k) := mul_le_mul_of_nonneg_right hx' (by positivity)
    _ = (m * n : Nat) / 2 ^ k / 2 ^ k := by
        push_cast
        ring
    _ ≤ (m * n / 2 ^ k + 1 : Nat) / 2 ^ k := by
        refine div_le_div_of_nonneg_right ?_ (by positivity)
        rw [div_le_iff₀ (by positivity)]
        exact_mod_cast hceil

end Arithmetic

end Rounding
