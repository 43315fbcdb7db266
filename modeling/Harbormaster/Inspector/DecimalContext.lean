import Harbormaster.Reconstub.Difference

/-! # Results in the default context

Every result of an operation is rounded to 28 digits, none below the least exponent,
and signals when it lies beyond the greatest. What fits the context is left as it is.
-/

namespace Harbormaster.Inspector.Decimal

open Rounding

/-- The number, of what is one. -/
def value? : Decimal → Option ℚ
  | .finite negative coefficient exponent => some (signed negative coefficient * 10 ^ exponent)
  | _ => none

/-- The number of places that a result loses. -/
def excess (coefficient : Nat) (exponent : Int) : Nat :=
  max ((Nat.toDigits 10 coefficient).length - contextPrecision) (leastExponent - exponent).toNat

/-- The rounded coefficient, at the old exponent. -/
def contextRound (coefficient : Nat) (exponent : Int) : Nat :=
  dropPlaces coefficient (excess coefficient exponent) * 10 ^ excess coefficient exponent

/-- Ten to this power is beyond the context. -/
abbrev contextLimit : ℚ := 10 ^ (contextEmax + 1)

/-- The rounded result is beyond the context. -/
def Overflows (coefficient : Nat) (exponent : Int) : Prop :=
  contextLimit ≤ contextRound coefficient exponent * 10 ^ exponent

/-- A number of at most 28 digits, none below the least exponent, within the context. -/
def Fits (coefficient : Nat) (exponent : Int) : Prop :=
  ∃ digits shift : Nat, coefficient = digits * 10 ^ shift ∧ digits < 10 ^ contextPrecision ∧
    leastExponent ≤ exponent + shift ∧ coefficient * 10 ^ exponent < contextLimit

/-! ## Lengths -/

theorem lt_pow_length (coefficient : Nat) :
    coefficient < 10 ^ (Nat.toDigits 10 coefficient).length :=
  (Nat.length_toDigits_le_iff (by decide) (Nat.pos_of_ne_zero (by simp))).mp le_rfl

theorem pow_le_of_length {coefficient length : Nat} (hlength : length ≠ 0)
    (h : length < (Nat.toDigits 10 coefficient).length) : 10 ^ length ≤ coefficient := by
  by_contra hlt
  exact absurd ((Nat.length_toDigits_le_iff (by decide) (Nat.pos_of_ne_zero hlength)).mpr
    (not_le.mp hlt)) (not_le.mpr h)

/-- A number is beyond the context when its leading digit is. -/
theorem contextLimit_le_iff {coefficient : Nat} {exponent : Int} :
    contextLimit ≤ coefficient * 10 ^ exponent ↔ coefficient ≠ 0 ∧
      contextEmax < exponent + (Nat.toDigits 10 coefficient).length - 1 := by
  have hpos : (0 : ℚ) < 10 ^ exponent := zpow_pos (by norm_num) exponent
  by_cases hzero : coefficient = 0
  · subst hzero
    refine iff_of_false ?_ (by simp)
    rw [Nat.cast_zero, zero_mul, not_le]
    exact zpow_pos (by norm_num) _
  rw [and_iff_right hzero]
  have hlength := lt_pow_length coefficient
  have hleading : 10 ^ ((Nat.toDigits 10 coefficient).length - 1) ≤ coefficient := by
    by_cases hone : (Nat.toDigits 10 coefficient).length - 1 = 0
    · rw [hone, pow_zero]
      exact Nat.pos_of_ne_zero hzero
    · exact pow_le_of_length hone (by omega)
  have hdigits : 0 < (Nat.toDigits 10 coefficient).length := Nat.length_toDigits_pos
  generalize (Nat.toDigits 10 coefficient).length = length at hlength hleading hdigits
  constructor
  · intro hlimit
    by_contra hsmall
    have hbelow : (coefficient : ℚ) * 10 ^ exponent < contextLimit := calc
      (coefficient : ℚ) * 10 ^ exponent < 10 ^ length * 10 ^ exponent := by
        exact mul_lt_mul_of_pos_right (by exact_mod_cast hlength) hpos
      _ = (10 : ℚ) ^ (length + exponent) := by
        rw [zpow_add₀ (by norm_num), zpow_natCast]
      _ ≤ contextLimit := zpow_le_zpow_right₀ (by norm_num) (by omega)
    exact absurd hlimit (not_le.mpr hbelow)
  · intro hlarge
    calc contextLimit ≤ (10 : ℚ) ^ (((length - 1 : Nat) : Int) + exponent) :=
          zpow_le_zpow_right₀ (by norm_num) (by omega)
      _ = 10 ^ (length - 1) * 10 ^ exponent := by rw [zpow_add₀ (by norm_num), zpow_natCast]
      _ ≤ coefficient * 10 ^ exponent := by
        exact mul_le_mul_of_nonneg_right (by exact_mod_cast hleading) hpos.le

/-! ## Rounding -/

theorem dropPlaces_excess_le (coefficient : Nat) (exponent : Int) :
    dropPlaces coefficient (excess coefficient exponent) ≤ 10 ^ contextPrecision := by
  have hlength : (Nat.toDigits 10 coefficient).length ≤
      contextPrecision + excess coefficient exponent := by
    unfold excess
    omega
  have hlt : coefficient < 10 ^ contextPrecision * 10 ^ excess coefficient exponent := calc
    coefficient < 10 ^ (Nat.toDigits 10 coefficient).length := lt_pow_length coefficient
    _ ≤ 10 ^ (contextPrecision + excess coefficient exponent) :=
      Nat.pow_le_pow_right (by decide) hlength
    _ = 10 ^ contextPrecision * 10 ^ excess coefficient exponent := pow_add _ _ _
  have hround : roundHalfEven ((coefficient : ℚ) / 10 ^ excess coefficient exponent) ≤
      ((10 ^ contextPrecision : Nat) : Int) := by
    apply roundHalfEven_le_of_le
    rw [div_le_iff₀ (by positivity)]
    exact_mod_cast hlt.le
  unfold dropPlaces
  exact Int.toNat_le.mpr hround

/-- A rounded result, unless it is beyond the context. -/
def within (negative : Bool) (digits : Nat) (exponent : Int) : Except Signal Decimal :=
  if digits ≠ 0 ∧ contextEmax < exponent + (Nat.toDigits 10 digits).length - 1 then
    .error .overflow
  else .ok (.finite negative digits exponent)

theorem finalize_eq (negative : Bool) (coefficient : Nat) (exponent : Int) :
    finalize negative coefficient exponent =
      if contextPrecision < (Nat.toDigits 10 (dropPlaces coefficient
          (excess coefficient exponent))).length then
        within negative (dropPlaces coefficient (excess coefficient exponent) / 10)
          (exponent + excess coefficient exponent + 1)
      else within negative (dropPlaces coefficient (excess coefficient exponent))
        (exponent + excess coefficient exponent) := by
  have hexcess : max ((Nat.toDigits 10 coefficient).length - contextPrecision)
      (-contextEmax - contextPrecision + 1 - exponent).toNat = excess coefficient exponent := rfl
  unfold finalize within
  dsimp only
  rw [hexcess]
  by_cases hcarried : contextPrecision <
      (Nat.toDigits 10 (dropPlaces coefficient (excess coefficient exponent))).length
  · simp only [if_pos hcarried]
  · simp only [if_neg hcarried]

/-- A result beyond the context signals, any other is the rounded one. -/
theorem finalize_spec (negative : Bool) (coefficient : Nat) (exponent : Int) :
    ∃ digits shift : Nat, digits * 10 ^ shift = contextRound coefficient exponent ∧
      digits < 10 ^ contextPrecision ∧ leastExponent ≤ exponent + shift ∧
      finalize negative coefficient exponent = within negative digits (exponent + shift) := by
  have hle := dropPlaces_excess_le coefficient exponent
  have hleast : leastExponent ≤ exponent + excess coefficient exponent := by
    unfold excess
    omega
  rw [finalize_eq]
  split
  next hcarried =>
    have hround : dropPlaces coefficient (excess coefficient exponent) = 10 ^ contextPrecision :=
      le_antisymm hle (pow_le_of_length (by decide) hcarried)
    refine ⟨10 ^ 27, excess coefficient exponent + 1, ?_, by norm_num [contextPrecision], ?_, ?_⟩
    · calc 10 ^ 27 * 10 ^ (excess coefficient exponent + 1)
          = 10 ^ (contextPrecision + excess coefficient exponent) := by
            rw [← pow_add]
            congr 1
            exact Nat.add_right_comm 27 _ 1
        _ = contextRound coefficient exponent := by rw [contextRound, hround, pow_add]
    · rw [Nat.cast_add, ← add_assoc]
      exact hleast.trans (Int.le_add_of_nonneg_right (by decide))
    · rw [hround, Nat.cast_add, ← add_assoc]
      rfl
  next hkept =>
    have hsmall : dropPlaces coefficient (excess coefficient exponent) < 10 ^ contextPrecision :=
      (Nat.length_toDigits_le_iff (by decide) (by decide)).mp (not_lt.mp hkept)
    exact ⟨_, excess coefficient exponent, rfl, hsmall, hleast, rfl⟩

theorem mul_shift (digits shift : Nat) (exponent : Int) :
    (digits : ℚ) * 10 ^ (exponent + shift) = ((digits * 10 ^ shift : Nat) : ℚ) * 10 ^ exponent := by
  rw [zpow_add₀ (by norm_num), zpow_natCast]
  push_cast
  ring

theorem finalize_of_overflows (negative : Bool) {coefficient : Nat} {exponent : Int}
    (h : Overflows coefficient exponent) :
    finalize negative coefficient exponent = .error .overflow := by
  obtain ⟨digits, shift, hround, -, -, hfinalize⟩ := finalize_spec negative coefficient exponent
  rw [Overflows, ← hround, ← mul_shift, contextLimit_le_iff] at h
  rw [hfinalize, within, if_pos h]

theorem finalize_of_not_overflows (negative : Bool) {coefficient : Nat} {exponent : Int}
    (h : ¬ Overflows coefficient exponent) :
    ∃ digits shift : Nat, digits * 10 ^ shift = contextRound coefficient exponent ∧
      digits < 10 ^ contextPrecision ∧ leastExponent ≤ exponent + shift ∧
      finalize negative coefficient exponent =
        .ok (.finite negative digits (exponent + shift)) := by
  obtain ⟨digits, shift, hround, hsmall, hleast, hfinalize⟩ :=
    finalize_spec negative coefficient exponent
  rw [Overflows, ← hround, ← mul_shift, contextLimit_le_iff] at h
  refine ⟨digits, shift, hround, hsmall, hleast, ?_⟩
  rw [hfinalize, within, if_neg h]

theorem signed_mul (negative : Bool) (digits scale : Nat) :
    signed negative (digits * scale) = signed negative digits * scale := by
  unfold signed
  split
  next => push_cast; ring
  next => push_cast; rfl

theorem value?_finite_shift (negative : Bool) (digits shift : Nat) (exponent : Int) :
    (finite negative digits (exponent + shift)).value? =
      some ((signed negative (digits * 10 ^ shift) : ℚ) * 10 ^ exponent) := by
  rw [value?, signed_mul, zpow_add₀ (by norm_num), zpow_natCast]
  push_cast
  congr 1
  ring

theorem contextRound_of_dvd {coefficient : Nat} {exponent : Int}
    (h : 10 ^ excess coefficient exponent ∣ coefficient) :
    contextRound coefficient exponent = coefficient := by
  obtain ⟨digits, hdigits⟩ := h
  have hpos : (10 : ℚ) ^ excess coefficient exponent ≠ 0 := by positivity
  have hquotient : (coefficient : ℚ) / 10 ^ excess coefficient exponent = ((digits : Int) : ℚ) := by
    rw [div_eq_iff hpos, Int.cast_natCast, mul_comm]
    exact_mod_cast hdigits
  unfold contextRound dropPlaces
  rw [hquotient, roundHalfEven_intCast, Int.toNat_natCast, mul_comm]
  exact hdigits.symm

/-- What fits is left as it is, and does not overflow. -/
theorem fits_iff {coefficient : Nat} {exponent : Int} :
    Fits coefficient exponent ↔
      contextRound coefficient exponent = coefficient ∧ ¬ Overflows coefficient exponent := by
  constructor
  · rintro ⟨digits, shift, hdigits, hsmall, hleast, hlimit⟩
    have hround : contextRound coefficient exponent = coefficient := by
      apply contextRound_of_dvd
      by_cases hzero : coefficient = 0
      · rw [hzero]
        exact dvd_zero _
      have hlength : (Nat.toDigits 10 coefficient).length ≤ contextPrecision + shift := by
        rw [Nat.length_toDigits_le_iff (by decide) (by simp [contextPrecision]), hdigits, pow_add]
        exact Nat.mul_lt_mul_of_pos_right hsmall (by positivity)
      have hexcess : excess coefficient exponent ≤ shift := by
        unfold excess
        omega
      exact (pow_dvd_pow 10 hexcess).trans ⟨digits, by rw [mul_comm]; exact hdigits⟩
    refine ⟨hround, ?_⟩
    rw [Overflows, hround, not_le]
    exact hlimit
  · rintro ⟨hround, hlimit⟩
    obtain ⟨digits, shift, hsame, hsmall, hleast, -⟩ := finalize_of_not_overflows false hlimit
    rw [Overflows, hround, not_le] at hlimit
    exact ⟨digits, shift, by rw [hsame, hround], hsmall, hleast, hlimit⟩

theorem signed_inj {negative : Bool} {n m : Nat} : signed negative n = signed negative m ↔ n = m := by
  unfold signed
  split <;> simp

/-- A result has the exact value, and none signals, exactly when the number fits. -/
theorem finalize_exact_iff {negative : Bool} {coefficient : Nat} {exponent : Int} :
    (∃ d, finalize negative coefficient exponent = .ok d ∧
      d.value? = some ((signed negative coefficient : ℚ) * 10 ^ exponent)) ↔
      Fits coefficient exponent := by
  have hpos : (10 : ℚ) ^ exponent ≠ 0 := zpow_ne_zero _ (by norm_num)
  rw [fits_iff]
  by_cases hlimit : Overflows coefficient exponent
  · refine iff_of_false ?_ fun h => h.2 hlimit
    rw [finalize_of_overflows negative hlimit]
    rintro ⟨d, hd, -⟩
    cases hd
  · rw [and_iff_left hlimit]
    obtain ⟨digits, shift, hround, -, -, hfinalize⟩ := finalize_of_not_overflows negative hlimit
    have hvalue := value?_finite_shift negative digits shift exponent
    rw [hround] at hvalue
    constructor
    · rintro ⟨d, hd, hexact⟩
      obtain rfl := Except.ok.inj (hfinalize.symm.trans hd)
      have hsame := mul_right_cancel₀ hpos (Option.some.inj (hvalue.symm.trans hexact))
      exact signed_inj.mp (by exact_mod_cast hsame)
    · intro hsame
      rw [hsame] at hvalue
      exact ⟨_, hfinalize, hvalue⟩

/-! ## Bounds -/

/-- Rounding does not exceed a number of the context. -/
theorem contextRound_le {coefficient digits : Nat} {exponent shift : Int}
    (hdigits : digits < 10 ^ contextPrecision) (hleast : leastExponent ≤ shift)
    (h : (coefficient : ℚ) * 10 ^ exponent ≤ digits * 10 ^ shift) :
    (contextRound coefficient exponent : ℚ) * 10 ^ exponent ≤ digits * 10 ^ shift := by
  have hpos : ∀ power : Int, (0 : ℚ) < 10 ^ power := fun power => zpow_pos (by norm_num) power
  by_cases hzero : excess coefficient exponent = 0
  · rw [contextRound_of_dvd (by rw [hzero]; exact one_dvd _)]
    exact h
  by_cases hbelow : exponent + excess coefficient exponent ≤ shift
  · -- the bound is a multiple of the last place that is kept
    obtain ⟨more, hmore⟩ := Int.le.dest hbelow
    have hbound : (digits : ℚ) * 10 ^ shift =
        ((digits * 10 ^ more * 10 ^ excess coefficient exponent : Nat) : ℚ) * 10 ^ exponent := by
      rw [← hmore, zpow_add₀ (by norm_num), zpow_add₀ (by norm_num), zpow_natCast, zpow_natCast]
      push_cast
      ring
    rw [hbound] at h ⊢
    have hle : coefficient ≤ digits * 10 ^ more * 10 ^ excess coefficient exponent := by
      exact_mod_cast le_of_mul_le_mul_right h (hpos exponent)
    have hround : roundHalfEven ((coefficient : ℚ) / 10 ^ excess coefficient exponent) ≤
        ((digits * 10 ^ more : Nat) : Int) := by
      apply roundHalfEven_le_of_le
      rw [div_le_iff₀ (by positivity)]
      exact_mod_cast hle
    refine mul_le_mul_of_nonneg_right ?_ (hpos exponent).le
    unfold contextRound dropPlaces
    exact_mod_cast Nat.mul_le_mul_right _ (Int.toNat_le.mpr hround)
  · -- the number has more digits than the bound
    exfalso
    have hlength : contextPrecision + excess coefficient exponent =
        (Nat.toDigits 10 coefficient).length := by
      unfold excess at hzero hbelow ⊢
      omega
    have hlong : 10 ^ (contextPrecision - 1 + excess coefficient exponent) ≤ coefficient :=
      pow_le_of_length (by simp [contextPrecision]) (by simp [contextPrecision] at *; omega)
    have hless : (digits : ℚ) * 10 ^ shift < coefficient * 10 ^ exponent := calc
      (digits : ℚ) * 10 ^ shift < 10 ^ contextPrecision * 10 ^ shift :=
        mul_lt_mul_of_pos_right (by exact_mod_cast hdigits) (hpos shift)
      _ = (10 : ℚ) ^ ((contextPrecision : Int) + shift) := by
        rw [zpow_add₀ (by norm_num), zpow_natCast]
      _ ≤ 10 ^ (((contextPrecision - 1 + excess coefficient exponent : Nat) : Int) + exponent) :=
        zpow_le_zpow_right₀ (by norm_num) (by simp [contextPrecision] at *; omega)
      _ = 10 ^ (contextPrecision - 1 + excess coefficient exponent) * 10 ^ exponent := by
        rw [zpow_add₀ (by norm_num), zpow_natCast]
      _ ≤ coefficient * 10 ^ exponent :=
        mul_le_mul_of_nonneg_right (by exact_mod_cast hlong) (hpos exponent).le
    exact absurd h (not_le.mpr hless)

/-- A number below one that fits is within the context. -/
theorem not_overflows_of_le {coefficient coefficient' : Nat} {exponent exponent' : Int}
    (hfits : Fits coefficient' exponent')
    (h : (coefficient : ℚ) * 10 ^ exponent ≤ coefficient' * 10 ^ exponent') :
    ¬ Overflows coefficient exponent := by
  obtain ⟨digits, shift, hdigits, hsmall, hleast, hlimit⟩ := hfits
  have hsame : (coefficient' : ℚ) * 10 ^ exponent' = digits * 10 ^ (exponent' + shift) := by
    rw [mul_shift, hdigits]
  rw [hsame] at h hlimit
  rw [Overflows, not_le]
  exact (contextRound_le hsmall hleast h).trans_lt hlimit

/-- A result is a number of the context. -/
theorem fits_of_finalize {negative : Bool} {coefficient : Nat} {exponent : Int} {result : Decimal}
    (h : finalize negative coefficient exponent = .ok result) :
    ∃ digits power, result = .finite negative digits power ∧ Fits digits power := by
  have hlimit : ¬ Overflows coefficient exponent := fun hover => by
    rw [finalize_of_overflows negative hover] at h
    cases h
  obtain ⟨digits, shift, hround, hsmall, hleast, hfinalize⟩ :=
    finalize_of_not_overflows negative hlimit
  refine ⟨digits, exponent + shift, (Except.ok.inj (hfinalize.symm.trans h)).symm, digits, 0,
    by simp, hsmall, by simpa using hleast, ?_⟩
  rw [Overflows, not_le, ← hround, ← mul_shift] at hlimit
  exact hlimit

theorem exists_finalize_iff {negative : Bool} {coefficient : Nat} {exponent : Int} :
    (∃ result, finalize negative coefficient exponent = .ok result) ↔
      ¬ Overflows coefficient exponent := by
  constructor
  · rintro ⟨result, hresult⟩ hover
    rw [finalize_of_overflows negative hover] at hresult
    cases hresult
  · intro hlimit
    obtain ⟨digits, shift, -, -, -, hfinalize⟩ := finalize_of_not_overflows negative hlimit
    exact ⟨_, hfinalize⟩

end Harbormaster.Inspector.Decimal
