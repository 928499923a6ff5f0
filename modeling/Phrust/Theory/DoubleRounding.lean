import Mathlib.Tactic.Ring

/-!
# Rounding integers to a precision

Round to nearest, ties to even, with an unbounded exponent; and clamping to a range.
-/

namespace Phrust

/-- The magnitude of the last of `precision` significant binary digits. -/
def lastPlace (precision magnitude : Nat) : Nat := 2 ^ (magnitude.log2 + 1 - precision)

/-- The nearest integer to a quotient, the even one if there are two. -/
def nearestQuotient (numerator denominator : Nat) : Nat :=
  let quotient := numerator / denominator
  let remainder := numerator % denominator
  if 2 * remainder < denominator ∨ 2 * remainder = denominator ∧ quotient % 2 = 0 then quotient else quotient + 1

/-- Round a magnitude to so many significant binary digits. -/
def roundMagnitude (precision magnitude : Nat) : Nat :=
  nearestQuotient magnitude (lastPlace precision magnitude) * lastPlace precision magnitude

/-- The whole part of a ratio that is rounded to so many significant binary digits: `places` of them stand
behind the point, or the last one counts `2 ^ shift`. -/
def truncatedRatio (precision numerator denominator : Nat) : Nat :=
  let whole := numerator / denominator
  let places := if whole = 0 then precision else precision - (whole.log2 + 1)
  let shift := whole.log2 + 1 - precision
  nearestQuotient (numerator * 2 ^ places) (denominator * 2 ^ shift) * 2 ^ shift / 2 ^ places

def roundInteger (precision : Nat) (value : Int) : Int :=
  if value < 0 then -roundMagnitude precision value.natAbs else roundMagnitude precision value.natAbs

/-- The nearest value of a range. -/
def clampTo (low high value : Int) : Int := max low (min high value)

theorem lastPlace_pos (precision magnitude : Nat) : 0 < lastPlace precision magnitude :=
  Nat.two_pow_pos _

theorem le_nearestQuotient (numerator denominator : Nat) :
    numerator / denominator ≤ nearestQuotient numerator denominator := by
  rw [nearestQuotient]
  split
  · exact Nat.le_refl _
  · exact Nat.le_succ _

theorem nearestQuotient_one (numerator : Nat) : nearestQuotient numerator 1 = numerator := by
  simp [nearestQuotient, Nat.mod_one]

theorem roundMagnitude_zero (precision : Nat) : roundMagnitude precision 0 = 0 := by
  have := lastPlace_pos precision 0
  simp [roundMagnitude, nearestQuotient, this]

theorem roundMagnitude_of_lt (h : magnitude < 2 ^ precision) : roundMagnitude precision magnitude = magnitude := by
  rcases Nat.eq_zero_or_pos magnitude with rfl | hpos
  · exact roundMagnitude_zero precision
  have hlog : magnitude.log2 < precision := (Nat.log2_lt (Nat.ne_of_gt hpos)).mpr h
  have hunit : lastPlace precision magnitude = 1 := by
    rw [lastPlace, Nat.sub_eq_zero_of_le hlog, Nat.pow_zero]
  rw [roundMagnitude, hunit, nearestQuotient_one, Nat.mul_one]

/-- Rounding does not fall below the leading digit. -/
theorem two_pow_log2_le_roundMagnitude (h : 0 < magnitude) (hprecision : 0 < precision) :
    2 ^ magnitude.log2 ≤ roundMagnitude precision magnitude := by
  have hself : 2 ^ magnitude.log2 ≤ magnitude := Nat.log2_self_le (Nat.ne_of_gt h)
  have hdvd : lastPlace precision magnitude ∣ 2 ^ magnitude.log2 :=
    Nat.pow_dvd_pow 2 (by omega)
  calc 2 ^ magnitude.log2
    _ = 2 ^ magnitude.log2 / lastPlace precision magnitude * lastPlace precision magnitude :=
      (Nat.div_mul_cancel hdvd).symm
    _ ≤ magnitude / lastPlace precision magnitude * lastPlace precision magnitude :=
      Nat.mul_le_mul_right _ (Nat.div_le_div_right hself)
    _ ≤ roundMagnitude precision magnitude := Nat.mul_le_mul_right _ (le_nearestQuotient _ _)

theorem roundMagnitude_pos (h : 0 < magnitude) (hprecision : 0 < precision) : 0 < roundMagnitude precision magnitude :=
  Nat.lt_of_lt_of_le (Nat.two_pow_pos _) (two_pow_log2_le_roundMagnitude h hprecision)

theorem roundInteger_of_natAbs_lt (h : value.natAbs < 2 ^ precision) : roundInteger precision value = value := by
  rw [roundInteger, roundMagnitude_of_lt h]
  split <;> omega

/-- Rounding keeps the sign. -/
theorem roundInteger_pos (h : 0 < value) (hprecision : 0 < precision) : 0 < roundInteger precision value := by
  rw [roundInteger, if_neg (by omega)]
  exact Int.natCast_pos.mpr (roundMagnitude_pos (by omega) hprecision)

theorem roundInteger_neg (h : value < 0) (hprecision : 0 < precision) : roundInteger precision value < 0 := by
  have hpos : 0 < roundMagnitude precision value.natAbs := roundMagnitude_pos (by omega) hprecision
  rw [roundInteger, if_pos h]
  omega

theorem roundInteger_zero (precision : Nat) : roundInteger precision 0 = 0 := by
  simp [roundInteger, roundMagnitude_zero]

theorem roundInteger_eq_zero_iff (hprecision : 0 < precision) : roundInteger precision value = 0 ↔ value = 0 := by
  constructor
  · intro h
    rcases Int.lt_trichotomy value 0 with hneg | hzero | hpos
    · have := roundInteger_neg hneg hprecision
      omega
    · exact hzero
    · have := roundInteger_pos hpos hprecision
      omega
  · rintro rfl
    exact roundInteger_zero precision

/-- Whole numbers are rounded in the same way. -/
theorem truncatedRatio_one (precision magnitude : Nat) :
    truncatedRatio precision magnitude 1 = roundMagnitude precision magnitude := by
  rw [truncatedRatio, roundMagnitude, lastPlace]
  simp only [Nat.div_one, Nat.one_mul]
  rcases Nat.le_total (magnitude.log2 + 1) precision with hsmall | hlarge
  · rw [Nat.sub_eq_zero_of_le hsmall, Nat.pow_zero, nearestQuotient_one, nearestQuotient_one, Nat.mul_one,
      Nat.mul_one, Nat.mul_div_cancel _ (Nat.two_pow_pos _)]
  · rcases Nat.eq_zero_or_pos magnitude with rfl | hpos
    · simp [nearestQuotient]
    · rw [if_neg (Nat.ne_of_gt hpos), Nat.sub_eq_zero_of_le hlarge, Nat.pow_zero, Nat.mul_one, Nat.div_one]

/-- A magnitude beyond the range of `2 ^ bits` stays there. -/
theorem two_pow_le_roundMagnitude (h : 2 ^ bits ≤ magnitude) (hprecision : 0 < precision) :
    2 ^ bits ≤ roundMagnitude precision magnitude := by
  have hpos : 0 < magnitude := Nat.lt_of_lt_of_le (Nat.two_pow_pos bits) h
  have hlog : bits ≤ magnitude.log2 := (Nat.le_log2 (Nat.ne_of_gt hpos)).mpr h
  exact Nat.le_trans (Nat.pow_le_pow_right (Nat.zero_lt_succ 1) hlog)
    (two_pow_log2_le_roundMagnitude hpos hprecision)

/-! ## Truncated remainders -/

/-- A number is the truncated remainder if it has the sign of the dividend, is smaller than the divisor and
leaves a multiple of it. -/
theorem tmod_eq_iff {dividend divisor remainder : Int} (hdivisor : divisor ≠ 0)
    (hsign : 0 ≤ dividend ∧ 0 ≤ remainder ∨ dividend ≤ 0 ∧ remainder ≤ 0) :
    dividend.tmod divisor = remainder ↔ divisor ∣ dividend - remainder ∧ remainder.natAbs < divisor.natAbs := by
  constructor
  · rintro rfl
    refine ⟨⟨dividend.tdiv divisor, ?_⟩, ?_⟩
    · have := Int.mul_tdiv_add_tmod dividend divisor
      omega
    · rw [Int.natAbs_tmod]
      exact Nat.mod_lt _ (Int.natAbs_pos.mpr hdivisor)
  · rintro ⟨⟨quotient, hquotient⟩, hlt⟩
    have hsum : remainder + divisor * quotient = dividend := by omega
    rcases hsign with ⟨hdividend, hremainder⟩ | ⟨hdividend, hremainder⟩
    · exact ((Int.tdiv_tmod_unique hdividend hdivisor).mpr ⟨hsum, hremainder, by omega⟩).2
    · exact ((Int.tdiv_tmod_unique' hdividend hdivisor).mpr ⟨hsum, by omega, hremainder⟩).2

end Phrust
