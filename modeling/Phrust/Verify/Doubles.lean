import Phrust.Runtime.Doubles
import Phrust.Verify.DecimalText

/-!
# Integer texts as doubles

A text of digits denotes the double nearest to its value, and beyond the 64-bit range that double
saturates as the value itself does.
-/

namespace Phrust

theorem roundInteger_signed (negative : Bool) (precision magnitude : Nat) :
    roundInteger precision (if negative then -(magnitude : Int) else magnitude) =
      if negative then -(roundMagnitude precision magnitude : Int) else roundMagnitude precision magnitude := by
  cases negative with
  | false => simp [roundInteger]
  | true =>
    rcases Nat.eq_zero_or_pos magnitude with rfl | hpos
    · simp [roundInteger, roundMagnitude_zero]
    · simp [roundInteger, hpos]

theorem decimalParts_of_isInteger (h : isInteger text = true) : decimalParts text = ((splitSign text).2, [], 0) := by
  simp only [isInteger, Bool.and_eq_true] at h
  have htake := List.takeWhile_eq_self_iff.mpr (List.all_eq_true.mp h.2)
  have hdrop := List.dropWhile_eq_nil_iff.mpr (List.all_eq_true.mp h.2)
  simp [decimalParts, htake, hdrop]

theorem truncatedDecimal_of_isInteger (h : isInteger text = true) :
    truncatedDecimal text = roundInteger 53 (integerValue text) := by
  have hdigits : splitSign (splitSign text).2 = (false, (splitSign text).2) := by
    simp only [isInteger, Bool.and_eq_true] at h
    exact splitSign_digits h.2
  rw [truncatedDecimal, decimalParts_of_isInteger h, integerValue, roundInteger_signed]
  simp [integerValue, hdigits, truncatedRatio_one]

theorem saturateI64_of_mem (hlow : i64Min ≤ value) (hhigh : value ≤ i64Max) : saturateI64 value = value := by
  rw [saturateI64, clampTo]
  omega

theorem throughDouble_of_natAbs_lt (h : value.natAbs < 2 ^ 53) : throughDouble value = value := by
  rw [throughDouble, roundInteger_of_natAbs_lt h]
  refine saturateI64_of_mem ?_ ?_
  · simp only [i64Min]
    omega
  · simp only [i64Max]
    omega

theorem throughDouble_nonneg (h : 0 ≤ value) : 0 ≤ throughDouble value := by
  have hround : 0 ≤ roundInteger 53 value := by
    rw [roundInteger, if_neg (by omega)]
    omega
  simp only [throughDouble, saturateI64, clampTo, i64Min, i64Max]
  omega

theorem throughDouble_nonpos (h : value ≤ 0) : throughDouble value ≤ 0 := by
  have hround : roundInteger 53 value ≤ 0 := by
    rcases Int.lt_or_eq_of_le h with hneg | rfl
    · exact Int.le_of_lt (roundInteger_neg hneg (by decide))
    · decide
  simp only [throughDouble, saturateI64, clampTo, i64Min, i64Max]
  omega

theorem throughDouble_eq_zero_iff : throughDouble value = 0 ↔ value = 0 := by
  have hround : roundInteger 53 value = 0 ↔ value = 0 := roundInteger_eq_zero_iff (by decide)
  simp only [throughDouble, saturateI64, clampTo, i64Min, i64Max]
  omega

/-- Beyond the range rounding does not change what saturates. -/
theorem saturateI64_roundInteger (h : value < i64Min ∨ i64Max < value) :
    saturateI64 (roundInteger 53 value) = saturateI64 value := by
  have hround : 2 ^ 63 ≤ roundMagnitude 53 value.natAbs := by
    refine two_pow_le_roundMagnitude ?_ (by decide)
    simp only [i64Min, i64Max] at h
    omega
  simp only [saturateI64, clampTo, roundInteger, i64Min, i64Max] at h ⊢
  split <;> omega

/-! ## Doubles with their whole part -/

/-- A NaN and numbers that know their whole part only. The flag tells the texts that are not plain integers. -/
def wholeDoubles : RuntimeFloats (Option (Int × Bool)) where
  ofInt value := some (roundInteger 53 value, false)
  ofDecimal text :=
    if isLong text && !isNegativeZero text then some (roundInteger 53 (integerValue text), false)
    else some (truncatedDecimal text, true)
  ofWord _ := none
  toLong := Option.map Prod.fst
  truncate number := saturateI64 ((number.map Prod.fst).getD 0)
  display _ := []
  nonzero number := number.map Prod.fst != some 0
  ofDecimal_long text hlong hzero := by simp [hlong, hzero]
  isFinite := Option.isSome
  isNan := Option.isNone
  eq left right := left.isSome && left.map Prod.fst == right.map Prod.fst
  partialCmp left right := left.bind fun left => right.map fun right => Ord.compare left.1 right.1
  text number := (number.map fun number => integerText number.1).getD [78, 65, 78]
  eq_iff left right := by cases left <;> cases right <;> simp
  partialCmp_isSome left right := by cases left <;> cases right <;> simp
  partialCmp_self number h := by cases number <;> simp_all
  ofDecimal_isNan text := by split <;> rfl
  ofInt_isNan _ := rfl
  text_nan number h := by cases number <;> simp_all
  add left right := left.bind fun left => right.map fun right => (left.1 + right.1, true)
  sub left right := left.bind fun left => right.map fun right => (left.1 - right.1, true)
  mul left right := left.bind fun left => right.map fun right => (left.1 * right.1, true)
  div left right := left.bind fun left => right.map fun right => (left.1.tdiv right.1, true)
  powf left right := left.bind fun left => right.map fun right => (left.1 ^ right.1.toNat, true)
  phpFloatToInt number := wrapI64 ((number.map Prod.fst).getD 0)
  nonzero_ofInt value := by
    rw [Option.map_some, ← Bool.coe_iff_coe]
    simp [roundInteger_eq_zero_iff]
  truncate_ofInt _ := rfl
  truncate_ofDecimal text h := by
    split
    · next hlong =>
      simp only [isLong, Bool.and_eq_true] at hlong
      simp [truncatedDecimal_of_isInteger hlong.1.1.1]
    · rfl

end Phrust
