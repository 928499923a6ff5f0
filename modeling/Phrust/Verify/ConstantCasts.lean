import Phrust.Ir.ConstantExpressions
import Phrust.Runtime.Value
import Phrust.Verify.Doubles
import Phrust.Verify.NumericPrefix

/-!
# Casts of constants

The lowering reads the integer in front of a string digit by digit, the runtime classifies the number in
front, which may have a fraction and an exponent. For a string constant that is not UTF-8 the lowering has
no exact result.
-/

namespace Phrust.Ir
open Phrust.Convert Option
variable {F : Type}

/-- The value of a constant at run time: no floats, arrays and names. -/
def IrConstant.runtimeValue : IrConstant → Option (Convert.Value F)
  | .null => some .null
  | .bool value => some (.bool value)
  | .int value => some (.int value)
  | .string text => some (.string (bytesOf text))
  | .stringBytes bytes => some (.string bytes)
  | .float _ | .array _ | .namedConstant _ | .classConstant _ _ _ => none

/-! ## The lowering -/

/-- The integer in front of a text, zero if there is none. -/
def leadingInteger (text : PhpString) : Int :=
  let magnitude := digitsValue ((splitSign text).2.takeWhile isAsciiDigit)
  if (splitSign text).1 then -(magnitude : Int) else magnitude

def accumulate (n : Nat) (digits : PhpString) : Nat :=
  digits.foldl (fun (n : Nat) (digit : UInt8) => n * 10 + (digit.toNat - 48)) n

theorem le_accumulate (n : Nat) (digits : PhpString) : n ≤ accumulate n digits := by
  induction digits generalizing n with
  | nil => exact Nat.le_refl n
  | cons digit digits ih => exact Nat.le_trans (by omega) (ih (n * 10 + (digit.toNat - 48)))

theorem checkedDigit_eq (n digit : Nat) : ((checkedI64 ((n : Int) * 10)).bind fun value => checkedI64 (value + digit)) =
    if ((n * 10 + digit : Nat) : Int) ≤ i64Max then some ((n * 10 + digit : Nat) : Int) else none := by
  have hmax : i64Max = 9223372036854775807 := rfl
  by_cases hsum : ((n * 10 + digit : Nat) : Int) ≤ i64Max
  · have hten : checkedI64 ((n : Int) * 10) = some ((n : Int) * 10) := if_pos (by omega)
    rw [hten, bind_some, if_pos hsum, checkedI64, if_pos (by omega)]
    rfl
  rw [if_neg hsum, bind_eq_none_iff]
  intro value hvalue
  rw [checkedI64, ite_none_right_eq_some, Option.some.injEq] at hvalue
  exact if_neg (by omega)

/-- The scan stops at the first value out of range, which no further digit brings back. -/
theorem scanDigits_eq (text : PhpString) {n : Nat} (h : (n : Int) ≤ i64Max) : scanDigits n text =
    if (accumulate n (text.takeWhile isAsciiDigit) : Int) ≤ i64Max then
      some (accumulate n (text.takeWhile isAsciiDigit) : Int) else none := by
  induction text generalizing n with
  | nil => simp [scanDigits, accumulate, h]
  | cons byte rest ih =>
    rw [scanDigits]
    cases hdigit : isAsciiDigit byte with
    | false => simp [hdigit, accumulate, h]
    | true =>
      have htake : accumulate n ((byte :: rest).takeWhile isAsciiDigit) =
          accumulate (n * 10 + (byte.toNat - 48)) (rest.takeWhile isAsciiDigit) := by
        rw [List.takeWhile_cons_of_pos hdigit]
        rfl
      have hle := le_accumulate (n * 10 + (byte.toNat - 48)) (rest.takeWhile isAsciiDigit)
      rw [htake, if_pos rfl, checkedDigit_eq]
      by_cases hnext : ((n * 10 + (byte.toNat - 48) : Nat) : Int) ≤ i64Max
      · rw [if_pos hnext]
        exact ih hnext
      · rw [if_neg hnext, if_neg (by omega)]

theorem irConstantBytesToInt_eq (bytes : PhpString) :
    irConstantBytesToInt bytes = saturateI64 (leadingInteger (bytes.dropWhile isAsciiWhitespace)) := by
  have hmax : i64Max = 9223372036854775807 := rfl
  have hmin : i64Min = -9223372036854775808 := rfl
  have hscan : scanDigits 0 (splitSign (bytes.dropWhile isAsciiWhitespace)).2 = _ :=
    scanDigits_eq (splitSign (bytes.dropWhile isAsciiWhitespace)).2 (n := 0) (by decide)
  rw [irConstantBytesToInt, leadingInteger]
  simp only [hscan, show accumulate 0 = digitsValue from rfl]
  generalize digitsValue ((splitSign (bytes.dropWhile isAsciiWhitespace)).2.takeWhile isAsciiDigit) = magnitude
  by_cases hrange : (magnitude : Int) ≤ i64Max
  · have hneg : checkedI64 (-(magnitude : Int)) = some (-(magnitude : Int)) := if_pos (by omega)
    simp only [if_pos hrange, hneg, getD_some]
    rw [saturateI64_of_mem] <;> split <;> omega
  · simp only [if_neg hrange, saturateI64, clampTo]
    split <;> omega

/-! ## The runtime -/

variable (floats : RuntimeFloats F)

/-- A number without point and exponent is the integer in front. -/
theorem integerValue_of_numericPrefixLen (h : numericPrefixLen text = some length)
    (hfloat : looksFloat (text.take length) = false) :
    isInteger (text.take length) = true ∧ integerValue (text.take length) = leadingInteger text := by
  obtain ⟨number, hnumber, htake, hsplit⟩ := take_numericPrefixLen h
  have hdigits : looksFloat number = false := by
    rw [htake, looksFloat, List.any_append, Bool.or_eq_false_iff] at hfloat
    exact hfloat.2
  obtain ⟨hwhole, hne⟩ := digits_of_numberText hnumber hdigits
  have hall : number.all isAsciiDigit = true := by
    rw [hwhole]
    exact List.all_takeWhile
  refine ⟨?_, ?_⟩
  · simp [isInteger, hsplit, hne, hall]
  · rw [integerValue, hsplit, leadingInteger, ← hwhole]
    rfl

/-- The whole part of the number in front of a text, read as a double if it has a point or an exponent. -/
def leadingNumber (text : PhpString) : Int :=
  match numericPrefixLen text with
  | some length => if looksFloat (text.take length) then truncatedDecimal (text.take length) else leadingInteger text
  | none => leadingInteger text

theorem leadingInteger_of_numericPrefixLen_none (h : numericPrefixLen text = none) : leadingInteger text = 0 := by
  rw [numericPrefixLen_eq, map_eq_none_iff] at h
  rw [leadingInteger, digits_of_numberText_none h]
  split <;> rfl

/-- An integer that does not fit is read as a double, which saturates as the integer does. -/
theorem toI64_numberValue (h : numericPrefixLen text = some length) :
    Convert.Value.numericToI64 floats (numberValue floats.toParsedFloats (text.take length)) =
      saturateI64 (leadingNumber text) := by
  have hdecimal := isDecimal_take_numericPrefixLen h
  simp only [leadingNumber, h, numberValue]
  cases hfloat : looksFloat (text.take length) with
  | true => simp [Convert.Value.numericToI64, floats.truncate_ofDecimal _ hdecimal]
  | false =>
    obtain ⟨hinteger, hvalue⟩ := integerValue_of_numericPrefixLen h hfloat
    cases hlong : isLong (text.take length) with
    | true =>
      simp only [isLong, Bool.and_eq_true, decide_eq_true_eq] at hlong
      simp only [and_self, if_true, Convert.Value.numericToI64, Bool.false_eq_true, if_false]
      rw [saturateI64_of_mem (hvalue ▸ hlong.1.2) (hvalue ▸ hlong.2), hvalue]
    | false =>
      have hrange : integerValue (text.take length) < i64Min ∨ i64Max < integerValue (text.take length) := by
        simp only [isLong, hinteger, Bool.true_and, Bool.and_eq_false_iff, decide_eq_false_iff_not] at hlong
        omega
      simp only [Bool.false_eq_true, and_false, if_false, Convert.Value.numericToI64]
      rw [floats.truncate_ofDecimal _ hdecimal, truncatedDecimal_of_isInteger hinteger,
        saturateI64_roundInteger hrange, hvalue]

section
variable (bytes : PhpString)

theorem toInt_string :
    (Convert.Value.string bytes).toInt floats = .ok (saturateI64 (leadingNumber (bytes.dropWhile isAsciiWhitespace))) := by
  rw [Convert.Value.toInt]
  rcases classify_cases floats.toParsedFloats bytes with ⟨hnone, hclassify⟩ | ⟨length, hsome, hvalue, -⟩
  · rw [hclassify, leadingNumber, hnone]
    simp only [leadingInteger_of_numericPrefixLen_none hnone]
    rfl
  · rw [hvalue, map_some, getD_some, toI64_numberValue floats hsome]

/-! ## Agreement -/

/-- A number with a point or an exponent is read as a double whose whole part is the integer in front. -/
def WholePartInFront : Prop :=
  ∀ length, numericPrefixLen (bytes.dropWhile isAsciiWhitespace) = some length →
    looksFloat ((bytes.dropWhile isAsciiWhitespace).take length) = true →
    saturateI64 (truncatedDecimal ((bytes.dropWhile isAsciiWhitespace).take length)) =
      saturateI64 (leadingInteger (bytes.dropWhile isAsciiWhitespace))

theorem leadingNumber_eq_iff :
    irConstantBytesToInt bytes = saturateI64 (leadingNumber (bytes.dropWhile isAsciiWhitespace)) ↔
      WholePartInFront bytes := by
  rw [irConstantBytesToInt_eq, leadingNumber, WholePartInFront]
  cases numericPrefixLen (bytes.dropWhile isAsciiWhitespace) with
  | none => simp
  | some length =>
    cases hfloat : looksFloat ((bytes.dropWhile isAsciiWhitespace).take length) with
    | true =>
      simp only [hfloat, if_true]
      constructor
      · rintro h _ ⟨rfl⟩ -
        exact h.symm
      · exact fun h => (h length rfl hfloat).symm
    | false => simp [hfloat]

theorem bytesOf_injective (h : bytesOf left = bytesOf right) : left = right := by
  have hdata : left.toUTF8.data = right.toUTF8.data := Array.toList_inj.mp h
  exact String.toByteArray_inj.mp (ByteArray.ext hdata)

def IrConstant.IntCastExact : IrConstant → Prop
  | .string text => WholePartInFront (bytesOf text)
  | .stringBytes bytes => WholePartInFront bytes
  | _ => True

def IrConstant.StringCastExact : IrConstant → Prop
  | .stringBytes bytes => ∃ text, bytesOf text = bytes
  | _ => True

/-- Casts to booleans agree. A cast to an integer agrees if the number in front of a string is an integer, or
its double has the whole part that is written in front; a cast to a string if the bytes are UTF-8. -/
theorem constantCasts_agree_iff (constantFloats : FloatOps F64) {fromUtf8Lossy : PhpString → String}
    (hlossy : ∀ text, fromUtf8Lossy (bytesOf text) = text) (floatToString : F64 → String) (constant : IrConstant)
    {value : Convert.Value F} (hvalue : constant.runtimeValue = some value) :
    (∃ result, irConstantTruthy constantFloats constant = some result ∧ value.toBool floats = .ok result) ∧
    ((∃ result, irConstantToInt constantFloats constant = some result ∧ value.toInt floats = .ok result) ↔
      constant.IntCastExact) ∧
    ((∃ result, irConstantToString fromUtf8Lossy floatToString constant = some result ∧
      value.toString floats = .ok (bytesOf result)) ↔ constant.StringCastExact) := by
  have hint (bytes : PhpString) : (∃ result, some (irConstantBytesToInt bytes) = some result ∧
      (Convert.Value.string bytes).toInt floats = .ok result) ↔ WholePartInFront bytes := by
    rw [toInt_string, ← leadingNumber_eq_iff]
    constructor
    · rintro ⟨result, ⟨rfl⟩, h⟩
      exact (Except.ok.inj h).symm
    · exact fun h => ⟨_, rfl, by rw [h]⟩
  cases constant with
  | null | int =>
    cases hvalue
    exact ⟨⟨_, rfl, rfl⟩, ⟨fun _ => trivial, fun _ => ⟨_, rfl, rfl⟩⟩, ⟨fun _ => trivial, fun _ => ⟨_, rfl, rfl⟩⟩⟩
  | bool value =>
    cases hvalue
    cases value
    all_goals
      exact ⟨⟨_, rfl, rfl⟩, ⟨fun _ => trivial, fun _ => ⟨_, rfl, rfl⟩⟩, ⟨fun _ => trivial, fun _ => ⟨_, rfl, rfl⟩⟩⟩
  | string text =>
    cases hvalue
    refine ⟨⟨_, rfl, ?_⟩, hint (bytesOf text), ⟨fun _ => trivial, fun _ => ⟨_, rfl, rfl⟩⟩⟩
    have hempty : bytesOf text = [] ↔ text = "" := ⟨fun h => bytesOf_injective h, fun h => by rw [h]; rfl⟩
    have hzero : bytesOf text = [48] ↔ text = "0" := ⟨fun h => bytesOf_injective h, fun h => by rw [h]; rfl⟩
    simp [Convert.Value.toBool, hempty, hzero]
  | stringBytes bytes =>
    cases hvalue
    refine ⟨⟨_, rfl, rfl⟩, hint bytes, ?_, ?_⟩
    · rintro ⟨result, -, h⟩
      exact ⟨result, (Except.ok.inj h).symm⟩
    · rintro ⟨text, rfl⟩
      exact ⟨_, rfl, by rw [hlossy]; rfl⟩
  | float | array | namedConstant | classConstant => cases hvalue

/-- A conversion that has one text for all bytes that are not UTF-8. -/
def replaceUtf8 : String :=
  if h : (ByteArray.mk bytes.toArray).IsValidUTF8 then String.fromUTF8 ⟨bytes.toArray⟩ h else "\uFFFD"

end

theorem replaceUtf8_bytesOf (text : String) : replaceUtf8 (bytesOf text) = text := by
  have hbytes : ByteArray.mk (bytesOf text).toArray = text.toUTF8 := rfl
  rw [replaceUtf8, dif_pos (hbytes ▸ text.isValidUTF8)]
  exact String.toByteArray_inj.mp hbytes

/-- The floats of the constants, as far as their zeros and NaNs. -/
def constantZeros : FloatOps F64 where
  ofInt value := ⟨if value = 0 then 0 else 1⟩
  ofDecimal text := ⟨if isLong text && !isNegativeZero text then (if integerValue text = 0 then 0 else 1) else 2⟩
  ofWord _ := ⟨2⟩
  toLong _ := none
  truncate _ := 0
  display _ := []
  nonzero value := !value.isZero
  ofDecimal_long text hlong hzero := by simp [hlong, hzero]

/-- The string ` -12abc` is the same integer for both. -/
theorem constantCasts_leading :
    ∃ result, irConstantToInt constantZeros (.stringBytes [32, 45, 49, 50, 97, 98, 99]) = some result ∧
      (Convert.Value.string [32, 45, 49, 50, 97, 98, 99]).toInt wholeDoubles = .ok result := by
  refine (constantCasts_agree_iff wholeDoubles constantZeros replaceUtf8_bytesOf (fun _ => "")
    (.stringBytes [32, 45, 49, 50, 97, 98, 99]) rfl).2.1.mpr fun length hlength hfloat => ?_
  -- the number ends in front of the letters
  cases hlength
  cases hfloat

/-- The string `1e3` is 1 for the lowering and 1000 at run time, and no text has the byte 255. -/
theorem constantCasts_exponent : irConstantToInt constantZeros (.stringBytes [49, 101, 51]) = some 1 ∧
      (Convert.Value.string [49, 101, 51]).toInt wholeDoubles = .ok 1000 ∧
      (∀ result, irConstantToString replaceUtf8 (fun _ => "") (.stringBytes [255]) = some result →
        (Convert.Value.string [255]).toString wholeDoubles ≠ .ok (bytesOf result)) := by
  refine ⟨by decide, by rfl, fun result _ h => ?_⟩
  have hbytes : result.toUTF8 = ⟨#[255]⟩ := ByteArray.ext (Array.toList_inj.mp (Except.ok.inj h).symm)
  have hvalid : (ByteArray.mk #[255]).IsValidUTF8 := hbytes ▸ result.isValidUTF8
  exact absurd (hvalid.isUTF8FirstByte_getElem_zero (by decide)) (by decide)

end Phrust.Ir
