import Phrust.Runtime.Comparison
import Phrust.Runtime.Integers

/-!
# Doubles

What the arithmetic of the runtime needs of its floats. Integers and decimal texts become the nearest
double, a tie goes to the even one, and `as i64` drops the fraction and saturates.
-/

namespace Phrust

/-- `value as f64 as i64` -/
def throughDouble (value : Int) : Int := saturateI64 (roundInteger 53 value)

/-! ## Decimal texts -/

/-- The digits in front of the point, those behind it, and the exponent. -/
def decimalParts (text : PhpString) : PhpString × PhpString × Int :=
  let body := (splitSign text).2
  let (fraction, marked) := match body.dropWhile isAsciiDigit with
    | 46 :: rest => (rest.takeWhile isAsciiDigit, rest.dropWhile isAsciiDigit)
    | rest => ([], rest)
  (body.takeWhile isAsciiDigit, fraction, match marked with | [] => 0 | _ :: exponent => integerValue exponent)

/-- The whole part of the double nearest to the number a decimal text denotes. -/
def truncatedDecimal (text : PhpString) : Int :=
  let (whole, fraction, exponent) := decimalParts text
  let digits := (integerValue (whole ++ fraction)).toNat
  let scale := exponent - fraction.length
  let magnitude : Nat :=
    if 0 ≤ scale then truncatedRatio 53 (digits * 10 ^ scale.toNat) 1
    else truncatedRatio 53 digits (10 ^ (-scale).toNat)
  if (splitSign text).1 then -magnitude else magnitude

/-! ## Arithmetic -/

/-- The floats with their arithmetic. -/
structure RuntimeFloats (F : Type) extends ComparedFloats F where
  add : F → F → F
  sub : F → F → F
  mul : F → F → F
  div : F → F → F
  powf : F → F → F
  phpFloatToInt : F → Int
  nonzero_ofInt : ∀ value, nonzero (ofInt value) = decide (value ≠ 0)
  truncate_ofInt : ∀ value, truncate (ofInt value) = throughDouble value
  truncate_ofDecimal : ∀ text, isDecimal text = true →
    truncate (ofDecimal text) = saturateI64 (truncatedDecimal text)

end Phrust
