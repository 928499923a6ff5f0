import Phrust.Ir.Unit
import Phrust.Runtime.Integers
import Phrust.Runtime.NumericString
import Phrust.Semantics.Names

/-!
# Constant expressions

How the lowering computes operators and casts of constants: `binary_ir_constant` and the `ir_constant_*`
casts of `lower/mod.rs`.
-/

namespace Phrust.Ir

def binaryIrConstant (operator : String) (left right : IrConstant) : Option IrConstant :=
  if operator = "??" then
    match left with
    | .null => some right
    | left => some left
  else
    match operator, left, right with
    | "+", .int left, .int right => (checkedI64 (left + right)).map .int
    | "-", .int left, .int right => (checkedI64 (left - right)).map .int
    | "*", .int left, .int right => (checkedI64 (left * right)).map .int
    | "&", .int left, .int right => some (.int (bitwiseI64 (· &&& ·) left right))
    | "|", .int left, .int right => some (.int (bitwiseI64 (· ||| ·) left right))
    | "^", .int left, .int right => some (.int (bitwiseI64 (· ^^^ ·) left right))
    | "<<", .int left, .int right => ((u32TryFrom right).bind (checkedShl left)).map .int
    | ">>", .int left, .int right => ((u32TryFrom right).bind (checkedShr left)).map .int
    | ".", .string left, .string right => some (.string (left ++ right))
    | ".", .stringBytes left, .stringBytes right => some (.stringBytes (left ++ right))
    | _, _, _ => none

/-! ## Casts -/

/-- The digits in front, until the accumulator leaves the 64-bit range. -/
def scanDigits (value : Int) : PhpString → Option Int
  | [] => some value
  | byte :: rest =>
    if isAsciiDigit byte then
      match (checkedI64 (value * 10)).bind fun value => checkedI64 (value + (byte.toNat - 48 : Nat)) with
      | some next => scanDigits next rest
      | none => none
    else some value

def irConstantBytesToInt (bytes : PhpString) : Int :=
  let (negative, digits) := splitSign (bytes.dropWhile isAsciiWhitespace)
  match scanDigits 0 digits with
  | none => if negative then i64Min else i64Max
  | some value =>
    -- no digit leaves the accumulator at zero
    if negative then (checkedI64 (-value)).getD i64Min else value

section
variable (floats : FloatOps F64) (fromUtf8Lossy : PhpString → String)

def irConstantTruthy : IrConstant → Option Bool
  | .null => some false
  | .bool value => some value
  | .int value => some (value ≠ 0)
  | .float value => some (floats.nonzero value && !value.isNan)
  | .string value => some (value ≠ "" ∧ value ≠ "0")
  | .stringBytes value => some (value ≠ [] ∧ value ≠ [48])
  | .array entries => some !entries.isEmpty
  | .namedConstant _ | .classConstant _ _ _ => none

def irConstantToInt : IrConstant → Option Int
  | .null => some 0
  | .bool value => some value.toNat
  | .int value => some value
  | .float value => some (floats.truncate value)
  | .string value => some (irConstantBytesToInt (bytesOf value))
  | .stringBytes value => some (irConstantBytesToInt value)
  | .array entries => some (!entries.isEmpty).toNat
  | .namedConstant _ | .classConstant _ _ _ => none

/-- `floatToString` is `to_string` of a float. -/
def irConstantToString (floatToString : F64 → String) : IrConstant → Option String
  | .null => some ""
  | .bool value => some (if value then "1" else "")
  | .int value => some (toString value)
  | .float value => some (floatToString value)
  | .string value => some value
  | .stringBytes value => some (fromUtf8Lossy value)
  | .array _ | .namedConstant _ | .classConstant _ _ _ => none

end
end Phrust.Ir
