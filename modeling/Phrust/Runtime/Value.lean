import Phrust.Runtime.Doubles
import Phrust.Semantics.Names

/-!
# Runtime values and their conversions

`Value` and the scalar conversions of `convert.rs`. An array is its pairs in order, a handle of the
runtime is a number, and a reference is the number of its cell with what the cell holds.
-/

namespace Phrust.Convert

inductive Value (F : Type) where
  | null
  | bool (value : Bool)
  | int (value : Int)
  | float (value : F)
  | string (bytes : PhpString)
  | uninitialized
  | array (entries : List (ArrayKey × Value F))
  | object (id : Nat)
  | resource (id : Nat)
  | fiber (id : Nat)
  | generator (id : Nat)
  /-- Callables that are equal for the runtime have the same number. -/
  | callable (id : Nat)
  | reference (cell : Nat) (value : Value F)

namespace Value
variable (floats : RuntimeFloats F)

def effectiveValue : Value F → Value F
  | .reference _ value => effectiveValue value
  | value => value

def toBool : Value F → Except String Bool
  | .null => .ok false
  | .bool value => .ok value
  | .int value => .ok (value ≠ 0)
  | .float value => .ok (floats.nonzero value)
  | .string bytes => .ok (bytes ≠ [] ∧ bytes ≠ [48])
  | .uninitialized => .error "cannot convert uninitialized value to bool"
  | .array entries => .ok !entries.isEmpty
  | .object _ | .resource _ | .fiber _ | .generator _ => .ok true
  | .callable _ => .error "callable truthiness is not implemented"
  | .reference _ value => toBool value

def toString : Value F → Except String PhpString
  | .null | .bool false => .ok []
  | .bool true => .ok [49]
  | .int value => .ok (integerText value)
  | .float value => .ok (floats.text value)
  | .string bytes => .ok bytes
  | .uninitialized => .error "cannot convert uninitialized value to string"
  | .array _ =>
    .error "E_PHP_RUNTIME_ARRAY_TO_STRING_GAP: array to string conversion is not implemented"
  | .object _ | .fiber _ | .generator _ =>
    .error "E_PHP_RUNTIME_OBJECT_TO_STRING_GAP: object __toString conversion is not implemented"
  | .resource id => .ok (bytesOf "Resource id #" ++ integerText id)
  | .callable _ => .error "callable to string conversion is not implemented"
  | .reference _ value => toString value

def numericToI64 : NumericStringValue F → Int
  | .int value => value
  | .float value => floats.truncate value

def toInt : Value F → Except String Int
  | .null | .bool false => .ok 0
  | .bool true => .ok 1
  | .int value => .ok value
  | .float value => .ok (floats.phpFloatToInt value)
  | .string bytes => .ok (((classify floats.toParsedFloats bytes).value.map (numericToI64 floats)).getD 0)
  | .uninitialized => .error "cannot convert uninitialized value to int"
  | .array entries => .ok (if entries.isEmpty then 0 else 1)
  | .object _ | .fiber _ | .generator _ =>
    .error "E_PHP_RUNTIME_OBJECT_NUMERIC_CONVERSION_GAP: object to int conversion is not implemented"
  | .resource id => .ok (wrapI64 id)
  | .callable _ => .error "callable to int conversion is not implemented"
  | .reference _ value => toInt value

def arithmeticNumericString (bytes : PhpString) : Except String (NumericValue F) :=
  let classified := classify floats.toParsedFloats bytes
  match classified.kind, classified.value with
  | .intString, some value | .floatString, some value | .leadingNumeric, some value => .ok value
  | _, _ => .error "E_PHP_RUNTIME_NON_NUMERIC_STRING: non-numeric string cannot be used as a number"

def toNumber : Value F → Except String (NumericValue F)
  | .null | .bool false => .ok (.int 0)
  | .bool true => .ok (.int 1)
  | .int value => .ok (.int value)
  | .float value => .ok (.float value)
  | .string bytes => arithmeticNumericString floats bytes
  | .uninitialized => .error "cannot convert uninitialized value to number"
  | .array _ => .error "array to number conversion is not implemented"
  | .object _ | .fiber _ | .generator _ =>
    .error "E_PHP_RUNTIME_OBJECT_NUMERIC_CONVERSION_GAP: object to number conversion is not implemented"
  | .resource id => .ok (.int (wrapI64 id))
  | .callable _ => .error "callable to number conversion is not implemented"
  | .reference _ value => toNumber value

/-- `PhpArray::get` -/
def lookup (entries : List (ArrayKey × Value F)) (key : ArrayKey) : Option (Value F) :=
  (entries.find? (·.1 = key)).map Prod.snd

end Value
end Phrust.Convert
