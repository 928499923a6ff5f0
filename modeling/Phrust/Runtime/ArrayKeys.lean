import Phrust.Runtime.NumericString

/-!
# Keys of arrays

How strings become keys: `array_key_integer_bytes`, and `ArrayKey::from_php_string` through the cache of
classifications.
-/

namespace Phrust.ArrayKeys

def arrayKeyIntegerBytes (ops : ParsedFloats F) (value : PhpString) : Option Int :=
  if startsLikeInteger value then
    match (classify ops value).canonical, (classify ops value).value with
    | .integer, some (.int value) => some value
    | _, _ => none
  else none

def fromPhpString (ops : ParsedFloats F) (machine : StringMachine F) (value : StoredString) : ArrayKey :=
  match (machine.classifyArrayKey ops value).1 with
  | .integer key => .int key
  | .string => .string value.bytes

end Phrust.ArrayKeys
