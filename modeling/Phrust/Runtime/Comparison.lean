import Phrust.Runtime.NumericString

/-!
# Comparison of runtime values

Strict identity, loose equality and loose ordering on values without objects, callables and references.
`Err` is an error of `Except`.
-/

namespace Phrust

/-- What comparisons and formatting need of the floats. -/
structure ComparedFloats (F : Type) extends ParsedFloats F where
  isNan : F → Bool
  /-- `left == right` and `left.partial_cmp(&right)` -/
  eq : F → F → Bool
  partialCmp : F → F → Option Ordering
  /-- `float_to_php_string` -/
  text : F → PhpString
  eq_iff : ∀ left right, eq left right = true ↔ partialCmp left right = some .eq
  partialCmp_isSome : ∀ left right, (partialCmp left right).isSome ↔ isNan left = false ∧ isNan right = false
  partialCmp_self : ∀ number, isNan number = false → partialCmp number number = some .eq
  /-- Only words denote NaN. -/
  ofDecimal_isNan : ∀ text, isNan (ofDecimal text) = false
  ofInt_isNan : ∀ value, isNan (ofInt value) = false
  text_nan : ∀ number, isNan number = true → text number = [78, 65, 78]

/-- `value.to_string()` of an integer -/
def integerText (value : Int) : PhpString := (toString value).toUTF8.data.toList

/-- A value built from scalars, resources and arrays. -/
inductive PlainValue (F : Type) where
  | null
  | bool (value : Bool)
  | int (value : Int)
  | float (value : F)
  | string (bytes : PhpString)
  | array (entries : List (ArrayKey × PlainValue F))
  | resource (id : Nat)

abbrev NumericValue := NumericStringValue

namespace PlainValue
variable (floats : ComparedFloats F)

/-! ## Scalars -/

def toBool : PlainValue F → Bool
  | .null => false
  | .bool value => value
  | .int value => value ≠ 0
  | .float value => floats.nonzero value
  | .string bytes => bytes ≠ [] ∧ bytes ≠ [48]
  | .array entries => entries ≠ []
  | .resource _ => true

def numberAsF64 : NumericValue F → F
  | .int value => floats.ofInt value
  | .float value => value

def compareNumbers (left right : NumericValue F) : Except String Ordering :=
  match left, right with
  | .int left, .int right => .ok (compare left right)
  | left, right =>
    let left := numberAsF64 floats left
    let right := numberAsF64 floats right
    if floats.isNan left ∨ floats.isNan right then .ok .gt
    else
      match floats.partialCmp left right with
      | some ordering => .ok ordering
      | none => .error "cannot compare NaN numeric values"

def comparisonNumericString (bytes : PhpString) : Option (NumericValue F) :=
  let classified := classify floats.toParsedFloats bytes
  if classified.kind = .intString ∨ classified.kind = .floatString then classified.value else none

/-- A number and a string that is no number. -/
def compareTexts (left right : PhpString) (nan : Bool) : Ordering :=
  if nan then .gt else compare left right

def compareStringNumber (bytes : PhpString) (number : NumericValue F) (text : PhpString) (nan : Bool) :
    Except String Ordering :=
  match comparisonNumericString floats bytes with
  | some value => compareNumbers floats value number
  | none => .ok (compareTexts bytes text nan)

def compareNumberString (number : NumericValue F) (text : PhpString) (nan : Bool) (bytes : PhpString) :
    Except String Ordering :=
  match comparisonNumericString floats bytes with
  | some value => compareNumbers floats number value
  | none => .ok (compareTexts text bytes nan)

def compareArrayKeys : ArrayKey → ArrayKey → Ordering
  | .int left, .int right => compare left right
  | .string left, .string right => compare left right
  | .int _, .string _ => .lt
  | .string _, .int _ => .gt

/-- `PhpArray::get` -/
def lookup (entries : List (ArrayKey × PlainValue F)) (key : ArrayKey) : Option (PlainValue F) :=
  (entries.find? (·.1 = key)).map Prod.snd

/-- A key that the other array does not have is compared with the first one there. -/
def compareMissingKey (key : ArrayKey) : List (ArrayKey × PlainValue F) → Except String Ordering
  | (rightKey, _) :: _ => .ok (compareArrayKeys key rightKey)
  | [] => .error "equal length arrays are not empty when a key is missing"

def numericComparisonIsUnordered : PlainValue F → PlainValue F → Bool
  | .float left, .float right => floats.isNan left || floats.isNan right
  | .float left, .int _ | .float left, .string _ => floats.isNan left
  | .int _, .float right | .string _, .float right => floats.isNan right
  | _, _ => false

/-! ## Identity, ordering, equality -/

mutual

def identical : PlainValue F → PlainValue F → Bool
  | .null, .null => true
  | .bool left, .bool right => left = right
  | .int left, .int right => left = right
  | .float left, .float right => floats.eq left right
  | .string left, .string right => left = right
  | .array left, .array right => left.length = right.length && entriesIdentical left right
  | .resource left, .resource right => left = right
  | _, _ => false

def entriesIdentical : List (ArrayKey × PlainValue F) → List (ArrayKey × PlainValue F) → Bool
  | (leftKey, left) :: lefts, (rightKey, right) :: rights =>
    leftKey = rightKey && identical left right && entriesIdentical lefts rights
  | _, _ => true

end

mutual

def compare_ : PlainValue F → PlainValue F → Except String Ordering
  | .string left, .string right =>
    match comparisonNumericString floats left, comparisonNumericString floats right with
    | some left, some right => compareNumbers floats left right
    | _, _ => .ok (compare left right)
  | .bool left, right => .ok (compare left (toBool floats right))
  | left, .bool right => .ok (compare (toBool floats left) right)
  | .null, .string right => .ok (compare [] right)
  | .string left, .null => .ok (compare left [])
  | .null, right => .ok (compare false (toBool floats right))
  | left, .null => .ok (compare (toBool floats left) false)
  | .int left, .int right => compareNumbers floats (.int left) (.int right)
  | .int left, .float right => compareNumbers floats (.int left) (.float right)
  | .float left, .int right => compareNumbers floats (.float left) (.int right)
  | .float left, .float right => compareNumbers floats (.float left) (.float right)
  | .string bytes, .int number => compareStringNumber floats bytes (.int number) (integerText number) false
  | .string bytes, .float number =>
    compareStringNumber floats bytes (.float number) (floats.text number) (floats.isNan number)
  | .int number, .string bytes => compareNumberString floats (.int number) (integerText number) false bytes
  | .float number, .string bytes =>
    compareNumberString floats (.float number) (floats.text number) (floats.isNan number) bytes
  | .array left, .array right =>
    if left.length = right.length then entriesCompare left right
    else .ok (compare left.length right.length)
  | .array _, _ => .ok .gt
  | _, .array _ => .ok .lt
  | .resource left, .resource right => .ok (compare left right)
  | .resource _, _ => .ok .gt
  | _, .resource _ => .ok .lt

def entriesCompare : List (ArrayKey × PlainValue F) → List (ArrayKey × PlainValue F) → Except String Ordering
  | [], _ => .ok .eq
  | (leftKey, left) :: lefts, rights =>
    match lookup rights leftKey with
    | none => compareMissingKey leftKey rights
    | some right =>
      match compare_ left right with
      | .ok .eq => entriesCompare lefts rights
      | result => result

end

mutual

def equal : PlainValue F → PlainValue F → Except String Bool
  | .bool left, right => (compare_ floats (.bool left) right).map (· = .eq)
  | .null, right => (compare_ floats .null right).map (· = .eq)
  | left, .bool right => (compare_ floats left (.bool right)).map (· = .eq)
  | left, .null => (compare_ floats left .null).map (· = .eq)
  | .array left, .array right =>
    if left.length = right.length then entriesEqual left right else .ok false
  | .array _, _ | _, .array _ => .ok false
  | .resource left, .resource right => .ok (left = right)
  | .resource _, _ | _, .resource _ => .ok false
  | left, right => (compare_ floats left right).map (· = .eq)

def entriesEqual : List (ArrayKey × PlainValue F) → List (ArrayKey × PlainValue F) → Except String Bool
  | [], _ => .ok true
  | (leftKey, left) :: lefts, rights =>
    match lookup rights leftKey with
    | none => .ok false
    | some right =>
      match equal left right with
      | .ok true => entriesEqual lefts rights
      | result => result

end
end PlainValue
end Phrust
