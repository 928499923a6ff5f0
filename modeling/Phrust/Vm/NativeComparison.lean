import Phrust.Vm.DirectValues

/-!
# Native comparison

`native_values_identical`, `native_values_equal` and `native_values_compare` walk the direct value plane.
The stack of array pairs that are being compared is an argument, since every call leaves it as it was; the
flag `unordered` is part of the result. A pair on the stack is not compared again, so a comparison is
nested at most as deep as there are pairs of slots. Comparison of objects is left open.
-/

namespace Phrust

/-- `native_objects_equal` and `native_objects_compare`, by the identities of the objects. -/
structure ObjectComparison where
  equal : Nat → Nat → Option Bool
  compare : Nat → Nat → Option Ordering × Bool

namespace NativeComparisonValue
variable (floats : ComparedFloats F)

def truthy : NativeComparisonValue F → Bool
  | .null | .bool false => false
  | .bool true => true
  | .int value => value ≠ 0
  | .float value => floats.nonzero value
  | .string bytes => bytes ≠ [] ∧ bytes ≠ [48]
  | .array _ entries => entries ≠ []
  | .object _ | .opaqueIdentity _ | .resource _ => true

/-- `NativeComparisonNumber` -/
abbrev Number := NumericStringValue

def numericString (bytes : PhpString) : Option (Number F) :=
  let classified := classify floats.toParsedFloats bytes
  if classified.kind = .intString ∨ classified.kind = .floatString then classified.value else none

def asF64 : Number F → F
  | .int value => floats.ofInt value
  | .float value => value

def numbersOrder (left right : Number F) : Ordering :=
  match left, right with
  | .int left, .int right => compare left right
  | left, right =>
    let left := asF64 floats left
    let right := asF64 floats right
    if floats.isNan left ∨ floats.isNan right then .gt else (floats.partialCmp left right).getD .gt

def numberBytes : Number F → PhpString
  | .int value => integerText value
  | .float value => floats.text value

def stringNumberOrder (bytes : PhpString) (number : Number F) : Ordering :=
  match numericString floats bytes with
  | some value => numbersOrder floats value number
  | none => compare bytes (numberBytes floats number)

def numberStringOrder (number : Number F) (bytes : PhpString) : Ordering :=
  match numericString floats bytes with
  | some value => numbersOrder floats number value
  | none => compare (numberBytes floats number) bytes

def valuesOrder : NativeComparisonValue F → NativeComparisonValue F → Option Ordering
  | .bool left, right => some (compare left (truthy floats right))
  | left, .bool right => some (compare (truthy floats left) right)
  | .null, .string right => some (compare [] right)
  | .string left, .null => some (compare left [])
  | .null, right => some (compare false (truthy floats right))
  | left, .null => some (compare (truthy floats left) false)
  | .int left, .int right => some (compare left right)
  | .int left, .float right => some (numbersOrder floats (.int left) (.float right))
  | .float left, .int right => some (numbersOrder floats (.float left) (.int right))
  | .float left, .float right => some (numbersOrder floats (.float left) (.float right))
  | .string left, .string right =>
    match numericString floats left, numericString floats right with
    | some left, some right => some (numbersOrder floats left right)
    | _, _ => some (compare left right)
  | .string bytes, .int number => some (stringNumberOrder floats bytes (.int number))
  | .string bytes, .float number => some (stringNumberOrder floats bytes (.float number))
  | .int number, .string bytes => some (numberStringOrder floats (.int number) bytes)
  | .float number, .string bytes => some (numberStringOrder floats (.float number) bytes)
  | _, _ => none

def isNan : NativeComparisonValue F → Bool
  | .float value => floats.isNan value
  | _ => false

end NativeComparisonValue

namespace DirectPlane
variable (plane : DirectPlane F) (floats : ComparedFloats F) (objects : ObjectComparison)
variable (left right : Int)

def nativeCompareArrayKeys : Option Ordering := do
  match ← plane.nativeComparisonValue left, ← plane.nativeComparisonValue right with
  | .int left, .int right => some (compare left right)
  | .string left, .string right => some (compare left right)
  | .int _, .string _ => some .lt
  | .string _, .int _ => some .gt
  | _, _ => none

def findEntry (entries : List DirectArrayEntry) (key : Int) : Option DirectArrayEntry :=
  entries.find? fun entry => plane.nativeCompareArrayKeys key entry.key = some .eq

/-- The pairs of array slots that are being compared. -/
abbrev ArrayPairs := List (Nat × Nat)

/-! ## Identity -/

def entriesIdentical (identical : Int → Int → Option Bool) :
    List DirectArrayEntry → List DirectArrayEntry → Option Bool
  | left :: lefts, right :: rights =>
    if plane.nativeCompareArrayKeys left.key right.key ≠ some .eq then some false
    else
      match identical left.value right.value with
      | some true => entriesIdentical identical lefts rights
      | result => result
  | _, _ => some true

def valuesIdenticalFrom : Nat → ArrayPairs → Int → Int → Option Bool
  | 0, _, _, _ => none
  | fuel + 1, arrays, left, right => do
    match ← plane.nativeComparisonValue left, ← plane.nativeComparisonValue right with
    | .null, .null => some true
    | .bool left, .bool right => some (left = right)
    | .int left, .int right => some (left = right)
    | .float left, .float right => some (floats.eq left right)
    | .string left, .string right => some (left = right)
    | .array leftIdentity left, .array rightIdentity right =>
      if leftIdentity = rightIdentity then some true
      else if left.length ≠ right.length then some false
      else if (leftIdentity, rightIdentity) ∈ arrays then none
      else plane.entriesIdentical (valuesIdenticalFrom fuel ((leftIdentity, rightIdentity) :: arrays)) left right
    | .object left, .object right => some (left = right)
    | .opaqueIdentity left, .opaqueIdentity right => some (left = right)
    | .resource left, .resource right => some (left = right)
    | _, _ => some false

/-! ## Ordering -/

def entriesCompare (compareValues : Int → Int → Option Ordering × Bool) (first : Option DirectArrayEntry)
    (rights : List DirectArrayEntry) : List DirectArrayEntry → Option Ordering × Bool
  | [] => (some .eq, false)
  | left :: lefts =>
    match plane.findEntry rights left.key with
    | none => (first.bind fun right => plane.nativeCompareArrayKeys left.key right.key, false)
    | some right =>
      match compareValues left.value right.value with
      | (some .eq, unordered) =>
        let (result, unordered') := entriesCompare compareValues first rights lefts
        (result, unordered || unordered')
      | result => result

def valuesCompareFrom : Nat → ArrayPairs → Int → Int → Option Ordering × Bool
  | 0, _, _, _ => (none, false)
  | fuel + 1, arrays, left, right =>
    match plane.nativeComparisonValue left, plane.nativeComparisonValue right with
    | some left, some right =>
      match left, right with
      | .bool left, right => (some (compare left (right.truthy floats)), false)
      | left, .bool right => (some (compare (left.truthy floats) right), false)
      | .null, .string right => (some (compare [] right), false)
      | .string left, .null => (some (compare left []), false)
      | .null, right => (some (compare false (right.truthy floats)), false)
      | left, .null => (some (compare (left.truthy floats) false), false)
      | .array leftIdentity left, .array rightIdentity right =>
        if leftIdentity = rightIdentity then (some .eq, false)
        else if left.length ≠ right.length then (some (compare left.length right.length), false)
        else if (leftIdentity, rightIdentity) ∈ arrays then (none, false)
        else
          plane.entriesCompare (valuesCompareFrom fuel ((leftIdentity, rightIdentity) :: arrays)) right.head?
            right left
      | .array .., _ => (some .gt, false)
      | _, .array .. => (some .lt, false)
      | .object left, .object right => objects.compare left right
      | .object _, _ => (some .gt, false)
      | _, .object _ => (some .lt, false)
      | .opaqueIdentity left, .opaqueIdentity right =>
        if left = right then (some .eq, false) else (some .gt, true)
      | .opaqueIdentity _, _ | _, .opaqueIdentity _ => (none, false)
      | .resource left, .resource right => (some (compare left right), false)
      | .resource _, _ => (some .gt, false)
      | _, .resource _ => (some .lt, false)
      | left, right => (left.valuesOrder floats right, left.isNan floats || right.isNan floats)
    | _, _ => (none, false)

/-! ## Equality -/

def entriesEqual (equal : Int → Int → Option Bool) (rights : List DirectArrayEntry) :
    List DirectArrayEntry → Option Bool
  | [] => some true
  | left :: lefts =>
    match plane.findEntry rights left.key with
    | none => some false
    | some right =>
      match equal left.value right.value with
      | some true => entriesEqual equal rights lefts
      | result => result

def valuesEqualFrom : Nat → ArrayPairs → Int → Int → Option Bool
  | 0, _, _, _ => none
  | fuel + 1, arrays, leftEncoded, rightEncoded => do
    match ← plane.nativeComparisonValue leftEncoded, ← plane.nativeComparisonValue rightEncoded with
    | .bool _, _ | .null, _ | _, .bool _ | _, .null =>
      (plane.valuesCompareFrom floats objects (fuel + 1) arrays leftEncoded rightEncoded).1.map (· = .eq)
    | .array leftIdentity left, .array rightIdentity right =>
      if leftIdentity = rightIdentity then some true
      else if left.length ≠ right.length then some false
      else if (leftIdentity, rightIdentity) ∈ arrays then none
      else plane.entriesEqual (valuesEqualFrom fuel ((leftIdentity, rightIdentity) :: arrays)) right left
    | .array .., _ | _, .array .. => some false
    | .object left, .object right => objects.equal left right
    | .resource left, .resource right => some (left = right)
    | .object _, _ | _, .object _ | .resource _, _ | _, .resource _ => some false
    | .opaqueIdentity left, .opaqueIdentity right => some (left = right)
    | .opaqueIdentity _, _ | _, .opaqueIdentity _ => some false
    | left, right => (left.valuesOrder floats right).map (· = .eq)

/-! ## Operators -/

/-- More than the number of pairs of slots. -/
def comparisonDepth : Nat := plane.slots.length * plane.slots.length + 2

def nativeValuesIdentical : Option Bool :=
  plane.valuesIdenticalFrom floats plane.comparisonDepth [] left right

def nativeValuesEqual : Option Bool :=
  plane.valuesEqualFrom floats objects plane.comparisonDepth [] left right

/-- With the flag of the traversal. -/
def nativeValuesCompare : Option Ordering × Bool :=
  plane.valuesCompareFrom floats objects plane.comparisonDepth [] left right

end DirectPlane

/-- `NativeCompareOp` without `Spaceship` -/
inductive ComparisonOperator where
  | identical
  | notIdentical
  | equal
  | notEqual
  | less
  | lessEqual
  | greater
  | greaterEqual
  deriving DecidableEq

namespace DirectPlane
variable (plane : DirectPlane F) (floats : ComparedFloats F) (objects : ObjectComparison)

/-- `jit_native_identical_abi` and its siblings -/
def nativeOperator (left right : Int) : ComparisonOperator → Option Bool
  | .identical => plane.nativeValuesIdentical floats left right
  | .notIdentical => (plane.nativeValuesIdentical floats left right).map not
  | .equal => plane.nativeValuesEqual floats objects left right
  | .notEqual => (plane.nativeValuesEqual floats objects left right).map not
  | .less => ordered Ordering.isLT
  | .lessEqual => ordered fun ordering => !ordering.isGT
  | .greater => ordered Ordering.isGT
  | .greaterEqual => ordered fun ordering => !ordering.isLT
where
  ordered (holds : Ordering → Bool) : Option Bool :=
    let (ordering, unordered) := plane.nativeValuesCompare floats objects left right
    ordering.map fun ordering => !unordered && holds ordering

end DirectPlane

def PlainValue.baselineCompare (floats : ComparedFloats F) (left right : PlainValue F) :
    ComparisonOperator → Except String Bool
  | .identical => .ok (left.identical floats right)
  | .notIdentical => .ok !left.identical floats right
  | .equal => left.equal floats right
  | .notEqual => (left.equal floats right).map not
  | .less => (left.compare_ floats right).map Ordering.isLT
  | .lessEqual => (left.compare_ floats right).map fun ordering => !ordering.isGT
  | .greater =>
    if left.numericComparisonIsUnordered floats right then .ok false
    else (left.compare_ floats right).map Ordering.isGT
  | .greaterEqual =>
    if left.numericComparisonIsUnordered floats right then .ok false
    else (left.compare_ floats right).map fun ordering => !ordering.isLT

end Phrust
