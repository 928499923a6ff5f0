import Phrust.Ir.Instruction

/-!
# Operators on scalars

The operators of the runtime on null, Booleans, integers and strings. What they do on other values, and
where the result is a float or needs a number to be read from a string, is left open.
-/

namespace Phrust
open Ir

inductive RuntimeValue (O : Type) where
  | null
  | bool (value : Bool)
  | int (value : Int)
  | string (bytes : List UInt8)
  | other (value : O)
  deriving DecidableEq

/-- The part of the operators that is left open. An operator may end in a runtime error. -/
structure OpenOperators (O : Type) where
  otherToBool : O → Option Bool
  otherUnary : UnaryOp → RuntimeValue O → Option (RuntimeValue O)
  otherBinary : BinaryOp → RuntimeValue O → RuntimeValue O → Option (RuntimeValue O)
  otherIdentical : RuntimeValue O → RuntimeValue O → Bool
  otherEqual : RuntimeValue O → RuntimeValue O → Option Bool
  otherCompare : RuntimeValue O → RuntimeValue O → Option Ordering
  otherUnordered : RuntimeValue O → RuntimeValue O → Bool

/-- An integer result that fits 64 bits. -/
def checkedI64 (value : Int) : Option Int :=
  if -2 ^ 63 ≤ value ∧ value < 2 ^ 63 then some value else none

namespace OpenOperators
variable {O : Type} (operators : OpenOperators O)

def toBool : RuntimeValue O → Option Bool
  | .null => some false
  | .bool value => some value
  | .int value => some (value != 0)
  | .string bytes => some (!bytes.isEmpty && bytes != [48])
  | .other value => operators.otherToBool value

def baselineUnary (op : UnaryOp) (src : RuntimeValue O) : Option (RuntimeValue O) :=
  match op with
  | .not => (operators.toBool src).map fun value => .bool !value
  | .plus | .minus | .bitNot => operators.otherUnary op src

/-- The checked integer result, or else the float. -/
def checkedNumeric (op : BinaryOp) (lhs rhs : RuntimeValue O) (value : Int) : Option (RuntimeValue O) :=
  match checkedI64 value with
  | some value => some (.int value)
  | none => operators.otherBinary op lhs rhs

def baselineBinary (op : BinaryOp) (lhs rhs : RuntimeValue O) : Option (RuntimeValue O) :=
  match op, lhs, rhs with
  | .concat, .string left, .string right => some (.string (left ++ right))
  | .add, .int left, .int right => operators.checkedNumeric op lhs rhs (left + right)
  | .sub, .int left, .int right => operators.checkedNumeric op lhs rhs (left - right)
  | .mul, .int left, .int right => operators.checkedNumeric op lhs rhs (left * right)
  | _, _, _ => operators.otherBinary op lhs rhs

def identical : RuntimeValue O → RuntimeValue O → Bool
  | .null, .null => true
  | .bool left, .bool right => left == right
  | .int left, .int right => left == right
  | .string left, .string right => left == right
  | .other left, right => operators.otherIdentical (.other left) right
  | left, .other right => operators.otherIdentical left (.other right)
  | _, _ => false

section
variable (lhs rhs : RuntimeValue O)

def compareBool : Option Ordering :=
  (operators.toBool lhs).bind fun left =>
    (operators.toBool rhs).map fun right => Ord.compare left right

def compare : Option Ordering :=
  match lhs, rhs with
  | .other _, _ | _, .other _ | .string _, .string _ => operators.otherCompare lhs rhs
  | .bool _, _ | _, .bool _ => operators.compareBool lhs rhs
  | .null, .string right => some (Ord.compare [] right)
  | .string left, .null => some (Ord.compare left [])
  | .null, _ | _, .null => operators.compareBool lhs rhs
  | .int left, .int right => some (Ord.compare left right)
  | .int _, .string _ | .string _, .int _ => operators.otherCompare lhs rhs

def equal : Option Bool :=
  match lhs, rhs with
  | .other _, _ | _, .other _ => operators.otherEqual lhs rhs
  | _, _ => (operators.compare lhs rhs).map (· == .eq)

/-- A number is compared with a NaN. -/
def numericComparisonIsUnordered : Bool :=
  match lhs, rhs with
  | .other _, _ | _, .other _ => operators.otherUnordered lhs rhs
  | _, _ => false

end

def orderingInt : Ordering → Int
  | .lt => -1
  | .eq => 0
  | .gt => 1

def baselineCompare (op : CompareOp) (lhs rhs : RuntimeValue O) : Option (RuntimeValue O) :=
  match op with
  | .identical => some (.bool (operators.identical lhs rhs))
  | .notIdentical => some (.bool !operators.identical lhs rhs)
  | .equal => (operators.equal lhs rhs).map .bool
  | .notEqual => (operators.equal lhs rhs).map fun value => .bool !value
  | .less => (operators.compare lhs rhs).map fun order => .bool order.isLT
  | .lessEqual => (operators.compare lhs rhs).map fun order => .bool !order.isGT
  | .greater =>
    if operators.numericComparisonIsUnordered lhs rhs then some (.bool false)
    else (operators.compare lhs rhs).map fun order => .bool order.isGT
  | .greaterEqual =>
    if operators.numericComparisonIsUnordered lhs rhs then some (.bool false)
    else (operators.compare lhs rhs).map fun order => .bool !order.isLT
  | .spaceship => (operators.compare lhs rhs).map fun order => .int (orderingInt order)

end OpenOperators
end Phrust
