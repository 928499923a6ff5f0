import Phrust.Runtime.Value

/-!
# Binary operations

`baseline_binary` of `native_ops.rs`, which writes to a slot of its caller. A panic is `none`.
-/

namespace Phrust.NativeOps
open Phrust.Convert

inductive NativeOperationStatus where
  | ok
  | runtimeError
  deriving DecidableEq, Repr

structure NativeOperationContext where
  diagnosticId : Option String := none
  message : Option String := none
  safepoints : Nat := 0
  deriving DecidableEq, Repr

inductive NativeBinaryOp where
  | add | sub | mul | div | mod | concat | pow | bitAnd | bitOr | bitXor | shiftLeft | shiftRight
  deriving DecidableEq, Repr

def bitwiseStringOr : List UInt8 → List UInt8 → List UInt8
  | left :: lefts, right :: rights => (left ||| right) :: bitwiseStringOr lefts rights
  | lefts, [] => lefts
  | [], rights => rights

section
variable (floats : RuntimeFloats F)

/-! ## Operators -/

def asF64 : NumericValue F → F
  | .int value => floats.ofInt value
  | .float value => value

section
variable (lhs rhs : NumericValue F)

def checkedNumeric (integer : Int → Int → Option Int) (float : F → F → F) : Convert.Value F :=
  match lhs, rhs with
  | .int left, .int right =>
    match integer left right with
    | some value => .int value
    | none => .float (float (floats.ofInt left) (floats.ofInt right))
  | left, right => .float (float (asF64 floats left) (asF64 floats right))

def nativeDivision : Option (Except String (Convert.Value F)) :=
  if floats.nonzero (asF64 floats rhs) then
    match lhs, rhs with
    | .int left, .int right => do
      let remainder ← remI64 left right
      if remainder = 0 then (divI64 left right).map (.ok <| .int ·)
      else some (.ok (.float (floats.div (floats.ofInt left) (floats.ofInt right))))
    | left, right => some (.ok (.float (floats.div (asF64 floats left) (asF64 floats right))))
  else some (.error "division by zero")

def nativeModulo : Except String (Convert.Value F) :=
  let rhs := floats.truncate (asF64 floats rhs)
  if rhs = 0 then .error "modulo by zero"
  else .ok (.int ((remI64 (floats.truncate (asF64 floats lhs)) rhs).getD 0))

end

variable (op : NativeBinaryOp)

def nativeArithmetic (lhs rhs : NumericValue F) : Option (Except String (Convert.Value F)) :=
  match op with
  | .add => some (.ok (checkedNumeric floats lhs rhs (fun a b => checkedI64 (a + b)) floats.add))
  | .sub => some (.ok (checkedNumeric floats lhs rhs (fun a b => checkedI64 (a - b)) floats.sub))
  | .mul => some (.ok (checkedNumeric floats lhs rhs (fun a b => checkedI64 (a * b)) floats.mul))
  | .div => nativeDivision floats lhs rhs
  | .mod => some (nativeModulo floats lhs rhs)
  | .concat | .pow | .bitAnd | .bitOr | .bitXor | .shiftLeft | .shiftRight =>
    some (.error "operation is not arithmetic")

def nativePower (lhs rhs : NumericValue F) : Convert.Value F :=
  let float : Convert.Value F := .float (floats.powf (asF64 floats lhs) (asF64 floats rhs))
  match lhs, rhs with
  | .int left, .int right =>
    match (u32TryFrom right).bind (checkedPow left) with
    | some value => .int value
    | none => float
  | _, _ => float

def bitwiseIntegers (lhs rhs : Int) : Except String (Convert.Value F) :=
  match op with
  | .bitAnd => .ok (.int (bitwiseI64 (· &&& ·) lhs rhs))
  | .bitOr => .ok (.int (bitwiseI64 (· ||| ·) lhs rhs))
  | .bitXor => .ok (.int (bitwiseI64 (· ^^^ ·) lhs rhs))
  | .shiftLeft =>
    if rhs < 0 then .error "bit shift by negative number" else .ok (.int (wrappingShl lhs (asU32 rhs)))
  | .shiftRight =>
    if rhs < 0 then .error "bit shift by negative number" else .ok (.int (wrappingShr lhs (asU32 rhs)))
  | .add | .sub | .mul | .div | .mod | .concat | .pow => .error "operation is not bitwise"

/-- Two strings are combined byte by byte, if the operator is not a shift. -/
def nativeBitwise (lhs rhs : Convert.Value F) : Except String (Convert.Value F) :=
  match op, lhs, rhs with
  | .bitAnd, .string left, .string right => .ok (.string (List.zipWith (· &&& ·) left right))
  | .bitOr, .string left, .string right => .ok (.string (bitwiseStringOr left right))
  | .bitXor, .string left, .string right => .ok (.string (List.zipWith (· ^^^ ·) left right))
  | op, lhs, rhs => do
    let lhs ← lhs.toInt floats
    let rhs ← rhs.toInt floats
    bitwiseIntegers op lhs rhs

/-- The entries of the right array whose keys the left one does not have are put behind it. -/
def arrayUnion (lhs rhs : Convert.Value F) : Option (Convert.Value F) :=
  match lhs.effectiveValue, rhs.effectiveValue with
  | .array left, .array right =>
    some (.array (right.foldl (fun result (key, value) =>
      if (Convert.Value.lookup result key).isNone then result ++ [(key, value.effectiveValue)] else result) left))
  | _, _ => none

def arithmeticResult (lhs rhs : Convert.Value F) : Option (Except String (Convert.Value F)) :=
  match lhs.toNumber floats, rhs.toNumber floats with
  | .ok left, .ok right => nativeArithmetic floats op left right
  | .error error, _ | _, .error error => some (.error error)

/-- What `baseline_binary` publishes. -/
def binaryResult (lhs rhs : Convert.Value F) : Option (Except String (Convert.Value F)) :=
  match op with
  | .concat => some do
    let left ← lhs.toString floats
    let right ← rhs.toString floats
    .ok (.string (left ++ right))
  | .bitAnd | .bitOr | .bitXor | .shiftLeft | .shiftRight => some (nativeBitwise floats op lhs rhs)
  | .pow => some do
    let left ← lhs.toNumber floats
    let right ← rhs.toNumber floats
    .ok (nativePower floats left right)
  | .add =>
    match arrayUnion lhs rhs with
    | some union => some (.ok union)
    | none => arithmeticResult floats .add lhs rhs
  | .sub | .mul | .div | .mod => arithmeticResult floats op lhs rhs

end

def publish (context : NativeOperationContext) (result : Except String (Convert.Value F)) (out : Convert.Value F) :
    NativeOperationStatus × NativeOperationContext × Convert.Value F :=
  let context := { context with safepoints := min (2 ^ 64 - 1) (context.safepoints + 1) }
  match result with
  | .ok value => (.ok, context, value)
  | .error message =>
    (.runtimeError, { context with diagnosticId := some "E_NATIVE_RUNTIME_OPERATION", message := some message }, out)

def baselineBinary (floats : RuntimeFloats F) (context : NativeOperationContext) (op : NativeBinaryOp)
    (lhs rhs out : Convert.Value F) : Option (NativeOperationStatus × NativeOperationContext × Convert.Value F) :=
  (binaryResult floats op lhs rhs).map fun result => publish context result out

end Phrust.NativeOps
