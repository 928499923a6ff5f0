import Phrust.Vm.NativeContext

/-!
# Declared argument and return types

The contracts that a compiled function applies to its arguments and to its return value, for the types built
from the scalar types by nullability and unions. PHP has no unions in unions and no `?T` in a union.
-/

namespace Phrust

/-- `literal` is the type `true` or the type `false`. -/
inductive ScalarType where
  | int
  | float
  | string
  | bool
  | null
  | literal (value : Bool)
  deriving DecidableEq

inductive IrReturnType where
  | scalar (type_ : ScalarType)
  | nullable (inner : IrReturnType)
  | union (members : List ScalarType)

def ScalarType.matchesKind : ScalarType → NativeEncodedValueKind → Bool
  | .int, .int | .float, .float | .float, .int | .string, .string | .bool, .bool _
  | .null, .null => true
  | .literal expected, .bool value => expected == value
  | _, _ => false

/-- Here an integer is no float. -/
def ScalarType.exactlyMatchesKind : ScalarType → NativeEncodedValueKind → Bool
  | .float, kind => kind == .float
  | type_, kind => type_.matchesKind kind

/-- The recursion that both tests share. -/
def IrReturnType.admits (test : ScalarType → NativeEncodedValueKind → Bool)
    (kind : NativeEncodedValueKind) : IrReturnType → Bool
  | .scalar type_ => test type_ kind
  | .nullable inner => kind == .null || inner.admits test kind
  | .union members => members.any (test · kind)

def ScalarType.name : ScalarType → String
  | .int => "int"
  | .float => "float"
  | .string => "string"
  | .bool => "bool"
  | .null => "null"
  | .literal true => "true"
  | .literal false => "false"

/-- `names.swap(int, string)` when the first `int` stands before the first `string`. -/
def swapIntString (names : List String) : List String :=
  match names.findIdx? (· == "int"), names.findIdx? (· == "string") with
  | some int, some string =>
    if int < string then (names.set int "string").set string "int" else names
  | _, _ => names

def nativeIrTypeName : IrReturnType → String
  | .scalar type_ => type_.name
  | .nullable inner => "?" ++ nativeIrTypeName inner
  | .union members => "|".intercalate (swapIntString (members.map ScalarType.name))

/-- `value.to_string()` of an `i64` -/
def intText (value : Int) : PhpString := (toString value).toUTF8.data.toList

/-! ## Coercion -/

/-- The conversion of a value to a type, if there is one: in weak mode, and of an integer to a float. The literals
of the unit have no truth value. -/
def ScalarType.convert (ops : FloatOps F) (strict literal : Bool) (value : PhpScalar F) (type_ : ScalarType) :
    Option (PhpScalar F) :=
  match type_, value with
  | .float, .int number => some (.float (ops.ofInt number))
  | _, _ =>
    if type_.matchesKind value.kind || strict then none
    else
      match type_, value with
      | .int, .string bytes => (parseI64 (trim bytes)).map .int
      | .int, .float number => some (.int (ops.truncate number))
      | .int, .bool value => some (.int (if value then 1 else 0))
      | .float, .string bytes => (parseF64 ops (trim bytes)).map .float
      | .float, .bool value => some (.float (ops.ofInt (if value then 1 else 0)))
      | .string, .int number => some (.string (intText number))
      | .string, .float number => some (.string (ops.display number))
      | .string, .bool value => some (.string (if value then [49] else []))
      | .bool, .int _ | .bool, .float _ | .bool, .string _ => if literal then none else some (.bool (value.truthy ops))
      | _, _ => none

namespace NativeContext
variable {F : Type} (ops : FloatOps F)

section
variable (context : NativeContext F) (encoded : Int) (type_ : IrReturnType)

def nativeEncodedMatchesIrType : Option Bool :=
  (context.nativeEncodedValueKind encoded).map fun kind => type_.admits ScalarType.matchesKind kind

def nativeEncodedExactlyMatchesIrType : Option Bool :=
  (context.nativeEncodedValueKind encoded).map fun kind => type_.admits ScalarType.exactlyMatchesKind kind

end

/-- An integer is returned as it is, without `encode_native_int`. -/
def encodeConverted (context : NativeContext F) : PhpScalar F → Option (Int × NativeContext F)
  | .int value => some (value, context)
  | value => context.encodeScalar value

def coerceScalar (context : NativeContext F) (encoded : Int) (strict : Bool) (type_ : ScalarType) :
    Option (Int × NativeContext F) :=
  match (context.scalar encoded).bind fun value => type_.convert ops strict (isLiteral encoded) value with
  | some value => context.encodeConverted value
  | none => context.duplicateAuthoritativeNativeValue encoded

/-- The inner `none` is a value whose kind is not known. -/
def withKind (context : NativeContext F) (encoded : Int)
    (coerce : Int → NativeEncodedValueKind → Option (Option Int × NativeContext F)) :
    Option (Option Int × NativeContext F) :=
  let encoded := context.dereferenceDirectEncoding encoded
  match context.nativeEncodedValueKind encoded with
  | none => some (none, context)
  | some kind => coerce encoded kind

def coerceMember (context : NativeContext F) (encoded : Int) (strict : Bool) (type_ : ScalarType) :
    Option (Option Int × NativeContext F) :=
  context.withKind encoded fun encoded _ => (context.coerceScalar ops encoded strict type_).map (Prod.map some id)

/-- The members in the order in which they are written. -/
def coerceMembers (context : NativeContext F) (encoded : Int) (strict : Bool) (type_ : IrReturnType) :
    List ScalarType → Option (Option Int × NativeContext F)
  | [] => (context.duplicateAuthoritativeNativeValue encoded).map (Prod.map some id)
  | member :: members => do
    match ← context.coerceMember ops encoded strict member with
    | (none, context) => coerceMembers context encoded strict type_ members
    | (some candidate, context) =>
      if context.nativeEncodedMatchesIrType candidate type_ = some true then some (some candidate, context)
      else coerceMembers (← context.release candidate) encoded strict type_ members

def coerceNativeCallArgumentEncoded (context : NativeContext F) (encoded : Int) (strict : Bool) :
    IrReturnType → Option (Option Int × NativeContext F)
  | .scalar type_ => context.coerceMember ops encoded strict type_
  | .nullable inner => context.withKind encoded fun encoded kind =>
    if kind = .null then (context.duplicateAuthoritativeNativeValue encoded).map (Prod.map some id)
    else coerceNativeCallArgumentEncoded context encoded strict inner
  | .union members => context.withKind encoded fun encoded kind =>
    if (IrReturnType.union members).admits ScalarType.matchesKind kind || strict then
      (context.duplicateAuthoritativeNativeValue encoded).map (Prod.map some id)
    else context.coerceMembers ops encoded strict (.union members) members

end NativeContext

/-! ## Contracts -/

structure PreparedNativeParameterContract where
  functionName : String
  position : Nat
  parameterName : String
  type_ : IrReturnType
  byRef : Bool

structure PreparedNativeReturnContract where
  functionName : String
  type_ : IrReturnType
  returnsByRef : Bool

/-- How a contract ends: with a word, with a `TypeError`, or with a failure of the runtime. -/
inductive ContractStatus where
  | ok (value : Int)
  | throw (message : String)
  | abiMismatch
  | runtimeError

variable {F : Type} (ops : FloatOps F)

/-- The end of a contract that is not met. -/
def throwTypeError (context : NativeContext F) (checked : Int) (message : NativeContext F → String) :
    ContractStatus × NativeContext F :=
  match context.release checked with
  | none => (.runtimeError, context)
  | some context => (.throw (message context), context)

def jitNativeDeclaredArgumentContract (context : NativeContext F) (encoded : Int)
    (contract : PreparedNativeParameterContract) (strict : Bool) : ContractStatus × NativeContext F :=
  match if contract.byRef then context.openReference encoded else some context with
  | none => (.abiMismatch, context)
  | some context =>
    match context.coerceNativeCallArgumentEncoded ops encoded strict contract.type_ with
    | none => (.runtimeError, context)
    | some (none, context) => (.runtimeError, context)
    | some (some checked, context) =>
      if context.nativeEncodedMatchesIrType checked contract.type_ = some true then
        if contract.byRef then
          match context.replaceDirectReferencePayloadOwned encoded checked with
          | some (true, context) => (.ok encoded, context)
          | some (false, context) => (.abiMismatch, (context.release checked).getD context)
          | none => (.runtimeError, context)
        else (.ok checked, context)
      else
        let message := contract.functionName ++ "(): Argument #" ++
          toString (contract.position + 1) ++ " ($" ++ contract.parameterName ++ ") must be of type " ++
          nativeIrTypeName contract.type_ ++ ", " ++ context.nativeEncodedTypeName checked ++ " given"
        throwTypeError context checked fun _ => message

/-- With a result by reference, a converted value is stored into the reference; a word that is no reference is
refused. -/
def jitNativeDeclaredReturnContract (context : NativeContext F) (encoded : Int)
    (contract : PreparedNativeReturnContract) (strictTypes : Bool) : ContractStatus × NativeContext F :=
  let message (context : NativeContext F) := contract.functionName ++ "(): Return value must be of type " ++
    nativeIrTypeName contract.type_ ++ ", " ++ context.nativeEncodedTypeName encoded ++ " returned"
  if context.nativeEncodedExactlyMatchesIrType encoded contract.type_ = some true then (.ok encoded, context)
  else
    match context.coerceNativeCallArgumentEncoded ops encoded strictTypes contract.type_ with
    | none => (.runtimeError, context)
    | some (none, context) => (.throw (message context), context)
    | some (some checked, context) =>
      if context.nativeEncodedExactlyMatchesIrType checked contract.type_ = some true then
        if contract.returnsByRef then
          match context.replaceDirectReferencePayloadOwned encoded checked with
          | some (true, context) => (.ok encoded, context)
          | some (false, context) => throwTypeError context checked message
          | none => (.runtimeError, context)
        else (.ok checked, context)
      else throwTypeError context checked message

end Phrust
