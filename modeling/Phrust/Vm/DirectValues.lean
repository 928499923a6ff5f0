import Phrust.Runtime.Comparison
import Phrust.Vm.NativeValues

/-!
# The direct value plane

What the exact native handlers of a request read: the constants of the active unit and the slots of the
value arena, whose arrays lie in an arena of entries. A word is an integer, a constant or a slot. Bytes
and entries stand in the slot that points to them, and the version numbers in the flags of a slot are
those of the ABI.
-/

namespace Phrust

/-- `JitNativeDirectArrayEntry` -/
structure DirectArrayEntry where
  key : Int
  value : Int
  deriving DecidableEq, Repr

def jitValueRuntimeArrayTag : Int := 0x7ff2000200000000

/-- `JIT_NATIVE_DIRECT_ARRAY_ENTRY_CAPACITY` -/
def directArrayEntryCapacity : Nat := 4194304

inductive DirectView (F : Type) where
  | string (bytes : PhpString)
  | float (payload : F)
  | int (payload : Int)
  | array (entries : List DirectArrayEntry) (cursor : Option Nat)
  | object (identity : Nat)
  | resource (id : Nat)
  /-- A callable, with what it owns. -/
  | callable (children : List Int)
  | fiber
  | generator
  /-- `DIRECT_REFERENCE_SCALAR` -/
  | reference (empty : Bool) (payload : Int)
  /-- `REFERENCE_SCALAR`, a reference of the cold plane -/
  | coldReference
  | other
  deriving DecidableEq

structure DirectSlot (F : Type) where
  refcount : Nat
  view : DirectView F
  deriving DecidableEq

/-- `JitNativeConstantView` -/
inductive ConstantView (F : Type) where
  | null
  | bool (value : Bool)
  | int (value : Int)
  | float (value : F)
  | string (bytes : PhpString)
  | other

structure DirectPlane (F : Type) where
  constants : List (ConstantView F)
  slots : List (DirectSlot F)

inductive NativePrintfScalar (F : Type) where
  | null
  | bool (value : Bool)
  | int (value : Int)
  | float (value : F)
  | string (bytes : PhpString)

inductive NativeComparisonValue (F : Type) where
  | null
  | bool (value : Bool)
  | int (value : Int)
  | float (value : F)
  | string (bytes : PhpString)
  | array (identity : Nat) (entries : List DirectArrayEntry)
  | object (identity : Nat)
  | opaqueIdentity (word : Int)
  | resource (id : Nat)

namespace DirectPlane
variable (plane : DirectPlane F)
variable (encoded : Int)

/-- The slot of a word, if it is alive. -/
def directSlot : Option (Nat × DirectSlot F) := do
  let index ← directValueIndex encoded
  let slot ← plane.slots[index]?
  if slot.refcount = 0 then none else some (index, slot)

def byValueFrom : Nat → Int → Option Int
  | 0, _ => none
  | fuel + 1, encoded =>
    match plane.directSlot encoded with
    | none => some encoded
    | some (_, slot) =>
      match slot.view with
      | .reference false payload => byValueFrom fuel payload
      | .coldReference => none
      | _ => some encoded

/-- Follow at most 63 references. -/
def nativeByValueEncoding : Option Int := plane.byValueFrom 64 encoded

def nativePrintfScalar : Option (NativePrintfScalar F) := do
  let encoded ← plane.nativeByValueEncoding encoded
  match plane.directSlot encoded with
  | some (_, slot) =>
    match slot.view with
    | .string bytes => some (.string bytes)
    | .float payload => some (.float payload)
    | .int payload => some (.int payload)
    | _ => none
  | none =>
    match jitDecodeConstant encoded with
    | none => if (jitDecodeRuntimeValue encoded).isNone then some (.int encoded) else none
    | some constant =>
      if constant = jitValueNull then some .null
      else if constant = jitValueFalse then some (.bool false)
      else if constant = jitValueTrue then some (.bool true)
      else
        match plane.constants[constant]? with
        | some .null => some .null
        | some (.bool value) => some (.bool value)
        | some (.int value) => some (.int value)
        | some (.float value) => some (.float value)
        | some (.string bytes) => some (.string bytes)
        | some .other | none => none

def nativeScalarBytes (floats : ComparedFloats F) (encoded : Int) : Option PhpString :=
  (plane.nativePrintfScalar encoded).map fun
    | .null | .bool false => []
    | .bool true => [49]
    | .int value => integerText value
    | .float value => floats.text value
    | .string bytes => bytes

def nativeComparisonValue : Option (NativeComparisonValue F) := do
  let encoded ← plane.nativeByValueEncoding encoded
  match plane.directSlot encoded with
  | some (index, slot) =>
    match slot.view with
    | .string bytes => some (.string bytes)
    | .float payload => some (.float payload)
    | .int payload => some (.int payload)
    | .array entries _ => some (.array index entries)
    | .object identity => some (.object identity)
    | .resource id => some (.resource id)
    | .callable _ | .fiber | .generator => some (.opaqueIdentity encoded)
    | .reference .. | .coldReference | .other => none
  | none =>
    match jitDecodeConstant encoded with
    | none => if (jitDecodeRuntimeValue encoded).isNone then some (.int encoded) else none
    | some constant =>
      if constant = jitValueNull then some .null
      else if constant = jitValueFalse then some (.bool false)
      else if constant = jitValueTrue then some (.bool true)
      else if constant = jitValueUninitialized then none
      else
        match plane.constants[constant]? with
        | some .null => some .null
        | some (.bool value) => some (.bool value)
        | some (.int value) => some (.int value)
        | some (.float value) => some (.float value)
        | some (.string bytes) => some (.string bytes)
        | some .other | none => none

end DirectPlane
end Phrust
