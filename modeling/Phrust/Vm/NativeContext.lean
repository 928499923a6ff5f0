import Phrust.Runtime.NumericText
import Phrust.Vm.DirectValues

/-!
# The native values of a request

What the contracts of calls read and change: the constants of the active unit, and the slots of the value
arena with their owners. The arena of string bytes does not run out here. `none` is an `Err` or a panic.
-/

namespace Phrust

inductive PhpScalar (F : Type) where
  | null
  | bool (value : Bool)
  | int (value : Int)
  | float (value : F)
  | string (bytes : PhpString)

inductive NativeEncodedValueKind where
  | null
  | uninitialized
  | bool (value : Bool)
  | int
  | float
  | string
  /-- The other kinds, by the names of their types. -/
  | other (typeName : String)
  deriving DecidableEq

namespace PhpScalar

def kind : PhpScalar F → NativeEncodedValueKind
  | null => .null
  | bool value => .bool value
  | int _ => .int
  | float _ => .float
  | string _ => .string

def truthy (ops : FloatOps F) : PhpScalar F → Bool
  | null => false
  | bool value => value
  | int value => value != 0
  | float value => ops.nonzero value
  | string bytes => bytes != [] && bytes != [48]

end PhpScalar

inductive IrConstant (F : Type) where
  | scalar (value : PhpScalar F)
  | array
  /-- `NamedConstant` and `ClassConstant` -/
  | named

namespace DirectView

def scalar : DirectView F → Option (PhpScalar F)
  | int payload => some (.int payload)
  | float payload => some (.float payload)
  | string bytes => some (.string bytes)
  | _ => none

def otherKind : DirectView F → Option NativeEncodedValueKind
  | array .. => some (.other "array")
  | object _ | callable _ => some (.other "object")
  | resource _ => some (.other "resource")
  | fiber => some (.other "Fiber")
  | generator => some (.other "Generator")
  | reference .. | coldReference => some (.other "reference")
  | int _ | float _ | string _ | other => none

end DirectView

/-- An entry of the unit's constant table. -/
def isLiteral (encoded : Int) : Bool := (jitDecodeConstant encoded).any fun constant => !isReservedConstant constant

/-- `slots` are those below `direct_value_next`. The links of the free list stand in dead slots of the arena. -/
structure NativeContext (F : Type) where
  constants : List (IrConstant F)
  slots : List (DirectSlot F)
  free : List Nat

namespace NativeContext
variable {F : Type} (context : NativeContext F)

/-! ## Reading -/

def liveSlot (index : Nat) : Option (DirectSlot F) := context.slots[index]?.filter (·.refcount != 0)

section
variable (encoded : Int)

def liveView : Option (DirectView F) :=
  (directValueIndex encoded).bind fun index => (context.liveSlot index).map (·.view)

/-- The scalar that a word stands for. -/
def scalar : Option (PhpScalar F) :=
  match jitDecodeConstant encoded with
  | some constant =>
    if constant = jitValueNull then some .null
    else if constant = jitValueFalse then some (.bool false)
    else if constant = jitValueTrue then some (.bool true)
    else if constant = jitValueUninitialized then none
    else
      match context.constants[constant]? with
      | some (.scalar value) => some value
      | _ => none
  | none =>
    if (jitDecodeRuntimeValue encoded).isNone then some (.int encoded)
    else (context.liveView encoded).bind DirectView.scalar

def directReferencePayload : Option Int :=
  match context.liveView encoded with
  | some (.reference false payload) => some payload
  | _ => none

def dereferenceFrom : Nat → Int → Int
  | 0, encoded => encoded
  | hops + 1, encoded =>
    match context.directReferencePayload encoded with
    | some payload => dereferenceFrom hops payload
    | none => encoded

def dereferenceDirectEncoding : Int := context.dereferenceFrom 16 encoded

def nativeEncodedValueKind : Option NativeEncodedValueKind :=
  let encoded := context.dereferenceDirectEncoding encoded
  match context.scalar encoded with
  | some value => some value.kind
  | none =>
    match jitDecodeConstant encoded with
    | some constant =>
      if constant = jitValueUninitialized then some .uninitialized
      else
        match context.constants[constant]? with
        | some .array => some (.other "array")
        | _ => none
    | none => (context.liveView encoded).bind DirectView.otherKind

def nativeEncodedTypeName : String :=
  match context.nativeEncodedValueKind encoded with
  | some .null => "null"
  | some .uninitialized => "uninitialized"
  | some (.bool _) => "bool"
  | some .int => "int"
  | some .float => "float"
  | some .string => "string"
  | some (.other typeName) => typeName
  | none => "unknown"

end

/-! ## Owners -/

/-- `reserve_direct_value_slot`, and the store into the slot. -/
def publish (view : DirectView F) : Option (Nat × NativeContext F) :=
  match context.free with
  | index :: free => some (index, { context with slots := context.slots.set index ⟨1, view⟩, free })
  | [] =>
    if context.slots.length < directValueCapacity then
      some (context.slots.length, { context with slots := context.slots ++ [⟨1, view⟩] })
    else none

def encodeOwner (view : DirectView F) (tag : Int) : Option (Int × NativeContext F) :=
  (context.publish view).map fun (index, context) => (encodeDirectSlotIndex index tag, context)

def encodeNativeFloatOwner (value : F) : Option (Int × NativeContext F) :=
  context.encodeOwner (.float value) jitValueRuntimeFloatTag

def encodeDirectStringBytes (bytes : PhpString) : Option (Int × NativeContext F) :=
  context.encodeOwner (.string bytes) jitValueRuntimeStringTag

/-- Only bit patterns that overlap a tag take a slot. -/
def encodeNativeInt (value : Int) : Option (Int × NativeContext F) :=
  if (jitDecodeRuntimeValue value).isNone && (jitDecodeConstant value).isNone then some (value, context)
  else context.encodeOwner (.int value) jitValueRuntimeTag

/-- The scalar part of `stabilize_active_unit_constant`. -/
def encodeScalar : PhpScalar F → Option (Int × NativeContext F)
  | .null => some (jitEncodeConstant jitValueNull, context)
  | .bool value => some (jitEncodeConstant (if value then jitValueTrue else jitValueFalse), context)
  | .int value => context.encodeNativeInt value
  | .float value => context.encodeNativeFloatOwner value
  | .string bytes => context.encodeDirectStringBytes bytes

def stabilizeActiveUnitConstant (constant : Nat) : Option (Int × NativeContext F) := do
  match ← context.constants[constant]? with
  | .scalar value => context.encodeScalar value
  | .array | .named => context.encodeOwner .other jitValueRuntimeTag

def setSlot (index : Nat) (slot : DirectSlot F) : NativeContext F :=
  { context with slots := context.slots.set index slot }

/-- Owner counts are `u32`. -/
def retain (index : Nat) : Option (NativeContext F) := do
  let slot ← context.slots[index]?
  if slot.refcount + 1 < 2 ^ 32 then some (context.setSlot index ⟨slot.refcount + 1, slot.view⟩) else none

/-- What a dying container owns is not followed: the contracts release scalars. -/
def releaseDirectValueIndex (index : Nat) : Option (NativeContext F) := do
  let slot ← context.liveSlot index
  let context := context.setSlot index ⟨slot.refcount - 1, slot.view⟩
  if slot.refcount = 1 then some { context with free := index :: context.free } else some context

def release (encoded : Int) : Option (NativeContext F) :=
  match directValueIndex encoded with
  | some index => context.releaseDirectValueIndex index
  | none => if (jitDecodeRuntimeValue encoded).isNone then some context else none

/-- One more owner for the value of a word. Iterators and the proxy of `$GLOBALS` are refused, and no views here. -/
def duplicateAuthoritativeNativeValue (encoded : Int) : Option (Int × NativeContext F) :=
  match directValueIndex encoded with
  | some index => (context.retain index).map (encoded, ·)
  | none =>
    if (jitDecodeRuntimeValue encoded).isSome then none
    else
      match jitDecodeConstant encoded with
      | some constant =>
        if isReservedConstant constant then some (encoded, context)
        else context.stabilizeActiveUnitConstant constant
      | none => some (encoded, context)

/-! ## References -/

/-- The slot of a reference that is alive. -/
def referenceSlot (encoded : Int) : Option (Nat × Nat × Bool × Int) := do
  let index ← directValueIndex encoded
  match ← context.liveSlot index with
  | ⟨refcount, .reference empty payload⟩ => some (index, refcount, empty, payload)
  | _ => none

/-- A reference parameter without a value gets `null`. -/
def openReference (encoded : Int) : Option (NativeContext F) := do
  let (index, refcount, empty, _) ← context.referenceSlot encoded
  if empty then some (context.setSlot index ⟨refcount, .reference false (jitEncodeConstant jitValueNull)⟩)
  else some context

/-- `false` if the word is no reference with a value. -/
def replaceDirectReferencePayloadOwned (encoded replacement : Int) : Option (Bool × NativeContext F) :=
  match context.referenceSlot encoded with
  | some (index, refcount, false, payload) =>
    ((context.setSlot index ⟨refcount, .reference false replacement⟩).release payload).map (true, ·)
  | _ => some (false, context)

end NativeContext
end Phrust
