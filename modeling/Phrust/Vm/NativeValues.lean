import Mathlib.Algebra.Order.Ring.Int

/-!
# Native value words

The native value plane of a request. A value is a 64-bit word: an integer stands for itself unless its
upper 16 bits are one of two tags, which mark constants and the slots of the request's value arena.
`none` is an `Err` or a panic.
-/

namespace Phrust

/-! ## Words -/

/-- `JIT_VALUE_NULL` (`u32::MAX`), and the other reserved constants below it. -/
def jitValueNull : Nat := 4294967295
def jitValueUninitialized : Nat := 4294967294
def jitValueFalse : Nat := 4294967293
def jitValueTrue : Nat := 4294967292

def jitValueRuntimeTag : Int := 0x7ff2000000000000
def jitValueRuntimeStringTag : Int := 0x7ff2000400000000
def jitValueRuntimeFloatTag : Int := 0x7ff2000500000000

def jitEncodeConstant (constant : Nat) : Int := 0x7ff1000000000000 + constant

/-- The tag is in the upper 16 bits, the constant in the lower 32. -/
def jitDecodeConstant (value : Int) : Option Nat :=
  if value / 2 ^ 48 = 0x7ff1 then some (value % 2 ^ 32).toNat else none

def jitEncodeTypedRuntimeValue (index : Nat) (tag : Int) : Int := tag + index

def jitDecodeRuntimeValue (value : Int) : Option Nat :=
  if value / 2 ^ 48 = 0x7ff2 then some (value % 2 ^ 32).toNat else none

/-- `JIT_NATIVE_DIRECT_VALUE_INDEX_BASE` and `JIT_NATIVE_DIRECT_VALUE_CAPACITY` -/
def directValueIndexBase : Nat := 0x40000000
def directValueCapacity : Nat := 2097152

def directValueIndex (encoded : Int) : Option Nat := do
  let index ← jitDecodeRuntimeValue encoded
  if directValueIndexBase ≤ index ∧ index - directValueIndexBase < directValueCapacity then
    some (index - directValueIndexBase)
  else none

def encodeDirectSlotIndex (index : Nat) (tag : Int) : Int :=
  jitEncodeTypedRuntimeValue (index + directValueIndexBase) tag

/-- `true` for the constants that are no entries of the unit's table. -/
def isReservedConstant (constant : Nat) : Bool :=
  constant == jitValueNull || constant == jitValueUninitialized || constant == jitValueFalse ||
    constant == jitValueTrue

end Phrust
