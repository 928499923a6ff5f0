import Phrust.Runtime.ArrayStorage
import Phrust.Runtime.Operators
import Phrust.Theory.DoubleRounding

/-!
# 64-bit integers

The integer methods of the standard library that the runtime and the compiler use. A panic of `/` and `%`
is `none`.
-/

namespace Phrust

/-- `value as i64` of a wider integer -/
def wrapI64 (value : Int) : Int := value.bmod (2 ^ 64)

/-- `value as i64` of a float without a fraction -/
def saturateI64 (value : Int) : Int := clampTo i64Min i64Max value

/-- `value as u32` -/
def asU32 (value : Int) : Nat := (value % 2 ^ 32).toNat

/-- `u32::try_from(value)` -/
def u32TryFrom (value : Int) : Option Nat := if 0 ≤ value ∧ value < 2 ^ 32 then some value.toNat else none

/-- `lhs % rhs` -/
def remI64 (lhs rhs : Int) : Option Int :=
  if rhs = 0 ∨ lhs = i64Min ∧ rhs = -1 then none else some (lhs.tmod rhs)

/-- `lhs / rhs` -/
def divI64 (lhs rhs : Int) : Option Int :=
  if rhs = 0 ∨ lhs = i64Min ∧ rhs = -1 then none else some (lhs.tdiv rhs)

def checkedPow (lhs : Int) (exponent : Nat) : Option Int := checkedI64 (lhs ^ exponent)

section
variable (value : Int) (count : Nat)

/-- `wrapping_shl` and `wrapping_shr` take the count modulo the width. -/
def wrappingShl : Int := wrapI64 (value * 2 ^ (count % 64))

def wrappingShr : Int := value / 2 ^ (count % 64)

/-- `checked_shl` and `checked_shr` refuse a count that is not below the width. -/
def checkedShl : Option Int :=
  if count < 64 then some (wrapI64 (value * 2 ^ count)) else none

def checkedShr : Option Int :=
  if count < 64 then some (value / 2 ^ count) else none

end

/-- An operator on the bits. -/
def bitwiseI64 (op : BitVec 64 → BitVec 64 → BitVec 64) (lhs rhs : Int) : Int :=
  (op (BitVec.ofInt 64 lhs) (BitVec.ofInt 64 rhs)).toInt

end Phrust
