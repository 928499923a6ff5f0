import Phrust.Ir.Instruction

/-!
# Functions, classes and units

Floats are their 64 bits, compared as IEEE 754 does. So `==` on constants, and on everything that
holds constants, is the derived comparison of the source: it is not reflexive on a NaN and does not
tell the two zeros apart.
-/

namespace Phrust.Ir

/-- The bits of a float. -/
structure F64 where
  bits : UInt64
  deriving DecidableEq

namespace F64

def isNan (value : F64) : Bool := value.bits &&& 0x7fffffffffffffff > 0x7ff0000000000000

def isZero (value : F64) : Bool := value.bits &&& 0x7fffffffffffffff == 0

instance : BEq F64 where
  beq left right :=
    !left.isNan && !right.isNan && (left.bits == right.bits || (left.isZero && right.isZero))

end F64

mutual

/-- Literals of the constant pool. -/
inductive IrConstant where
  | null
  | bool (value : Bool)
  | int (value : Int)
  | float (value : F64)
  | string (value : String)
  | stringBytes (value : List UInt8)
  | namedConstant (name : String)
  | classConstant (className displayClassName constantName : String)
  | array (entries : List IrConstantArrayEntry)

inductive IrConstantArrayEntry where
  | mk (key : Option IrConstant) (value : IrConstant)

end

mutual

def IrConstant.beq : IrConstant → IrConstant → Bool
  | .null, .null => true
  | .bool left, .bool right => left == right
  | .int left, .int right => left == right
  | .float left, .float right => left == right
  | .string left, .string right => left == right
  | .stringBytes left, .stringBytes right => left == right
  | .namedConstant left, .namedConstant right => left == right
  | .classConstant class_ display name, .classConstant class' display' name' =>
    class_ == class' && display == display' && name == name'
  | .array left, .array right => IrConstant.beqEntries left right
  | _, _ => false

def IrConstant.beqKey : Option IrConstant → Option IrConstant → Bool
  | none, none => true
  | some left, some right => IrConstant.beq left right
  | _, _ => false

def IrConstant.beqEntry : IrConstantArrayEntry → IrConstantArrayEntry → Bool
  | .mk key value, .mk key' value' => IrConstant.beqKey key key' && IrConstant.beq value value'

def IrConstant.beqEntries : List IrConstantArrayEntry → List IrConstantArrayEntry → Bool
  | [], [] => true
  | left :: lefts, right :: rights => IrConstant.beqEntry left right && IrConstant.beqEntries lefts rights
  | _, _ => false

end

instance : BEq IrConstant := ⟨IrConstant.beq⟩

structure AttributeEntry where
  name : String
  arguments : List ConstId
  deriving DecidableEq

structure IrParam where
  local_ : LocalId
  default : Option IrConstant
  attributes : List AttributeEntry

instance : BEq IrParam where
  beq left right :=
    left.local_ == right.local_ && left.default == right.default &&
      left.attributes == right.attributes

structure IrCapture where
  local_ : LocalId
  deriving DecidableEq

structure IrFunction where
  params : List IrParam
  locals : List String
  localCount : Nat
  registerCount : Nat
  blocks : List BasicBlock
  span : IrSpan
  captures : List IrCapture
  attributes : List AttributeEntry

instance : BEq IrFunction where
  beq left right :=
    left.params == right.params && left.locals == right.locals &&
      left.localCount == right.localCount && left.registerCount == right.registerCount &&
      left.blocks == right.blocks && left.span == right.span &&
      left.captures == right.captures && left.attributes == right.attributes

structure ClassMethodEntry where
  function : FunctionId
  attributes : List AttributeEntry
  deriving DecidableEq

structure ClassPropertyEntry where
  default : Option ConstId
  attributes : List AttributeEntry
  deriving DecidableEq

structure ClassConstantEntry where
  value : Option ConstId
  attributes : List AttributeEntry
  deriving DecidableEq

structure ClassEnumCaseEntry where
  value : Option ConstId
  attributes : List AttributeEntry
  deriving DecidableEq

structure ClassEntry where
  id : ClassId
  methods : List ClassMethodEntry
  properties : List ClassPropertyEntry
  constants : List ClassConstantEntry
  enumCases : List ClassEnumCaseEntry
  attributes : List AttributeEntry
  constructor : Option FunctionId
  span : IrSpan
  deriving DecidableEq

structure FileEntry where
  id : FileId
  path : String
  deriving DecidableEq

structure FunctionEntry where
  name : String
  function : FunctionId
  deriving DecidableEq

structure GlobalConstantEntry where
  name : String
  value : ConstId
  span : IrSpan
  deriving DecidableEq

def irVersion : Nat := 1

structure IrUnit where
  version : Nat
  constants : List IrConstant
  functions : List IrFunction
  functionTable : List FunctionEntry
  constantTable : List GlobalConstantEntry
  classes : List ClassEntry
  files : List FileEntry
  entry : FunctionId

/-- A unit with one function. -/
def unitOf (constants : List IrConstant) (registerCount : Nat) (blocks : List BasicBlock) : IrUnit where
  version := irVersion
  constants
  functions := [{
    params := []
    locals := ["x"]
    localCount := 1
    registerCount
    blocks
    span := ⟨0, 0, 0⟩
    captures := []
    attributes := [] }]
  functionTable := []
  constantTable := []
  classes := []
  files := [⟨0, ""⟩]
  entry := 0

end Phrust.Ir
