import Phrust.Jit.Region
import Phrust.Runtime.Operators
import Phrust.Theory.KeyMap
import Phrust.Theory.ThreadedMap

/-!
# Folding and value numbering inside a block

The first loop of `optimize_executable_region`. Along a block it keeps the immediates and the value
classes of the registers, and the register that holds each effect-free expression.
-/

namespace Phrust.Jit
open Ir

/-! ## Native handles -/

def u32Max : Nat := 2 ^ 32 - 1

def jitValueFalse : Nat := u32Max - 2

def jitValueTrue : Nat := u32Max - 3

def jitValueConstantTag : BitVec 64 := 0x7ff1000000000000

def jitValueRuntimeTag : BitVec 64 := 0x7ff2000000000000

def jitValueTagMask : BitVec 64 := 0xffff000000000000

def jitValueRuntimeKindMask : BitVec 64 := 0xffffffff00000000

def jitDecodeConstant (value : Int) : Option (BitVec 32) :=
  if BitVec.ofInt 64 value &&& jitValueTagMask = jitValueConstantTag then some (BitVec.ofInt 32 value)
  else none

def jitRuntimeValueTag (value : Int) : Option (BitVec 64) :=
  if BitVec.ofInt 64 value &&& jitValueTagMask = jitValueRuntimeTag then
    some (BitVec.ofInt 64 value &&& jitValueRuntimeKindMask)
  else none

def jitDecodeRuntimeValue (value : Int) : Option (BitVec 32) :=
  if (jitRuntimeValueTag value).isSome then some (BitVec.ofInt 32 value) else none

/-! ## Scalar expressions -/

/-- An operation without its destination. -/
inductive ScalarExpression (α : Type) where
  | binary (op : RegionBinaryOp) (lhs rhs : α)
  | unary (op : RegionUnaryOp) (src : α)
  | compare (op : RegionCompareOpCode) (lhs rhs : α)
  | cast (op : RegionCastOp) (src : α)
  deriving DecidableEq

namespace ScalarExpression

def map (f : α → β) : ScalarExpression α → ScalarExpression β
  | .binary op lhs rhs => .binary op (f lhs) (f rhs)
  | .unary op src => .unary op (f src)
  | .compare op lhs rhs => .compare op (f lhs) (f rhs)
  | .cast op src => .cast op (f src)

def operands : ScalarExpression α → List α
  | .binary _ lhs rhs | .compare _ lhs rhs => [lhs, rhs]
  | .unary _ src | .cast _ src => [src]

end ScalarExpression

namespace RegionInstructionKind

/-- The four kinds of scalar operations, with their destination. -/
def scalar? : RegionInstructionKind → Option (RegId × ScalarExpression RegionOperand)
  | .binary dst op lhs rhs => some (dst, .binary op lhs rhs)
  | .unary dst op src => some (dst, .unary op src)
  | .compare dst op lhs rhs => some (dst, .compare op lhs rhs)
  | .cast dst op src => some (dst, .cast op src)
  | _ => none

/-- The register that a move or a scalar operation assigns. -/
def scalarResult? : RegionInstructionKind → Option RegId
  | .move dst _ => some dst
  | kind => kind.scalar?.map Prod.fst

end RegionInstructionKind

/-! ## Folding -/

def isImmediate : RegionOperand → Bool
  | .i64 _ | .constant _ => true
  | _ => false

def resolve (constants : KeyMap RegId RegionOperand) (operand : RegionOperand) : RegionOperand :=
  match operand with
  | .register register => (constants.get register).getD operand
  | _ => operand

/-- An integer that a native slot would take for a handle is not folded. -/
def foldedImmediateInteger (value : Int) : Option RegionOperand :=
  if jitDecodeRuntimeValue value = none ∧ jitDecodeConstant value = none then some (.i64 value) else none

def encodedBool (value : Bool) : RegionOperand :=
  .constant (if value then jitValueTrue else jitValueFalse)

/-- Operations of two 64-bit words. -/
def wordBinary (op : BitVec 64 → BitVec 64 → BitVec 64) (lhs rhs : Int) : Int :=
  (op (BitVec.ofInt 64 lhs) (BitVec.ofInt 64 rhs)).toInt

def shiftLeft (lhs rhs : Int) : Int := (BitVec.ofInt 64 lhs <<< rhs.toNat).toInt

def shiftRight (lhs rhs : Int) : Int := ((BitVec.ofInt 64 lhs).sshiftRight rhs.toNat).toInt

def foldBinary (op : RegionBinaryOp) (lhs rhs : RegionOperand) : Option RegionOperand :=
  match lhs, rhs with
  | .i64 lhs, .i64 rhs =>
    let value := match op with
      | .add => checkedI64 (lhs + rhs)
      | .sub => checkedI64 (lhs - rhs)
      | .mul => checkedI64 (lhs * rhs)
      | .bitAnd => some (wordBinary (· &&& ·) lhs rhs)
      | .bitOr => some (wordBinary (· ||| ·) lhs rhs)
      | .bitXor => some (wordBinary (· ^^^ ·) lhs rhs)
      | .shiftLeft => if 0 ≤ rhs ∧ rhs < 64 then some (shiftLeft lhs rhs) else none
      | .shiftRight => if 0 ≤ rhs ∧ rhs < 64 then some (shiftRight lhs rhs) else none
      | .div | .mod | .concat | .pow => none
    value.bind foldedImmediateInteger
  | _, _ => none

def foldUnary (op : RegionUnaryOp) : RegionOperand → Option RegionOperand
  | .i64 src =>
    match op with
    | .plus => some (.i64 src)
    | .minus => (checkedI64 (-src)).bind foldedImmediateInteger
    | .bitNot => foldedImmediateInteger (-src - 1)
    | .not => some (encodedBool (src == 0))
  | _ => none

/-- The truth of a comparison of two integers, except for `<=>`. -/
def integerComparison (op : RegionCompareOpCode) (lhs rhs : Int) : Bool :=
  match op with
  | .equal | .identical => lhs == rhs
  | .notEqual | .notIdentical => lhs != rhs
  | .less => lhs < rhs
  | .lessEqual => lhs ≤ rhs
  | .greater => lhs > rhs
  | .greaterEqual => lhs ≥ rhs
  | .spaceship => false

def foldCompare (op : RegionCompareOpCode) (lhs rhs : RegionOperand) : Option RegionOperand :=
  match lhs, rhs with
  | .i64 lhs, .i64 rhs =>
    if op = .spaceship then some (.i64 (OpenOperators.orderingInt (compare lhs rhs)))
    else some (encodedBool (integerComparison op lhs rhs))
  | _, _ => none

def foldCast (op : RegionCastOp) (src : RegionOperand) : Option RegionOperand :=
  match op, src with
  | .bool, .i64 value => some (encodedBool (value != 0))
  | .int, .i64 value => some (.i64 value)
  | .void, _ => some (.constant u32Max)
  | _, _ => none

def immediateTruthy : RegionOperand → Option Bool
  | .i64 value => some (value != 0)
  | .constant value =>
    if value = u32Max ∨ value = jitValueFalse then some false
    else if value = jitValueTrue then some true
    else none
  | _ => none

def ScalarExpression.fold : ScalarExpression RegionOperand → Option RegionOperand
  | .binary op lhs rhs => foldBinary op lhs rhs
  | .unary op src => foldUnary op src
  | .compare op lhs rhs => foldCompare op lhs rhs
  | .cast op src => foldCast op src

/-! ## Value classes -/

def operandClass (classes : KeyMap RegId SsaValueClass) : RegionOperand → Option SsaValueClass
  | .i64 _ => some .int
  | .constant value =>
    if value = u32Max then some .null
    else if value = jitValueFalse ∨ value = jitValueTrue then some .bool
    else none
  | .register register => classes.get register
  | .local_ _ | .linkedConstant .. => none

namespace SsaValueClass

def nullBoolInt : SsaValueClass → Bool
  | .null | .bool | .int => true
  | _ => false

def nullBoolNumber (class_ : SsaValueClass) : Bool := class_.nullBoolInt || class_ = .float

end SsaValueClass

/-- The table of `instruction_is_pure_scalar`, by the classes of the operands. -/
def ScalarExpression.pureClasses : ScalarExpression (Option SsaValueClass) → Bool
  | .binary _ lhs rhs => lhs = some .int && rhs = some .int
  | .unary op src =>
    match op with
    | .not => src.any (·.nullBoolInt)
    | .plus | .minus => src = some .int
    | .bitNot => src = some .int || src = some .stringHandle
  | .compare _ lhs rhs =>
    lhs.any (·.nullBoolNumber) && rhs.any (·.nullBoolNumber) ||
      lhs = some .stringHandle && rhs = some .stringHandle
  | .cast op src =>
    match op with
    | .bool | .float => src.any (·.nullBoolNumber)
    | .int | .void => src.any (·.nullBoolInt)
    | .array => src.any fun class_ =>
      class_.nullBoolNumber || class_ = .stringHandle || class_ = .arrayHandle
    | .string => src.any fun class_ => class_.nullBoolInt || class_ = .stringHandle
    | .object => false

def instructionIsPureScalar (classes : KeyMap RegId SsaValueClass) (kind : RegionInstructionKind) : Bool :=
  kind.scalar?.any fun (_, expression) => (expression.map (operandClass classes)).pureClasses

def castClass : RegionCastOp → Option SsaValueClass
  | .bool => some .bool
  | .int => some .int
  | .float => some .float
  | .array => some .arrayHandle
  | .string => some .stringHandle
  | .void => some .null
  | .object => none

/-- The class of an integer operation is `Int`, also where PHP's result is a float or a string. -/
def instructionResultClass (classes : KeyMap RegId SsaValueClass) :
    RegionInstructionKind → Option (RegId × SsaValueClass)
  | .move dst src => (operandClass classes src).map (dst, ·)
  | .binary dst _ lhs rhs =>
    if operandClass classes lhs = some .int ∧ operandClass classes rhs = some .int then
      some (dst, .int)
    else none
  | .unary dst op src =>
    if op = .not then some (dst, .bool)
    else if op = .bitNot ∧ operandClass classes src = some .stringHandle then
      some (dst, .stringHandle)
    else if operandClass classes src = some .int then some (dst, .int)
    else none
  | .compare dst op _ _ => some (dst, if op = .spaceship then .int else .bool)
  | .cast dst op _ => (castClass op).map (dst, ·)
  | _ => none

/-! ## The walk over a block -/

/-- What is known behind an instruction. The text that keys an expression in the source tells its
operation and its resolved operands apart, so the expression itself is the key. -/
structure BlockFacts where
  constants : KeyMap RegId RegionOperand
  classes : KeyMap RegId SsaValueClass
  expressions : KeyMap (ScalarExpression RegionOperand) RegId

namespace BlockFacts
variable (facts : BlockFacts)

def noteMove : RegionInstructionKind → BlockFacts
  | .move dst src =>
    if isImmediate (resolve facts.constants src) then
      { facts with constants := facts.constants.insert dst (resolve facts.constants src) }
    else facts
  | _ => facts

section
variable (kind : RegionInstructionKind)

/-- The immediate that an operation folds to. -/
def folded? : Option (RegId × RegionOperand) :=
  kind.scalar?.bind fun (dst, expression) =>
    (expression.map (resolve facts.constants)).fold.map (dst, ·)

/-- The expression under which an effect-free operation is numbered. -/
def numbered? : Option (RegId × ScalarExpression RegionOperand) :=
  if instructionIsPureScalar facts.classes kind then
    kind.scalar?.map fun (dst, expression) => (dst, expression.map (resolve facts.constants))
  else none

def noteClass : Option (RegId × SsaValueClass) → BlockFacts
  | some (dst, class_) => { facts with classes := facts.classes.insert dst class_ }
  | none => facts

/-- An immediate in place of the operation. -/
def replaceFolded (dst : RegId) (value : RegionOperand) : RegionInstructionKind × BlockFacts :=
  (.move dst value, { facts with constants := facts.constants.insert dst value }.noteClass
    ((operandClass facts.classes value).map (dst, ·)))

/-- The register of an equal expression in place of the operation, or the expression is recorded. -/
def number : RegionInstructionKind × BlockFacts :=
  match facts.numbered? kind with
  | some (dst, key) =>
    match facts.expressions.get key with
    | some existing => (.move dst (.register existing), facts)
    | none => (kind, { facts with expressions := (key, dst) :: facts.expressions })
  | none => (kind, facts)

def rewriteKind : RegionInstructionKind × BlockFacts :=
  let facts := facts.noteMove kind
  match facts.folded? kind with
  | some (dst, value) => facts.replaceFolded dst value
  | none =>
    let numbered := facts.number kind
    (numbered.1, numbered.2.noteClass (instructionResultClass numbered.2.classes numbered.1))

end

def rewriteInstruction (instruction : RegionInstruction) : RegionInstruction × BlockFacts :=
  let rewritten := facts.rewriteKind instruction.kind
  ({ instruction with kind := rewritten.1 }, rewritten.2)

def rewriteTerminator (terminator : RegionTerminator) : RegionTerminator :=
  match terminator with
  | .jumpIfFalse condition target fallthrough =>
    match immediateTruthy (resolve facts.constants condition) with
    | some truthy => .jump (if truthy then fallthrough else target)
    | none => terminator
  | .jumpIfTrue condition target fallthrough =>
    match immediateTruthy (resolve facts.constants condition) with
    | some truthy => .jump (if truthy then target else fallthrough)
    | none => terminator
  | .jumpIf condition ifTrue ifFalse =>
    match immediateTruthy (resolve facts.constants condition) with
    | some truthy => .jump (if truthy then ifTrue else ifFalse)
    | none => terminator
  | terminator => terminator

end BlockFacts

/-- The first loop of `optimize_executable_region`, for one block. -/
def RegionBlock.optimizeScalars (block : RegionBlock) : RegionBlock :=
  let rewritten := mapWith BlockFacts.rewriteInstruction ⟨[], [], []⟩ block.instructions
  { block with
    instructions := rewritten.1
    terminator := rewritten.2.rewriteTerminator block.terminator }

end Phrust.Jit
