import Phrust.Optimizer.Branch
import Phrust.Optimizer.LiteralCompaction
import Phrust.Runtime.Operators
import Phrust.Theory.KeyMap
import Phrust.Theory.ThreadedMap

/-!
# Constant folding

Inside a block the pass remembers which constant a register holds. An operation on known constants
becomes a load of the result, which is added to the pool.
-/

namespace Phrust.Optimizer
open Ir

/-! ## The rules -/

def foldBinaryLiteral : BinaryOp → IrConstant → IrConstant → Option IrConstant
  | .add, .int lhs, .int rhs => (checkedI64 (lhs + rhs)).map .int
  | .sub, .int lhs, .int rhs => (checkedI64 (lhs - rhs)).map .int
  | .mul, .int lhs, .int rhs => (checkedI64 (lhs * rhs)).map .int
  | .concat, .string lhs, .string rhs => some (.string (lhs ++ rhs))
  | _, _, _ => none

def foldUnaryLiteral : UnaryOp → IrConstant → Option IrConstant
  | .not, .bool value => some (.bool !value)
  | _, _ => none

def strictIdentityScalar : IrConstant → Bool
  | .null | .bool _ | .int _ | .string _ | .stringBytes _ => true
  | .float _ | .namedConstant _ | .classConstant _ _ _ | .array _ => false

def strictLiteralIdentity : IrConstant → IrConstant → Option Bool
  | .null, .null => some true
  | .bool lhs, .bool rhs => some (lhs == rhs)
  | .int lhs, .int rhs => some (lhs == rhs)
  | .string lhs, .string rhs => some (lhs == rhs)
  | .stringBytes lhs, .stringBytes rhs => some (lhs == rhs)
  | lhs, rhs => if strictIdentityScalar lhs && strictIdentityScalar rhs then some false else none

def sameTypeLiteralEquality : IrConstant → IrConstant → Option Bool
  | .null, .null => some true
  | .bool lhs, .bool rhs => some (lhs == rhs)
  | .int lhs, .int rhs => some (lhs == rhs)
  | _, _ => none

def intPair : IrConstant → IrConstant → Option (Int × Int)
  | .int lhs, .int rhs => some (lhs, rhs)
  | _, _ => none

def foldCompareLiteral (op : CompareOp) (lhs rhs : IrConstant) : Option IrConstant :=
  match op with
  | .identical => (strictLiteralIdentity lhs rhs).map .bool
  | .notIdentical => (strictLiteralIdentity lhs rhs).map fun value => .bool !value
  | .equal => (sameTypeLiteralEquality lhs rhs).map .bool
  | .notEqual => (sameTypeLiteralEquality lhs rhs).map fun value => .bool !value
  | .less => (intPair lhs rhs).map fun pair => .bool (pair.1 < pair.2)
  | .lessEqual => (intPair lhs rhs).map fun pair => .bool (pair.1 ≤ pair.2)
  | .greater => (intPair lhs rhs).map fun pair => .bool (pair.1 > pair.2)
  | .greaterEqual => (intPair lhs rhs).map fun pair => .bool (pair.1 ≥ pair.2)
  | .spaceship => (intPair lhs rhs).map fun pair =>
    .int (OpenOperators.orderingInt (compare pair.1 pair.2))

/-! ## The walk over a block -/

def appendConstant (constants : List IrConstant) (constant : IrConstant) :
    Option (ConstId × List IrConstant) :=
  (u32? constants.length).map fun index => (index, constants ++ [constant])

/-- The pool, and how many instructions have been folded. -/
structure FoldPool where
  constants : List IrConstant
  folded : Nat

structure FoldState where
  pool : FoldPool
  known : KeyMap RegId ConstId

def resolveConstant (known : KeyMap RegId ConstId) : Operand → Option ConstId
  | .constant constant => some constant
  | .register register => known.get register
  | .local_ _ => none

namespace FoldState
variable (state : FoldState)

def forget (register : RegId) : FoldState :=
  { state with known := state.known.remove register }

def load (dst : RegId) (kind : InstructionKind) :
    Option (ConstId × List IrConstant) → InstructionKind × FoldState
  | some (constant, constants) =>
    (.loadConst dst constant, ⟨⟨constants, state.pool.folded + 1⟩, state.known.insert dst constant⟩)
  | none => (kind, state)

def literal? (operand : Operand) : Option IrConstant :=
  (resolveConstant state.known operand).bind (state.pool.constants[·]?)

/-- What the literals fold to, in the extended pool. -/
def fold2 (rule : IrConstant → IrConstant → Option IrConstant)
    (lhs rhs : Operand) : Option (ConstId × List IrConstant) := do
  let left ← state.literal? lhs
  let right ← state.literal? rhs
  appendConstant state.pool.constants (← rule left right)

def fold1 (rule : IrConstant → Option IrConstant) (src : Operand) :
    Option (ConstId × List IrConstant) := do
  let value ← state.literal? src
  appendConstant state.pool.constants (← rule value)

end FoldState

/-- The destination is forgotten before the operands are looked up. -/
def foldKind (state : FoldState) (kind : InstructionKind) : InstructionKind × FoldState :=
  match kind with
  | .loadConst dst constant => (kind, { state with known := state.known.insert dst constant })
  | .binary dst op lhs rhs =>
    let state := state.forget dst
    state.load dst kind (state.fold2 (foldBinaryLiteral op) lhs rhs)
  | .compare dst op lhs rhs =>
    let state := state.forget dst
    state.load dst kind (state.fold2 (foldCompareLiteral op) lhs rhs)
  | .unary dst op src =>
    let state := state.forget dst
    state.load dst kind (state.fold1 (foldUnaryLiteral op) src)
  | kind => (kind, (definedRegisters kind).foldl FoldState.forget state)

def foldInstruction (state : FoldState) (instruction : Instruction) : Instruction × FoldState :=
  let folded := foldKind state instruction.kind
  ({ instruction with kind := folded.1 }, folded.2)

def foldBlock (pool : FoldPool) (block : BasicBlock) : BasicBlock × FoldPool :=
  let folded := mapWith foldInstruction ⟨pool, []⟩ block.instructions
  ({ block with instructions := folded.1 }, folded.2.pool)

def functionMayFold (function : IrFunction) : Bool :=
  function.blocks.any fun block => block.instructions.any fun instruction =>
    match instruction.kind with
    | .binary _ _ _ _ | .compare _ _ _ _ | .unary _ _ _ => true
    | _ => false

def foldFunction (pool : FoldPool) (function : IrFunction) : IrFunction × FoldPool :=
  if functionMayFold function then
    let folded := mapWith foldBlock pool function.blocks
    ({ function with blocks := folded.1 }, folded.2)
  else (function, pool)

def constantFolding (unit : IrUnit) : IrUnit :=
  let folded := mapWith foldFunction ⟨unit.constants, 0⟩ unit.functions
  { unit with
    functions := folded.1
    constants := if 0 < folded.2.folded then folded.2.constants else unit.constants }

end Phrust.Optimizer
