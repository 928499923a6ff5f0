import Phrust.Ir.Operands

/-!
# Branch simplification

The pass works in batches: all constant branches; else all forwards through empty blocks, found on the
unit as it is before the batch; else all unreachable empty tails. It ends when a batch would be empty.
-/

namespace Phrust.Optimizer
open Ir List

/-- The registers that an instruction writes, as the passes see it. -/
def definedRegisters : InstructionKind → List RegId
  | .arrayInsert array _ _ _ | .arraySpread array _ => [array]
  | .foreachNext hasValue iterator key value => [hasValue, iterator, value] ++ key.toList
  | .foreachNextRef hasValue iterator key _ => [hasValue, iterator] ++ key.toList
  | kind => instructionRegisterDefs kind

/-- The passes know of every write but the one of `ForeachCleanup`. -/
theorem mem_definedRegisters_iff (h : kind ≠ .foreachCleanup register) :
    register ∈ writtenRegisters kind ↔ register ∈ definedRegisters kind := by
  cases kind
  case foreachCleanup iterator =>
    change register ∈ [iterator] ↔ register ∈ []
    rw [mem_singleton, iff_false_right not_mem_nil]
    rintro rfl
    exact h rfl
  case foreachNext hasValue iterator key value =>
    change register ∈ hasValue :: (key.toList ++ [value]) ++ [iterator] ↔
      register ∈ [hasValue, iterator, value] ++ key.toList
    simp only [mem_append, mem_cons, not_mem_nil, or_false]
    tauto
  case foreachNextRef hasValue iterator key valueLocal =>
    change register ∈ hasValue :: key.toList ++ [iterator] ↔
      register ∈ [hasValue, iterator] ++ key.toList
    simp only [mem_append, mem_cons, not_mem_nil, or_false]
    tauto
  all_goals exact Iff.rfl

/-! ## The control-flow graph -/

section
variable (function : IrFunction)

def nextBlock (blockIndex : BlockId) : Option BlockId :=
  if blockIndex + 1 < function.blocks.length then some (blockIndex + 1) else none

/-- The successors of a block, with the fall-through of a conditional that names one target only. -/
def blockSuccessors (blockIndex : BlockId) : List BlockId :=
  match function.blocks[blockIndex]?.bind BasicBlock.terminator with
  | none => []
  | some terminator =>
    match terminator.kind with
    | .jump target => [target]
    | .jumpIfFalse _ target | .jumpIfTrue _ target =>
      target :: (nextBlock function blockIndex).toList
    | .jumpIf _ ifTrue ifFalse => [ifTrue, ifFalse]
    | .return_ _ _ | .exit _ => []

/-- The blocks that the search from block 0 marks. The worklist is a stack; a target out of range is
popped without effect. -/
def cfgReachable : List BlockId :=
  if function.blocks.isEmpty then []
  else
    (search (fun index =>
      ((blockSuccessors function index).filter (· < function.blocks.length)).reverse)
      (3 * function.blocks.length + 2) [0] []).getD []

end

def terminatorExplicitTargets : TerminatorKind → List BlockId
  | .jump target | .jumpIfFalse _ target | .jumpIfTrue _ target => [target]
  | .jumpIf _ ifTrue ifFalse => [ifTrue, ifFalse]
  | .return_ _ _ | .exit _ => []

def blockHasExceptionBoundary (block : BasicBlock) : Bool :=
  block.instructions.any fun instruction =>
    match instruction.kind with
    | .enterTry _ _ _ _ _ | .leaveTry | .endFinally _ | .throw _ | .makeException _ _ _ => true
    | _ => false

/-! ## Constant branches -/

/-- The constant that the last write in the block has put into a register. -/
def blockRegisterBoolConstant (block : BasicBlock) (register : RegId) : Option ConstId :=
  go block.instructions.reverse
where
  go : List Instruction → Option ConstId
    | [] => none
    | instruction :: instructions =>
      match instruction.kind with
      | .loadConst dst constant => if dst = register then some constant else go instructions
      | kind => if register ∈ definedRegisters kind then none else go instructions

def conditionBoolValue (block : BasicBlock) (condition : Operand) (constants : List IrConstant) :
    Option Bool :=
  let constant : Option ConstId :=
    match condition with
    | .constant constant => some constant
    | .register register => blockRegisterBoolConstant block register
    | .local_ _ => none
  match constant.bind (constants[·]?) with
  | some (.bool value) => some value
  | _ => none

def constantBranchTarget (function : IrFunction) (blockIndex : BlockId) (block : BasicBlock)
    (kind : TerminatorKind) (constants : List IrConstant) : Option BlockId :=
  match kind with
  | .jumpIfFalse condition target =>
    (conditionBoolValue block condition constants).bind fun value =>
      if value then nextBlock function blockIndex else some target
  | .jumpIfTrue condition target =>
    (conditionBoolValue block condition constants).bind fun value =>
      if value then some target else nextBlock function blockIndex
  | .jumpIf condition ifTrue ifFalse =>
    (conditionBoolValue block condition constants).map fun value =>
      if value then ifTrue else ifFalse
  | .jump _ | .return_ _ _ | .exit _ => none

/-! ## Finding a batch -/

inductive BranchSimplification where
  | constantBranch (function : Nat) (block : BlockId) (target : BlockId)
  | forwardEmptyBlock (function : Nat) (block oldTarget newTarget : BlockId)
  | removeUnreachableEmptyTail (function : Nat) (newLen removed : Nat)
  deriving DecidableEq

section
variable (constants : List IrConstant) (function : IrFunction)

/-- The target of the jump that replaces a block's terminator. -/
def blockConstantTarget (blockIndex : BlockId) (block : BasicBlock) : Option BlockId :=
  if blockHasExceptionBoundary block then none
  else block.terminator.bind fun terminator =>
    constantBranchTarget function blockIndex block terminator.kind constants

/-- Where an empty block jumps to, if it is not to itself. -/
def forwardTarget (target : BlockId) : Option BlockId :=
  match function.blocks[target]? with
  | some ⟨_, [], some ⟨_, .jump newTarget⟩⟩ => if newTarget = target then none else some newTarget
  | _ => none

/-- The distinct targets in increasing order. -/
def sortedTargets (kind : TerminatorKind) : List BlockId :=
  match terminatorExplicitTargets kind with
  | [left, right] =>
    if left < right then [left, right] else if right < left then [right, left] else [left]
  | targets => targets

def blockForwards (block : BasicBlock) : List (BlockId × BlockId) :=
  match block.terminator with
  | none => []
  | some terminator =>
    if blockHasExceptionBoundary block then []
    else (sortedTargets terminator.kind).filterMap fun target =>
      (forwardTarget function target).map (target, ·)

end

def instructionMetadataTargets (instruction : Instruction) : List BlockId :=
  match instruction.kind with
  | .enterTry catch_ _ finally_ after _ => after :: (catch_.toList ++ finally_.toList)
  | .endFinally after => [after]
  | _ => []

def keptBlocksReferenceRemovedTail (function : IrFunction) (newLen : Nat) : Bool :=
  ((function.blocks.take newLen).flatMap BasicBlock.instructions).any fun instruction =>
    (instructionMetadataTargets instruction).any (· ≥ newLen)

/-- The length after the removal of the blocks behind the last reachable one. -/
def unreachableEmptyTail (function : IrFunction) : Option Nat :=
  let newLen := (cfgReachable function).foldl max 0 + 1
  if newLen ≥ function.blocks.length then none
  else if keptBlocksReferenceRemovedTail function newLen then none
  else if (function.blocks.drop newLen).all fun block =>
      block.instructions.isEmpty && block.terminator.isSome && !blockHasExceptionBoundary block then
    some newLen
  else none

section
variable (unit : IrUnit)

def constantBranches : List BranchSimplification :=
  unit.functions.zipIdx.flatMap fun (function, functionIndex) =>
    function.blocks.zipIdx.flatMap fun (block, blockIndex) =>
      (blockConstantTarget unit.constants function blockIndex block).toList.map
        (.constantBranch functionIndex blockIndex)

def emptyBlockForwards : List BranchSimplification :=
  unit.functions.zipIdx.flatMap fun (function, functionIndex) =>
    function.blocks.zipIdx.flatMap fun (block, blockIndex) =>
      (blockForwards function block).map fun (oldTarget, newTarget) =>
        .forwardEmptyBlock functionIndex blockIndex oldTarget newTarget

def unreachableTails : List BranchSimplification :=
  unit.functions.zipIdx.flatMap fun (function, functionIndex) =>
    (unreachableEmptyTail function).toList.map fun newLen =>
      .removeUnreachableEmptyTail functionIndex newLen (function.blocks.length - newLen)

def findBranchSimplifications : Option (List BranchSimplification) :=
  if constantBranches unit ≠ [] then some (constantBranches unit)
  else if emptyBlockForwards unit ≠ [] then some (emptyBlockForwards unit)
  else if unreachableTails unit ≠ [] then some (unreachableTails unit)
  else none

end

/-! ## Applying a batch -/

def replaceTerminatorTarget (oldTarget newTarget : BlockId) : TerminatorKind → TerminatorKind
  | .jump target => .jump (if target = oldTarget then newTarget else target)
  | .jumpIfFalse condition target =>
    .jumpIfFalse condition (if target = oldTarget then newTarget else target)
  | .jumpIfTrue condition target =>
    .jumpIfTrue condition (if target = oldTarget then newTarget else target)
  | .jumpIf condition ifTrue ifFalse =>
    .jumpIf condition (if ifTrue = oldTarget then newTarget else ifTrue)
      (if ifFalse = oldTarget then newTarget else ifFalse)
  | .return_ value byRefLocal => .return_ value byRefLocal
  | .exit value => .exit value

def setTerminator (update : TerminatorKind → TerminatorKind) (block : BasicBlock) : BasicBlock :=
  { block with
    terminator := block.terminator.map fun terminator =>
      { terminator with kind := update terminator.kind } }

def applyBranchSimplification (unit : IrUnit) (simplification : BranchSimplification) : IrUnit :=
  let onFunction (function : Nat) (update : List BasicBlock → List BasicBlock) : IrUnit :=
    { unit with
      functions := unit.functions.modify function fun function =>
        { function with blocks := update function.blocks } }
  match simplification with
  | .constantBranch function block target =>
    onFunction function (·.modify block (setTerminator fun _ => .jump target))
  | .forwardEmptyBlock function block oldTarget newTarget =>
    onFunction function (·.modify block (setTerminator (replaceTerminatorTarget oldTarget newTarget)))
  | .removeUnreachableEmptyTail function newLen _ => onFunction function (·.take newLen)

/-- One turn of the loop. -/
def branchBatch (unit : IrUnit) : Option IrUnit :=
  (findBranchSimplifications unit).map (·.foldl applyBranchSimplification unit)

/-- The loop; `none` when the fuel runs out. -/
def branchSimplify : Nat → IrUnit → Option IrUnit
  | 0, _ => none
  | fuel + 1, unit =>
    match branchBatch unit with
    | none => some unit
    | some unit => branchSimplify fuel unit

end Phrust.Optimizer
