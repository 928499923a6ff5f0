import Phrust.Optimizer.Branch
import Phrust.Optimizer.LiteralCompaction
import Phrust.Theory.KeyMap
import Phrust.Theory.ThreadedMap

/-!
# Copy propagation

Inside a block the pass remembers which register is a copy of which, and reads the source instead of the
copy. What it knows about a register is dropped when an instruction defines that register.
-/

namespace Phrust.Optimizer
open Ir

/-- From a copy to its source. -/
abbrev Aliases := KeyMap RegId RegId

def followAliases (aliases : Aliases) : Nat → RegId → RegId
  | 0, current => current
  | fuel + 1, current =>
    match aliases.get current with
    | none => current
    | some next => if next = current then current else followAliases aliases fuel next

/-- The chain of aliases is followed for as many steps as there are aliases. -/
def resolveRegisterAlias (register : RegId) (aliases : Aliases) : RegId :=
  followAliases aliases aliases.length register

section
variable (aliases : Aliases)

def invalidateAliasesTouching (register : RegId) : Aliases :=
  aliases.retain fun alias_ source => alias_ != register && source != register

def rewriteOperandRegisters : Operand → Operand
  | .register register => .register (resolveRegisterAlias register aliases)
  | operand => operand

def rewriteInstructionRegisterOperands (kind : InstructionKind) :
    InstructionKind := walkOperands (rewriteOperandRegisters aliases) kind

def rewriteTerminatorRegisterOperands (kind : TerminatorKind) : TerminatorKind :=
  kind.mapOperands (rewriteOperandRegisters aliases)

def recordMove : InstructionKind → Aliases
  | .move dst (.register src) =>
    if dst = src then aliases else aliases.insert dst (resolveRegisterAlias src aliases)
  | _ => aliases

/-- The aliases behind an instruction that has been rewritten. -/
def aliasesAfter (kind : InstructionKind) : Aliases :=
  recordMove ((definedRegisters kind).foldl invalidateAliasesTouching aliases) kind

def propagateInstruction (instruction : Instruction) : Instruction × Aliases :=
  let kind := rewriteInstructionRegisterOperands aliases instruction.kind
  ({ instruction with kind }, aliasesAfter aliases kind)

end

def propagateBlock (block : BasicBlock) : BasicBlock :=
  let propagated := mapWith propagateInstruction [] block.instructions
  { block with
    instructions := propagated.1
    terminator := block.terminator.map fun terminator =>
      { terminator with kind := rewriteTerminatorRegisterOperands propagated.2 terminator.kind } }

def functionMayPropagateCopies (function : IrFunction) : Bool :=
  function.blocks.any fun block => block.instructions.any fun instruction =>
    match instruction.kind with
    | .move _ (.register _) => true
    | _ => false

def propagateFunction (function : IrFunction) : IrFunction :=
  if functionMayPropagateCopies function then
    { function with blocks := function.blocks.map propagateBlock }
  else function

def copyPropagation (unit : IrUnit) : IrUnit :=
  { unit with functions := unit.functions.map propagateFunction }

end Phrust.Optimizer
