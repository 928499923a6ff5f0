import Phrust.Ir.Verify

/-!
# Registers along a path

The paths of the control-flow graph from the first block on, each with the registers written along it.
A foreach step has a key and a value only where the register that says so was found to be true.
-/

namespace Phrust.Ir

def stepDefs : InstructionKind → List RegId
  | .foreachNext _ _ key value => key.toList ++ [value]
  | .foreachNextRef _ _ key _ => key.toList
  | _ => []

/-- The registers that an instruction writes in any case. -/
def sureDefs : InstructionKind → List RegId
  | .foreachNext hasValue _ _ _ | .foreachNextRef hasValue _ _ _ => [hasValue]
  | kind => instructionRegisterDefs kind

/-- The register that says whether a foreach step has a value. -/
def hasValueRegister : InstructionKind → Option RegId
  | .foreachNext hasValue _ _ _ | .foreachNextRef hasValue _ _ _ => some hasValue
  | _ => none

def TerminatorKind.condition : TerminatorKind → Option Operand
  | .jumpIfFalse condition _ | .jumpIfTrue condition _ | .jumpIf condition _ _ => some condition
  | .jump _ | .return_ _ _ | .exit _ => none

/-- A way out of a block: its target, the value that the condition is found to have, and whether it is
the fall-through to the next block. -/
structure Exit where
  target : BlockId
  holds : Option Bool
  falls : Bool
  deriving DecidableEq

def exits (function : IrFunction) (index : BlockId) (block : BasicBlock) : List Exit :=
  let fallThrough (holds : Bool) : List Exit :=
    if index + 1 < function.blocks.length then [⟨index + 1, some holds, true⟩] else []
  match block.terminator with
  | some ⟨_, .jump target⟩ => [⟨target, none, false⟩]
  | some ⟨_, .jumpIfFalse _ target⟩ => ⟨target, some false, false⟩ :: fallThrough true
  | some ⟨_, .jumpIfTrue _ target⟩ => ⟨target, some true, false⟩ :: fallThrough false
  | some ⟨_, .jumpIf _ ifTrue ifFalse⟩ => [⟨ifTrue, some true, false⟩, ⟨ifFalse, some false, false⟩]
  | _ => []

/-- What a block has written when its condition holds: the condition is the register that the last
instruction to write it, a foreach step, has set. -/
def valueDefs (block : BasicBlock) : List RegId :=
  match block.terminator.bind (·.kind.condition) with
  | some (.register register) =>
    match block.instructions.reverse.find? (register ∈ instructionRegisterDefs ·.kind) with
    | some step => if hasValueRegister step.kind = some register then stepDefs step.kind else []
    | none => []
  | _ => []

def exitDefs (block : BasicBlock) (exit : Exit) : List RegId :=
  if exit.holds = some true then valueDefs block else []

def blockDefs (instructions : List Instruction) : List RegId :=
  instructions.flatMap fun instruction => sureDefs instruction.kind

/-- A path from the first block, with its steps, the block it enters and the registers written so
far. -/
inductive Path (function : IrFunction) : List (BasicBlock × Exit) → BlockId → List RegId → Prop where
  | start : Path function [] 0 []
  | step (h : Path function steps index written) (hblock : function.blocks[index]? = some block)
    (hexit : exit ∈ exits function index block) :
    Path function (steps ++ [(block, exit)]) exit.target
      (written ++ blockDefs block.instructions ++ exitDefs block exit)

def SafeVisit (block : BasicBlock) (written : List RegId) : Prop :=
  (∀ before instruction after, block.instructions = before ++ instruction :: after →
    ∀ register ∈ instructionRegisterUses instruction.kind, register ∈ written ++ blockDefs before) ∧
  ∀ terminator, block.terminator = some terminator →
    ∀ register ∈ terminatorRegisterUses terminator.kind,
      register ∈ written ++ blockDefs block.instructions

/-- Every foreach step with a key or a value is the last instruction, and the terminator tests whether
it has one. -/
def Guarded (block : BasicBlock) : Prop :=
  ∀ before instruction after, block.instructions = before ++ instruction :: after →
    stepDefs instruction.kind ≠ [] → after = [] ∧ ∃ register,
      hasValueRegister instruction.kind = some register ∧
        block.terminator.bind (·.kind.condition) = some (.register register)

end Phrust.Ir
