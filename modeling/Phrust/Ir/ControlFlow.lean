import Phrust.Ir.Operands

/-!
# Control flow of a function

What the code of a block does is left to an oracle: how a condition that is not known comes out, and
whether the block is left by an exception. An exception goes to one of the targets that the `EnterTry`
and `EndFinally` instructions met so far name, or out of the function.
-/

namespace Phrust.Ir

/-- The constant that a register holds behind a sequence of instructions, if they load one. -/
def registerConstant (register : RegId) (instructions : List Instruction) : Option ConstId :=
  instructions.foldl (fun known instruction =>
    match instruction.kind with
    | .loadConst dst constant => if dst = register then some constant else known
    | kind => if register ∈ writtenRegisters kind then none else known) none

def knownCondition (constants : List IrConstant) (block : BasicBlock) (condition : Operand) : Option Bool :=
  let constant : Option ConstId :=
    match condition with
    | .constant constant => some constant
    | .register register => registerConstant register block.instructions
    | .local_ _ => none
  match constant.bind (constants[·]?) with
  | some (.bool value) => some value
  | _ => none

def exceptionTargets : InstructionKind → List BlockId
  | .enterTry catch_ _ finally_ after _ => after :: (catch_.toList ++ finally_.toList)
  | .endFinally after => [after]
  | _ => []

def BasicBlock.exceptionTargets (block : BasicBlock) : List BlockId :=
  block.instructions.flatMap fun instruction => Ir.exceptionTargets instruction.kind

/-! ## Runs -/

/-- How the code of a block is left. -/
inductive Diversion where
  | completes
  | caught (handler : BlockId)
  | uncaught
  deriving DecidableEq

structure Oracle where
  diverts : Nat → Diversion
  decides : Nat → Bool

structure Run where
  block : BlockId
  /-- the exception targets met so far -/
  handlers : List BlockId
  /-- the blocks with instructions that were run -/
  visited : List BlockId
  /-- how often the oracle was asked -/
  queries : Nat
  deriving DecidableEq

def Run.start : Run := ⟨0, [], [], 0⟩

def Run.goto (run : Run) (target : BlockId) : Run := { run with block := target }

def Run.asked (run : Run) : Run := { run with queries := run.queries + 1 }

inductive Ending where
  | terminated (kind : TerminatorKind)
  | threw
  deriving DecidableEq

inductive Progress where
  | on (run : Run)
  | ended (visited : List BlockId) (ending : Ending)
  | stuck
  deriving DecidableEq

section
variable (constants : List IrConstant) (oracle : Oracle)

section
variable (block : BasicBlock)

/-- A known condition is not asked for. -/
def branch (condition : Operand) (ifTrue ifFalse : BlockId) (run : Run) : Run :=
  match knownCondition constants block condition with
  | some value => run.goto (if value then ifTrue else ifFalse)
  | none => run.asked.goto (if oracle.decides run.queries then ifTrue else ifFalse)

/-- The terminator; a conditional with one target falls through to the block behind its own. -/
def follow (run : Run) : Progress :=
  match block.terminator with
  | none => .stuck
  | some ⟨_, .jump target⟩ => .on (run.goto target)
  | some ⟨_, .jumpIfFalse condition target⟩ =>
    .on (branch constants oracle block condition (run.block + 1) target run)
  | some ⟨_, .jumpIfTrue condition target⟩ =>
    .on (branch constants oracle block condition target (run.block + 1) run)
  | some ⟨_, .jumpIf condition ifTrue ifFalse⟩ =>
    .on (branch constants oracle block condition ifTrue ifFalse run)
  | some ⟨_, .return_ value byRefLocal⟩ => .ended run.visited (.terminated (.return_ value byRefLocal))
  | some ⟨_, .exit value⟩ => .ended run.visited (.terminated (.exit value))

def enter (run : Run) : Run :=
  if block.instructions.isEmpty then run
  else { run with
    handlers := run.handlers ++ block.exceptionTargets
    visited := run.visited ++ [run.block] }

/-- A block can be diverted if it has code or leaves the function. -/
def divertible : Bool :=
  !block.instructions.isEmpty ||
    match block.terminator with
    | some ⟨_, .return_ _ _⟩ | some ⟨_, .exit _⟩ => true
    | _ => false

def stepBlock (run : Run) : Progress :=
  let entered := enter block run
  if divertible block then
    match oracle.diverts entered.queries with
    | .completes => follow constants oracle block entered.asked
    | .caught handler =>
      if handler ∈ entered.handlers then .on (entered.asked.goto handler)
      else follow constants oracle block entered.asked
    | .uncaught => .ended entered.visited .threw
  else follow constants oracle block entered

end

def step (function : IrFunction) (run : Run) : Progress :=
  match function.blocks[run.block]? with
  | some block => stepBlock constants oracle block run
  | none => .stuck

/-- A run gets to a state. -/
def Reached (function : IrFunction) : Run → Prop :=
  Relation.ReflTransGen (fun run next => step constants oracle function run = .on next) Run.start

/-- What can be seen of a run: the blocks with instructions up to some moment, and how it ends. -/
inductive Observed (function : IrFunction) : List BlockId → Option Ending → Prop where
  | running (h : Reached constants oracle function run) : Observed function run.visited none
  | ended (h : Reached constants oracle function run)
    (hended : step constants oracle function run = .ended visited ending) :
    Observed function visited (some ending)

end

/-! ## Edges -/

section
variable (constants : List IrConstant) (function : IrFunction)

def chosenTargets (block : BasicBlock) (condition : Operand) (ifTrue ifFalse : BlockId) : List BlockId :=
  match knownCondition constants block condition with
  | some value => [if value then ifTrue else ifFalse]
  | none => [ifTrue, ifFalse]

/-- The blocks that a terminator can lead to. -/
def branchTargets (index : BlockId) (block : BasicBlock) : List BlockId :=
  match block.terminator with
  | some ⟨_, .jump target⟩ => [target]
  | some ⟨_, .jumpIfFalse condition target⟩ => chosenTargets constants block condition (index + 1) target
  | some ⟨_, .jumpIfTrue condition target⟩ => chosenTargets constants block condition target (index + 1)
  | some ⟨_, .jumpIf condition ifTrue ifFalse⟩ => chosenTargets constants block condition ifTrue ifFalse
  | _ => []

/-- The edges of control flow, those of exceptions included. -/
def edges (index : BlockId) : List BlockId :=
  match function.blocks[index]? with
  | some block => branchTargets constants index block ++ block.exceptionTargets
  | none => []

/-- Some path from the first block leads to a block. -/
def Enterable : BlockId → Prop := Reaches (edges constants function) 0

end
end Phrust.Ir
