import Phrust.Ir.Operands

/-!
# Runs of a block

An instruction is an arbitrary function of the values of its operands and of the registers that it
changes in place, of the locals and of the rest of the world. It does not see which registers its
operands are. Control can leave the block at any instruction.
-/

namespace Phrust.Ir

structure Machine (V W : Type) where
  registers : RegId → V
  locals : LocalId → V
  world : W

def Machine.set (machine : Machine V W) (dst : RegId) (value : V) : Machine V W :=
  { machine with
    registers := fun register => if register = dst then value else machine.registers register }

theorem Machine.set_injective {machine : Machine V W}
    (h : machine.set dst value = machine.set dst value') : value = value' := by
  have hdst := congrArg (fun machine => machine.registers dst) h
  simpa [set] using hdst

/-- What an instruction does to the registers that it writes, and whether control stays in the block. -/
structure Effect (V W : Type) where
  written : RegId → V
  locals : LocalId → V
  world : W
  stays : Bool

structure Interpretation (V W : Type) where
  literal : IrConstant → V
  missing : V
  run : InstructionKind → List V → (LocalId → V) → W → Effect V W

def Operand.eraseRegister : Operand → Operand
  | .register _ => .register 0
  | operand => operand

/-- An instruction without the names of the registers that are its operands. -/
def InstructionKind.erase (kind : InstructionKind) : InstructionKind :=
  kind.mapOperands Operand.eraseRegister

namespace Interpretation
variable (I : Interpretation V W) (constants : List IrConstant)

def constantValue (id : ConstId) : V := (constants[id]?.map I.literal).getD I.missing

def operandValue (machine : Machine V W) : Operand → V
  | .register id => machine.registers id
  | .local_ id => machine.locals id
  | .constant id => I.constantValue constants id

def reads (kind : InstructionKind) (machine : Machine V W) : List V :=
  (mutatedRegisters kind).map machine.registers ++
    kind.operands.map (I.operandValue constants machine)

def perform (writes : List RegId) (kind : InstructionKind) (machine : Machine V W) : Machine V W × Bool :=
  let effect := I.run kind.erase (I.reads constants kind machine) machine.locals machine.world
  ({ registers := fun register =>
      if register ∈ writes then effect.written register else machine.registers register
     locals := effect.locals
     world := effect.world }, effect.stays)

/-- `Move` copies its source, and every other instruction is arbitrary. -/
def copyStep (kind : InstructionKind) (machine : Machine V W) : Machine V W × Bool :=
  match kind with
  | .move dst src => (machine.set dst (I.operandValue constants machine src), true)
  | kind => I.perform constants (writtenRegisters kind) kind machine

end Interpretation

/-- Run instructions until control leaves the block. -/
def execute (step : InstructionKind → Machine V W → Machine V W × Bool) :
    List Instruction → Machine V W → Machine V W × Bool
  | [], machine => (machine, true)
  | instruction :: instructions, machine =>
    match step instruction.kind machine with
    | (machine, true) => execute step instructions machine
    | (machine, false) => (machine, false)

/-- What a run of a block shows: the values that are read, one list for each instruction that is reached
and one for the terminator, and how the block is left. -/
structure Observation (V W : Type) where
  reads : List (List V)
  machine : Machine V W
  stays : Bool

def Observation.prepend (values : List V) (rest : Observation V W) : Observation V W :=
  { rest with reads := values :: rest.reads }

def Interpretation.observe (I : Interpretation V W) (constants : List IrConstant)
    (terminator : Option Terminator) : List Instruction → Machine V W → Observation V W
  | [], machine =>
    ⟨[terminator.toList.flatMap fun terminator =>
      terminator.kind.operands.map (I.operandValue constants machine)], machine, true⟩
  | instruction :: instructions, machine =>
    match I.copyStep constants instruction.kind machine with
    | (next, true) =>
      (I.observe constants terminator instructions next).prepend
        (I.reads constants instruction.kind machine)
    | (next, false) => ⟨[I.reads constants instruction.kind machine], next, false⟩

end Phrust.Ir
