import Phrust.Ir.BlockRuns
import Phrust.Jit.ScalarFolding

/-!
# Runs of a region block

The scalar operations act on integers, and on the truth of null, Booleans, integers and strings, as the
native operations do; what they do on other values, and where the result is not an integer, is left
open. Every other instruction is an arbitrary function of the machine. Events are the diagnostics and
exceptions in the order in which they occur.
-/

namespace Phrust.Jit
open Ir

/-- The events of an operation, and its result unless it throws. Only the result may depend on the
world: how a float is printed depends on the `precision` setting. -/
structure Outcome (V W D : Type) where
  events : List D
  value : Option (W → V)

/-- What an instruction does to the registers that it writes, and what can be seen of it. -/
structure NativeEffect (V W D : Type) extends Effect V W where
  events : List D

/-- The parts of a run that are left open. -/
structure NativeRuntime (O W D : Type) where
  constant : Nat → RuntimeValue O
  linkedConstant : Nat → Nat → SsaValueClass → RuntimeValue O
  otherClass : O → SsaValueClass
  otherOutcome : ScalarExpression (RuntimeValue O) → Outcome (RuntimeValue O) W D
  otherTruth : RuntimeValue O → Outcome Bool W D
  perform : RegionInstructionKind → Machine (RuntimeValue O) W → NativeEffect (RuntimeValue O) W D

/-! ## Operations -/

/-- The truth of a value that has one without a diagnostic. -/
def truth? : RuntimeValue O → Option Bool
  | .null => some false
  | .bool value => some value
  | .int value => some (value != 0)
  | .string bytes => some (!bytes.isEmpty && bytes != [48])
  | .other _ => none

/-- `native_exact_arithmetic` on two integers, where the result is one. -/
def integerBinary (op : RegionBinaryOp) (lhs rhs : Int) : Option Int :=
  match op with
  | .add => checkedI64 (lhs + rhs)
  | .sub => checkedI64 (lhs - rhs)
  | .mul => checkedI64 (lhs * rhs)
  | .div =>
    if rhs = 0 ∨ lhs = -2 ^ 63 ∧ rhs = -1 then none
    else if lhs.tmod rhs = 0 then some (lhs.tdiv rhs)
    else none
  | .mod => if rhs = 0 then none else some (lhs.tmod rhs)
  | .concat => none
  | .pow => if 0 ≤ rhs ∧ rhs < 2 ^ 32 then checkedI64 (lhs ^ rhs.toNat) else none
  | .bitAnd => some (wordBinary (· &&& ·) lhs rhs)
  | .bitOr => some (wordBinary (· ||| ·) lhs rhs)
  | .bitXor => some (wordBinary (· ^^^ ·) lhs rhs)
  | .shiftLeft => if rhs < 0 then none else if 64 ≤ rhs then some 0 else some (shiftLeft lhs rhs)
  | .shiftRight =>
    if rhs < 0 then none else if 64 ≤ rhs then some (shiftRight lhs 63) else some (shiftRight lhs rhs)

def integerUnary (op : RegionUnaryOp) (src : Int) : Option Int :=
  match op with
  | .plus => some src
  | .minus => checkedI64 (-src)
  | .bitNot => some (-src - 1)
  | .not => none

def integerCompare (op : RegionCompareOpCode) (lhs rhs : Int) : RuntimeValue O :=
  if op = .spaceship then .int (OpenOperators.orderingInt (compare lhs rhs))
  else .bool (integerComparison op lhs rhs)

/-- The result of an operation that is silent and does not throw. -/
def ScalarExpression.result? : ScalarExpression (RuntimeValue O) → Option (RuntimeValue O)
  | .binary op (.int lhs) (.int rhs) => (integerBinary op lhs rhs).map .int
  | .unary .not src => (truth? src).map fun truth => .bool !truth
  | .unary op (.int src) => (integerUnary op src).map .int
  | .compare op (.int lhs) (.int rhs) => some (integerCompare op lhs rhs)
  | .cast .bool src => (truth? src).map .bool
  | .cast .int (.int src) => some (.int src)
  | .cast .void _ => some .null
  | _ => none

/-! ## Runs -/

/-- The machine behind an instruction, and whether control stays in the block. -/
structure Progress (V W D : Type) where
  machine : Machine V W
  events : List D
  stays : Bool

inductive BlockExit (V : Type) where
  | left
  | block (target : BlockId)
  | return_ (value : V) (finally_ : Option BlockId)
  | returnReference (local_ : LocalId) (finally_ : Option BlockId)
  | exit (value : Option V) (finally_ : Option BlockId)

@[ext]
structure BlockRun (V W D : Type) where
  machine : Machine V W
  events : List D
  exit : BlockExit V

def BlockRun.prepend (events : List D) (run : BlockRun V W D) : BlockRun V W D :=
  { run with events := events ++ run.events }

def RegionInstruction.writes (instruction : RegionInstruction) : List RegId :=
  match instruction.kind.scalarResult? with
  | some dst => [dst]
  | none => instruction.registerDefinitions

namespace NativeRuntime
variable (R : NativeRuntime O W D)

def constantValue (index : Nat) : RuntimeValue O :=
  if index = u32Max then .null
  else if index = jitValueFalse then .bool false
  else if index = jitValueTrue then .bool true
  else R.constant index

def operandValue (machine : Machine (RuntimeValue O) W) : RegionOperand → RuntimeValue O
  | .register register => machine.registers register
  | .local_ id => machine.locals id
  | .i64 value => .int value
  | .constant index => R.constantValue index
  | .linkedConstant link constant class_ => R.linkedConstant link constant class_

def outcome (expression : ScalarExpression (RuntimeValue O)) : Outcome (RuntimeValue O) W D :=
  match expression.result? with
  | some value => ⟨[], some fun _ => value⟩
  | none => R.otherOutcome expression

def truth (value : RuntimeValue O) : Outcome Bool W D :=
  match truth? value with
  | some truth => ⟨[], some fun _ => truth⟩
  | none => R.otherTruth value

/-- An operation that throws leaves the block. -/
def assign (machine : Machine (RuntimeValue O) W) (dst : RegId)
    (outcome : Outcome (RuntimeValue O) W D) : Progress (RuntimeValue O) W D :=
  match outcome.value with
  | some value => ⟨machine.set dst (value machine.world), outcome.events, true⟩
  | none => ⟨machine, outcome.events, false⟩

section
variable (instruction : RegionInstruction) (machine : Machine (RuntimeValue O) W)

def performed : Progress (RuntimeValue O) W D :=
  let effect := R.perform instruction.kind machine
  { machine :=
      { registers := fun register =>
          if register ∈ instruction.registerDefinitions then effect.written register
          else machine.registers register
        locals := effect.locals
        world := effect.world }
    events := effect.events
    stays := effect.stays }

def step : Progress (RuntimeValue O) W D :=
  match instruction.kind with
  | .move dst src => ⟨machine.set dst (R.operandValue machine src), [], true⟩
  | kind =>
    match kind.scalar? with
    | some (dst, expression) =>
      assign machine dst (R.outcome (expression.map (R.operandValue machine)))
    | none => R.performed instruction machine

end

def branch (machine : Machine (RuntimeValue O) W) (condition : RegionOperand)
    (ifTrue ifFalse : BlockId) : BlockRun (RuntimeValue O) W D :=
  let outcome := R.truth (R.operandValue machine condition)
  match outcome.value with
  | some truth => ⟨machine, outcome.events, .block (if truth machine.world then ifTrue else ifFalse)⟩
  | none => ⟨machine, outcome.events, .left⟩

def terminate (machine : Machine (RuntimeValue O) W) : RegionTerminator → BlockRun (RuntimeValue O) W D
  | .jump target => ⟨machine, [], .block target⟩
  | .jumpIfFalse condition target fallthrough => R.branch machine condition fallthrough target
  | .jumpIfTrue condition target fallthrough => R.branch machine condition target fallthrough
  | .jumpIf condition ifTrue ifFalse => R.branch machine condition ifTrue ifFalse
  | .return_ value finally_ => ⟨machine, [], .return_ (R.operandValue machine value) finally_⟩
  | .returnReference local_ finally_ => ⟨machine, [], .returnReference local_ finally_⟩
  | .exit value finally_ => ⟨machine, [], .exit (value.map (R.operandValue machine)) finally_⟩

def run (terminator : RegionTerminator) :
    List RegionInstruction → Machine (RuntimeValue O) W → BlockRun (RuntimeValue O) W D
  | [], machine => R.terminate machine terminator
  | instruction :: instructions, machine =>
    let progress := R.step instruction machine
    if progress.stays then (run terminator instructions progress.machine).prepend progress.events
    else ⟨progress.machine, progress.events, .left⟩

def runBlock (block : RegionBlock) (machine : Machine (RuntimeValue O) W) : BlockRun (RuntimeValue O) W D :=
  R.run block.terminator block.instructions machine

end NativeRuntime
end Phrust.Jit
