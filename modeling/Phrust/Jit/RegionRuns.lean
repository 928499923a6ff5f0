import Phrust.Jit.LoopInvariants
import Phrust.Jit.NativeRuns

/-!
# Runs of a region

A run starts at a block with any contents of the registers. It shows the register values that each
instruction and each terminator reads, and the events. It ends where control leaves the region; a return
or exit with a finally block goes on there.
-/

namespace Phrust.Jit
open Ir

inductive Sighting (V D : Type) where
  | reads (continuation : Nat) (values : List V)
  | leaves (values : List V)
  | event (event : D)
  deriving DecidableEq

/-- What is seen of some instructions, and the machine behind them. -/
structure Stretch (V W D : Type) where
  seen : List (Sighting V D)
  machine : Machine V W
  stays : Bool

def Stretch.prepend (seen : List (Sighting V D)) (stretch : Stretch V W D) : Stretch V W D :=
  { stretch with seen := seen ++ stretch.seen }

structure BlockTrace (V W D : Type) where
  seen : List (Sighting V D)
  machine : Machine V W
  exit : BlockExit V

/-- The block in which a run goes on. -/
def BlockExit.next : BlockExit V → Option BlockId
  | .left => none
  | .block target => some target
  | .return_ _ finally_ | .returnReference _ finally_ | .exit _ finally_ => finally_

/-- The reads of an instruction with one of these results are not shown. -/
def skips (hidden : List RegId) (instruction : RegionInstruction) : Bool :=
  (instructionResultRegister instruction.kind).any (· ∈ hidden)

namespace NativeRuntime
variable (R : NativeRuntime O W D) (hidden : List RegId)

/-- What is seen of one instruction. -/
def sighting (instruction : RegionInstruction) (machine : Machine (RuntimeValue O) W) :
    List (Sighting (RuntimeValue O) D) :=
  (if skips hidden instruction then []
    else [.reads instruction.continuationId (instruction.registerUses.map machine.registers)]) ++
    (R.step instruction machine).events.map .event

def stretch : List RegionInstruction → Machine (RuntimeValue O) W → Stretch (RuntimeValue O) W D
  | [], machine => ⟨[], machine, true⟩
  | instruction :: instructions, machine =>
    if (R.step instruction machine).stays then
      (stretch instructions (R.step instruction machine).machine).prepend
        (R.sighting hidden instruction machine)
    else ⟨R.sighting hidden instruction machine, (R.step instruction machine).machine, false⟩

def traceTerminator (terminator : RegionTerminator) (machine : Machine (RuntimeValue O) W) :
    BlockTrace (RuntimeValue O) W D :=
  let run := R.terminate machine terminator
  ⟨.leaves (terminator.registerUses.map machine.registers) :: run.events.map .event, run.machine, run.exit⟩

def traceBlock (block : RegionBlock) (machine : Machine (RuntimeValue O) W) :
    BlockTrace (RuntimeValue O) W D :=
  let body := R.stretch hidden block.instructions machine
  if body.stays then
    let last := R.traceTerminator block.terminator body.machine
    { last with seen := body.seen ++ last.seen }
  else ⟨body.seen, body.machine, .left⟩

/-- What is seen in the first blocks of a run. -/
def trace (region : RegionGraph) : Nat → Nat → Machine (RuntimeValue O) W → List (Sighting (RuntimeValue O) D)
  | 0, _, _ => []
  | fuel + 1, index, machine =>
    match region.blocks[index]? with
    | none => []
    | some block =>
      let run := R.traceBlock hidden block machine
      match run.exit.next.bind region.blockIndex with
      | some next => run.seen ++ trace region fuel next run.machine
      | none => run.seen

/-- The blocks that a run enters, with the machine. -/
inductive Visits (region : RegionGraph) (start : Nat) (machine : Machine (RuntimeValue O) W) :
    Nat → Machine (RuntimeValue O) W → Prop where
  | start : Visits region start machine start machine
  | next {index next : Nat} {block : RegionBlock} {current : Machine (RuntimeValue O) W} :
    Visits region start machine index current → region.blocks[index]? = some block →
    (R.traceBlock [] block current).exit.next.bind region.blockIndex = some next →
    Visits region start machine next (R.traceBlock [] block current).machine

/-- The result of a move or of a scalar operation. -/
def scalarOutcome (kind : RegionInstructionKind) (machine : Machine (RuntimeValue O) W) :
    Outcome (RuntimeValue O) W D :=
  match kind with
  | .move _ src => ⟨[], some fun _ => R.operandValue machine src⟩
  | kind =>
    match kind.scalar? with
    | some (_, expression) => R.outcome (expression.map (R.operandValue machine))
    | none => ⟨[], none⟩

/-- The operations one after the other are silent, do not throw and do not depend on the world. -/
def Quiet : List RegionInstruction → Machine (RuntimeValue O) W → Prop
  | [], _ => True
  | instruction :: instructions, machine =>
    (∃ value, R.scalarOutcome instruction.kind machine = ⟨[], some value⟩ ∧
      ∀ world world', value world = value world') ∧
    Quiet instructions (R.step instruction machine).machine

end NativeRuntime
end Phrust.Jit
