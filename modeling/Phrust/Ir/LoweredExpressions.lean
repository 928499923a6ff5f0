import Phrust.Runtime.NativeOps

/-!
# Lowered expressions

`lower_error_suppression_to_register` and `lower_inc_dec_to_register` of `lower/expressions.rs`. The
code is returned and not appended to a block, registers are numbered from `next` on, and a constant
stands in place of its number in the pool. Operands (`E`) and places that are no locals (`P`) have a
code of their own, which is one step here.
-/

namespace Phrust.Ir
open Phrust.Convert NativeOps

inductive IncDecOperator where
  | increment
  | decrement
  deriving DecidableEq, Repr

def IncDecOperator.op : IncDecOperator → NativeBinaryOp
  | .increment => .add
  | .decrement => .sub

/-- The argument of a call of `error_reporting`. -/
inductive ReportingArgument where
  | constant (value : Int)
  | register (id : RegId)

inductive LoweredStep (E P : Type) where
  | errorReporting (dst : RegId) (argument : Option ReportingArgument)
  | loadLocal (dst : RegId) (local_ : LocalId)
  | loadLocalQuiet (dst : RegId) (local_ : LocalId)
  | storeLocal (local_ : LocalId) (src : RegId)
  | loadInt (dst : RegId) (value : Int)
  | binary (dst : RegId) (op : NativeBinaryOp) (lhs rhs : RegId)
  | operand (expression : E) (dst : RegId)
  /-- Evaluate the receiver and the keys of a place. -/
  | locate (place : P) (dst : RegId)
  | fetch (place dst : RegId)
  | assign (place src : RegId)

/-! ## Lowering -/

inductive HirExpr (E : Type) where
  | variable_ (local_ : LocalId)
  | operand (expression : E)
  | errorSuppress (inner : HirExpr E)

/-- The register of the value, the code and the next register. -/
def lowerExprToRegister : HirExpr E → RegId → RegId × List (LoweredStep E P) × RegId
  | .variable_ local_, next => (next, [.loadLocal next local_], next + 1)
  | .operand expression, next => (next, [.operand expression next], next + 1)
  | .errorSuppress (.variable_ local_), next => (next, [.loadLocalQuiet next local_], next + 1)
  | .errorSuppress inner, oldReporting =>
    let (suppressed, code, next) := lowerExprToRegister inner (oldReporting + 2)
    (suppressed, .errorReporting oldReporting none ::
      .errorReporting (oldReporting + 1) (some (.constant 0)) ::
        (code ++ [.errorReporting next (some (.register oldReporting))]), next + 1)

inductive IncDecTarget (P : Type) where
  | local_ (id : LocalId)
  /-- Dimensions of a variable, of a property or of a static property: their receiver and keys are lowered
  once more for the assignment. -/
  | dims (place : P)
  /-- Properties, dynamic and static properties: the receiver stays in its register. -/
  | property (place : P)

def lowerIncDecToRegister (operator : IncDecOperator) (isPrefix : Bool) (target : IncDecTarget P)
    (old : RegId) : RegId × List (LoweredStep E P) × RegId :=
  let oneReg := old + 1
  let new := old + 2
  let (read, write) : List (LoweredStep E P) × List (LoweredStep E P) := match target with
    | .local_ id => ([.loadLocal old id], [.storeLocal id new])
    | .dims place => ([.locate place old, .fetch old old], [.locate place new, .assign new new])
    | .property place => ([.locate place old, .fetch old old], [.assign old new])
  (if isPrefix then new else old,
    read ++ .loadInt oneReg 1 :: .binary new operator.op old oneReg :: write, old + 3)

/-! ## Runs of the code -/

structure LoweredState (P F W : Type) where
  registers : RegId → Convert.Value F
  locals : LocalId → Convert.Value F
  places : P → Convert.Value F
  /-- The places whose receiver and keys are in registers. -/
  located : RegId → P
  /-- `error_reporting` -/
  reporting : Int
  world : W

/-- What the rest of the runtime does. `evaluate` says if the operand completes, and else throws. `locate`
says which place the receiver and the keys of a place expression lead to, and what evaluating them does. -/
structure LoweredHost (E P F W : Type) where
  floats : RuntimeFloats F
  evaluate : E → Int → W → Bool × Convert.Value F × Int × W
  locate : P → (LocalId → Convert.Value F) → W → P × (LocalId → Convert.Value F) × W

namespace LoweredHost
variable [DecidableEq P] (host : LoweredHost E P F W)

def setRegister (state : LoweredState P F W) (dst : RegId) (value : Convert.Value F) : LoweredState P F W :=
  { state with registers := Function.update state.registers dst value }

/-- One step, and whether control stays in the code. -/
def step (state : LoweredState P F W) : LoweredStep E P → Bool × LoweredState P F W
  | .errorReporting dst argument =>
    let reporting := match argument with
      | none => state.reporting
      | some (.constant value) => value
      | some (.register id) => match state.registers id with
        | .int value => value
        | _ => state.reporting
    (true, { setRegister state dst (.int state.reporting) with reporting })
  | .loadLocal dst local_ | .loadLocalQuiet dst local_ =>
    (true, setRegister state dst (state.locals local_))
  | .storeLocal local_ src =>
    (true, { state with locals := Function.update state.locals local_ (state.registers src) })
  | .loadInt dst value => (true, setRegister state dst (.int value))
  | .binary dst op lhs rhs =>
    match baselineBinary host.floats {} op (state.registers lhs) (state.registers rhs)
        .uninitialized with
    | some (.ok, _, value) => (true, setRegister state dst value)
    | _ => (false, state)
  | .operand expression dst =>
    let (completes, value, reporting, world) := host.evaluate expression state.reporting state.world
    (completes, { (if completes then setRegister state dst value else state) with reporting, world })
  | .locate place dst =>
    let (location, locals, world) := host.locate place state.locals state.world
    (true, { state with located := Function.update state.located dst location, locals, world })
  | .fetch place dst => (true, setRegister state dst (state.places (state.located place)))
  | .assign place src =>
    (true, { state with places := Function.update state.places (state.located place) (state.registers src) })

/-- An exception leaves the code, which has no handler of its own. -/
def run : List (LoweredStep E P) → LoweredState P F W → Bool × LoweredState P F W
  | [], state => (true, state)
  | first :: rest, state =>
    match host.step state first with
    | (true, state) => run rest state
    | (false, state) => (false, state)

end LoweredHost
end Phrust.Ir
