import Phrust.Ir.Unit
import Phrust.Theory.GraphSearch

/-!
# The verifier

`verifyUnit` collects the errors of a unit, in the order of the source. The analysis of register
definitions is a forward must-analysis: it sweeps over the reachable blocks until no fact changes.
-/

namespace Phrust.Ir

inductive VerificationErrorCode where
  | invalidVersion
  | invalidEntryFunction
  | invalidFileId
  | invalidClassId
  | invalidSpan
  | invalidBlockId
  | invalidInstrId
  | invalidRegId
  | invalidLocalId
  | invalidConstId
  | invalidFunctionId
  | duplicateFunctionName
  | duplicateConstantName
  | invalidBlockTarget
  | missingTerminator
  | undefinedRegisterUse
  | invalidCallArgMetadata
  deriving DecidableEq

structure VerificationError where
  code : VerificationErrorCode
  message : String
  deriving DecidableEq

/-- Report an error if the condition holds. -/
def errorIf (condition : Bool) (code : VerificationErrorCode) (message : String) : List VerificationError :=
  if condition then [⟨code, message⟩] else []

/-! ## Identifiers -/

def verifySpan (unit : IrUnit) (span : IrSpan) : List VerificationError :=
  errorIf (span.start > span.end_ || span.file ≥ unit.files.length) .invalidSpan
    s!"span file {span.file} range {span.start}..{span.end_} is invalid"

def verifyBlockId (id : BlockId) (expected : Nat) : List VerificationError :=
  errorIf (id != expected) .invalidBlockId s!"block table entry {expected} has id {id}"

def verifyBlockTarget (id : BlockId) (function : IrFunction) : List VerificationError :=
  errorIf (id ≥ function.blocks.length) .invalidBlockTarget s!"target block {id} is not defined"

def verifyRegister (id : RegId) (registerCount : Nat) : List VerificationError :=
  errorIf (id ≥ registerCount) .invalidRegId s!"register {id} exceeds count {registerCount}"

def verifyFunctionId (id : FunctionId) (functionCount : Nat) : List VerificationError :=
  errorIf (id ≥ functionCount) .invalidFunctionId s!"function {id} is not defined"

def verifyLocal (id : LocalId) (localCount : Nat) : List VerificationError :=
  errorIf (id ≥ localCount) .invalidLocalId s!"local {id} exceeds count {localCount}"

def verifyConstant (id : ConstId) (constantCount : Nat) : List VerificationError :=
  errorIf (id ≥ constantCount) .invalidConstId s!"constant {id} is not defined"

/-! ## Instructions -/

section
variable (unit : IrUnit) (function : IrFunction)

def verifyOperand : Operand → List VerificationError
  | .register id => verifyRegister id function.registerCount
  | .local_ id => verifyLocal id function.localCount
  | .constant id => verifyConstant id unit.constants.length

def verifyOptionalOperand : Option Operand → List VerificationError
  | some operand => verifyOperand unit function operand
  | none => []

def verifyOperands (operands : List Operand) : List VerificationError :=
  operands.flatMap (verifyOperand unit function)

def verifyOptionalRegister : Option RegId → List VerificationError
  | some id => verifyRegister id function.registerCount
  | none => []

def verifyOptionalLocal : Option LocalId → List VerificationError
  | some id => verifyLocal id function.localCount
  | none => []

def verifyOptionalTarget : Option BlockId → List VerificationError
  | some id => verifyBlockTarget id function
  | none => []

def verifyCallArg (arg : IrCallArg) : List VerificationError :=
  verifyOperand unit function arg.value ++
  (match arg.byRefLocal with
    | some local_ =>
      verifyLocal local_ function.localCount ++
      errorIf arg.unpack .invalidCallArgMetadata
        s!"unpacked call argument cannot carry by-reference local {local_}"
    | none => []) ++
  (match arg.byRefDim with
    | some dim =>
      verifyLocal dim.local_ function.localCount ++ verifyOperands unit function dim.dims ++
      errorIf arg.unpack .invalidCallArgMetadata
        "unpacked call argument cannot carry by-reference dimension metadata"
    | none => []) ++
  (match arg.byRefProperty with
    | some property =>
      verifyOperand unit function property.object ++
      errorIf arg.unpack .invalidCallArgMetadata
        "unpacked call argument cannot carry by-reference property metadata"
    | none => []) ++
  (match arg.byRefPropertyDim with
    | some propertyDim =>
      verifyOperand unit function propertyDim.object ++
      verifyOperands unit function propertyDim.dims ++
      errorIf arg.unpack .invalidCallArgMetadata
        "unpacked call argument cannot carry by-reference property dimension metadata"
    | none => [])

def verifyCallArgs (args : List IrCallArg) : List VerificationError :=
  args.flatMap (verifyCallArg unit function)

def verifyInstructionKind : InstructionKind → List VerificationError
  | .nop | .declareClass _ | .emitDiagnostic _ _ _ _ | .runtimeError _ _ | .leaveTry => []
  | .loadConst dst constant =>
    verifyRegister dst function.registerCount ++ verifyConstant constant unit.constants.length
  | .fetchConst dst _ _ | .resolveCallable dst _ | .fetchStaticProperty dst _ _
  | .issetStaticProperty dst _ _ | .emptyStaticProperty dst _ _ | .fetchClassConstant dst _ _
  | .newArray dst => verifyRegister dst function.registerCount
  | .registerConstant _ src | .discard src | .echo src | .throw src | .unsetProperty src _ =>
    verifyOperand unit function src
  | .declareFunction _ declared => verifyFunctionId declared unit.functions.length
  | .move dst src | .instanceOf dst src _ | .unary dst _ src | .cast dst _ src
  | .yieldFrom dst src | .cloneObject dst src | .makeException dst _ src | .acquireCallable dst src
  | .include dst _ src | .eval dst src | .fetchProperty dst src _ | .issetProperty dst src _
  | .emptyProperty dst src _ | .fetchDynamicStaticProperty dst src _ | .fetchObjectClassName dst src
  | .assignStaticProperty dst _ _ src | .arraySpread dst src | .foreachInit dst src =>
    verifyRegister dst function.registerCount ++ verifyOperand unit function src
  | .loadLocal dst local_ | .loadLocalQuiet dst local_ | .issetLocal dst local_
  | .emptyLocal dst local_ | .foreachInitRef dst local_ =>
    verifyRegister dst function.registerCount ++ verifyLocal local_ function.localCount
  | .storeLocal local_ src | .bindReferenceFromProperty local_ src _ | .initStaticLocal local_ _ src =>
    verifyLocal local_ function.localCount ++ verifyOperand unit function src
  | .bindReference target source =>
    verifyLocal target function.localCount ++ verifyLocal source function.localCount
  | .bindGlobal local_ _ | .bindReferenceStaticProperty _ _ local_ | .unsetLocal local_ =>
    verifyLocal local_ function.localCount
  | .bindReferenceDim local_ dims _ source | .bindReferenceFromDim local_ source dims =>
    verifyLocal local_ function.localCount ++ verifyLocal source function.localCount ++
      verifyOperands unit function dims
  | .bindReferenceProperty object _ source =>
    verifyOperand unit function object ++ verifyLocal source function.localCount
  | .bindReferencePropertyDim object _ dims _ source =>
    verifyOperand unit function object ++ verifyLocal source function.localCount ++
      verifyOperands unit function dims
  | .bindReferenceDimFromProperty local_ dims _ object _
  | .bindReferenceFromPropertyDim local_ object _ dims =>
    verifyLocal local_ function.localCount ++ verifyOperand unit function object ++
      verifyOperands unit function dims
  | .binary dst _ lhs rhs | .compare dst _ lhs rhs | .dynamicInstanceOf dst lhs rhs
  | .cloneWith dst lhs rhs | .pipe dst lhs rhs | .fetchDynamicProperty dst lhs rhs
  | .issetDynamicProperty dst lhs rhs | .emptyDynamicProperty dst lhs rhs
  | .assignProperty dst lhs _ rhs | .assignDynamicStaticProperty dst lhs _ rhs
  | .fetchDim dst lhs rhs _ _ | .arrayGet dst lhs rhs =>
    verifyRegister dst function.registerCount ++ verifyOperand unit function lhs ++
      verifyOperand unit function rhs
  | .yield dst key value =>
    verifyRegister dst function.registerCount ++ verifyOptionalOperand unit function key ++
      verifyOptionalOperand unit function value
  | .bindReferenceFromCall target _ args =>
    verifyLocal target function.localCount ++ verifyCallArgs unit function args
  | .bindReferenceFromMethodCall target object _ args =>
    verifyLocal target function.localCount ++ verifyOperand unit function object ++
      verifyCallArgs unit function args
  | .callFunction dst _ args | .callStaticMethod dst _ _ args | .newObject dst _ _ args =>
    verifyRegister dst function.registerCount ++ verifyCallArgs unit function args
  | .callMethod dst callee _ args | .callClosure dst callee args | .callCallable dst callee args
  | .dynamicNewObject dst callee args =>
    verifyRegister dst function.registerCount ++ verifyOperand unit function callee ++
      verifyCallArgs unit function args
  | .enterTry catch_ _ finally_ after exceptionLocal =>
    verifyOptionalTarget function catch_ ++ verifyOptionalTarget function finally_ ++
      verifyBlockTarget after function ++ verifyOptionalLocal function exceptionLocal
  | .endFinally after => verifyBlockTarget after function
  | .makeClosure dst closure captures =>
    verifyRegister dst function.registerCount ++
    errorIf (closure ≥ unit.functions.length) .invalidFunctionId
      s!"make_closure points at missing function {closure}" ++
    captures.flatMap fun capture => verifyOperand unit function capture.src
  | .issetDynamicPropertyDim dst object property dims
  | .emptyDynamicPropertyDim dst object property dims =>
    verifyRegister dst function.registerCount ++ verifyOperand unit function object ++
      verifyOperand unit function property ++ verifyOperands unit function dims
  | .issetPropertyDim dst object _ dims | .emptyPropertyDim dst object _ dims =>
    verifyRegister dst function.registerCount ++ verifyOperand unit function object ++
      verifyOperands unit function dims
  | .unsetPropertyDim object _ dims =>
    verifyOperand unit function object ++ verifyOperands unit function dims
  | .unsetDynamicProperty object property =>
    verifyOperand unit function object ++ verifyOperand unit function property
  | .unsetDynamicPropertyDim object property dims =>
    verifyOperand unit function object ++ verifyOperand unit function property ++
      verifyOperands unit function dims
  | .issetStaticPropertyDim dst _ _ dims | .emptyStaticPropertyDim dst _ _ dims =>
    verifyRegister dst function.registerCount ++ verifyOperands unit function dims
  | .unsetStaticPropertyDim _ _ dims | .bindReferenceFromStaticPropertyDim _ _ _ dims =>
    verifyOperands unit function dims
  | .assignPropertyDim dst object _ dims value _ =>
    verifyRegister dst function.registerCount ++ verifyOperand unit function object ++
      verifyOperands unit function dims ++ verifyOperand unit function value
  | .assignDynamicProperty dst object property value =>
    verifyRegister dst function.registerCount ++ verifyOperand unit function object ++
      verifyOperand unit function property ++ verifyOperand unit function value
  | .assignDynamicPropertyDim dst object property dims value _ =>
    verifyRegister dst function.registerCount ++ verifyOperand unit function object ++
      verifyOperand unit function property ++ verifyOperands unit function dims ++
      verifyOperand unit function value
  | .arrayInsert array key value byRefLocal =>
    verifyRegister array function.registerCount ++ verifyOptionalOperand unit function key ++
      verifyOperand unit function value ++ verifyOptionalLocal function byRefLocal
  | .assignDim dst local_ dims value | .appendDim dst local_ dims value =>
    verifyRegister dst function.registerCount ++ verifyLocal local_ function.localCount ++
      verifyOperands unit function dims ++ verifyOperand unit function value
  | .issetDim dst local_ dims | .emptyDim dst local_ dims =>
    verifyRegister dst function.registerCount ++ verifyLocal local_ function.localCount ++
      verifyOperands unit function dims
  | .unsetDim local_ dims =>
    verifyLocal local_ function.localCount ++ verifyOperands unit function dims
  | .foreachNext hasValue iterator key value =>
    verifyRegister hasValue function.registerCount ++ verifyRegister iterator function.registerCount ++
      verifyOptionalRegister function key ++ verifyRegister value function.registerCount
  | .foreachCleanup iterator => verifyRegister iterator function.registerCount
  | .foreachNextRef hasValue iterator key valueLocal =>
    verifyRegister hasValue function.registerCount ++ verifyRegister iterator function.registerCount ++
      verifyOptionalRegister function key ++ verifyLocal valueLocal function.localCount

def verifyInstruction (instruction : Instruction) : List VerificationError :=
  verifySpan unit instruction.span ++ verifyInstructionKind unit function instruction.kind

def verifyTerminator (terminator : Terminator) : List VerificationError :=
  verifySpan unit terminator.span ++
  match terminator.kind with
  | .jump target => verifyBlockTarget target function
  | .jumpIfFalse condition target | .jumpIfTrue condition target =>
    verifyOperand unit function condition ++ verifyBlockTarget target function
  | .jumpIf condition ifTrue ifFalse =>
    verifyOperand unit function condition ++ verifyBlockTarget ifTrue function ++
      verifyBlockTarget ifFalse function
  | .return_ value byRefLocal =>
    verifyOptionalOperand unit function value ++
    (match byRefLocal with
      | some local_ =>
        verifyLocal local_ function.localCount ++
        errorIf (value != some (.local_ local_)) .invalidCallArgMetadata
          s!"by-reference return local {local_} does not match return value"
      | none => [])
  | .exit value => verifyOptionalOperand unit function value

end

/-! ## Register uses and definitions -/

def operandRegisterUses : Operand → List RegId
  | .register register => [register]
  | .local_ _ | .constant _ => []

def operandsRegisterUses (operands : List Operand) : List RegId :=
  operands.flatMap operandRegisterUses

def optionalOperandRegisterUses : Option Operand → List RegId
  | some operand => operandRegisterUses operand
  | none => []

def callArgRegisterUses (arg : IrCallArg) : List RegId :=
  operandRegisterUses arg.value ++
  (match arg.byRefDim with
    | some target => operandsRegisterUses target.dims
    | none => []) ++
  (match arg.byRefProperty with
    | some target => operandRegisterUses target.object
    | none => []) ++
  (match arg.byRefPropertyDim with
    | some target => operandRegisterUses target.object ++ operandsRegisterUses target.dims
    | none => [])

def callArgsRegisterUses (args : List IrCallArg) : List RegId := args.flatMap callArgRegisterUses

/-- Every register read by an instruction, in the order of the operands. -/
def instructionRegisterUses : InstructionKind → List RegId
  | .nop | .declareFunction _ _ | .declareClass _ | .loadConst _ _ | .fetchConst _ _ _
  | .loadLocal _ _ | .loadLocalQuiet _ _ | .bindReference _ _ | .bindGlobal _ _ | .leaveTry
  | .fetchStaticProperty _ _ _ | .issetStaticProperty _ _ _ | .emptyStaticProperty _ _ _
  | .fetchClassConstant _ _ _ | .newArray _ | .issetLocal _ _ | .emptyLocal _ _ | .unsetLocal _
  | .foreachInitRef _ _ | .emitDiagnostic _ _ _ _ | .runtimeError _ _ | .enterTry _ _ _ _ _
  | .endFinally _ | .resolveCallable _ _ | .bindReferenceStaticProperty _ _ _ => []
  | .registerConstant _ src | .move _ src | .storeLocal _ src | .initStaticLocal _ _ src
  | .instanceOf _ src _ | .unary _ _ src | .cast _ _ src | .discard src | .echo src
  | .yieldFrom _ src | .throw src | .cloneObject _ src | .include _ _ src | .eval _ src
  | .fetchObjectClassName _ src | .fetchProperty _ src _ | .issetProperty _ src _
  | .emptyProperty _ src _ | .unsetProperty src _ | .foreachInit _ src
  | .bindReferenceProperty src _ _ | .bindReferenceFromProperty _ src _ | .makeException _ _ src
  | .acquireCallable _ src | .assignStaticProperty _ _ _ src
  | .fetchDynamicStaticProperty _ src _ => operandRegisterUses src
  | .unsetPropertyDim object _ dims | .issetPropertyDim _ object _ dims
  | .emptyPropertyDim _ object _ dims | .bindReferencePropertyDim object _ dims _ _
  | .bindReferenceDimFromProperty _ dims _ object _
  | .bindReferenceFromPropertyDim _ object _ dims =>
    operandRegisterUses object ++ operandsRegisterUses dims
  | .dynamicInstanceOf _ lhs rhs | .fetchDynamicProperty _ lhs rhs
  | .issetDynamicProperty _ lhs rhs | .emptyDynamicProperty _ lhs rhs
  | .unsetDynamicProperty lhs rhs | .binary _ _ lhs rhs | .compare _ _ lhs rhs
  | .arrayGet _ lhs rhs | .cloneWith _ lhs rhs | .pipe _ lhs rhs | .assignProperty _ lhs _ rhs
  | .assignDynamicStaticProperty _ lhs _ rhs | .fetchDim _ lhs rhs _ _ =>
    operandRegisterUses lhs ++ operandRegisterUses rhs
  | .unsetDynamicPropertyDim object property dims | .issetDynamicPropertyDim _ object property dims
  | .emptyDynamicPropertyDim _ object property dims =>
    operandRegisterUses object ++ operandRegisterUses property ++ operandsRegisterUses dims
  | .bindReferenceDim _ dims _ _ | .bindReferenceFromDim _ _ dims | .issetDim _ _ dims
  | .emptyDim _ _ dims | .unsetDim _ dims | .issetStaticPropertyDim _ _ _ dims
  | .emptyStaticPropertyDim _ _ _ dims | .unsetStaticPropertyDim _ _ dims
  | .bindReferenceFromStaticPropertyDim _ _ _ dims => operandsRegisterUses dims
  | .yield _ key value => optionalOperandRegisterUses key ++ optionalOperandRegisterUses value
  | .bindReferenceFromCall _ _ args | .callFunction _ _ args | .callStaticMethod _ _ _ args
  | .newObject _ _ _ args => callArgsRegisterUses args
  | .bindReferenceFromMethodCall _ callee _ args | .dynamicNewObject _ callee args
  | .callMethod _ callee _ args | .callClosure _ callee args | .callCallable _ callee args =>
    operandRegisterUses callee ++ callArgsRegisterUses args
  | .makeClosure _ _ captures => captures.flatMap fun capture => operandRegisterUses capture.src
  | .assignPropertyDim _ object _ dims value _ =>
    operandRegisterUses object ++ operandsRegisterUses dims ++ operandRegisterUses value
  | .assignDynamicProperty _ object property value =>
    operandRegisterUses object ++ operandRegisterUses property ++ operandRegisterUses value
  | .assignDynamicPropertyDim _ object property dims value _ =>
    operandRegisterUses object ++ operandRegisterUses property ++ operandsRegisterUses dims ++
      operandRegisterUses value
  | .arrayInsert array key value _ =>
    array :: (optionalOperandRegisterUses key ++ operandRegisterUses value)
  | .arraySpread array source => array :: operandRegisterUses source
  | .assignDim _ _ dims value | .appendDim _ _ dims value =>
    operandsRegisterUses dims ++ operandRegisterUses value
  | .foreachNext _ iterator _ _ | .foreachCleanup iterator | .foreachNextRef _ iterator _ _ =>
    [iterator]

def instructionRegisterDefs : InstructionKind → List RegId
  | .loadConst dst _ | .fetchConst dst _ _ | .move dst _ | .loadLocal dst _ | .loadLocalQuiet dst _
  | .binary dst _ _ _ | .compare dst _ _ _ | .instanceOf dst _ _ | .dynamicInstanceOf dst _ _
  | .unary dst _ _ | .cast dst _ _ | .yield dst _ _ | .yieldFrom dst _ | .callFunction dst _ _
  | .callMethod dst _ _ _ | .callStaticMethod dst _ _ _ | .cloneObject dst _ | .cloneWith dst _ _
  | .makeException dst _ _ | .makeClosure dst _ _ | .callClosure dst _ _ | .resolveCallable dst _
  | .acquireCallable dst _ | .callCallable dst _ _ | .pipe dst _ _ | .include dst _ _ | .eval dst _
  | .dynamicNewObject dst _ _ | .newObject dst _ _ _ | .fetchProperty dst _ _
  | .fetchDynamicProperty dst _ _ | .issetProperty dst _ _ | .issetDynamicProperty dst _ _
  | .emptyProperty dst _ _ | .emptyDynamicProperty dst _ _ | .issetDynamicPropertyDim dst _ _ _
  | .emptyDynamicPropertyDim dst _ _ _ | .issetPropertyDim dst _ _ _ | .emptyPropertyDim dst _ _ _
  | .fetchStaticProperty dst _ _ | .fetchDynamicStaticProperty dst _ _
  | .issetStaticProperty dst _ _ | .emptyStaticProperty dst _ _ | .issetStaticPropertyDim dst _ _ _
  | .emptyStaticPropertyDim dst _ _ _ | .fetchClassConstant dst _ _ | .fetchObjectClassName dst _
  | .assignProperty dst _ _ _ | .assignPropertyDim dst _ _ _ _ _ | .assignDynamicProperty dst _ _ _
  | .assignDynamicPropertyDim dst _ _ _ _ _ | .assignStaticProperty dst _ _ _
  | .assignDynamicStaticProperty dst _ _ _ | .newArray dst | .fetchDim dst _ _ _ _
  | .assignDim dst _ _ _ | .appendDim dst _ _ _ | .issetLocal dst _ | .emptyLocal dst _
  | .issetDim dst _ _ | .emptyDim dst _ _ | .foreachInit dst _ | .foreachInitRef dst _
  | .arrayGet dst _ _ => [dst]
  | .foreachNext hasValue _ key value => hasValue :: (key.toList ++ [value])
  | .foreachNextRef hasValue _ key _ => hasValue :: key.toList
  | _ => []

def terminatorRegisterUses : TerminatorKind → List RegId
  | .jump _ => []
  | .jumpIfFalse condition _ | .jumpIfTrue condition _ | .jumpIf condition _ _ =>
    operandRegisterUses condition
  | .return_ value _ | .exit value => optionalOperandRegisterUses value

/-- The targets that a terminator names. A fall-through to the next block is not among them. -/
def terminatorTargets : TerminatorKind → List BlockId
  | .jump target | .jumpIfFalse _ target | .jumpIfTrue _ target => [target]
  | .jumpIf _ ifTrue ifFalse => [ifTrue, ifFalse]
  | .return_ _ _ | .exit _ => []

/-! ## The analysis of register definitions -/

section
variable (function : IrFunction)

def blockTargets (index : BlockId) : List BlockId :=
  match function.blocks[index]?.bind BasicBlock.terminator with
  | some terminator => terminatorTargets terminator.kind
  | none => []

def blockPredecessors (target : BlockId) : List BlockId :=
  (List.range function.blocks.length).flatMap fun source =>
    (blockTargets function source).filter (· == target) |>.map fun _ => source

/-- The worklist of the source is a stack. -/
def reachableBlocks : List BlockId :=
  if function.blocks.isEmpty then []
  else
    (search (fun index =>
      ((blockTargets function index).filter (· < function.blocks.length)).reverse)
      (3 * function.blocks.length + 2) [0] []).getD []

def markInstructionDefs (kind : InstructionKind) (defined : List Bool) : List Bool :=
  (instructionRegisterDefs kind).foldl (fun defined register => defined.set register true) defined

def applyRegisterDefs (block : BasicBlock) (defined : List Bool) : List Bool :=
  block.instructions.foldl (fun defined instruction => markInstructionDefs instruction.kind defined)
    defined

def isFalseSuccessor (kind : TerminatorKind) (target : BlockId) : Bool :=
  match kind with
  | .jumpIfFalse _ falseTarget => falseTarget == target
  | .jumpIf _ _ ifFalse => ifFalse == target
  | .jumpIfTrue _ _ | .jump _ | .return_ _ _ | .exit _ => false

/-- On the edge to a false successor the key and the value of a foreach step are not there. -/
def applyEdgeRegisterDefs (block : BasicBlock) (target : BlockId) (outDefs : List Bool) : List Bool :=
  match block.terminator, block.instructions.getLast? with
  | some terminator, some last =>
    if isFalseSuccessor terminator.kind target then
      match last.kind with
      | .foreachNext _ _ key value => (key.toList ++ [value]).foldl (·.set · false) outDefs
      | .foreachNextRef _ _ key _ => key.toList.foldl (·.set · false) outDefs
      | _ => outDefs
    else outDefs
  | _, _ => outDefs

/-- What is defined at the start and at the end of each block. -/
structure RegisterFacts where
  inDefs : List (List Bool)
  outDefs : List (List Bool)
  deriving DecidableEq

def edgeDefs (facts : RegisterFacts) (target source : BlockId) : List Bool :=
  match function.blocks[source]? with
  | some block => applyEdgeRegisterDefs block target (facts.outDefs[source]?.getD [])
  | none => []

def intersectPredecessorDefs (reachable : List BlockId) (facts : RegisterFacts) (target : BlockId) :
    List Bool :=
  match (blockPredecessors function target).filter (· ∈ reachable) with
  | [] => List.replicate function.registerCount false
  | first :: rest =>
    rest.foldl
      (fun result source => List.zipWith and result (edgeDefs function facts target source))
      (edgeDefs function facts target first)

def initialFacts : RegisterFacts :=
  let top := List.replicate function.blocks.length (List.replicate function.registerCount true)
  let bottom := List.replicate function.registerCount false
  ⟨top.set 0 bottom, top.set 0 ((function.blocks[0]?.map (applyRegisterDefs · bottom)).getD bottom)⟩

/-- One block of a sweep; the flag is set when a fact changes. -/
def sweepBlock (reachable : List BlockId) (state : RegisterFacts × Bool) (index : BlockId) :
    RegisterFacts × Bool :=
  if index ∈ reachable then
    let facts := state.1
    let nextIn :=
      if index = 0 ∨ blockPredecessors function index = [] then
        List.replicate function.registerCount false
      else intersectPredecessorDefs function reachable facts index
    let nextOut := (function.blocks[index]?.map (applyRegisterDefs · nextIn)).getD nextIn
    if facts.inDefs[index]? = some nextIn ∧ facts.outDefs[index]? = some nextOut then state
    else (⟨facts.inDefs.set index nextIn, facts.outDefs.set index nextOut⟩, true)
  else state

def sweep (reachable : List BlockId) (facts : RegisterFacts) : RegisterFacts × Bool :=
  (List.range function.blocks.length).foldl (sweepBlock function reachable) (facts, false)

/-- Sweep until nothing changes; `none` when the fuel runs out. -/
def sweeps (reachable : List BlockId) : Nat → RegisterFacts → Option RegisterFacts
  | 0, _ => none
  | fuel + 1, facts =>
    let (next, changed) := sweep function reachable facts
    if changed then sweeps reachable fuel next else some next

/-- The facts at the end of the loop. A sweep that changes a fact takes a register out of it, so the
fuel is enough. -/
def registerFacts : RegisterFacts :=
  (sweeps function (reachableBlocks function) (2 * (function.blocks.length * function.registerCount) + 1)
    (initialFacts function)).getD (initialFacts function)

end

def reportUndefinedRegisters (place : String) (uses : List RegId) (defined : List Bool) :
    List VerificationError :=
  uses.flatMap fun register =>
    errorIf (defined[register]? == some false) .undefinedRegisterUse
      s!"{place} reads register {register} before definition"

def reportInstructions (block : BasicBlock) (defined : List Bool) :
    List Instruction → List VerificationError
  | [] =>
    match block.terminator with
    | some terminator =>
      reportUndefinedRegisters s!"block {block.id} terminator"
        (terminatorRegisterUses terminator.kind) defined
    | none => []
  | instruction :: instructions =>
    reportUndefinedRegisters s!"block {block.id} instruction {instruction.id}"
      (instructionRegisterUses instruction.kind) defined ++
    reportInstructions block (markInstructionDefs instruction.kind defined) instructions

def verifyRegisterDefinitions (function : IrFunction) : List VerificationError :=
  if function.blocks.length = 0 ∨ function.registerCount = 0 then []
  else
    function.blocks.zipIdx.flatMap fun (block, index) =>
      if index ∈ reachableBlocks function then
        reportInstructions block ((registerFacts function).inDefs[index]?.getD [])
          block.instructions
      else []

/-! ## Units -/

/-- Put the place before the message of each error. -/
def contextualizeErrors (context : String) (errors : List VerificationError) : List VerificationError :=
  errors.map fun error => { error with message := s!"{context}: {error.message}" }

section
variable (unit : IrUnit)

section
variable (functionId : FunctionId) (function : IrFunction)

def verifyBlock (block : BasicBlock) : List VerificationError :=
  (block.instructions.zipIdx.flatMap fun (instruction, index) =>
    let span := instruction.span
    contextualizeErrors s!"function={functionId} block={block.id} instruction={instruction.id} span={span.file}:{span.start}-{span.end_} operand/state"
      (errorIf (instruction.id != index) .invalidInstrId
        s!"block {block.id} instruction {index} has id {instruction.id}" ++
      verifyInstruction unit function instruction)) ++
  match block.terminator with
  | some terminator =>
    let span := terminator.span
    contextualizeErrors s!"function={functionId} block={block.id} terminator span={span.file}:{span.start}-{span.end_} operand/state"
      (verifyTerminator unit function terminator)
  | none =>
    [⟨.missingTerminator,
      s!"function={functionId} block={block.id} terminator-state: block has no terminator"⟩]

def verifyFunctionHeader : List VerificationError :=
  let span := function.span
  contextualizeErrors s!"function={functionId} span={span.file}:{span.start}-{span.end_} state"
    (verifySpan unit span ++
    errorIf (function.locals.length != function.localCount) .invalidLocalId
      s!"function has {function.locals.length} local names but local_count is {function.localCount}" ++
    (function.params.flatMap fun param => verifyLocal param.local_ function.localCount) ++
    function.captures.flatMap fun capture => verifyLocal capture.local_ function.localCount)

def verifyFunctionBody : List VerificationError :=
  verifyFunctionHeader unit functionId function ++
  (function.blocks.zipIdx.flatMap fun (block, index) =>
    contextualizeErrors s!"function={functionId} block={block.id} state"
      (verifyBlockId block.id index) ++
    verifyBlock unit functionId function block) ++
  contextualizeErrors s!"function={functionId} register-state" (verifyRegisterDefinitions function)

end

def verifyClass (index : Nat) (class_ : ClassEntry) : List VerificationError :=
  errorIf (class_.id != index) .invalidClassId
    s!"class table entry {index} has id {class_.id}" ++
  verifySpan unit class_.span ++
  (class_.methods.flatMap fun method => verifyFunctionId method.function unit.functions.length) ++
  (class_.properties.flatMap fun property =>
    property.default.toList.flatMap (verifyConstant · unit.constants.length)) ++
  class_.constructor.toList.flatMap (verifyFunctionId · unit.functions.length)

def verifyTables : List VerificationError :=
  errorIf (unit.version != irVersion) .invalidVersion s!"unsupported IR version {unit.version}" ++
  errorIf (unit.entry ≥ unit.functions.length) .invalidEntryFunction
    s!"entry function {unit.entry} is not defined" ++
  (unit.files.zipIdx.flatMap fun (file, index) =>
    errorIf (file.id != index) .invalidFileId s!"file table entry {index} has id {file.id}") ++
  (unit.classes.zipIdx.flatMap fun (class_, index) => verifyClass unit index class_) ++
  (unit.functionTable.flatMap fun entry =>
    errorIf (entry.function ≥ unit.functions.length) .invalidFunctionId
      s!"function table entry {entry.name.quote} points at missing function {entry.function}" ++
    errorIf ((unit.functionTable.filter (·.name == entry.name)).length > 1) .duplicateFunctionName
      s!"function table contains duplicate name {entry.name.quote}") ++
  unit.constantTable.flatMap fun entry =>
    verifyConstant entry.value unit.constants.length ++
    verifySpan unit entry.span ++
    errorIf ((unit.constantTable.filter (·.name == entry.name)).length > 1) .duplicateConstantName
      s!"constant table contains duplicate name {entry.name.quote}"

/-- The errors of a unit; none means that it is accepted. -/
def verifyUnit : List VerificationError :=
  verifyTables unit ++
  unit.functions.zipIdx.flatMap fun (function, index) => verifyFunctionBody unit index function

def Verified : Prop := verifyUnit unit = []

instance : Decidable (Verified unit) := inferInstanceAs (Decidable (verifyUnit unit = []))

end
end Phrust.Ir
