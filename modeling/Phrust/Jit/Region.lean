import Mathlib.Data.List.Dedup
import Mathlib.Data.List.Sort
import Phrust.Ir.Verify

/-!
# Executable region graphs

The region form of a function: the instructions of the intermediate representation with native
operands, and explicit successors. An instruction keeps the source instruction that it was made from;
where it was not rewritten, the source instruction tells its registers.
-/

namespace Phrust.Jit
open Ir

/-! ## Value classes -/

/-- PHP-visible value classes tracked independently from ownership. -/
inductive SsaValueClass where
  | uninitialized | null | bool | int | float | stringHandle | arrayHandle | objectHandle
  | referenceHandle | callableHandle | resourceHandle | generatorHandle | fiberHandle | mixedHandle
  deriving DecidableEq

/-! ## Operations and operands -/

inductive RegionBinaryOp where
  | add | sub | mul | div | mod | concat | pow | bitAnd | bitOr | bitXor | shiftLeft | shiftRight
  deriving DecidableEq

inductive RegionUnaryOp where
  | plus | minus | not | bitNot
  deriving DecidableEq

inductive RegionCompareOpCode where
  | equal | notEqual | identical | notIdentical | less | lessEqual | greater | greaterEqual
  | spaceship
  deriving DecidableEq

inductive RegionCastOp where
  | bool | int | float | string | array | object | void
  deriving DecidableEq

/-- Region operand detached from the source unit's constant pool. -/
inductive RegionOperand where
  | register (id : RegId)
  | local_ (id : LocalId)
  | i64 (value : Int)
  | constant (index : Nat)
  | linkedConstant (linkIndex constant : Nat) (class_ : SsaValueClass)
  deriving DecidableEq

def RegionOperand.registers : RegionOperand → List RegId
  | .register id => [id]
  | _ => []

inductive RegionCallResult where
  | register (id : RegId)
  | referenceLocal (id : LocalId)
  | discard

/-- A property name resolved either statically or from a runtime operand. -/
inductive RegionPropertyName where
  | static (name : String)
  | fixedDynamic (name : String)
  | dynamic (name : RegionOperand)

inductive RegionClassName where
  | static (name : String)
  | dynamic (name : RegionOperand)

inductive RegionSemanticOp where
  | staticPropertyFetch (className : RegionClassName) (property : String)
  | staticPropertyAssign (className : RegionClassName) (property : String) (value : RegionOperand)
  | staticPropertyIsset (className : RegionClassName) (property : String)
  | staticPropertyEmpty (className : RegionClassName) (property : String)
  | staticPropertyDimIsset (className : RegionClassName) (property : String)
      (dimensions : List RegionOperand)
  | staticPropertyDimEmpty (className : RegionClassName) (property : String)
      (dimensions : List RegionOperand)
  | staticPropertyDimUnset (className : RegionClassName) (property : String)
      (dimensions : List RegionOperand)
  | staticPropertyReference (target : LocalId) (className : RegionClassName) (property : String)
      (dimensions : List RegionOperand) (bindSourceIntoProperty : Bool)
  | classConstantFetch (className constant : String)
  | objectClassName (object : RegionOperand)
  | instanceOf (object : RegionOperand) (className : String)
  | dynamicInstanceOf (object target : RegionOperand)
  | resolveCallable (callable : CallableKind)
  | acquireCallable (value : RegionOperand)
  | propertyFetch (object : RegionOperand) (property : RegionPropertyName)
  | propertyAssign (object : RegionOperand) (property : RegionPropertyName) (value : RegionOperand)
  | propertyIsset (object : RegionOperand) (property : RegionPropertyName)
  | propertyEmpty (object : RegionOperand) (property : RegionPropertyName)
  | propertyUnset (object : RegionOperand) (property : RegionPropertyName)
  | propertyDimAssign (object : RegionOperand) (property : RegionPropertyName)
      (dimensions : List RegionOperand) (value : RegionOperand) (append : Bool)
  | propertyDimIsset (object : RegionOperand) (property : RegionPropertyName)
      (dimensions : List RegionOperand)
  | propertyDimEmpty (object : RegionOperand) (property : RegionPropertyName)
      (dimensions : List RegionOperand)
  | propertyDimUnset (object : RegionOperand) (property : RegionPropertyName)
      (dimensions : List RegionOperand)
  | bindGlobal (local_ : LocalId) (name : String)
  | boundClosureClass (boundObject : RegionOperand)

/-- Typed target resolved by a direct indirection entry or the native trampoline. -/
inductive RegionCallTarget where
  | function (name : String) (function : Option FunctionId) (linkedFunction : Option Nat)
  | method (receiver : Operand) (method : String) (function : Option FunctionId)
      (linkedFunction receiverLayoutId : Option Nat)
  | staticMethod (className method : String)
  | closure (callee : Operand) (function : Option FunctionId) (boundObjectCount captureCount : Nat)
  | callable (callee : Operand)
  | pipe (callable : Operand)
  | constructor (displayClassName className : String)
  | dynamicConstructor (className : Operand)
  | semantic (operation : RegionSemanticOp)

structure RegionNativeCall where
  result : RegionCallResult
  target : RegionCallTarget
  args : List IrCallArg
  argumentOperandOffset : Nat
  operands : List (Option RegionOperand)
  directArity : Option Nat
  variadic : Bool
  returnsByReference : Bool
  callerStrictTypes : Bool

structure RegionStableCallback where
  name : String
  function : Option FunctionId
  receiver : Option RegionOperand
  closure : Option RegionOperand
  boundObjectCount : Nat
  captureCount : Nat
  returnsInt : Bool
  returnsString : Bool
  returnsReleasableScalar : Bool

inductive RegionArrayCallbackTarget where
  | stable (callback : RegionStableCallback)
  | runtime (callback : RegionOperand)

inductive RegionArrayCallbackOperation where
  | map | filterValue | filterKey | filterValueAndKey | reduce | all | any | find | findKey | usort
  | uasort | uksort | walk | walkRecursive | pregReplace
  deriving DecidableEq

structure RegionArrayCallbackCall where
  result : RegId
  operation : RegionArrayCallbackOperation
  callback : RegionArrayCallbackTarget
  arrays : List RegionOperand
  initial : Option RegionOperand
  mutableLocal : Option LocalId
  callerStrictTypes : Bool

structure RegionPregCallbackArrayEntry where
  pattern : RegionOperand
  callback : RegionArrayCallbackTarget

structure RegionPregCallbackArrayCall where
  result : RegId
  entries : List RegionPregCallbackArrayEntry
  subject : RegionOperand
  limit : RegionOperand
  countLocal : Option LocalId
  callerStrictTypes : Bool

inductive RegionNativeControl where
  | enterTry (handlerIndex : Nat)
  | leaveTry
  | endFinally (after : BlockId) (outerFinally : Option BlockId)
  | throw (value : RegionOperand)
  | makeException (dst : RegId) (className : String) (message : Option RegionOperand)

inductive RegionNativeSuspend where
  | generatorYield (dst : RegId) (key value : Option RegionOperand)
  | generatorDelegate (dst : RegId) (source : RegionOperand)
  | fiberSuspend (dst : RegId) (value : Option RegionOperand)

structure RegionNativeClosureCapture where
  name : String
  local_ : LocalId
  byRef : Bool

inductive RegionNativeDynamicCode where
  | include (dst : RegId) (kind : IncludeKind) (path : RegionOperand)
  | eval (dst : RegId) (code : RegionOperand)
  | declareFunction (name : String) (function : FunctionId)
  | declareClass (name : String)
  | registerConstant (name : String) (value : RegionOperand)
  | emitDiagnostic
  | makeClosure (dst : RegId) (function : FunctionId) (captures : List RegionNativeClosureCapture)
      (boundThisLocal : Option LocalId)

inductive RegionInstructionKind where
  | nop
  | move (dst : RegId) (src : RegionOperand)
  | loadLocal (dst : RegId) (local_ : LocalId) (quiet : Bool)
  | storeLocal (local_ : LocalId) (src : RegionOperand)
  | assignLocalResult (dst : RegId) (local_ : LocalId) (value : RegionOperand)
  | bindReference (target source : LocalId)
  | bindReferenceDim (target array : LocalId) (keys : List RegionOperand)
  | bindReferenceIntoDim (array : LocalId) (keys : List RegionOperand) (append : Bool)
      (source : LocalId)
  | bindReferenceProperty (object : RegionOperand) (source : LocalId) (property : String)
      (preparedClass : Option Nat)
  | bindReferenceFromProperty (target : LocalId) (object : RegionOperand) (property : String)
      (preparedClass : Option Nat)
  | bindReferenceFromPropertyDim (target : LocalId) (object : RegionOperand)
      (keys : List RegionOperand) (property : String) (preparedClass : Option Nat)
  | bindReferenceIntoPropertyDim (object : RegionOperand) (keys : List RegionOperand) (append : Bool)
      (source : LocalId) (property : String) (preparedClass : Option Nat)
  | bindReferenceDimFromProperty (array : LocalId) (keys : List RegionOperand) (append : Bool)
      (object : RegionOperand) (property : String) (preparedClass : Option Nat)
  | initStaticLocal (local_ : LocalId) (default : RegionOperand)
  | discard (src : RegionOperand)
  | binary (dst : RegId) (op : RegionBinaryOp) (lhs rhs : RegionOperand)
  | unary (dst : RegId) (op : RegionUnaryOp) (src : RegionOperand)
  | compare (dst : RegId) (op : RegionCompareOpCode) (lhs rhs : RegionOperand)
  | cast (dst : RegId) (op : RegionCastOp) (src : RegionOperand)
  | echo (src : RegionOperand)
  | newArray (dst : RegId)
  | newObject (dst : RegId) (class_ : Nat) (linkedClass : Option Nat)
  | fetchProperty (dst : RegId) (object : RegionOperand) (property : String)
      (preparedClass : Option Nat) (dynamicStdclass : Bool)
  | fetchDynamicStaticProperty (dst : RegId) (className : RegionOperand)
  | fetchObjectClassName (dst : RegId) (object : RegionOperand) (preparedClass : Option Nat)
  | assignProperty (dst : RegId) (object value : RegionOperand) (property : String)
      (preparedClass : Option Nat) (dynamicStdclass : Bool)
  | cloneObject (dst : RegId) (object : RegionOperand) (plain : Bool)
  | cloneWith (dst : RegId) (object replacements : RegionOperand)
  | arrayInsert (array : RegId) (key : Option RegionOperand) (value : RegionOperand)
      (byRefLocal : Option LocalId)
  | arraySpread (array : RegId) (source : RegionOperand)
  | fetchDim (dst : RegId) (array key : RegionOperand) (quiet : Bool) (mode : DimFetchMode)
  | fetchConst (dst : RegId)
  | assignDim (dst : RegId) (local_ : LocalId) (keys : List RegionOperand) (value : RegionOperand)
  | appendDim (dst : RegId) (local_ : LocalId) (keys : List RegionOperand) (value : RegionOperand)
  | issetDim (dst : RegId) (local_ : LocalId) (keys : List RegionOperand)
  | emptyDim (dst : RegId) (local_ : LocalId) (keys : List RegionOperand)
  | unsetDim (local_ : LocalId) (keys : List RegionOperand)
  | issetLocal (dst : RegId) (local_ : LocalId)
  | emptyLocal (dst : RegId) (local_ : LocalId)
  | unsetLocal (local_ : LocalId)
  | foreachInit (iterator : RegId) (source : RegionOperand)
  | foreachInitRef (iterator : RegId) (local_ : LocalId)
  | foreachNext (hasValue iterator : RegId) (key : Option RegId) (value : RegId)
  | foreachCleanup (iterator : RegId)
  | foreachNextRef (hasValue iterator : RegId) (key : Option RegId) (valueLocal : LocalId)
  | arrayCallback (call : RegionArrayCallbackCall)
  | pregCallbackArray (call : RegionPregCallbackArrayCall)
  | nativeCall (call : RegionNativeCall)
  | nativeControl (control : RegionNativeControl)
  | nativeSuspend (suspend : RegionNativeSuspend)
  | nativeDynamicCode (code : RegionNativeDynamicCode)
  | runtimeFatal (dst : Option RegId) (diagnosticId message : String)
  | compileTimeFatal (diagnosticId : String)

structure RegionInstruction where
  continuationId : Nat
  transitionLiveRegisters : Option (List RegId)
  optimizerTransitionEntry : Bool
  sourceKind : InstructionKind
  kind : RegionInstructionKind

namespace RegionArrayCallbackTarget

def operands : RegionArrayCallbackTarget → List RegionOperand
  | .stable callback => callback.receiver.toList ++ callback.closure.toList
  | .runtime callback => [callback]

end RegionArrayCallbackTarget

namespace RegionNativeCall

/-- The exact prepared closure is not a packed operand, but its register is read. -/
def calleeRegisters (call : RegionNativeCall) : List RegId :=
  match call.target with
  | .closure (.register register) (some _) _ _ => [register]
  | _ => []

def argumentRegisters (argument : IrCallArg) : List RegId :=
  (if argument.valueKind ≠ .byRefLocationPlaceholder ∨ argument.byRefLocal = none then
    operandRegisterUses argument.value else []) ++
  (argument.byRefDim.toList.flatMap fun target => operandsRegisterUses target.dims) ++
  (argument.byRefProperty.toList.flatMap fun target => operandRegisterUses target.object) ++
  (argument.byRefPropertyDim.toList.flatMap fun target =>
    operandRegisterUses target.object ++ operandsRegisterUses target.dims)

def registerUses (call : RegionNativeCall) : List RegId :=
  call.calleeRegisters ++ (call.operands.reduceOption.flatMap RegionOperand.registers) ++
    call.args.flatMap argumentRegisters

end RegionNativeCall

/-- `sort_unstable` and `dedup` -/
def sortDedup (registers : List RegId) : List RegId := (registers.insertionSort (· ≤ ·)).dedup

@[simp]
theorem mem_sortDedup : register ∈ sortDedup registers ↔ register ∈ registers := by
  rw [sortDedup, List.mem_dedup, (List.perm_insertionSort _ registers).mem_iff]

namespace RegionInstruction

/-- Actual register reads after executable optimizer rewrites. -/
def registerUses (instruction : RegionInstruction) : List RegId :=
  sortDedup <| match instruction.kind with
  | .move _ src | .unary _ _ src | .cast _ _ src | .discard src | .echo src => src.registers
  | .binary _ _ lhs rhs | .compare _ _ lhs rhs => lhs.registers ++ rhs.registers
  | .nativeCall call => call.registerUses
  | .arrayCallback call =>
    (call.callback.operands ++ call.arrays ++ call.initial.toList).flatMap RegionOperand.registers
  | .pregCallbackArray call =>
    ((call.entries.flatMap fun entry => entry.pattern :: entry.callback.operands) ++
      [call.subject, call.limit]).flatMap RegionOperand.registers
  | .bindReference .. => []
  | .bindReferenceDim _ _ keys | .bindReferenceIntoDim _ keys _ _ =>
    keys.flatMap RegionOperand.registers
  | .bindReferenceProperty object .. | .bindReferenceFromProperty _ object .. => object.registers
  | .bindReferenceFromPropertyDim _ object keys .. | .bindReferenceIntoPropertyDim object keys .. |
    .bindReferenceDimFromProperty _ keys _ object .. => (object :: keys).flatMap RegionOperand.registers
  | _ => instructionRegisterUses instruction.sourceKind

/-- Registers materialized or updated by this instruction. -/
def registerDefinitions (instruction : RegionInstruction) : List RegId :=
  match instruction.kind with
  | .nop | .storeLocal .. | .bindReference .. | .bindReferenceDim .. | .bindReferenceIntoDim .. |
    .bindReferenceProperty .. | .bindReferenceFromProperty .. | .bindReferenceFromPropertyDim .. |
    .bindReferenceIntoPropertyDim .. | .bindReferenceDimFromProperty .. => []
  | kind => sortDedup <| instructionRegisterDefs instruction.sourceKind ++ match kind with
    | .arrayInsert array .. | .arraySpread array _ => [array]
    | .foreachNext _ _ key value => key.toList ++ [value]
    | .foreachNextRef _ _ key _ => key.toList
    | _ => []

end RegionInstruction

/-! ## Blocks -/

/-- Explicit control flow for one executable region block. -/
inductive RegionTerminator where
  | jump (target : BlockId)
  | jumpIfFalse (condition : RegionOperand) (target fallthrough : BlockId)
  | jumpIfTrue (condition : RegionOperand) (target fallthrough : BlockId)
  | jumpIf (condition : RegionOperand) (ifTrue ifFalse : BlockId)
  | return_ (value : RegionOperand) (finally_ : Option BlockId)
  | returnReference (local_ : LocalId) (finally_ : Option BlockId)
  | exit (value : Option RegionOperand) (finally_ : Option BlockId)

namespace RegionTerminator

def registerUses : RegionTerminator → List RegId
  | .jump _ | .returnReference _ _ => []
  | .jumpIfFalse condition _ _ | .jumpIfTrue condition _ _ | .jumpIf condition _ _ |
    .return_ condition _ => condition.registers
  | .exit value _ => value.toList.flatMap RegionOperand.registers

def targets : RegionTerminator → List BlockId
  | .jump target => [target]
  | .jumpIfFalse _ target fallthrough | .jumpIfTrue _ target fallthrough => [target, fallthrough]
  | .jumpIf _ ifTrue ifFalse => [ifTrue, ifFalse]
  | .return_ .. | .returnReference .. | .exit .. => []

end RegionTerminator

structure RegionBlock where
  id : BlockId
  entryContinuationId : Nat
  entryLiveLocals : List LocalId
  instructions : List RegionInstruction
  terminatorLiveRegisters : Option (List RegId)
  terminator : RegionTerminator

/-- Exception-handler region declared by an `EnterTry` operation. -/
structure RegionExceptionRegion where
  block : BlockId
  protectedBlocks : List BlockId
  instruction : InstrId
  catch_ : Option BlockId
  catchTypes : List String
  finally_ : Option BlockId
  after : BlockId
  exceptionLocal : Option LocalId

structure RegionGraph where
  exceptionRegions : List RegionExceptionRegion
  parameterLocals : List LocalId
  localCount : Nat
  registerCount : Nat
  blocks : List RegionBlock

end Phrust.Jit
