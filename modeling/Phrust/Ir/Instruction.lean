import Mathlib.Algebra.Order.Ring.Int
import Mathlib.Data.List.Basic

/-!
# The instruction set of the intermediate representation

Identifiers are positions in the tables of a unit or of a function; the source stores them in 32 bits.
Text is kept where an instruction carries it, although no pass reads it.
-/

namespace Phrust.Ir

abbrev FileId := Nat
abbrev FunctionId := Nat
abbrev ClassId := Nat
abbrev BlockId := Nat
abbrev InstrId := Nat
abbrev LocalId := Nat
abbrev RegId := Nat
abbrev ConstId := Nat

structure IrSpan where
  file : FileId
  start : Nat
  end_ : Nat
  deriving DecidableEq

inductive UnaryOp where
  | plus | minus | not | bitNot
  deriving DecidableEq

inductive BinaryOp where
  | add | sub | mul | div | mod | concat | pow | bitAnd | bitOr | bitXor | shiftLeft | shiftRight
  deriving DecidableEq

inductive CompareOp where
  | equal | notEqual | identical | notIdentical | less | lessEqual | greater | greaterEqual
  | spaceship
  deriving DecidableEq

inductive CastKind where
  | bool | int | float | string | array | object | void
  deriving DecidableEq

inductive DimFetchMode where
  | read | lvalue
  deriving DecidableEq

inductive Operand where
  | register (id : RegId)
  | local_ (id : LocalId)
  | constant (id : ConstId)
  deriving DecidableEq

structure ClosureCaptureArg where
  name : String
  src : Operand
  byRef : Bool
  deriving DecidableEq

inductive IrCallArgValueKind where
  | direct | indirectTemporary | byRefLocationPlaceholder
  deriving DecidableEq

structure IrCallDimTarget where
  local_ : LocalId
  dims : List Operand
  deriving DecidableEq

structure IrCallPropertyTarget where
  object : Operand
  property : String
  deriving DecidableEq

structure IrCallPropertyDimTarget where
  object : Operand
  property : String
  dims : List Operand
  deriving DecidableEq

structure IrCallArg where
  name : Option String
  value : Operand
  unpack : Bool
  valueKind : IrCallArgValueKind
  byRefLocal : Option LocalId
  byRefDim : Option IrCallDimTarget
  byRefProperty : Option IrCallPropertyTarget
  byRefPropertyDim : Option IrCallPropertyDimTarget
  deriving DecidableEq

inductive CallableKind where
  | functionName (name : String)
  | methodPlaceholder (target : String)
  | unresolvedDynamic (target : String)
  deriving DecidableEq

inductive IncludeKind where
  | include | includeOnce | require | requireOnce
  deriving DecidableEq

inductive IrDiagnosticSeverity where
  | warning | deprecation
  deriving DecidableEq

inductive InstructionKind where
  | nop
  | loadConst (dst : RegId) (constant : ConstId)
  | fetchConst (dst : RegId) (name : String) (fallback : Option String)
  | registerConstant (name : String) (value : Operand)
  | declareFunction (name : String) (function : FunctionId)
  | declareClass (name : String)
  | move (dst : RegId) (src : Operand)
  | loadLocal (dst : RegId) (local_ : LocalId)
  | loadLocalQuiet (dst : RegId) (local_ : LocalId)
  | storeLocal (local_ : LocalId) (src : Operand)
  | bindReference (target source : LocalId)
  | bindGlobal (local_ : LocalId) (name : String)
  | bindReferenceDim (local_ : LocalId) (dims : List Operand) (append : Bool) (source : LocalId)
  | bindReferenceProperty (object : Operand) (property : String) (source : LocalId)
  | bindReferencePropertyDim (object : Operand) (property : String) (dims : List Operand)
      (append : Bool) (source : LocalId)
  | bindReferenceDimFromProperty (local_ : LocalId) (dims : List Operand) (append : Bool)
      (object : Operand) (property : String)
  | bindReferenceFromProperty (target : LocalId) (object : Operand) (property : String)
  | bindReferenceFromPropertyDim (target : LocalId) (object : Operand) (property : String)
      (dims : List Operand)
  | bindReferenceFromDim (target local_ : LocalId) (dims : List Operand)
  | bindReferenceFromStaticPropertyDim (target : LocalId) (className property : String)
      (dims : List Operand)
  | bindReferenceStaticProperty (className property : String) (source : LocalId)
  | bindReferenceFromCall (target : LocalId) (name : String) (args : List IrCallArg)
  | bindReferenceFromMethodCall (target : LocalId) (object : Operand) (method : String)
      (args : List IrCallArg)
  | initStaticLocal (local_ : LocalId) (name : String) (default : Operand)
  | binary (dst : RegId) (op : BinaryOp) (lhs rhs : Operand)
  | compare (dst : RegId) (op : CompareOp) (lhs rhs : Operand)
  | instanceOf (dst : RegId) (object : Operand) (className : String)
  | dynamicInstanceOf (dst : RegId) (object target : Operand)
  | unary (dst : RegId) (op : UnaryOp) (src : Operand)
  | cast (dst : RegId) (kind : CastKind) (src : Operand)
  | discard (src : Operand)
  | echo (src : Operand)
  | emitDiagnostic (severity : IrDiagnosticSeverity) (diagnosticId message : String)
      (leadingNewline : Bool)
  | yield (dst : RegId) (key value : Option Operand)
  | yieldFrom (dst : RegId) (source : Operand)
  | callFunction (dst : RegId) (name : String) (args : List IrCallArg)
  | callMethod (dst : RegId) (object : Operand) (method : String) (args : List IrCallArg)
  | callStaticMethod (dst : RegId) (className method : String) (args : List IrCallArg)
  | cloneObject (dst : RegId) (object : Operand)
  | cloneWith (dst : RegId) (object replacements : Operand)
  | enterTry (catch_ : Option BlockId) (catchTypes : List String) (finally_ : Option BlockId)
      (after : BlockId) (exceptionLocal : Option LocalId)
  | leaveTry
  | endFinally (after : BlockId)
  | throw (value : Operand)
  | makeException (dst : RegId) (className : String) (message : Operand)
  | makeClosure (dst : RegId) (function : FunctionId) (captures : List ClosureCaptureArg)
  | callClosure (dst : RegId) (callee : Operand) (args : List IrCallArg)
  | resolveCallable (dst : RegId) (callable : CallableKind)
  | acquireCallable (dst : RegId) (value : Operand)
  | callCallable (dst : RegId) (callee : Operand) (args : List IrCallArg)
  | pipe (dst : RegId) (input callable : Operand)
  | include (dst : RegId) (kind : IncludeKind) (path : Operand)
  | eval (dst : RegId) (code : Operand)
  | newObject (dst : RegId) (displayClassName className : String) (args : List IrCallArg)
  | dynamicNewObject (dst : RegId) (className : Operand) (args : List IrCallArg)
  | fetchProperty (dst : RegId) (object : Operand) (property : String)
  | fetchDynamicProperty (dst : RegId) (object property : Operand)
  | issetProperty (dst : RegId) (object : Operand) (property : String)
  | issetDynamicProperty (dst : RegId) (object property : Operand)
  | emptyProperty (dst : RegId) (object : Operand) (property : String)
  | emptyDynamicProperty (dst : RegId) (object property : Operand)
  | issetDynamicPropertyDim (dst : RegId) (object property : Operand) (dims : List Operand)
  | emptyDynamicPropertyDim (dst : RegId) (object property : Operand) (dims : List Operand)
  | issetPropertyDim (dst : RegId) (object : Operand) (property : String) (dims : List Operand)
  | emptyPropertyDim (dst : RegId) (object : Operand) (property : String) (dims : List Operand)
  | unsetProperty (object : Operand) (property : String)
  | unsetPropertyDim (object : Operand) (property : String) (dims : List Operand)
  | unsetDynamicProperty (object property : Operand)
  | unsetDynamicPropertyDim (object property : Operand) (dims : List Operand)
  | fetchStaticProperty (dst : RegId) (className property : String)
  | fetchDynamicStaticProperty (dst : RegId) (className : Operand) (property : String)
  | issetStaticProperty (dst : RegId) (className property : String)
  | emptyStaticProperty (dst : RegId) (className property : String)
  | issetStaticPropertyDim (dst : RegId) (className property : String) (dims : List Operand)
  | emptyStaticPropertyDim (dst : RegId) (className property : String) (dims : List Operand)
  | unsetStaticPropertyDim (className property : String) (dims : List Operand)
  | fetchClassConstant (dst : RegId) (className constant : String)
  | fetchObjectClassName (dst : RegId) (object : Operand)
  | assignProperty (dst : RegId) (object : Operand) (property : String) (value : Operand)
  | assignPropertyDim (dst : RegId) (object : Operand) (property : String) (dims : List Operand)
      (value : Operand) (append : Bool)
  | assignDynamicProperty (dst : RegId) (object property value : Operand)
  | assignDynamicPropertyDim (dst : RegId) (object property : Operand) (dims : List Operand)
      (value : Operand) (append : Bool)
  | assignStaticProperty (dst : RegId) (className property : String) (value : Operand)
  | assignDynamicStaticProperty (dst : RegId) (className : Operand) (property : String)
      (value : Operand)
  | newArray (dst : RegId)
  | arrayInsert (array : RegId) (key : Option Operand) (value : Operand)
      (byRefLocal : Option LocalId)
  | arraySpread (array : RegId) (source : Operand)
  | fetchDim (dst : RegId) (array key : Operand) (quiet : Bool) (mode : DimFetchMode)
  | assignDim (dst : RegId) (local_ : LocalId) (dims : List Operand) (value : Operand)
  | appendDim (dst : RegId) (local_ : LocalId) (dims : List Operand) (value : Operand)
  | issetLocal (dst : RegId) (local_ : LocalId)
  | emptyLocal (dst : RegId) (local_ : LocalId)
  | unsetLocal (local_ : LocalId)
  | issetDim (dst : RegId) (local_ : LocalId) (dims : List Operand)
  | emptyDim (dst : RegId) (local_ : LocalId) (dims : List Operand)
  | unsetDim (local_ : LocalId) (dims : List Operand)
  | foreachInit (iterator : RegId) (source : Operand)
  | foreachNext (hasValue iterator : RegId) (key : Option RegId) (value : RegId)
  | foreachCleanup (iterator : RegId)
  | foreachInitRef (iterator : RegId) (local_ : LocalId)
  | foreachNextRef (hasValue iterator : RegId) (key : Option RegId) (valueLocal : LocalId)
  | arrayGet (dst : RegId) (array index : Operand)
  | runtimeError (diagnosticId message : String)
  deriving DecidableEq

structure Instruction where
  id : InstrId
  span : IrSpan
  kind : InstructionKind
  deriving DecidableEq

inductive TerminatorKind where
  | jump (target : BlockId)
  | jumpIfFalse (condition : Operand) (target : BlockId)
  | jumpIfTrue (condition : Operand) (target : BlockId)
  | jumpIf (condition : Operand) (ifTrue ifFalse : BlockId)
  | return_ (value : Option Operand) (byRefLocal : Option LocalId)
  | exit (value : Option Operand)
  deriving DecidableEq

structure Terminator where
  span : IrSpan
  kind : TerminatorKind
  deriving DecidableEq

structure BasicBlock where
  id : BlockId
  instructions : List Instruction
  terminator : Option Terminator
  deriving DecidableEq

end Phrust.Ir
