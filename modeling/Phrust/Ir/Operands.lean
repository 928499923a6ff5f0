import Phrust.Ir.Verify

/-!
# Operands of an instruction

Every pass that rewrites operands walks over the same places. They are listed here once, in the order in
which the verifier reads registers, and `mapOperands` changes each of them.
-/

namespace Phrust.Ir
open List
namespace IrCallArg

def operands (arg : IrCallArg) : List Operand :=
  arg.value :: ((match arg.byRefDim with
    | some target => target.dims
    | none => []) ++
  (match arg.byRefProperty with
    | some target => [target.object]
    | none => []) ++
  (match arg.byRefPropertyDim with
    | some target => target.object :: target.dims
    | none => []))

def mapOperands (f : Operand → Operand) (arg : IrCallArg) : IrCallArg :=
  { arg with
    value := f arg.value
    byRefDim := arg.byRefDim.map fun target => { target with dims := target.dims.map f }
    byRefProperty := arg.byRefProperty.map fun target => { target with object := f target.object }
    byRefPropertyDim := arg.byRefPropertyDim.map fun target =>
      { target with object := f target.object, dims := target.dims.map f } }

end IrCallArg

def callArgsOperands (args : List IrCallArg) : List Operand := args.flatMap IrCallArg.operands

namespace InstructionKind

def operands : InstructionKind → List Operand
  | .registerConstant _ src | .move _ src | .storeLocal _ src | .initStaticLocal _ _ src
  | .instanceOf _ src _ | .unary _ _ src | .cast _ _ src | .discard src | .echo src
  | .yieldFrom _ src | .throw src | .cloneObject _ src | .include _ _ src | .eval _ src
  | .fetchObjectClassName _ src | .fetchProperty _ src _ | .issetProperty _ src _
  | .emptyProperty _ src _ | .unsetProperty src _ | .foreachInit _ src
  | .bindReferenceProperty src _ _ | .bindReferenceFromProperty _ src _ | .makeException _ _ src
  | .acquireCallable _ src | .assignStaticProperty _ _ _ src
  | .fetchDynamicStaticProperty _ src _ | .arraySpread _ src => [src]
  | .unsetPropertyDim object _ dims | .issetPropertyDim _ object _ dims
  | .emptyPropertyDim _ object _ dims | .bindReferencePropertyDim object _ dims _ _
  | .bindReferenceDimFromProperty _ dims _ object _
  | .bindReferenceFromPropertyDim _ object _ dims => object :: dims
  | .dynamicInstanceOf _ lhs rhs | .fetchDynamicProperty _ lhs rhs
  | .issetDynamicProperty _ lhs rhs | .emptyDynamicProperty _ lhs rhs
  | .unsetDynamicProperty lhs rhs | .binary _ _ lhs rhs | .compare _ _ lhs rhs
  | .arrayGet _ lhs rhs | .cloneWith _ lhs rhs | .pipe _ lhs rhs | .assignProperty _ lhs _ rhs
  | .assignDynamicStaticProperty _ lhs _ rhs | .fetchDim _ lhs rhs _ _ => [lhs, rhs]
  | .unsetDynamicPropertyDim object property dims | .issetDynamicPropertyDim _ object property dims
  | .emptyDynamicPropertyDim _ object property dims => object :: property :: dims
  | .bindReferenceDim _ dims _ _ | .bindReferenceFromDim _ _ dims | .issetDim _ _ dims
  | .emptyDim _ _ dims | .unsetDim _ dims | .issetStaticPropertyDim _ _ _ dims
  | .emptyStaticPropertyDim _ _ _ dims | .unsetStaticPropertyDim _ _ dims
  | .bindReferenceFromStaticPropertyDim _ _ _ dims => dims
  | .yield _ key value => key.toList ++ value.toList
  | .bindReferenceFromCall _ _ args | .callFunction _ _ args | .callStaticMethod _ _ _ args
  | .newObject _ _ _ args => callArgsOperands args
  | .bindReferenceFromMethodCall _ callee _ args | .dynamicNewObject _ callee args
  | .callMethod _ callee _ args | .callClosure _ callee args | .callCallable _ callee args =>
    callee :: callArgsOperands args
  | .makeClosure _ _ captures => captures.map ClosureCaptureArg.src
  | .assignPropertyDim _ object _ dims value _ => object :: (dims ++ [value])
  | .assignDynamicProperty _ object property value => [object, property, value]
  | .assignDynamicPropertyDim _ object property dims value _ => object :: property :: (dims ++ [value])
  | .arrayInsert _ key value _ => key.toList ++ [value]
  | .assignDim _ _ dims value | .appendDim _ _ dims value => dims ++ [value]
  | _ => []

def mapOperands (f : Operand → Operand) : InstructionKind → InstructionKind
  | .registerConstant name value => .registerConstant name (f value)
  | .move dst src => .move dst (f src)
  | .storeLocal local_ src => .storeLocal local_ (f src)
  | .bindReferenceDim local_ dims append source =>
    .bindReferenceDim local_ (dims.map f) append source
  | .bindReferenceProperty object property source =>
    .bindReferenceProperty (f object) property source
  | .bindReferencePropertyDim object property dims append source =>
    .bindReferencePropertyDim (f object) property (dims.map f) append source
  | .bindReferenceDimFromProperty local_ dims append object property =>
    .bindReferenceDimFromProperty local_ (dims.map f) append (f object) property
  | .bindReferenceFromProperty target object property =>
    .bindReferenceFromProperty target (f object) property
  | .bindReferenceFromPropertyDim target object property dims =>
    .bindReferenceFromPropertyDim target (f object) property (dims.map f)
  | .bindReferenceFromDim target local_ dims => .bindReferenceFromDim target local_ (dims.map f)
  | .bindReferenceFromStaticPropertyDim target className property dims =>
    .bindReferenceFromStaticPropertyDim target className property (dims.map f)
  | .bindReferenceFromCall target name args =>
    .bindReferenceFromCall target name (args.map (IrCallArg.mapOperands f))
  | .bindReferenceFromMethodCall target object method args =>
    .bindReferenceFromMethodCall target (f object) method (args.map (IrCallArg.mapOperands f))
  | .initStaticLocal local_ name default => .initStaticLocal local_ name (f default)
  | .binary dst op lhs rhs => .binary dst op (f lhs) (f rhs)
  | .compare dst op lhs rhs => .compare dst op (f lhs) (f rhs)
  | .instanceOf dst object className => .instanceOf dst (f object) className
  | .dynamicInstanceOf dst object target => .dynamicInstanceOf dst (f object) (f target)
  | .unary dst op src => .unary dst op (f src)
  | .cast dst kind src => .cast dst kind (f src)
  | .discard src => .discard (f src)
  | .echo src => .echo (f src)
  | .yield dst key value => .yield dst (key.map f) (value.map f)
  | .yieldFrom dst source => .yieldFrom dst (f source)
  | .callFunction dst name args => .callFunction dst name (args.map (IrCallArg.mapOperands f))
  | .callMethod dst object method args =>
    .callMethod dst (f object) method (args.map (IrCallArg.mapOperands f))
  | .callStaticMethod dst className method args =>
    .callStaticMethod dst className method (args.map (IrCallArg.mapOperands f))
  | .cloneObject dst object => .cloneObject dst (f object)
  | .cloneWith dst object replacements => .cloneWith dst (f object) (f replacements)
  | .throw value => .throw (f value)
  | .makeException dst className message => .makeException dst className (f message)
  | .makeClosure dst function captures =>
    .makeClosure dst function (captures.map fun capture => { capture with src := f capture.src })
  | .callClosure dst callee args => .callClosure dst (f callee) (args.map (IrCallArg.mapOperands f))
  | .acquireCallable dst value => .acquireCallable dst (f value)
  | .callCallable dst callee args =>
    .callCallable dst (f callee) (args.map (IrCallArg.mapOperands f))
  | .pipe dst input callable => .pipe dst (f input) (f callable)
  | .include dst kind path => .include dst kind (f path)
  | .eval dst code => .eval dst (f code)
  | .newObject dst displayClassName className args =>
    .newObject dst displayClassName className (args.map (IrCallArg.mapOperands f))
  | .dynamicNewObject dst className args =>
    .dynamicNewObject dst (f className) (args.map (IrCallArg.mapOperands f))
  | .fetchProperty dst object property => .fetchProperty dst (f object) property
  | .fetchDynamicProperty dst object property => .fetchDynamicProperty dst (f object) (f property)
  | .issetProperty dst object property => .issetProperty dst (f object) property
  | .issetDynamicProperty dst object property => .issetDynamicProperty dst (f object) (f property)
  | .emptyProperty dst object property => .emptyProperty dst (f object) property
  | .emptyDynamicProperty dst object property => .emptyDynamicProperty dst (f object) (f property)
  | .issetDynamicPropertyDim dst object property dims =>
    .issetDynamicPropertyDim dst (f object) (f property) (dims.map f)
  | .emptyDynamicPropertyDim dst object property dims =>
    .emptyDynamicPropertyDim dst (f object) (f property) (dims.map f)
  | .issetPropertyDim dst object property dims =>
    .issetPropertyDim dst (f object) property (dims.map f)
  | .emptyPropertyDim dst object property dims =>
    .emptyPropertyDim dst (f object) property (dims.map f)
  | .unsetProperty object property => .unsetProperty (f object) property
  | .unsetPropertyDim object property dims => .unsetPropertyDim (f object) property (dims.map f)
  | .unsetDynamicProperty object property => .unsetDynamicProperty (f object) (f property)
  | .unsetDynamicPropertyDim object property dims =>
    .unsetDynamicPropertyDim (f object) (f property) (dims.map f)
  | .fetchDynamicStaticProperty dst className property =>
    .fetchDynamicStaticProperty dst (f className) property
  | .issetStaticPropertyDim dst className property dims =>
    .issetStaticPropertyDim dst className property (dims.map f)
  | .emptyStaticPropertyDim dst className property dims =>
    .emptyStaticPropertyDim dst className property (dims.map f)
  | .unsetStaticPropertyDim className property dims =>
    .unsetStaticPropertyDim className property (dims.map f)
  | .fetchObjectClassName dst object => .fetchObjectClassName dst (f object)
  | .assignProperty dst object property value => .assignProperty dst (f object) property (f value)
  | .assignPropertyDim dst object property dims value append =>
    .assignPropertyDim dst (f object) property (dims.map f) (f value) append
  | .assignDynamicProperty dst object property value =>
    .assignDynamicProperty dst (f object) (f property) (f value)
  | .assignDynamicPropertyDim dst object property dims value append =>
    .assignDynamicPropertyDim dst (f object) (f property) (dims.map f) (f value) append
  | .assignStaticProperty dst className property value =>
    .assignStaticProperty dst className property (f value)
  | .assignDynamicStaticProperty dst className property value =>
    .assignDynamicStaticProperty dst (f className) property (f value)
  | .arrayInsert array key value byRefLocal => .arrayInsert array (key.map f) (f value) byRefLocal
  | .arraySpread array source => .arraySpread array (f source)
  | .fetchDim dst array key quiet mode => .fetchDim dst (f array) (f key) quiet mode
  | .assignDim dst local_ dims value => .assignDim dst local_ (dims.map f) (f value)
  | .appendDim dst local_ dims value => .appendDim dst local_ (dims.map f) (f value)
  | .issetDim dst local_ dims => .issetDim dst local_ (dims.map f)
  | .emptyDim dst local_ dims => .emptyDim dst local_ (dims.map f)
  | .unsetDim local_ dims => .unsetDim local_ (dims.map f)
  | .foreachInit iterator source => .foreachInit iterator (f source)
  | .arrayGet dst array index => .arrayGet dst (f array) (f index)
  | kind => kind

end InstructionKind

namespace TerminatorKind

def operands : TerminatorKind → List Operand
  | .jump _ => []
  | .jumpIfFalse condition _ | .jumpIfTrue condition _ | .jumpIf condition _ _ => [condition]
  | .return_ value _ | .exit value => value.toList

def mapOperands (f : Operand → Operand) : TerminatorKind → TerminatorKind
  | .jump target => .jump target
  | .jumpIfFalse condition target => .jumpIfFalse (f condition) target
  | .jumpIfTrue condition target => .jumpIfTrue (f condition) target
  | .jumpIf condition ifTrue ifFalse => .jumpIf (f condition) ifTrue ifFalse
  | .return_ value byRefLocal => .return_ (value.map f) byRefLocal
  | .exit value => .exit (value.map f)

end TerminatorKind

/-- Registers whose value an instruction changes in place. -/
def mutatedRegisters : InstructionKind → List RegId
  | .arrayInsert array _ _ _ | .arraySpread array _ => [array]
  | .foreachNext _ iterator _ _ | .foreachNextRef _ iterator _ _ | .foreachCleanup iterator =>
    [iterator]
  | _ => []

def writtenRegisters (kind : InstructionKind) : List RegId :=
  instructionRegisterDefs kind ++ mutatedRegisters kind

/-! ## Operands of a rewritten instruction -/

section
variable (f : Operand → Operand)

theorem IrCallArg.operands_mapOperands (arg : IrCallArg) :
    (arg.mapOperands f).operands = arg.operands.map f := by
  obtain ⟨_, _, _, _, _, dim, property, propertyDim⟩ := arg
  cases dim <;> cases property <;> cases propertyDim <;>
    simp [mapOperands, operands]

theorem callArgsOperands_map (args : List IrCallArg) :
    callArgsOperands (args.map (IrCallArg.mapOperands f)) = (callArgsOperands args).map f := by
  rw [callArgsOperands, callArgsOperands, flatMap_map, map_flatMap]
  simp [IrCallArg.operands_mapOperands]

theorem toList_map_append (optional : Option Operand) (operands : List Operand) :
    (optional.map f).toList ++ operands.map f = (optional.toList ++ operands).map f := by
  cases optional <;> rfl

theorem InstructionKind.operands_mapOperands (kind : InstructionKind) :
    (kind.mapOperands f).operands = kind.operands.map f := by
  cases kind with
  | yield dst key value =>
    refine .trans ?_ (toList_map_append f key value.toList)
    exact congrArg (_ ++ ·) (by cases value <;> rfl)
  | arrayInsert array key value => exact toList_map_append f key [value]
  | bindReferenceFromCall | callFunction | callStaticMethod | newObject =>
    exact callArgsOperands_map f _
  | bindReferenceFromMethodCall | dynamicNewObject | callMethod | callClosure | callCallable =>
    exact congrArg (_ :: ·) (callArgsOperands_map f _)
  | makeClosure dst function captures =>
    exact map_map.trans (@List.map_map _ _ _ f ClosureCaptureArg.src captures).symm
  | assignPropertyDim _ _ _ dims value =>
    exact congrArg (_ :: ·) (@List.map_append _ _ f dims [value]).symm
  | assignDynamicPropertyDim _ _ _ dims value =>
    exact congrArg (_ :: _ :: ·) (@List.map_append _ _ f dims [value]).symm
  | assignDim _ _ dims value | appendDim _ _ dims value =>
    exact (@List.map_append _ _ f dims [value]).symm
  | _ => rfl

theorem TerminatorKind.operands_mapOperands (kind : TerminatorKind) :
    (kind.mapOperands f).operands = kind.operands.map f := by
  cases kind with
  | return_ value | exit value => cases value <;> rfl
  | _ => rfl

end

section
variable (f g : Operand → Operand)

theorem IrCallArg.mapOperands_mapOperands (arg : IrCallArg) :
    (arg.mapOperands g).mapOperands f = arg.mapOperands (f ∘ g) := by
  obtain ⟨_, _, _, _, _, dim, property, propertyDim⟩ := arg
  cases dim <;> cases property <;> cases propertyDim <;> simp [mapOperands]

theorem IrCallArg.mapOperands_comp : mapOperands f ∘ mapOperands g = mapOperands (f ∘ g) :=
  funext (mapOperands_mapOperands f g)

theorem InstructionKind.mapOperands_mapOperands (kind : InstructionKind) :
    (kind.mapOperands g).mapOperands f = kind.mapOperands (f ∘ g) := by
  cases kind with
  | makeClosure dst function captures =>
    exact congrArg (InstructionKind.makeClosure dst function) map_map
  | yield dst key value => cases key <;> cases value <;> rfl
  | arrayInsert array key => cases key <;> rfl
  | _ =>
    first
    | rfl
    | conv_lhs => whnf
      conv_rhs => whnf
      simp only [map_map, IrCallArg.mapOperands_comp, Function.comp_apply]

theorem TerminatorKind.mapOperands_mapOperands (kind : TerminatorKind) :
    (kind.mapOperands g).mapOperands f = kind.mapOperands (f ∘ g) := by
  cases kind with
  | return_ value | exit value => cases value <;> rfl
  | _ => rfl

end

/-! ## Registers of the operands -/

theorem callArgsRegisterUses_eq (args : List IrCallArg) :
    callArgsRegisterUses args = operandsRegisterUses (callArgsOperands args) := by
  rw [callArgsRegisterUses, callArgsOperands, operandsRegisterUses, flatMap_assoc]
  congr 1
  funext arg
  obtain ⟨_, _, _, _, _, dim, property, propertyDim⟩ := arg
  cases dim <;> cases property <;> cases propertyDim <;>
    simp [callArgRegisterUses, IrCallArg.operands, operandsRegisterUses]

theorem optionalOperandRegisterUses_eq (optional : Option Operand) :
    optionalOperandRegisterUses optional = operandsRegisterUses optional.toList := by
  cases optional with
  | none => rfl
  | some operand => exact (append_nil _).symm

theorem operandsRegisterUses_concat (operands : List Operand) (operand : Operand) :
    operandsRegisterUses (operands ++ [operand]) =
      operandsRegisterUses operands ++ operandRegisterUses operand := by
  simp [operandsRegisterUses]

/-- An instruction reads the registers it changes in place and those of its operands. -/
theorem instructionRegisterUses_eq (kind : InstructionKind) :
    instructionRegisterUses kind = mutatedRegisters kind ++ operandsRegisterUses kind.operands := by
  cases kind with
  | arraySpread => exact congrArg (_ :: ·) (append_nil _).symm
  | unsetDynamicPropertyDim | issetDynamicPropertyDim | emptyDynamicPropertyDim =>
    exact append_assoc _ _ _
  | yield dst key value =>
    refine (congrArg₂ (· ++ ·) (optionalOperandRegisterUses_eq key)
      (optionalOperandRegisterUses_eq value)).trans ?_
    exact flatMap_append.symm
  | bindReferenceFromCall | callFunction | callStaticMethod | newObject =>
    exact callArgsRegisterUses_eq _
  | bindReferenceFromMethodCall | dynamicNewObject | callMethod | callClosure | callCallable =>
    exact congrArg (_ ++ ·) (callArgsRegisterUses_eq _)
  | makeClosure _ _ captures =>
    exact (flatMap_map ClosureCaptureArg.src operandRegisterUses captures).symm
  | assignDynamicProperty =>
    refine (append_assoc _ _ _).trans (congrArg (_ ++ ·) (congrArg (_ ++ ·) ?_))
    exact (append_nil _).symm
  | assignPropertyDim =>
    exact (append_assoc _ _ _).trans (congrArg (_ ++ ·) (operandsRegisterUses_concat _ _).symm)
  | assignDynamicPropertyDim =>
    refine (append_assoc _ _ _).trans ((append_assoc _ _ _).trans ?_)
    exact congrArg (_ ++ ·) (congrArg (_ ++ ·) (operandsRegisterUses_concat _ _).symm)
  | assignDim | appendDim => exact (operandsRegisterUses_concat _ _).symm
  | arrayInsert array key value =>
    refine congrArg (array :: ·) ((congrArg (· ++ _) (optionalOperandRegisterUses_eq key)).trans ?_)
    exact (operandsRegisterUses_concat _ _).symm
  | _ =>
    first
    | rfl
    | exact (append_nil _).symm
    | exact congrArg (_ ++ ·) (append_nil _).symm

theorem terminatorRegisterUses_eq (kind : TerminatorKind) :
    terminatorRegisterUses kind = operandsRegisterUses kind.operands := by
  cases kind with
  | jump => rfl
  | jumpIfFalse | jumpIfTrue | jumpIf => exact (append_nil _).symm
  | return_ value | exit value => exact optionalOperandRegisterUses_eq value

end Phrust.Ir
