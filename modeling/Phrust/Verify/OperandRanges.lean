import Phrust.Ir.Operands

/-!
# Operands of accepted instructions

The verifier checks every operand of an instruction, and every register that the instruction changes in
place. So the registers that an accepted instruction reads are registers of the function, and its
constants are entries of the pool.
-/

namespace Phrust.Ir
open List

def Within (good : β → Prop) (errors : List VerificationError) (items : List β) : Prop :=
  errors = [] → ∀ item ∈ items, good item

namespace Within
variable {unit : IrUnit} {function : IrFunction} {good : β → Prop}

theorem nil : Within good errors [] := nofun

theorem one (h : errors = [] → good item) : Within good errors [item] := by
  intro hnil other hother
  rw [mem_singleton.mp hother]
  exact h hnil

theorem left (h : Within good errors items) : Within good (errors ++ errors') items :=
  fun hnil => h (append_eq_nil_iff.mp hnil).1

theorem right (h : Within good errors' items) : Within good (errors ++ errors') items :=
  fun hnil => h (append_eq_nil_iff.mp hnil).2

theorem append (h : Within good errors items) (h' : Within good errors items') :
    Within good errors (items ++ items') := fun hnil item hitem =>
  (mem_append.mp hitem).elim (h hnil item) (h' hnil item)

theorem both (h : Within good errors items) (h' : Within good errors' items') :
    Within good (errors ++ errors') (items ++ items') := h.left.append h'.right

theorem flatMap {items : α → List β} (h : ∀ x, Within good (check x) (items x)) (list : List α) :
    Within good (list.flatMap check) (list.flatMap items) := fun hnil item hitem =>
  let ⟨x, hx, hitem⟩ := mem_flatMap.mp hitem
  h x (flatMap_eq_nil_iff.mp hnil x hx) item hitem

theorem imp (h : Within good errors items) (himp : ∀ item, good item → ∀ part ∈ expand item, good' part) :
    Within good' errors (items.flatMap expand) := fun hnil part hpart =>
  let ⟨item, hitem, hpart⟩ := mem_flatMap.mp hpart
  himp item (h hnil item hitem) part hpart

end Within

section
variable (unit : IrUnit) (function : IrFunction)

def OperandAccepted (operand : Operand) : Prop := verifyOperand unit function operand = []

variable {unit function}
namespace Within

theorem operand (operand : Operand) :
    Within (OperandAccepted unit function) (verifyOperand unit function operand) [operand] :=
  one fun h => h

theorem operands (operands : List Operand) :
    Within (OperandAccepted unit function) (verifyOperands unit function operands) operands :=
  fun hnil operand hoperand => flatMap_eq_nil_iff.mp hnil operand hoperand

theorem optionalOperand (optional : Option Operand) : Within (OperandAccepted unit function)
    (verifyOptionalOperand unit function optional) optional.toList := by
  cases optional with
  | none => exact nil
  | some value => exact operand value

theorem callArg (arg : IrCallArg) :
    Within (OperandAccepted unit function) (verifyCallArg unit function arg) arg.operands := by
  obtain ⟨_, value, _, _, _, dim, property, propertyDim⟩ := arg
  refine append (operand value).left.left.left.left (both (both (right ?_) ?_) ?_)
  · cases dim with
    | none => exact nil
    | some target => exact (operands target.dims).right.left
  · cases property with
    | none => exact nil
    | some target => exact (operand target.object).left
  · cases propertyDim with
    | none => exact nil
    | some target => exact (both (operand target.object) (operands target.dims)).left

theorem callArgs (args : List IrCallArg) : Within (OperandAccepted unit function)
    (verifyCallArgs unit function args) (callArgsOperands args) := flatMap callArg args

section
variable (kind : InstructionKind)

theorem instructionOperands : Within (OperandAccepted unit function)
    (verifyInstructionKind unit function kind) kind.operands := by
  cases kind with
  | registerConstant | discard | echo | throw | unsetProperty => exact operand _
  | bindReferenceProperty => exact (operand _).left
  | unsetPropertyDim => exact both (operand _) (operands _)
  | issetPropertyDim | emptyPropertyDim | bindReferenceDimFromProperty
  | bindReferenceFromPropertyDim => exact both (operand _).right (operands _)
  | bindReferencePropertyDim => exact both (operand _).left (operands _)
  | unsetDynamicProperty => exact both (operand _) (operand _)
  | unsetDynamicPropertyDim => exact both (both (operand _) (operand _)) (operands _)
  | issetDynamicPropertyDim | emptyDynamicPropertyDim =>
    exact both (both (operand _).right (operand _)) (operands _)
  | unsetStaticPropertyDim | bindReferenceFromStaticPropertyDim => exact operands _
  | yield => exact both (optionalOperand _).right (optionalOperand _)
  | bindReferenceFromCall | callFunction | callStaticMethod | newObject => exact (callArgs _).right
  | bindReferenceFromMethodCall | dynamicNewObject | callMethod | callClosure | callCallable =>
    exact both (operand _).right (callArgs _)
  | makeClosure _ _ captures =>
    refine right fun hnil operand hoperand => ?_
    obtain ⟨capture, hcapture, rfl⟩ := mem_map.mp hoperand
    exact flatMap_eq_nil_iff.mp hnil capture hcapture
  | assignPropertyDim => exact both (both (operand _).right (operands _)) (operand _)
  | assignDynamicProperty => exact both (both (operand _).right (operand _)) (operand _)
  | assignDynamicPropertyDim =>
    exact both (both (both (operand _).right (operand _)) (operands _)) (operand _)
  | arrayInsert => exact (both (optionalOperand _).right (operand _)).left
  | assignDim | appendDim => exact both (operands _).right (operand _)
  -- a register or a local, and then no operand, one, two or dimensions
  | _ =>
    first
    | exact nil
    | exact (operand _).right
    | exact both (operand _).right (operand _)
    | exact (operands _).right

theorem terminatorOperands (terminator : Terminator) : Within (OperandAccepted unit function)
    (verifyTerminator unit function terminator) terminator.kind.operands := by
  obtain ⟨span, kind⟩ := terminator
  cases kind with
  | jump => exact nil
  | jumpIfFalse | jumpIfTrue => exact (operand _).left.right
  | jumpIf => exact (operand _).left.left.right
  | return_ => exact (optionalOperand _).left.right
  | exit => exact (optionalOperand _).right

/-! ## Registers -/

theorem register {count : Nat} (id : RegId) : Within (· < count) (verifyRegister id count) [id] := by
  refine one fun hnil => ?_
  by_contra hge
  rw [verifyRegister, errorIf, if_pos (by simpa using hge)] at hnil
  cases hnil

theorem mutatedRegisters : Within (· < function.registerCount)
    (verifyInstructionKind unit function kind) (mutatedRegisters kind) := by
  cases kind with
  | arrayInsert => exact (register _).left.left.left
  | arraySpread => exact (register _).left
  | foreachNext | foreachNextRef => exact (register _).right.left.left
  | foreachCleanup => exact register _
  | _ => exact nil

theorem operandsRegisterUses {operands : List Operand}
    (h : Within (OperandAccepted unit function) errors operands) :
    Within (· < function.registerCount) errors (operandsRegisterUses operands) := by
  refine h.imp fun operand hoperand => ?_
  cases operand with
  | register id => exact register id hoperand
  | local_ | constant => exact nofun

theorem instructionRegisterUses : Within (· < function.registerCount)
    (verifyInstructionKind unit function kind) (instructionRegisterUses kind) := by
  rw [instructionRegisterUses_eq]
  exact (mutatedRegisters kind).append (instructionOperands kind).operandsRegisterUses

end

theorem terminatorRegisterUses (terminator : Terminator) : Within (· < function.registerCount)
    (verifyTerminator unit function terminator) (terminatorRegisterUses terminator.kind) := by
  rw [terminatorRegisterUses_eq]
  exact (terminatorOperands terminator).operandsRegisterUses

end Within
end

theorem lt_of_verifyConstant {id : ConstId} {count : Nat} (h : verifyConstant id count = []) : id < count := by
  by_contra hge
  rw [verifyConstant, errorIf, if_pos (by simpa using hge)] at h
  cases h

/-! ## Accepted units -/

theorem contextualizeErrors_eq_nil (h : contextualizeErrors context errors = []) : errors = [] :=
  map_eq_nil_iff.mp h

variable {unit : IrUnit} {function : IrFunction}

section
variable (h : Verified unit)
include h

theorem Verified.body (hfunction : function ∈ unit.functions) :
    ∃ functionId, verifyFunctionBody unit functionId function = [] := by
  obtain ⟨functionId, hfunctionId⟩ := getElem?_of_mem hfunction
  exact ⟨functionId, flatMap_eq_nil_iff.mp (append_eq_nil_iff.mp h).2 (function, functionId)
    (mem_zipIdx_iff_getElem?.mpr hfunctionId)⟩

theorem Verified.definitions (hfunction : function ∈ unit.functions) :
    verifyRegisterDefinitions function = [] := by
  obtain ⟨functionId, hbody⟩ := h.body hfunction
  exact contextualizeErrors_eq_nil (append_eq_nil_iff.mp hbody).2

theorem Verified.block {block : BasicBlock}
    (hfunction : function ∈ unit.functions) (hblock : block ∈ function.blocks) :
    ∃ functionId, verifyBlock unit functionId function block = [] := by
  obtain ⟨functionId, hbody⟩ := h.body hfunction
  obtain ⟨hheader, -⟩ := append_eq_nil_iff.mp hbody
  obtain ⟨-, hblocks⟩ := append_eq_nil_iff.mp hheader
  obtain ⟨index, hindex⟩ := getElem?_of_mem hblock
  exact ⟨functionId, (append_eq_nil_iff.mp (flatMap_eq_nil_iff.mp hblocks (block, index)
    (mem_zipIdx_iff_getElem?.mpr hindex))).2⟩

theorem Verified.instruction {block : BasicBlock} {instruction : Instruction}
    (hfunction : function ∈ unit.functions) (hblock : block ∈ function.blocks)
    (hinstruction : instruction ∈ block.instructions) :
    verifyInstructionKind unit function instruction.kind = [] := by
  obtain ⟨functionId, hverified⟩ := h.block hfunction hblock
  obtain ⟨hinstructions, -⟩ := append_eq_nil_iff.mp hverified
  obtain ⟨index, hindex⟩ := getElem?_of_mem hinstruction
  have hone := contextualizeErrors_eq_nil (flatMap_eq_nil_iff.mp hinstructions
    (instruction, index) (mem_zipIdx_iff_getElem?.mpr hindex))
  exact (append_eq_nil_iff.mp (append_eq_nil_iff.mp hone).2).2

theorem Verified.terminator {block : BasicBlock} {terminator : Terminator}
    (hfunction : function ∈ unit.functions) (hblock : block ∈ function.blocks)
    (hterminator : block.terminator = some terminator) : verifyTerminator unit function terminator = [] := by
  obtain ⟨functionId, hverified⟩ := h.block hfunction hblock
  have hfinal := (append_eq_nil_iff.mp hverified).2
  rw [hterminator] at hfinal
  exact contextualizeErrors_eq_nil hfinal

end
end Phrust.Ir
