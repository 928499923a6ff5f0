import Phrust.Ir.Operands

/-!
# Compaction of the constant pool

The pass keeps the first of equal constants and renumbers every reference to the pool. Equality is that
of the source, so the two zeros are one constant.
-/

namespace Phrust.Optimizer
open Ir

/-- A position as an identifier, if it fits. -/
def u32? (index : Nat) : Option Nat := if index < 2 ^ 32 then some index else none

theorem u32?_eq_some (h : index < 2 ^ 32) : u32? index = some index := if_pos h

structure Compaction where
  constants : List IrConstant
  remap : List ConstId
  duplicatesRemoved : Nat
  skippedIndexOverflow : Nat

def Compaction.visit (state : Compaction) (constant : IrConstant) : Compaction :=
  match (state.constants.findIdx? (· == constant)).bind u32? with
  | some index =>
    { state with
      remap := state.remap ++ [index]
      duplicatesRemoved := state.duplicatesRemoved + 1 }
  | none =>
    match u32? state.constants.length with
    | some index =>
      { state with remap := state.remap ++ [index], constants := state.constants ++ [constant] }
    | none =>
      { state with
        remap := state.remap ++ [2 ^ 32 - 1]
        skippedIndexOverflow := state.skippedIndexOverflow + 1 }

def compact (constants : List IrConstant) : Compaction := constants.foldl Compaction.visit ⟨[], [], 0, 0⟩

/-! ## Rewriting the references -/

/-- The operands that the passes visit: all but the arguments of a dynamic `new`. -/
def walkOperands (f : Operand → Operand) : InstructionKind → InstructionKind
  | .dynamicNewObject dst className args => .dynamicNewObject dst (f className) args
  | kind => kind.mapOperands f

section
variable (remap : List ConstId)

def remappedConst (value : ConstId) : ConstId := remap[value]?.getD value

def remapOperandConstants : Operand → Operand
  | .constant constant => .constant (remappedConst remap constant)
  | operand => operand

def remapInstructionConstants : InstructionKind → InstructionKind
  | .loadConst dst constant => .loadConst dst (remappedConst remap constant)
  | kind => walkOperands (remapOperandConstants remap) kind

def remapTerminatorConstants (kind : TerminatorKind) : TerminatorKind :=
  kind.mapOperands (remapOperandConstants remap)

def remapAttributeConstants (entry : AttributeEntry) : AttributeEntry :=
  { entry with arguments := entry.arguments.map (remappedConst remap) }

def remapAttributes (attributes : List AttributeEntry) : List AttributeEntry :=
  attributes.map (remapAttributeConstants remap)

def remapBlock (block : BasicBlock) : BasicBlock :=
  { block with
    instructions := block.instructions.map fun instruction =>
      { instruction with kind := remapInstructionConstants remap instruction.kind }
    terminator := block.terminator.map fun terminator =>
      { terminator with kind := remapTerminatorConstants remap terminator.kind } }

def remapFunction (function : IrFunction) : IrFunction :=
  { function with
    attributes := remapAttributes remap function.attributes
    params := function.params.map fun param =>
      { param with attributes := remapAttributes remap param.attributes }
    blocks := function.blocks.map (remapBlock remap) }

def remapClass (class_ : ClassEntry) : ClassEntry :=
  { class_ with
    attributes := remapAttributes remap class_.attributes
    methods := class_.methods.map fun method =>
      { method with attributes := remapAttributes remap method.attributes }
    properties := class_.properties.map fun property =>
      { property with
        default := property.default.map (remappedConst remap)
        attributes := remapAttributes remap property.attributes }
    constants := class_.constants.map fun constant =>
      { constant with
        value := constant.value.map (remappedConst remap)
        attributes := remapAttributes remap constant.attributes }
    enumCases := class_.enumCases.map fun case_ =>
      { case_ with
        value := case_.value.map (remappedConst remap)
        attributes := remapAttributes remap case_.attributes } }

def remapUnitConstants (unit : IrUnit) : IrUnit :=
  { unit with
    functions := unit.functions.map (remapFunction remap)
    classes := unit.classes.map (remapClass remap)
    constantTable := unit.constantTable.map fun constant =>
      { constant with value := remappedConst remap constant.value } }

end

def literalCompaction (unit : IrUnit) : IrUnit :=
  let result := compact unit.constants
  if 0 < result.duplicatesRemoved ∧ result.skippedIndexOverflow = 0 then
    remapUnitConstants result.remap { unit with constants := result.constants }
  else unit

end Phrust.Optimizer
