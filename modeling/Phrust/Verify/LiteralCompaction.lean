import Phrust.Optimizer.LiteralCompaction
import Phrust.Theory.Distinct

/-!
# Constants behind compacted references

Every reference to the pool is renumbered, except in the arguments of a dynamic `new`. These keep their
number and are right only if the entry of that number is the same in the compacted pool.
-/

namespace Phrust.Ir

/-! ## References to the pool -/

/-- A reference to the pool, and whether it stands in an argument of a dynamic `new`. -/
structure Occurrence where
  constant : ConstId
  dynamicArgument : Bool

def operandOccurrences (dynamicArgument : Bool) (operands : List Operand) : List Occurrence :=
  operands.filterMap fun
    | .constant constant => some ⟨constant, dynamicArgument⟩
    | .register _ | .local_ _ => none

def InstructionKind.occurrences : InstructionKind → List Occurrence
  | .loadConst _ constant => [⟨constant, false⟩]
  | .dynamicNewObject _ className args =>
    operandOccurrences false [className] ++ operandOccurrences true (callArgsOperands args)
  | kind => operandOccurrences false kind.operands

def attributeOccurrences (attributes : List AttributeEntry) : List Occurrence :=
  attributes.flatMap fun entry => entry.arguments.map (⟨·, false⟩)

def valueOccurrences (value : Option ConstId) : List Occurrence := value.toList.map (⟨·, false⟩)

def BasicBlock.occurrences (block : BasicBlock) : List Occurrence :=
  block.instructions.flatMap (fun instruction => instruction.kind.occurrences) ++
    block.terminator.toList.flatMap fun terminator => operandOccurrences false terminator.kind.operands

def IrFunction.occurrences (function : IrFunction) : List Occurrence :=
  attributeOccurrences function.attributes ++
    function.params.flatMap (fun param => attributeOccurrences param.attributes) ++
    function.blocks.flatMap BasicBlock.occurrences

def ClassEntry.occurrences (class_ : ClassEntry) : List Occurrence :=
  attributeOccurrences class_.attributes ++
    class_.methods.flatMap (fun method => attributeOccurrences method.attributes) ++
    class_.properties.flatMap (fun property =>
      valueOccurrences property.default ++ attributeOccurrences property.attributes) ++
    class_.constants.flatMap (fun constant =>
      valueOccurrences constant.value ++ attributeOccurrences constant.attributes) ++
    class_.enumCases.flatMap fun case_ =>
      valueOccurrences case_.value ++ attributeOccurrences case_.attributes

/-- All references of a unit to its pool. -/
def IrUnit.occurrences (unit : IrUnit) : List Occurrence :=
  unit.functions.flatMap IrFunction.occurrences ++ unit.classes.flatMap ClassEntry.occurrences ++
    unit.constantTable.map fun entry => ⟨entry.value, false⟩

/-- What the references designate. -/
def IrUnit.designated (unit : IrUnit) : List (Option IrConstant) :=
  unit.occurrences.map fun occurrence => unit.constants[occurrence.constant]?

end Phrust.Ir

namespace Phrust.Optimizer
open Ir List Nat

/-! ## References of the rewritten unit -/

/-- What the pass makes of a reference. -/
def remapOccurrence (remap : List ConstId) (occurrence : Occurrence) : Occurrence :=
  if occurrence.dynamicArgument then occurrence
  else { occurrence with constant := remappedConst remap occurrence.constant }

section
variable (remap : List ConstId)

theorem operandOccurrences_remap (operands : List Operand) :
    operandOccurrences false (operands.map (remapOperandConstants remap)) =
      (operandOccurrences false operands).map (remapOccurrence remap) := by
  rw [operandOccurrences, operandOccurrences, filterMap_map, map_filterMap]
  congr 1
  funext operand
  cases operand <;> rfl

theorem operandOccurrences_dynamic (operands : List Operand) :
    (operandOccurrences true operands).map (remapOccurrence remap) = operandOccurrences true operands := by
  rw [operandOccurrences, map_filterMap]
  congr 1
  funext operand
  cases operand <;> rfl

theorem occurrences_remapInstructionConstants (kind : InstructionKind) :
    (remapInstructionConstants remap kind).occurrences = kind.occurrences.map (remapOccurrence remap) := by
  have hmap : operandOccurrences false (kind.mapOperands (remapOperandConstants remap)).operands =
      (operandOccurrences false kind.operands).map (remapOccurrence remap) := by
    rw [InstructionKind.operands_mapOperands, operandOccurrences_remap]
  cases kind with
  | loadConst => rfl
  | dynamicNewObject dst className args =>
    refine .trans ?_ map_append.symm
    rw [operandOccurrences_dynamic, ← operandOccurrences_remap]
    rfl
  | _ => exact hmap

theorem attributeOccurrences_remap (attributes : List AttributeEntry) :
    attributeOccurrences (remapAttributes remap attributes) =
      (attributeOccurrences attributes).map (remapOccurrence remap) := by
  simp [attributeOccurrences, remapAttributes, remapAttributeConstants, flatMap_map,
    map_flatMap, remapOccurrence, Function.comp_def]

theorem valueOccurrences_remap (value : Option ConstId) :
    valueOccurrences (value.map (remappedConst remap)) =
      (valueOccurrences value).map (remapOccurrence remap) := by
  cases value <;> rfl

theorem occurrences_remapBlock (block : BasicBlock) :
    (remapBlock remap block).occurrences = block.occurrences.map (remapOccurrence remap) := by
  rw [BasicBlock.occurrences, BasicBlock.occurrences, map_append]
  congr 1
  · simp only [remapBlock, flatMap_map, map_flatMap, occurrences_remapInstructionConstants]
  · cases hterminator : block.terminator with
    | none => simp [remapBlock, hterminator]
    | some terminator =>
      simp [remapBlock, hterminator, remapTerminatorConstants, TerminatorKind.operands_mapOperands,
        operandOccurrences_remap]

theorem occurrences_remapFunction (function : IrFunction) :
    (remapFunction remap function).occurrences = function.occurrences.map (remapOccurrence remap) := by
  simp only [IrFunction.occurrences, remapFunction, map_append, flatMap_map,
    map_flatMap, attributeOccurrences_remap, occurrences_remapBlock]

theorem occurrences_remapClass (class_ : ClassEntry) :
    (remapClass remap class_).occurrences = class_.occurrences.map (remapOccurrence remap) := by
  simp only [ClassEntry.occurrences, remapClass, map_append, flatMap_map,
    map_flatMap, attributeOccurrences_remap, valueOccurrences_remap]

/-- The pass rewrites the references one by one. -/
theorem occurrences_remapUnitConstants (unit : IrUnit) :
    (remapUnitConstants remap unit).occurrences = unit.occurrences.map (remapOccurrence remap) := by
  simp only [IrUnit.occurrences, remapUnitConstants, map_append, flatMap_map,
    map_flatMap, occurrences_remapFunction, occurrences_remapClass, map_map]
  rfl

end

/-! ## The compacted pool -/

/-- The state behind some constants, as long as all positions fit. -/
structure Compacted (constants : List IrConstant) (state : Compaction) : Prop where
  constants_eq : state.constants = distinct constants
  length_le : (distinct constants).length ≤ 2 ^ 32
  length_remap : state.remap.length = constants.length
  remapped : ∀ index constant, constants[index]? = some constant → ∃ position,
    state.remap[index]? = some position ∧
      (distinct constants)[position]? = some (standIn (constants.take index) constant)
  unchanged : state.duplicatesRemoved = 0 → distinct constants = constants ∧
    ∀ index constant, constants[index]? = some constant →
      standIn (constants.take index) constant = constant

namespace Compacted
variable {constants : List IrConstant} {state : Compaction} {constant : IrConstant}

theorem duplicate (h : Compacted constants state)
    (hfind : state.constants.findIdx? (· == constant) = some position) :
    Compacted (constants ++ [constant]) { state with
      remap := state.remap ++ [position]
      duplicatesRemoved := state.duplicatesRemoved + 1 } := by
  rw [h.constants_eq] at hfind
  obtain ⟨hdistinct, hposition⟩ := distinct_of_findIdx? hfind
  refine ⟨?_, ?_, ?_, fun index other hother => ?_, fun hzero => ?_⟩
  · rw [hdistinct]
    exact h.constants_eq
  · rw [hdistinct]
    exact h.length_le
  · rw [length_append, length_append, h.length_remap]
    rfl
  · rw [hdistinct]
    rcases getElem?_concat_cases hother with ⟨hother, htake⟩ | ⟨rfl, rfl, htake⟩
    · obtain ⟨found, hfound, hentry⟩ := h.remapped index other hother
      exact ⟨found, getElem?_longer (prefix_append _ _) hfound, htake ▸ hentry⟩
    · refine ⟨position, ?_, htake.symm ▸ hposition⟩
      rw [← h.length_remap]
      exact getElem?_concat_length
  · cases hzero

theorem fresh (h : Compacted constants state) (hfind : state.constants.findIdx? (· == constant) = none)
    (hlt : state.constants.length < 2 ^ 32) :
    Compacted (constants ++ [constant]) { state with
      remap := state.remap ++ [state.constants.length]
      constants := state.constants ++ [constant] } := by
  rw [h.constants_eq] at hfind hlt
  obtain ⟨hdistinct, hstand⟩ := distinct_of_findIdx?_none hfind
  refine ⟨?_, ?_, ?_, fun index other hother => ?_, fun hzero => ⟨?_, fun index other hother => ?_⟩⟩
  · rw [hdistinct, ← h.constants_eq]
  · rw [hdistinct, length_append]
    exact hlt
  · rw [length_append, length_append, h.length_remap]
    rfl
  · rw [hdistinct]
    rcases getElem?_concat_cases hother with ⟨hother, htake⟩ | ⟨rfl, rfl, htake⟩
    · obtain ⟨found, hfound, hentry⟩ := h.remapped index other hother
      exact ⟨found, getElem?_longer (prefix_append _ _) hfound,
        getElem?_longer (prefix_append _ _) (htake ▸ hentry)⟩
    refine ⟨state.constants.length, ?_, ?_⟩
    · rw [← h.length_remap]
      exact getElem?_concat_length
    · rw [htake, hstand, h.constants_eq]
      exact getElem?_concat_length
  · rw [hdistinct, (h.unchanged hzero).1]
  · rcases getElem?_concat_cases hother with ⟨hother, htake⟩ | ⟨rfl, rfl, htake⟩
    · rw [htake]
      exact (h.unchanged hzero).2 index other hother
    · rw [htake, hstand]

end Compacted

section
variable (constants : List IrConstant)

/-- Either all positions fit, or there are too many distinct constants and the pass does nothing. -/
theorem compact_spec :
    (compact constants).skippedIndexOverflow = 0 ∧ Compacted constants (compact constants) ∨
      0 < (compact constants).skippedIndexOverflow ∧ 2 ^ 32 < (distinct constants).length := by
  induction constants using List.reverseRecOn with
  | nil => exact .inl ⟨rfl, rfl, zero_le _, rfl, nofun, fun _ =>
      ⟨rfl, nofun⟩⟩
  | append_singleton constants constant ih =>
    rw [compact, foldl_append, foldl_cons, foldl_nil, ← compact]
    generalize compact constants = state at ih ⊢
    rcases ih with ⟨hskipped, h⟩ | ⟨hskipped, hlength⟩
    · cases hfind : state.constants.findIdx? (· == constant) with
      | some position =>
        have hlt : position < 2 ^ 32 := by
          obtain ⟨entry, hentry, -⟩ := getElem?_findIdx? hfind
          have hlength := (List.getElem?_eq_some_iff.mp hentry).1
          rw [h.constants_eq] at hlength
          exact Nat.lt_of_lt_of_le hlength h.length_le
        simp only [Compaction.visit, hfind, Option.bind_some, u32?_eq_some hlt]
        exact .inl ⟨hskipped, h.duplicate hfind⟩
      | none =>
        rcases Nat.lt_or_ge state.constants.length (2 ^ 32) with hlt | hge
        · simp only [Compaction.visit, hfind, Option.bind_none, u32?_eq_some hlt]
          exact .inl ⟨hskipped, h.fresh hfind hlt⟩
        have hnone : u32? state.constants.length = none := if_neg (Nat.not_lt.mpr hge)
        simp only [Compaction.visit, hfind, Option.bind_none, hnone]
        rw [h.constants_eq] at hfind hge
        rw [(distinct_of_findIdx?_none hfind).1, length_append]
        exact .inr ⟨succ_pos _, lt_succ_of_le hge⟩
    · refine .inr ⟨?_, Nat.lt_of_lt_of_le hlength (distinct_longer constants constant).length_le⟩
      rw [Compaction.visit]
      split
      · exact hskipped
      · split
        · exact hskipped
        · exact succ_pos _

/-! ## What the references designate -/

/-- The entry of the pool that is kept for this one is the same. -/
def KeepsLiteral (index : ConstId) : Prop :=
  ∀ constant, constants[index]? = some constant →
    standIn (constants.take index) constant = constant

/-- The reference designates the same constant when equal ones are removed from the pool. -/
def KeepsReference (occurrence : Occurrence) : Prop :=
  if occurrence.dynamicArgument then
    (distinct constants)[occurrence.constant]? = constants[occurrence.constant]?
  else KeepsLiteral constants occurrence.constant

end

theorem Compacted.keepsReference_iff {constants : List IrConstant} {state : Compaction}
    (h : Compacted constants state) (occurrence : Occurrence) :
    state.constants[(remapOccurrence state.remap occurrence).constant]? =
      constants[occurrence.constant]? ↔ KeepsReference constants occurrence := by
  obtain ⟨index, dynamicArgument⟩ := occurrence
  rw [h.constants_eq]
  cases dynamicArgument with
  | true => exact Iff.rfl
  | false =>
    change (distinct constants)[remappedConst state.remap index]? = constants[index]? ↔
      KeepsLiteral constants index
    rw [remappedConst, KeepsLiteral]
    cases hconstant : constants[index]? with
    | some constant =>
      obtain ⟨position, hposition, hentry⟩ := h.remapped index constant hconstant
      rw [hposition, Option.getD_some, hentry]
      simp
    | none =>
      -- out of range: such a reference keeps its number, and the compacted pool is no longer
      have hlength := List.getElem?_eq_none_iff.mp hconstant
      have hremap : state.remap[index]? = none := getElem?_eq_none (h.length_remap ▸ hlength)
      rw [hremap, Option.getD_none, getElem?_eq_none (Nat.le_trans (length_distinct_le constants) hlength)]
      simp

/-- Whether every reference of a unit designates the same constant as before. -/
theorem literalCompaction_designated_iff (unit : IrUnit) :
    (literalCompaction unit).designated = unit.designated ↔ 2 ^ 32 < (distinct unit.constants).length ∨
        ∀ occurrence ∈ unit.occurrences, KeepsReference unit.constants occurrence := by
  rcases compact_spec unit.constants with ⟨hskipped, h⟩ | ⟨hskipped, hlength⟩
  · rw [or_iff_right (Nat.not_lt.mpr h.length_le), literalCompaction]
    rcases Nat.eq_zero_or_pos (compact unit.constants).duplicatesRemoved with hzero | hpos
    · simp only [hzero, Nat.lt_irrefl, false_and, if_false, true_iff]
      obtain ⟨hdistinct, hstand⟩ := h.unchanged hzero
      intro occurrence _
      rw [KeepsReference, hdistinct]
      split
      · rfl
      · exact hstand occurrence.constant
    · simp only [hpos, hskipped, true_and, if_true, IrUnit.designated,
        occurrences_remapUnitConstants, map_map]
      refine Iff.trans (map_inj_left (l := unit.occurrences)) ?_
      exact forall₂_congr fun occurrence _ => h.keepsReference_iff occurrence
  · rw [literalCompaction, if_neg fun hboth => (Nat.ne_of_gt hskipped) hboth.2]
    exact iff_of_true rfl (.inl hlength)

/-- `new $class(7)` in a unit with a repeated constant. -/
def compactionUnit : IrUnit :=
  unitOf [.string "C", .null, .null, .int 7, .int 8] 1
    [⟨0, [⟨0, ⟨0, 0, 0⟩, .dynamicNewObject 0 (.constant 0)
      [⟨none, .constant 3, false, .direct, none, none, none, none⟩]⟩],
      some ⟨⟨0, 0, 0⟩, .return_ none none⟩⟩]

theorem not_literalCompaction_designated : Verified compactionUnit ∧
    Verified (literalCompaction compactionUnit) ∧
      (literalCompaction compactionUnit).designated ≠ compactionUnit.designated := by
  refine ⟨by decide +kernel, by decide +kernel, fun h => ?_⟩
  have hequal : ((literalCompaction compactionUnit).designated == compactionUnit.designated) =
      (compactionUnit.designated == compactionUnit.designated) := congrArg (· == _) h
  exact absurd hequal (by decide +kernel)

end Phrust.Optimizer
