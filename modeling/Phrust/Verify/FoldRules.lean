import Phrust.Ir.BlockRuns
import Phrust.Optimizer.ConstantFolding

/-!
# Folding rules and operators

The rules give what the operators of the runtime give, with one exception: a text and a byte constant with
the same bytes are one string at run time, and the rule for identity takes them for two.
-/

namespace Phrust.Optimizer
open Ir OpenOperators Option

/-! ## Runs with the operators of the runtime -/

/-- What a run leaves open: the operators on other values, the constants that are resolved at run time,
and all other instructions. -/
structure OperatorRuntime (O W : Type) where
  operators : OpenOperators O
  resolve : IrConstant → RuntimeValue O
  missing : RuntimeValue O
  run : InstructionKind → List (RuntimeValue O) → (LocalId → RuntimeValue O) → W →
    Effect (RuntimeValue O) W
  raise : W → W

def literalValue (resolve : IrConstant → RuntimeValue O) : IrConstant → RuntimeValue O
  | .null => .null
  | .bool value => .bool value
  | .int value => .int value
  | .string value => .string value.toByteArray.data.toList
  | .stringBytes value => .string value
  | constant => resolve constant

namespace OperatorRuntime
variable (R : OperatorRuntime O W)

def interpretation : Interpretation (RuntimeValue O) W := ⟨literalValue R.resolve, R.missing, R.run⟩

/-- Write the result of an operator, or leave the block with a runtime error. -/
def publish (dst : RegId) (result : Option (RuntimeValue O)) (machine : Machine (RuntimeValue O) W) :
    Machine (RuntimeValue O) W × Bool :=
  match result with
  | some value => (machine.set dst value, true)
  | none => ({ machine with world := R.raise machine.world }, false)

def step (constants : List IrConstant) (kind : InstructionKind)
    (machine : Machine (RuntimeValue O) W) : Machine (RuntimeValue O) W × Bool :=
  let value := R.interpretation.operandValue constants machine
  match kind with
  | .loadConst dst constant =>
    (machine.set dst (R.interpretation.constantValue constants constant), true)
  | .binary dst op lhs rhs =>
    R.publish dst (R.operators.baselineBinary op (value lhs) (value rhs)) machine
  | .compare dst op lhs rhs =>
    R.publish dst (R.operators.baselineCompare op (value lhs) (value rhs)) machine
  | .unary dst op src => R.publish dst (R.operators.baselineUnary op (value src)) machine
  | kind => R.interpretation.perform constants (definedRegisters kind) kind machine

end OperatorRuntime

/-! ## The rules and the operators -/

/-- A text and a byte constant that are the same string. -/
def sameBytes : IrConstant → IrConstant → Bool
  | .string text, .stringBytes bytes | .stringBytes bytes, .string text =>
    text.toByteArray.data.toList == bytes
  | _, _ => false

/-- The rule takes two representations of one string for different strings. -/
def Confuses (op : CompareOp) (lhs rhs : IrConstant) : Prop :=
  (op = .identical ∨ op = .notIdentical) ∧ sameBytes lhs rhs = true

section
variable (operators : OpenOperators O) (resolve : IrConstant → RuntimeValue O)

theorem foldBinaryLiteral_sound (h : foldBinaryLiteral op lhs rhs = some constant) :
    operators.baselineBinary op (literalValue resolve lhs) (literalValue resolve rhs) =
      some (literalValue resolve constant) := by
  rw [foldBinaryLiteral.eq_def] at h
  split at h
  iterate 3
    · obtain ⟨value, hvalue, rfl⟩ := map_eq_some_iff.mp h
      simp [baselineBinary, checkedNumeric, literalValue, hvalue]
  · cases h
    simp [baselineBinary, literalValue]
  · cases h

theorem foldUnaryLiteral_sound (h : foldUnaryLiteral op src = some constant) :
    operators.baselineUnary op (literalValue resolve src) = some (literalValue resolve constant) := by
  rw [foldUnaryLiteral.eq_def] at h
  split at h
  · cases h
    rfl
  · cases h

theorem bytes_beq (lhs rhs : String) :
    (lhs.toByteArray.data.toList == rhs.toByteArray.data.toList) = (lhs == rhs) := by
  rw [Bool.eq_iff_iff, beq_iff_eq, beq_iff_eq, Array.toList_inj, ← ByteArray.ext_iff, String.toByteArray_inj]

theorem strictLiteralIdentity_sound (h : strictLiteralIdentity lhs rhs = some value)
    (hbytes : sameBytes lhs rhs = false) :
    operators.identical (literalValue resolve lhs) (literalValue resolve rhs) = value := by
  rw [strictLiteralIdentity.eq_def] at h
  split at h
  · cases h; rfl
  · cases h; rfl
  · cases h; rfl
  · cases h; exact bytes_beq _ _
  · cases h; rfl
  · -- scalars of two kinds: only two representations of a string have the same kind of value
    split at h
    · next hscalar =>
      cases h
      cases lhs <;> cases rhs <;>
        simp_all [strictIdentityScalar, identical, literalValue, sameBytes]
      exact Ne.symm hbytes
    · cases h

theorem identical_of_sameBytes (h : sameBytes lhs rhs = true) : strictLiteralIdentity lhs rhs = some false ∧
      operators.identical (literalValue resolve lhs) (literalValue resolve rhs) = true := by
  rw [sameBytes.eq_def] at h
  split at h
  · exact ⟨rfl, h⟩
  · exact ⟨rfl, BEq.comm.trans h⟩
  · cases h

section
variable (left right : Int)

theorem compare_int :
    compare left right = if left < right then .lt else if left = right then .eq else .gt := rfl

theorem isEq_compare : (compare left right == .eq) = (left == right) := by
  rw [compare_int]
  grind

theorem isLT_compare : (compare left right).isLT = decide (left < right) := by
  rw [compare_int]
  grind [Ordering.isLT]

theorem isGT_compare : (compare left right).isGT = decide (left > right) := by
  rw [compare_int]
  grind [Ordering.isGT]

theorem not_isLT_compare : (!(compare left right).isLT) = decide (left ≥ right) := by
  rw [isLT_compare]
  grind

theorem not_isGT_compare : (!(compare left right).isGT) = decide (left ≤ right) := by
  rw [isGT_compare]
  grind

end

theorem sameTypeLiteralEquality_sound (h : sameTypeLiteralEquality lhs rhs = some value) :
    operators.equal (literalValue resolve lhs) (literalValue resolve rhs) = some value := by
  rw [sameTypeLiteralEquality.eq_def] at h
  split at h
  · cases h; rfl
  · next left right =>
    cases h
    cases left <;> cases right <;> rfl
  · next left right =>
    cases h
    exact congrArg some (isEq_compare left right)
  · cases h

theorem intPair_sound (h : intPair lhs rhs = some pair) :
    operators.compare (literalValue resolve lhs) (literalValue resolve rhs) = some (compare pair.1 pair.2) ∧
      operators.numericComparisonIsUnordered (literalValue resolve lhs) (literalValue resolve rhs) =
        false := by
  rw [intPair.eq_def] at h
  split at h
  · cases h
    exact ⟨rfl, rfl⟩
  · cases h

theorem foldCompareLiteral_sound (h : foldCompareLiteral op lhs rhs = some constant)
    (hconfuses : ¬ Confuses op lhs rhs) :
    operators.baselineCompare op (literalValue resolve lhs) (literalValue resolve rhs) =
      some (literalValue resolve constant) := by
  cases op with
  | identical | notIdentical =>
    obtain ⟨value, hvalue, rfl⟩ := map_eq_some_iff.mp h
    have hbytes : sameBytes lhs rhs = false := by simpa [Confuses] using hconfuses
    rw [baselineCompare, strictLiteralIdentity_sound operators resolve hvalue hbytes]
    rfl
  | equal | notEqual =>
    obtain ⟨value, hvalue, rfl⟩ := map_eq_some_iff.mp h
    rw [baselineCompare, sameTypeLiteralEquality_sound operators resolve hvalue]
    rfl
  | less | lessEqual | spaceship =>
    obtain ⟨pair, hpair, rfl⟩ := map_eq_some_iff.mp h
    rw [baselineCompare, (intPair_sound operators resolve hpair).1, map_some]
    simp only [isLT_compare, not_isGT_compare, literalValue]
  | greater | greaterEqual =>
    obtain ⟨pair, hpair, rfl⟩ := map_eq_some_iff.mp h
    obtain ⟨hcompare, hordered⟩ := intPair_sound operators resolve hpair
    rw [baselineCompare, hcompare, hordered, if_neg Bool.false_ne_true, map_some]
    simp only [isGT_compare, not_isLT_compare, literalValue]

theorem foldCompareLiteral_confuses (h : Confuses op lhs rhs) :
    ∃ value, foldCompareLiteral op lhs rhs = some (.bool value) ∧
      operators.baselineCompare op (literalValue resolve lhs) (literalValue resolve rhs) =
        some (.bool !value) := by
  obtain ⟨hfold, hrun⟩ := identical_of_sameBytes operators resolve h.2
  rcases h.1 with rfl | rfl
  · refine ⟨false, ?_, ?_⟩
    · rw [foldCompareLiteral, hfold]
      rfl
    · rw [baselineCompare, hrun]
      rfl
  · refine ⟨true, ?_, ?_⟩
    · rw [foldCompareLiteral, hfold]
      rfl
    · rw [baselineCompare, hrun]

end
end Phrust.Optimizer
