import Phrust.Verify.FoldRules
import Phrust.Verify.OperandRanges

/-!
# Runs of folded blocks

A folded block runs as the original does as long as no identity test between a text constant and a byte
constant with the same bytes is folded: these are the same string at run time.
-/

namespace Phrust.Optimizer
open Ir OpenOperators Option List

/-! ## Pools -/

section
variable {constants constants' : List IrConstant}
variable {I : Interpretation V W}

theorem constantValue_longer {id : ConstId} (hpool : constants <+: constants') (hlt : id < constants.length) :
    I.constantValue constants' id = I.constantValue constants id := by
  obtain ⟨rest, rfl⟩ := hpool
  rw [Interpretation.constantValue, Interpretation.constantValue, getElem?_append_left hlt]

theorem constantValue_of_getElem? {id : ConstId}
    (hpool : constants <+: constants') (h : constants[id]? = some literal) :
    I.constantValue constants' id = I.literal literal := by
  obtain ⟨hlt, -⟩ := List.getElem?_eq_some_iff.mp h
  rw [constantValue_longer hpool hlt, Interpretation.constantValue, h]
  rfl

/-- The constants that an instruction names are entries of the pool. -/
structure InPool (constants : List IrConstant) (kind : InstructionKind) : Prop where
  operands : ∀ id, Operand.constant id ∈ kind.operands → id < constants.length
  load : ∀ dst id, kind = .loadConst dst id → id < constants.length

theorem operandValue_longer {operands : List Operand} (hpool : constants <+: constants')
    (h : ∀ id, Operand.constant id ∈ operands → id < constants.length) (hoperand : operand ∈ operands) :
    I.operandValue constants' machine operand = I.operandValue constants machine operand := by
  cases operand with
  | register | local_ => rfl
  | constant id => exact constantValue_longer hpool (h id hoperand)

/-- An instruction of the unit runs in the same way under a longer pool. -/
theorem OperatorRuntime.step_longer (R : OperatorRuntime O W) (hpool : constants <+: constants')
    (h : InPool constants kind) (machine : Machine (RuntimeValue O) W) :
    R.step constants' kind machine = R.step constants kind machine := by
  have hvalue : ∀ operand ∈ kind.operands,
      R.interpretation.operandValue constants' machine operand =
        R.interpretation.operandValue constants machine operand :=
    fun operand hoperand => operandValue_longer hpool h.operands hoperand
  have hperform : ∀ writes, R.interpretation.perform constants' writes kind machine =
      R.interpretation.perform constants writes kind machine := by
    intro writes
    rw [Interpretation.perform, Interpretation.perform, Interpretation.reads, Interpretation.reads,
      List.map_congr_left hvalue]
  cases kind with
  | loadConst dst id =>
    rw [step, step, constantValue_longer hpool (h.load dst id rfl)]
  | binary dst op lhs rhs | compare dst op lhs rhs =>
    rw [step, step, hvalue lhs mem_cons_self, hvalue rhs (mem_cons_of_mem _ mem_cons_self)]
  | unary dst op src => rw [step, step, hvalue src mem_cons_self]
  | _ => exact hperform _

end

/-! ## What is known about the registers -/

variable {state : FoldState}

theorem get_foldl_forget {registers : List RegId} {id : ConstId}
    (h : (registers.foldl FoldState.forget state).known.get register = some id) :
    register ∉ registers ∧ state.known.get register = some id := by
  induction registers generalizing state with
  | nil => exact ⟨not_mem_nil, h⟩
  | cons dst registers ih =>
    obtain ⟨hregister, hget⟩ := ih h
    by_cases heq : register = dst
    · rw [heq, FoldState.forget, KeyMap.get_remove_self] at hget
      cases hget
    · rw [FoldState.forget, KeyMap.get_remove_ne _ (Ne.symm heq)] at hget
      exact ⟨not_mem_cons_of_ne_of_not_mem heq hregister, hget⟩

def Known (I : Interpretation V W) (constants : List IrConstant) (known : KeyMap RegId ConstId)
    (machine : Machine V W) : Prop :=
  ∀ register id, known.get register = some id →
    machine.registers register = I.constantValue constants id

namespace Known
variable {I : Interpretation V W} {constants : List IrConstant} {known : KeyMap RegId ConstId}
  {machine : Machine V W}

theorem nil (machine : Machine V W) : Known I constants [] machine := nofun

/-- Nothing is known of a register that is forgotten, so it may be written. -/
theorem remove (h : Known I constants known machine) (dst : RegId)
    (hsame : ∀ register, register ≠ dst → machine'.registers register = machine.registers register) :
    Known I constants (known.remove dst) machine' := by
  intro register id hget
  by_cases heq : register = dst
  · rw [heq, KeyMap.get_remove_self] at hget
    cases hget
  · rw [KeyMap.get_remove_ne _ (Ne.symm heq)] at hget
    rw [hsame register heq]
    exact h register id hget

theorem insert (h : Known I constants known machine) (dst : RegId) (id : ConstId) :
    Known I constants (known.insert dst id) (machine.set dst (I.constantValue constants id)) := by
  intro register other hget
  rw [KeyMap.get_insert] at hget
  by_cases heq : dst = register
  · rw [if_pos heq] at hget
    cases hget
    exact if_pos heq.symm
  · rw [if_neg heq] at hget
    exact (if_neg (Ne.symm heq)).trans (h register other hget)

/-- An instruction may write all the registers that are forgotten. -/
theorem forget {state : FoldState} (h : Known I constants state.known machine)
    (registers : List RegId) (hsame : ∀ register, register ∉ registers →
      machine'.registers register = machine.registers register) :
    Known I constants (registers.foldl FoldState.forget state).known machine' := by
  intro register id hget
  obtain ⟨hregister, hget⟩ := get_foldl_forget hget
  rw [hsame register hregister]
  exact h register id hget

theorem literal?_sound {state : FoldState} (h : Known I constants state.known machine)
    (hpool : state.pool.constants <+: constants) (hliteral : state.literal? operand = some literal) :
    I.operandValue constants machine operand = I.literal literal := by
  obtain ⟨id, hid, hentry⟩ := bind_eq_some_iff.mp hliteral
  have hvalue := constantValue_of_getElem? (I := I) hpool hentry
  cases operand with
  | constant constant =>
    cases hid
    exact hvalue
  | register register => exact (h register id hid).trans hvalue
  | local_ => cases hid

end Known

/-! ## One instruction -/

/-- The pass folds an identity test of two representations of one string. -/
def Misfolds (state : FoldState) : InstructionKind → Prop
  | .compare dst op lhs rhs => ∃ left right, (state.forget dst).literal? lhs = some left ∧
    (state.forget dst).literal? rhs = some right ∧ Confuses op left right ∧
      state.pool.constants.length < 2 ^ 32
  | _ => False

theorem appendConstant_eq_some (h : appendConstant constants literal = some result) :
    constants.length < 2 ^ 32 ∧ result = (constants.length, constants ++ [literal]) := by
  obtain ⟨index, hindex, rfl⟩ := map_eq_some_iff.mp h
  rw [u32?, ite_none_right_eq_some] at hindex
  obtain ⟨hlt, hindex⟩ := hindex
  cases hindex
  exact ⟨hlt, rfl⟩

theorem fold2_eq_some (h : state.fold2 rule lhs rhs = some result) :
    ∃ left right literal, state.literal? lhs = some left ∧ state.literal? rhs = some right ∧
      rule left right = some literal ∧ appendConstant state.pool.constants literal = some result := by
  obtain ⟨left, hleft, h⟩ := bind_eq_some_iff.mp h
  obtain ⟨right, hright, h⟩ := bind_eq_some_iff.mp h
  obtain ⟨literal, hliteral, h⟩ := bind_eq_some_iff.mp h
  exact ⟨left, right, literal, hleft, hright, hliteral, h⟩

theorem fold1_eq_some (h : state.fold1 rule src = some result) :
    ∃ value literal, state.literal? src = some value ∧ rule value = some literal ∧
      appendConstant state.pool.constants literal = some result := by
  obtain ⟨value, hvalue, h⟩ := bind_eq_some_iff.mp h
  obtain ⟨literal, hliteral, h⟩ := bind_eq_some_iff.mp h
  exact ⟨value, literal, hvalue, hliteral, h⟩

/-- The constant that a folded instruction loads. -/
theorem constantValue_appendConstant {I : Interpretation V W}
    (h : appendConstant constants literal = some result) (hpool : result.2 <+: constants') :
    I.constantValue constants' result.1 = I.literal literal := by
  obtain ⟨-, rfl⟩ := appendConstant_eq_some h
  exact constantValue_of_getElem? hpool getElem?_concat_length

/-- The pool only grows, and it grows with every fold. -/
structure FoldPool.Extends (pool pool' : FoldPool) : Prop where
  constants : pool.constants <+: pool'.constants
  folded : pool.folded ≤ pool'.folded
  same : pool'.folded = pool.folded → pool'.constants = pool.constants

namespace FoldPool.Extends

theorem refl (pool : FoldPool) : pool.Extends pool := ⟨prefix_rfl, Nat.le_refl _, fun _ => rfl⟩

theorem trans {pool₁ pool₂ pool₃ : FoldPool} (h : pool₁.Extends pool₂) (h' : pool₂.Extends pool₃) :
    pool₁.Extends pool₃ := by
  refine ⟨h.constants.trans h'.constants, Nat.le_trans h.folded h'.folded, fun heq => ?_⟩
  have hfirst : pool₂.folded = pool₁.folded := Nat.le_antisymm (heq ▸ h'.folded) h.folded
  rw [h'.same (heq.trans hfirst.symm), h.same hfirst]

theorem load {folded : Option (ConstId × List IrConstant)} (state : FoldState) (dst : RegId)
    (kind : InstructionKind) (h : ∀ result, folded = some result → ∃ literal,
      appendConstant state.pool.constants literal = some result) :
    state.pool.Extends (state.load dst kind folded).2.pool := by
  cases folded with
  | none => exact refl _
  | some result =>
    obtain ⟨literal, happend⟩ := h result rfl
    obtain ⟨-, rfl⟩ := appendConstant_eq_some happend
    refine ⟨prefix_append _ _, Nat.le_succ _, fun heq => ?_⟩
    exact absurd heq (Nat.succ_ne_self _)

end FoldPool.Extends

theorem pool_foldl_forget (registers : List RegId) (state : FoldState) :
    (registers.foldl FoldState.forget state).pool = state.pool := by
  induction registers generalizing state with
  | nil => rfl
  | cons dst registers ih => exact ih (state.forget dst)

theorem foldKind_extends (state : FoldState) (kind : InstructionKind) :
    state.pool.Extends (foldKind state kind).2.pool := by
  have hforget : state.pool.Extends ((definedRegisters kind).foldl FoldState.forget state).pool := by
    rw [pool_foldl_forget]
    exact .refl _
  cases kind with
  | loadConst => exact .refl _
  | binary dst | compare dst =>
    refine FoldPool.Extends.load (state.forget dst) dst _ fun result hresult => ?_
    obtain ⟨_, _, literal, -, -, -, happend⟩ := fold2_eq_some hresult
    exact ⟨literal, happend⟩
  | unary dst =>
    refine FoldPool.Extends.load (state.forget dst) dst _ fun result hresult => ?_
    obtain ⟨_, literal, -, -, happend⟩ := fold1_eq_some hresult
    exact ⟨literal, happend⟩
  | _ => exact hforget

section
variable {R : OperatorRuntime O W} {constants : List IrConstant}
  {machine : Machine (RuntimeValue O) W}

variable {state : FoldState}

/-- A load of the result of an operator does what the operator does. -/
theorem step_load (hafter : (state.load dst kind folded).2.pool.constants <+: constants)
    (hkind : R.step constants kind machine = R.publish dst value machine)
    (h : ∀ result, folded = some result → ∃ literal,
      appendConstant state.pool.constants literal = some result ∧
        value = some (literalValue R.resolve literal)) :
    R.step constants (state.load dst kind folded).1 machine = R.step constants kind machine := by
  cases folded with
  | none => rfl
  | some result =>
    obtain ⟨literal, happend, rfl⟩ := h result rfl
    rw [hkind]
    exact congrArg (fun value => (machine.set dst value, true))
      (constantValue_appendConstant happend hafter)

section
variable (hknown : Known R.interpretation constants state.known machine)
include hknown

/-- An instruction that is folded rightly does what it did before. -/
theorem foldKind_step (hafter : (foldKind state kind).2.pool.constants <+: constants)
    (hright : ¬ Misfolds state kind) :
    R.step constants (foldKind state kind).1 machine = R.step constants kind machine := by
  have hpool : state.pool.constants <+: constants := (foldKind_extends state kind).constants.trans hafter
  have hvalue : ∀ dst operand literal, (state.forget dst).literal? operand = some literal →
      R.interpretation.operandValue constants machine operand = literalValue R.resolve literal :=
    fun dst operand literal =>
      (hknown.remove dst fun _ _ => rfl : Known R.interpretation constants
        (state.forget dst).known machine).literal?_sound hpool
  cases kind with
  | binary dst op lhs rhs =>
    refine step_load hafter rfl fun result hresult => ?_
    obtain ⟨left, right, literal, hleft, hright, hrule, happend⟩ := fold2_eq_some hresult
    refine ⟨literal, happend, ?_⟩
    rw [hvalue dst lhs left hleft, hvalue dst rhs right hright]
    exact foldBinaryLiteral_sound R.operators R.resolve hrule
  | compare dst op lhs rhs =>
    refine step_load hafter rfl fun result hresult => ?_
    obtain ⟨left, right, literal, hleft, hright', hrule, happend⟩ := fold2_eq_some hresult
    refine ⟨literal, happend, ?_⟩
    rw [hvalue dst lhs left hleft, hvalue dst rhs right hright']
    refine foldCompareLiteral_sound R.operators R.resolve hrule fun hconfuses => hright ?_
    exact ⟨left, right, hleft, hright', hconfuses, (appendConstant_eq_some happend).1⟩
  | unary dst op src =>
    refine step_load hafter rfl fun result hresult => ?_
    obtain ⟨value, literal, hsrc, hrule, happend⟩ := fold1_eq_some hresult
    refine ⟨literal, happend, ?_⟩
    rw [hvalue dst src value hsrc]
    exact foldUnaryLiteral_sound R.operators R.resolve hrule
  | _ => rfl

/-- What is known stays true behind the rewritten instruction. -/
theorem foldKind_known (hstep : R.step constants (foldKind state kind).1 machine = (machine', true)) :
    Known R.interpretation constants (foldKind state kind).2.known machine' := by
  have hpublish : ∀ dst value folded, R.step constants kind machine = R.publish dst value machine →
      R.step constants ((state.forget dst).load dst kind folded).1 machine = (machine', true) →
      Known R.interpretation constants ((state.forget dst).load dst kind folded).2.known machine' := by
    intro dst value folded hkind hload
    cases folded with
    | some result =>
      cases hload
      exact (hknown.remove dst fun _ _ => rfl : Known R.interpretation constants
        (state.forget dst).known machine).insert dst result.1
    | none =>
      change R.step constants kind machine = _ at hload
      rw [hkind] at hload
      cases value with
      | none => cases hload
      | some value =>
        cases hload
        exact hknown.remove dst fun register hne => if_neg hne
  have hperform : ∀ writes,
      R.interpretation.perform constants writes kind machine = (machine', true) →
      Known R.interpretation constants (writes.foldl FoldState.forget state).known machine' := by
    intro writes hperform
    obtain rfl := congrArg Prod.fst hperform
    exact hknown.forget writes fun register hregister => if_neg hregister
  cases kind with
  | loadConst dst id =>
    cases hstep
    exact hknown.insert dst id
  | binary dst | compare dst | unary dst => exact hpublish dst _ _ rfl hstep
  | _ => exact hperform _ hstep

/-- A test that is folded wrongly gives the opposite answer. -/
theorem step_ne_of_misfolds
    (hafter : (foldKind state kind).2.pool.constants <+: constants) (h : Misfolds state kind) :
    R.step constants (foldKind state kind).1 machine ≠ R.step constants kind machine := by
  have hpool : state.pool.constants <+: constants :=
    (foldKind_extends state kind).constants.trans hafter
  cases kind
  case compare dst op lhs rhs =>
    obtain ⟨left, right, hleft, hright, hconfuses, hlt⟩ := h
    obtain ⟨value, hfold, hrun⟩ := foldCompareLiteral_confuses R.operators R.resolve hconfuses
    have hforget : Known R.interpretation constants (state.forget dst).known machine :=
      hknown.remove dst fun _ _ => rfl
    have happend : appendConstant state.pool.constants (.bool value) =
        some (state.pool.constants.length, state.pool.constants ++ [.bool value]) := by
      rw [appendConstant, u32?_eq_some hlt]
      rfl
    have hfold2 : (state.forget dst).fold2 (foldCompareLiteral op) lhs rhs =
        some (state.pool.constants.length, state.pool.constants ++ [.bool value]) := by
      simp only [FoldState.fold2, hleft, hright, bind_eq_bind, bind_some, hfold]
      exact happend
    have hkind : foldKind state (.compare dst op lhs rhs) = (state.forget dst).load dst
        (.compare dst op lhs rhs) ((state.forget dst).fold2 (foldCompareLiteral op) lhs rhs) := rfl
    rw [hkind, hfold2] at hafter ⊢
    have hloaded : R.interpretation.constantValue constants state.pool.constants.length =
        .bool value := constantValue_appendConstant happend hafter
    have hresult : R.step constants (.compare dst op lhs rhs) machine =
        (machine.set dst (.bool !value), true) := by
      rw [OperatorRuntime.step, hforget.literal?_sound hpool hleft, hforget.literal?_sound hpool hright]
      exact congrArg (R.publish dst · machine) hrun
    have hload : R.step constants (.loadConst dst state.pool.constants.length) machine =
        (machine.set dst (.bool value), true) :=
      congrArg (fun loaded => (machine.set dst loaded, true)) hloaded
    intro heq
    have hset := congrArg Prod.fst (hload.symm.trans (heq.trans hresult))
    have hbool := Machine.set_injective hset
    cases value <;> cases hbool
  all_goals exact h.elim

end
end

/-! ## Runs of a block -/

theorem execute_cons_congr {step : InstructionKind → Machine V W → Machine V W × Bool}
    (hhead : step instruction'.kind machine = step instruction.kind machine)
    (htail : ∀ next, step instruction'.kind machine = (next, true) →
      execute step instructions' next = execute step instructions next) :
    execute step (instruction' :: instructions') machine =
      execute step (instruction :: instructions) machine := by
  rw [execute, execute, ← hhead]
  cases houtcome : step instruction'.kind machine with
  | mk next stays =>
    cases stays with
    | true => exact htail next houtcome
    | false => rfl

variable {instructions : List Instruction}

theorem OperatorRuntime.execute_longer (R : OperatorRuntime O W) (hpool : constants <+: constants')
    (h : ∀ instruction ∈ instructions, InPool constants instruction.kind)
    (machine : Machine (RuntimeValue O) W) :
    execute (R.step constants') instructions machine = execute (R.step constants) instructions machine := by
  induction instructions generalizing machine with
  | nil => rfl
  | cons instruction instructions ih =>
    obtain ⟨hhead, htail⟩ := forall_mem_cons.mp h
    rw [execute, execute, R.step_longer hpool hhead]
    cases R.step constants instruction.kind machine with
    | mk next stays =>
      cases stays with
      | true => exact ih htail next
      | false => rfl

def RightlyFolded (state : FoldState) (instruction : Instruction) : Prop :=
  ¬ Misfolds state instruction.kind

theorem mapWith_foldInstruction_extends (state : FoldState) (instructions : List Instruction) :
    state.pool.Extends (mapWith foldInstruction state instructions).2.pool :=
  mapWith_rel (f := foldInstruction) (R := fun state state' => state.pool.Extends state'.pool)
    (fun _ => .refl _) .trans (fun state instruction => foldKind_extends state instruction.kind)
    state instructions

theorem execute_mapWith_foldInstruction {R : OperatorRuntime O W}
    (h : ForallWith foldInstruction RightlyFolded state instructions)
    (hknown : Known R.interpretation constants state.known machine)
    (hafter : (mapWith foldInstruction state instructions).2.pool.constants <+: constants) (count : Nat) :
    execute (R.step constants) ((mapWith foldInstruction state instructions).1.take count) machine =
      execute (R.step constants) (instructions.take count) machine := by
  induction instructions generalizing state machine count with
  | nil => rfl
  | cons instruction instructions ih =>
    cases count with
    | zero => rfl
    | succ count =>
      have hstep : (foldKind state instruction.kind).2.pool.constants <+: constants :=
        (mapWith_foldInstruction_extends _ instructions).constants.trans hafter
      exact execute_cons_congr (foldKind_step hknown hstep h.1) fun next hnext =>
        ih h.2 (foldKind_known hknown hnext) hafter count

/-! ## A run that shows a wrong fold -/

/-- A runtime in which no instruction leaves the block. -/
def tame : OperatorRuntime Unit Unit where
  operators := ⟨fun _ => some false, fun _ _ => some .null, fun _ _ _ => some .null, fun _ _ => false,
    fun _ _ => some false, fun _ _ => some .eq, fun _ _ => false⟩
  resolve _ := .null
  missing := .null
  run _ _ locals world := ⟨fun _ => .null, locals, world, true⟩
  raise world := world

theorem tame_compare (lhs rhs : RuntimeValue Unit) :
    ∃ order, tame.operators.compare lhs rhs = some order := by
  cases lhs <;> cases rhs <;> exact ⟨_, rfl⟩

theorem tame_equal (lhs rhs : RuntimeValue Unit) : ∃ value, tame.operators.equal lhs rhs = some value := by
  obtain ⟨order, horder⟩ := tame_compare lhs rhs
  rw [equal.eq_def, horder]
  split <;> exact ⟨_, rfl⟩

theorem tame_baselineBinary (op : BinaryOp) (lhs rhs : RuntimeValue Unit) :
    ∃ value, tame.operators.baselineBinary op lhs rhs = some value := by
  have hchecked : ∀ op lhs rhs value,
      ∃ result, tame.operators.checkedNumeric op lhs rhs value = some result := by
    intro op lhs rhs value
    rw [checkedNumeric]
    split <;> exact ⟨_, rfl⟩
  rw [baselineBinary.eq_def]
  split
  all_goals first | exact ⟨_, rfl⟩ | exact hchecked _ _ _ _

theorem tame_baselineUnary (op : UnaryOp) (src : RuntimeValue Unit) :
    ∃ value, tame.operators.baselineUnary op src = some value := by
  cases op <;> cases src <;> exact ⟨_, rfl⟩

theorem tame_baselineCompare (op : CompareOp) (lhs rhs : RuntimeValue Unit) :
    ∃ value, tame.operators.baselineCompare op lhs rhs = some value := by
  obtain ⟨order, horder⟩ := tame_compare lhs rhs
  obtain ⟨value, hvalue⟩ := tame_equal lhs rhs
  cases op with
  | identical | notIdentical => exact ⟨_, rfl⟩
  | equal | notEqual => exact ⟨_, by rw [baselineCompare, hvalue]; rfl⟩
  | less | lessEqual | spaceship => exact ⟨_, by rw [baselineCompare, horder]; rfl⟩
  | greater | greaterEqual =>
    rw [baselineCompare, horder]
    split <;> exact ⟨_, rfl⟩

theorem tame_stays (constants : List IrConstant) (kind : InstructionKind)
    (machine : Machine (RuntimeValue Unit) Unit) :
    ∃ next, tame.step constants kind machine = (next, true) := by
  have hpublish {dst : RegId} {value : Option (RuntimeValue Unit)} (h : ∃ result, value = some result) :
      ∃ next, tame.publish dst value machine = (next, true) := by
    obtain ⟨result, rfl⟩ := h
    exact ⟨_, rfl⟩
  cases kind with
  | binary => exact hpublish (tame_baselineBinary ..)
  | compare => exact hpublish (tame_baselineCompare ..)
  | unary => exact hpublish (tame_baselineUnary ..)
  | _ => exact ⟨_, rfl⟩

theorem execute_cons_of_stays {step : InstructionKind → Machine V W → Machine V W × Bool}
    {next : Machine V W} (instruction : Instruction) (instructions : List Instruction)
    (h : step instruction.kind machine = (next, true)) :
    execute step (instruction :: instructions) machine = execute step instructions next := by
  rw [execute, h]

theorem exists_execute_ne (h : ¬ ForallWith foldInstruction RightlyFolded state instructions)
    (hknown : Known tame.interpretation constants state.known machine)
    (hafter : (mapWith foldInstruction state instructions).2.pool.constants <+: constants) :
    ∃ count, execute (tame.step constants)
        ((mapWith foldInstruction state instructions).1.take count) machine ≠
      execute (tame.step constants) (instructions.take count) machine := by
  induction instructions generalizing state machine with
  | nil => exact absurd trivial h
  | cons instruction instructions ih =>
    have hstep : (foldKind state instruction.kind).2.pool.constants <+: constants :=
      (mapWith_foldInstruction_extends _ instructions).constants.trans hafter
    obtain ⟨next, hnext⟩ := tame_stays constants (foldKind state instruction.kind).1 machine
    by_cases hmisfolds : Misfolds state instruction.kind
    · obtain ⟨old, hold⟩ := tame_stays constants instruction.kind machine
      refine ⟨1, fun heq => step_ne_of_misfolds hknown hstep hmisfolds ?_⟩
      have hsame : (next, true) = (old, true) :=
        (execute_cons_of_stays (foldInstruction state instruction).1 [] hnext).symm.trans
          (heq.trans (execute_cons_of_stays instruction [] hold))
      rw [hnext, hold, hsame]
    · have heq := foldKind_step hknown hstep hmisfolds
      obtain ⟨count, hne⟩ := ih (fun htail => h ⟨hmisfolds, htail⟩) (foldKind_known hknown hnext) hafter
      refine ⟨count + 1, fun hsame => hne ?_⟩
      rw [heq] at hnext
      exact (execute_cons_of_stays (foldInstruction state instruction).1 _ (heq.trans hnext)).symm.trans
        (hsame.trans (execute_cons_of_stays instruction _ hnext))

/-! ## Units -/

def RightlyFoldedBlock (pool : FoldPool) (block : BasicBlock) : Prop :=
  ForallWith foldInstruction RightlyFolded ⟨pool, []⟩ block.instructions

def RightlyFoldedFunction (pool : FoldPool) (function : IrFunction) : Prop :=
  functionMayFold function = true → ForallWith foldBlock RightlyFoldedBlock pool function.blocks

/-- No fold of the pass takes two representations of one string for different strings. -/
def RightlyFoldedUnit (unit : IrUnit) : Prop :=
  ForallWith foldFunction RightlyFoldedFunction ⟨unit.constants, 0⟩ unit.functions

/-- Up to any instruction, the blocks do the same. -/
structure BlockPreserved (constants constants' : List IrConstant) (block block' : BasicBlock) : Prop where
  terminator : block'.terminator = block.terminator
  runs : ∀ {O W : Type} (R : OperatorRuntime O W) (machine : Machine (RuntimeValue O) W) (count : Nat),
    execute (R.step constants') (block'.instructions.take count) machine =
      execute (R.step constants) (block.instructions.take count) machine

structure UnitPreserved (unit unit' : IrUnit) : Prop where
  constants : unit.constants <+: unit'.constants
  functions : Forall₂ (fun function function' =>
    Forall₂ (BlockPreserved unit.constants unit'.constants) function.blocks function'.blocks)
    unit.functions unit'.functions

section
variable {constants constants' : List IrConstant} {pool : FoldPool}

theorem foldBlock_preserved_iff (hbefore : constants <+: pool.constants)
    (hafter : (foldBlock pool block).2.constants <+: constants')
    (h : ∀ instruction ∈ block.instructions, InPool constants instruction.kind) :
    BlockPreserved constants constants' block (foldBlock pool block).1 ↔ RightlyFoldedBlock pool block := by
  have hpool : constants <+: constants' := hbefore.trans
    ((mapWith_foldInstruction_extends ⟨pool, []⟩ block.instructions).constants.trans hafter)
  have htake : ∀ count, ∀ instruction ∈ block.instructions.take count,
      InPool constants instruction.kind :=
    fun count instruction hinstruction => h instruction (mem_of_mem_take hinstruction)
  constructor
  · intro hpreserved
    by_contra hwrong
    obtain ⟨count, hne⟩ := exists_execute_ne hwrong
      (Known.nil ⟨fun _ => .null, fun _ => .null, ()⟩) hafter
    refine hne ((hpreserved.runs tame _ count).trans ?_)
    exact (tame.execute_longer hpool (htake count) _).symm
  · intro hright
    refine ⟨rfl, fun R machine count => ?_⟩
    rw [← R.execute_longer hpool (htake count)]
    exact execute_mapWith_foldInstruction hright (Known.nil machine) hafter count

theorem foldBlock_extends (pool : FoldPool) (block : BasicBlock) : pool.Extends (foldBlock pool block).2 :=
  mapWith_foldInstruction_extends ⟨pool, []⟩ block.instructions

theorem foldFunction_extends (pool : FoldPool) (function : IrFunction) :
    pool.Extends (foldFunction pool function).2 := by
  rw [foldFunction]
  split
  · exact mapWith_rel .refl .trans foldBlock_extends pool function.blocks
  · exact .refl pool

theorem foldFunction_preserved_iff {function : IrFunction} (hbefore : constants <+: pool.constants)
    (hafter : (foldFunction pool function).2.constants <+: constants')
    (h : ∀ block ∈ function.blocks, ∀ instruction ∈ block.instructions, InPool constants instruction.kind) :
    Forall₂ (BlockPreserved constants constants') function.blocks
        (foldFunction pool function).1.blocks ↔ RightlyFoldedFunction pool function := by
  have hpool : constants <+: constants' :=
    hbefore.trans ((foldFunction_extends pool function).constants.trans hafter)
  rw [foldFunction] at hafter ⊢
  split
  · next hmay =>
    rw [if_pos hmay] at hafter
    refine Iff.trans ?_ (forall_prop_of_true hmay).symm
    refine forall₂_mapWith_iff .refl .trans foldBlock_extends fun met block hblock hmet hlast => ?_
    exact foldBlock_preserved_iff (hbefore.trans hmet.constants) (hlast.constants.trans hafter)
      (h block hblock)
  · next hmay =>
    refine iff_of_true (forall₂_same.mpr fun block hblock => ⟨rfl, fun R machine count => ?_⟩)
      fun hfold => absurd hfold hmay
    exact R.execute_longer hpool
      (fun instruction hinstruction => h block hblock instruction (mem_of_mem_take hinstruction)) _

end

theorem constants_constantFolding (unit : IrUnit) : (constantFolding unit).constants =
    (mapWith foldFunction ⟨unit.constants, 0⟩ unit.functions).2.constants := by
  have hextends : FoldPool.Extends ⟨unit.constants, 0⟩
      (mapWith foldFunction ⟨unit.constants, 0⟩ unit.functions).2 :=
    mapWith_rel .refl .trans foldFunction_extends _ _
  rw [constantFolding]
  refine ite_eq_left_iff.mpr fun hzero => ?_
  exact (hextends.same (Nat.eq_zero_of_not_pos hzero)).symm

theorem unitPreserved_iff {unit : IrUnit} (h : ∀ function ∈ unit.functions,
    ∀ block ∈ function.blocks, ∀ instruction ∈ block.instructions, InPool unit.constants instruction.kind) :
    UnitPreserved unit (constantFolding unit) ↔ RightlyFoldedUnit unit := by
  have hextends : FoldPool.Extends ⟨unit.constants, 0⟩
      (mapWith foldFunction ⟨unit.constants, 0⟩ unit.functions).2 :=
    mapWith_rel .refl .trans foldFunction_extends _ _
  have hconstants := constants_constantFolding unit
  have hfunctions : Forall₂ (fun function function' => Forall₂
      (BlockPreserved unit.constants (constantFolding unit).constants) function.blocks
        function'.blocks) unit.functions (constantFolding unit).functions ↔ RightlyFoldedUnit unit := by
    refine forall₂_mapWith_iff .refl .trans foldFunction_extends
      fun met function hfunction hmet hlast => ?_
    refine foldFunction_preserved_iff hmet.constants ?_ (h function hfunction)
    rw [hconstants]
    exact hlast.constants
  refine Iff.trans ⟨fun hpreserved => hpreserved.functions, fun hrest => ⟨?_, hrest⟩⟩ hfunctions
  rw [hconstants]
  exact hextends.constants

/-! ## Accepted units -/

theorem inPool_of_verified (h : Verified unit) (hfunction : function ∈ unit.functions)
    (hblock : block ∈ function.blocks) (hinstruction : instruction ∈ block.instructions) :
    InPool unit.constants instruction.kind := by
  have haccepted := h.instruction hfunction hblock hinstruction
  refine ⟨fun id hid => ?_, fun dst id hload => ?_⟩
  · exact lt_of_verifyConstant (Within.instructionOperands instruction.kind haccepted _ hid)
  · rw [hload] at haccepted
    exact lt_of_verifyConstant (append_eq_nil_iff.mp haccepted).2

/-- Constant folding preserves the runs of every block, unless it takes a text and a byte constant with
the same bytes for different strings. -/
theorem constantFolding_preserved_iff {unit : IrUnit} (h : Verified unit) :
    UnitPreserved unit (constantFolding unit) ↔ RightlyFoldedUnit unit :=
  unitPreserved_iff fun _ hfunction _ hblock _ hinstruction =>
    inPool_of_verified h hfunction hblock hinstruction

/-- `2 + 3 === 2`. -/
def foldedSum : IrUnit :=
  unitOf [.int 2, .int 3] 2
    [⟨0, [⟨0, ⟨0, 0, 0⟩, .binary 0 .add (.constant 0) (.constant 1)⟩,
      ⟨1, ⟨0, 0, 0⟩, .compare 1 .identical (.register 0) (.constant 0)⟩],
      some ⟨⟨0, 0, 0⟩, .return_ (some (.register 1)) none⟩⟩]

theorem constantFolding_preserved_sum :
    Verified foldedSum ∧ UnitPreserved foldedSum (constantFolding foldedSum) := by
  have hverified : Verified foldedSum := by decide +kernel
  refine ⟨hverified, (constantFolding_preserved_iff hverified).mpr ⟨fun _ => ⟨⟨fun h => h, ?_, ?_⟩, ?_⟩, ?_⟩⟩
  · rintro ⟨left, right, hleft, hright, ⟨-, hbytes⟩, -⟩
    cases hleft
    cases hright
    cases hbytes
  all_goals trivial

/-- `"a" === "\x61"` with the second string as bytes. -/
def foldedIdentity : IrUnit :=
  unitOf [.string "a", .stringBytes [97]] 1
    [⟨0, [⟨0, ⟨0, 0, 0⟩, .compare 0 .identical (.constant 0) (.constant 1)⟩],
      some ⟨⟨0, 0, 0⟩, .return_ (some (.register 0)) none⟩⟩]

theorem not_constantFolding_preserved :
    Verified foldedIdentity ∧ ¬ UnitPreserved foldedIdentity (constantFolding foldedIdentity) := by
  have hverified : Verified foldedIdentity := by decide +kernel
  refine ⟨hverified, fun hpreserved => ?_⟩
  have hright := (unitPreserved_iff fun _ hfunction _ hblock _ hinstruction =>
    inPool_of_verified hverified hfunction hblock hinstruction).mp hpreserved
  obtain ⟨⟨hcompare, -⟩, -⟩ := hright.1 rfl
  exact hcompare ⟨.string "a", .stringBytes [97], rfl, rfl, ⟨.inl rfl, by decide +kernel⟩, by decide⟩

end Phrust.Optimizer
