import Phrust.Ir.Verify

/-!
# What the verifier reads and what it guarantees
-/

namespace Phrust.Ir

/-! ## What the verifier reads -/

/-- The verifier looks at the lengths of the tables, at the counts and at the blocks. -/
structure Agree (unit unit' : IrUnit) (function function' : IrFunction) : Prop where
  constants : unit.constants.length = unit'.constants.length
  functions : unit.functions.length = unit'.functions.length
  files : unit.files.length = unit'.files.length
  localCount : function.localCount = function'.localCount
  registerCount : function.registerCount = function'.registerCount
  blocks : function.blocks = function'.blocks

namespace Agree
variable {unit unit' : IrUnit} {function function' : IrFunction}
  (h : Agree unit unit' function function')
include h

theorem span : verifySpan unit = verifySpan unit' := by
  funext span
  rw [verifySpan, verifySpan, h.files]

theorem operand : verifyOperand unit function = verifyOperand unit' function' := by
  funext operand
  cases operand <;> simp only [verifyOperand, h.registerCount, h.localCount, h.constants]

theorem optionalOperand : verifyOptionalOperand unit function = verifyOptionalOperand unit' function' := by
  funext operand
  cases operand <;> simp only [verifyOptionalOperand, h.operand]

theorem operands : verifyOperands unit function = verifyOperands unit' function' := by
  funext operands
  rw [verifyOperands, verifyOperands, h.operand]

theorem optionalRegister : verifyOptionalRegister function = verifyOptionalRegister function' := by
  funext id
  cases id <;> simp only [verifyOptionalRegister, h.registerCount]

theorem optionalLocal : verifyOptionalLocal function = verifyOptionalLocal function' := by
  funext id
  cases id <;> simp only [verifyOptionalLocal, h.localCount]

theorem target (id : BlockId) : verifyBlockTarget id function = verifyBlockTarget id function' := by
  rw [verifyBlockTarget, verifyBlockTarget, h.blocks]

theorem optionalTarget : verifyOptionalTarget function = verifyOptionalTarget function' := by
  funext id
  cases id <;> simp only [verifyOptionalTarget, h.target]

theorem callArgs : verifyCallArgs unit function = verifyCallArgs unit' function' := by
  funext args
  have hone : verifyCallArg unit function = verifyCallArg unit' function' := by
    funext arg
    rw [verifyCallArg, verifyCallArg, h.operand, h.operands, h.localCount]
  rw [verifyCallArgs, verifyCallArgs, hone]

theorem instructionKind : verifyInstructionKind unit function = verifyInstructionKind unit' function' := by
  funext kind
  cases kind <;> simp only [verifyInstructionKind, h.constants, h.functions, h.localCount,
    h.registerCount, h.operand, h.optionalOperand, h.operands, h.optionalRegister, h.optionalLocal,
    h.target, h.optionalTarget, h.callArgs]

theorem terminator : verifyTerminator unit function = verifyTerminator unit' function' := by
  funext terminator
  obtain ⟨span, kind⟩ := terminator
  cases kind <;> simp only [verifyTerminator, h.span, h.operand, h.optionalOperand, h.target, h.localCount]

theorem block (id : FunctionId) : verifyBlock unit id function = verifyBlock unit' id function' := by
  funext block
  have hone : verifyInstruction unit function = verifyInstruction unit' function' := by
    funext instruction
    rw [verifyInstruction, verifyInstruction, h.span, h.instructionKind]
  rw [verifyBlock, verifyBlock, hone, h.terminator]

end Agree

variable {function function' : IrFunction}

theorem sweeps_congr (h : sweep function = sweep function')
    (reachable : List BlockId) (fuel : Nat) (facts : RegisterFacts) :
    sweeps function reachable fuel facts = sweeps function' reachable fuel facts := by
  induction fuel generalizing facts with
  | zero => rfl
  | succ fuel ih =>
    simp [sweeps, h, ih]

theorem registerDefinitions_congr (hblocks : function.blocks = function'.blocks)
    (hcount : function.registerCount = function'.registerCount) :
    verifyRegisterDefinitions function = verifyRegisterDefinitions function' := by
  have hsweep : sweep function = sweep function' := by
    unfold sweep sweepBlock intersectPredecessorDefs edgeDefs blockPredecessors blockTargets
    rw [hblocks, hcount]
  have hreachable : reachableBlocks function = reachableBlocks function' := by
    unfold reachableBlocks blockTargets
    rw [hblocks]
  have hinitial : initialFacts function = initialFacts function' := by
    unfold initialFacts
    rw [hblocks, hcount]
  unfold verifyRegisterDefinitions registerFacts
  rw [sweeps_congr hsweep, hreachable, hinitial, hblocks, hcount]

/-- Equality up to the comparison of floats: what is left of it for the verifier. -/
theorem verifyFunctionBody_congr (h : Agree unit unit' function function')
    (hparams : function.params.map (·.local_) = function'.params.map (·.local_))
    (hlocals : function.locals = function'.locals) (hspan : function.span = function'.span)
    (hcaptures : function.captures = function'.captures) (id : FunctionId) :
    verifyFunctionBody unit id function = verifyFunctionBody unit' id function' := by
  have hlocal (params : List IrParam) (count : Nat) : (params.flatMap fun param =>
      verifyLocal param.local_ count) = (params.map (·.local_)).flatMap (verifyLocal · count) := by
    rw [List.flatMap_map]
  have hheader : verifyFunctionHeader unit id function = verifyFunctionHeader unit' id function' := by
    rw [verifyFunctionHeader, verifyFunctionHeader, hlocal, hlocal, hparams, h.span, hlocals, hspan, hcaptures,
      h.localCount]
  rw [verifyFunctionBody, verifyFunctionBody, hheader, h.blocks, h.block,
    registerDefinitions_congr h.blocks h.registerCount]

theorem params_of_beq {params params' : List IrParam} (h : (params == params') = true) :
    params.map (·.local_) = params'.map (·.local_) := by
  induction params generalizing params' with
  | nil =>
    cases params' with
    | nil => rfl
    | cons => cases h
  | cons param params ih =>
    cases params' with
    | nil => cases h
    | cons param' params' =>
      rw [List.cons_beq_cons, Bool.and_eq_true] at h
      obtain ⟨hparam, hparams⟩ := h
      have hlocal : (param.local_ == param'.local_) = true := by
        change (_ && _ && _) = true at hparam
        rw [Bool.and_eq_true, Bool.and_eq_true] at hparam
        exact hparam.1.1
      rw [List.map_cons, List.map_cons, ih hparams, eq_of_beq hlocal]

/-- Functions that compare as equal are not told apart. -/
theorem verifyFunctionBody_of_beq {unit unit' : IrUnit}
    (hconstants : unit.constants.length = unit'.constants.length)
    (hfunctions : unit.functions.length = unit'.functions.length)
    (hfiles : unit.files.length = unit'.files.length) (h : (function == function') = true) (id : FunctionId) :
    verifyFunctionBody unit id function = verifyFunctionBody unit' id function' := by
  change (_ && _ && _ && _ && _ && _ && _ && _) = true at h
  simp only [Bool.and_eq_true] at h
  obtain ⟨⟨⟨⟨⟨⟨⟨hparams, hlocals⟩, hlocalCount⟩, hregisterCount⟩, hblocks⟩, hspan⟩, hcaptures⟩, -⟩ := h
  exact verifyFunctionBody_congr
    ⟨hconstants, hfunctions, hfiles, eq_of_beq hlocalCount, eq_of_beq hregisterCount, eq_of_beq hblocks⟩
    (params_of_beq hparams) (eq_of_beq hlocals) (eq_of_beq hspan) (eq_of_beq hcaptures) id

end Phrust.Ir
