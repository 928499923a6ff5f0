import Phrust.Jit.RegionRuns
import Phrust.Verify.Ownership
import Phrust.Verify.ScalarFolding

/-!
# Runs of hoisted regions

A run that enters a loop through its preheader reads the same values before and after hoisting, if the
registers that are moved have one definition, are assigned before they are read and are computed
silently. A run that starts inside the loop, at its on-stack replacement entry, does not.
-/

namespace Phrust.Jit
open List Ir RegionGraph NativeRuntime Option

/-! ## Verified regions -/

namespace RegionGraph
variable {region : RegionGraph}

/-- Blocks stand at the position of their id. -/
def Numbered (region : RegionGraph) : Prop :=
  ∀ (index : Nat) (block : RegionBlock), region.blocks[index]? = some block → block.id = index

theorem numbered_of_verify (h : region.verify = .ok ()) : region.Numbered := by
  intro index block hblock
  rw [verify] at h
  split at h
  · cases h
  have hcheck : region.verifyBlock block index = .ok () :=
    Reading.forM_ok.mp h (block, index) (mem_zipIdx_iff_getElem?.mpr hblock)
  by_contra hid
  rw [verifyBlock, if_pos hid] at hcheck
  cases hcheck

theorem blockIndex_eq (h : region.Numbered) {id : BlockId} (hindex : region.blockIndex id = some index) :
    index = id ∧ ∃ block, region.blocks[index]? = some block := by
  rw [blockIndex, map_eq_some_iff] at hindex
  obtain ⟨⟨block, position⟩, hlast, rfl⟩ := hindex
  obtain ⟨hmem, hid⟩ := mem_filter.mp (mem_of_getLast? hlast)
  have hget := mem_zipIdx_iff_getElem?.mp hmem
  rw [decide_eq_true_eq] at hid
  exact ⟨(h position block hget).symm.trans hid, block, hget⟩

def LeavesAt (region : RegionGraph) (register : RegId) (block index : Nat) : Prop :=
  ∀ instruction, region.instructionAt block index = some instruction → register ∉ instruction.writes

/-- Some path from the start of a block does not assign the register. -/
def Unassigned (region : RegionGraph) (start : Nat) (register : RegId) (point : Nat × Nat) : Prop :=
  region.graph.Path (region.LeavesAt register) (start, 0) point

end RegionGraph

/-! ## Candidates -/

namespace RegionGraph
variable {region : RegionGraph}

/-- The instructions with the ids of their blocks. -/
def placed (region : RegionGraph) : List (BlockId × RegionInstruction) :=
  region.blocks.flatMap fun block => block.instructions.map (block.id, ·)

theorem mem_placed {id : BlockId} : (id, instruction) ∈ region.placed ↔
    ∃ block ∈ region.blocks, block.id = id ∧ instruction ∈ block.instructions := by
  simp only [placed, mem_flatMap, List.mem_map, Prod.mk.injEq]
  constructor
  · rintro ⟨block, hblock, _, hinstruction, rfl, rfl⟩
    exact ⟨block, hblock, rfl, hinstruction⟩
  · rintro ⟨block, hblock, rfl, hinstruction⟩
    exact ⟨block, hblock, instruction, hinstruction, rfl, rfl⟩

theorem mem_loopInstructions : instruction ∈ region.loopInstructions loopBlocks ↔
    ∃ id ∈ loopBlocks, (id, instruction) ∈ region.placed := by
  simp only [loopInstructions, mem_flatMap, mem_filter, decide_eq_true_eq, mem_placed]
  constructor
  · rintro ⟨block, ⟨hblock, hid⟩, hinstruction⟩
    exact ⟨block.id, hid, block, hblock, rfl, hinstruction⟩
  · rintro ⟨_, hid, block, hblock, rfl, hinstruction⟩
    exact ⟨block, ⟨hblock, hid⟩, hinstruction⟩

theorem resultBlocks_eq : region.resultBlocks = region.placed.filterMap fun entry =>
    (instructionResultRegister entry.2.kind).map (·, entry.1) := by
  rw [resultBlocks, placed, filterMap_flatMap]
  simp only [filterMap_map]
  rfl

theorem length_filter_placed_le (h : region.multiplyDefined register = false) :
    (region.placed.filter fun entry => instructionResultRegister entry.2.kind = some register).length ≤ 1 := by
  rw [multiplyDefined, decide_eq_false_iff_not, Nat.not_lt, resultBlocks_eq] at h
  refine Nat.le_trans (Nat.le_of_eq ?_) h
  induction region.placed with
  | nil => rfl
  | cons entry entries ih =>
    rw [filter_cons, filterMap_cons]
    cases hresult : instructionResultRegister entry.2.kind with
    | none => simpa using ih
    | some result =>
      by_cases heq : result = register
      · simp [heq, ih]
      · simp [heq, ih]

theorem placed_unique (h : region.multiplyDefined register = false) (hleft : left ∈ region.placed)
    (hright : right ∈ region.placed) (hleft' : instructionResultRegister left.2.kind = some register)
    (hright' : instructionResultRegister right.2.kind = some register) : left = right := by
  have hlength := length_filter_placed_le h
  have hmem {entry : BlockId × RegionInstruction} (hentry : entry ∈ region.placed)
      (hresult : instructionResultRegister entry.2.kind = some register) :
      entry ∈ region.placed.filter fun entry => instructionResultRegister entry.2.kind = some register :=
    mem_filter.mpr ⟨hentry, decide_eq_true hresult⟩
  have hleft := hmem hleft hleft'
  have hright := hmem hright hright'
  match hlist : region.placed.filter fun entry => instructionResultRegister entry.2.kind = some register with
  | [] => rw [hlist] at hleft; cases hleft
  | [only] =>
    rw [hlist] at hleft hright
    exact (mem_singleton.mp hleft).trans (mem_singleton.mp hright).symm
  | _ :: _ :: _ =>
    rw [hlist, length_cons, length_cons] at hlength
    omega

theorem loopInstructions_eq (loopBlocks : List BlockId) : region.loopInstructions loopBlocks =
    (region.placed.filter (·.1 ∈ loopBlocks)).map Prod.snd := by
  rw [loopInstructions, placed]
  induction region.blocks with
  | nil => rfl
  | cons block blocks ih =>
    rw [filter_cons, flatMap_cons, filter_append, map_append, ← ih]
    by_cases hid : block.id ∈ loopBlocks
    · simp [hid, List.filter_map, Function.comp_def]
    · simp [hid, List.filter_map, Function.comp_def]

/-- What the search for candidates knows at any time. -/
structure Invariants.Justified (region : RegionGraph) (loopBlocks : List BlockId) (state : Invariants) :
    Prop where
  candidates {register : RegId} : register ∈ state.candidates → region.multiplyDefined register = false ∧
    ∃ instruction ∈ region.loopInstructions loopBlocks,
      scalarResultRegister region.inferRegisterClasses instruction.kind = some register ∧
      register ∉ instruction.registerUses ∧ ∀ use_ ∈ instruction.registerUses, use_ ∈ state.invariant
  invariant {register : RegId} : register ∈ state.invariant → register ∈ state.candidates ∨
    ∃ id ∉ loopBlocks, (register, id) ∈ region.definitions

variable {loopBlocks : List BlockId}

theorem Invariants.Justified.consider (h : state.Justified region loopBlocks)
    (hinstruction : instruction ∈ region.loopInstructions loopBlocks) :
    (region.considerInvariant region.inferRegisterClasses state instruction).Justified region loopBlocks := by
  rw [considerInvariant]
  split
  · next result hresult =>
    split
    · exact h
    · next hcandidate =>
      simp only [not_or, Bool.not_eq_true, not_not] at hcandidate
      obtain ⟨hsingle, hnew, huses⟩ := hcandidate
      constructor
      · intro register hregister
        rcases mem_cons.mp hregister with rfl | hregister
        · exact ⟨hsingle, instruction, hinstruction, hresult, fun hself => hnew (huses _ hself),
            fun use_ huse => mem_cons_of_mem _ (huses use_ huse)⟩
        · obtain ⟨hsingle, other, hother, hresult, hself, huses⟩ := h.candidates hregister
          exact ⟨hsingle, other, hother, hresult, hself, fun use_ huse => mem_cons_of_mem _ (huses use_ huse)⟩
      · intro register hregister
        rcases mem_cons.mp hregister with rfl | hregister
        · exact .inl mem_cons_self
        · exact (h.invariant hregister).imp_left (mem_cons_of_mem _)
  · exact h

theorem Invariants.Justified.pass
    {instructions : List RegionInstruction} (h : state.Justified region loopBlocks)
    (hinstructions : ∀ instruction ∈ instructions, instruction ∈ region.loopInstructions loopBlocks) :
    (instructions.foldl (region.considerInvariant region.inferRegisterClasses) state).Justified region
      loopBlocks := by
  induction instructions generalizing state with
  | nil => exact h
  | cons instruction instructions ih =>
    exact ih (h.consider (hinstructions instruction mem_cons_self))
      (forall_mem_cons.mp hinstructions).2

/-- A candidate is the result of one instruction of the loop, whose operands are candidates too or are
defined outside the loop. -/
theorem candidate_spec (h : register ∈ region.loopCandidates loopBlocks) :
    region.multiplyDefined register = false ∧ ∃ instruction ∈ region.loopInstructions loopBlocks,
      scalarResultRegister region.inferRegisterClasses instruction.kind = some register ∧
      register ∉ instruction.registerUses ∧
      ∀ use_ ∈ instruction.registerUses, use_ ∈ region.loopCandidates loopBlocks ∨
        ∃ id ∉ loopBlocks, (use_, id) ∈ region.definitions := by
  have hiterate (n : Nat) : Invariants.Justified region loopBlocks
      ((fun state => (region.loopInstructions loopBlocks).foldl
        (region.considerInvariant region.inferRegisterClasses) state)^[n]
        ⟨(region.definitions.filter (·.2 ∉ loopBlocks)).map Prod.fst, []⟩) := by
    induction n with
    | zero =>
      refine ⟨nofun, fun h => .inr ?_⟩
      obtain ⟨⟨register, id⟩, hentry, rfl⟩ := mem_map.mp h
      obtain ⟨hdefinition, hid⟩ := mem_filter.mp hentry
      exact ⟨id, of_decide_eq_true hid, hdefinition⟩
    | succ n ih =>
      rw [Function.iterate_succ_apply']
      exact ih.pass fun _ hinstruction => hinstruction
  have hjustified := hiterate ((region.loopInstructions loopBlocks).length + 1)
  obtain ⟨hsingle, instruction, hinstruction, hresult, hself, huses⟩ := hjustified.candidates h
  exact ⟨hsingle, instruction, hinstruction, hresult, hself,
    fun use_ huse => hjustified.invariant (huses use_ huse)⟩

end RegionGraph

/-! ## Scalar instructions -/

open NativeRuntime (scalarOperands)

theorem scalarResultRegister_spec (h : scalarResultRegister classes kind = some register) :
    kind.scalarResult? = some register ∧ instructionResultRegister kind = some register ∧
      ∀ operand ∈ scalarOperands kind, (operandClass classes operand).isSome := by
  have hpure {kind : RegionInstructionKind} (h : instructionIsPureScalar classes kind = true) :
      ∀ operand ∈ scalarOperands kind, (operandClass classes operand).isSome := by
    intro operand hoperand
    rw [instructionIsPureScalar, Option.any_eq_true] at h
    obtain ⟨⟨dst, expression⟩, hscalar, hclasses⟩ := h
    rw [scalarOperands_of_scalar hscalar] at hoperand
    refine isSome_of_pureClasses hclasses _ ?_
    rw [ScalarExpression.operands_map]
    exact mem_map_of_mem hoperand
  rw [scalarResultRegister.eq_def] at h
  split at h
  · next dst src =>
    obtain ⟨hclass, hdst⟩ := ite_none_right_eq_some.mp h
    refine ⟨hdst, hdst, fun operand hoperand => ?_⟩
    rw [mem_singleton.mp hoperand]
    cases hsrc : operandClass classes src with
    | none => rw [hsrc] at hclass; cases hclass
    | some => rfl
  · obtain ⟨hsafe, hresult⟩ := ite_none_right_eq_some.mp h
    rw [instructionIsLicmSafeScalar.eq_def] at hsafe
    split at hsafe
    · next dst op lhs rhs _ =>
      simp only [Bool.and_eq_true, decide_eq_true_eq] at hsafe
      refine ⟨hresult, hresult, fun operand hoperand => ?_⟩
      have hoperand : operand = lhs ∨ operand = rhs := by
        simpa [scalarOperands, RegionInstructionKind.scalar?, ScalarExpression.operands] using hoperand
      rcases hoperand with rfl | rfl
      · rw [hsafe.1.2]; rfl
      · rw [hsafe.2]; rfl
    · exact ⟨hresult, hresult, hpure (Bool.and_eq_true_iff.mp hsafe).2⟩
    · exact ⟨hresult, hresult, hpure hsafe⟩
    · exact ⟨hresult, hresult, hpure hsafe⟩
    · cases hsafe

theorem mem_registerUses_of_scalar {instruction : RegionInstruction}
    (h : instruction.kind.scalarResult? = some dst) :
    register ∈ instruction.registerUses ↔ .register register ∈ scalarOperands instruction.kind := by
  have hregisters (operand : RegionOperand) : register ∈ operand.registers ↔ operand = .register register := by
    cases operand <;> simp [RegionOperand.registers, eq_comm]
  rw [RegionInstruction.registerUses, mem_sortDedup]
  cases hkind : instruction.kind with
  | move | unary | cast | binary | compare =>
    simp [scalarOperands, RegionInstructionKind.scalar?, ScalarExpression.operands, hregisters, eq_comm]
  | _ => rw [hkind] at h; cases h

/-! ## Loops -/

namespace RegionGraph
variable {region : RegionGraph}

theorem mem_predecessors : source ∈ region.predecessors target ↔
    target < region.blocks.length ∧ ∃ block ∈ region.blocks, target ∈ block.terminator.targets ∧
      block.id = source := by
  rw [predecessors]
  split
  · next hlt =>
    simp [hlt, and_assoc]
  · next hlt => simp [hlt]

theorem id_lt (h : region.Numbered) (hblock : block ∈ region.blocks) : block.id < region.blocks.length := by
  obtain ⟨index, hget⟩ := mem_iff_getElem?.mp hblock
  rw [h index block hget]
  exact (List.getElem?_eq_some_iff.mp hget).1

theorem lt_of_mem_predecessors (h : region.Numbered) (hsource : source ∈ region.predecessors target) :
    source < region.blocks.length := by
  obtain ⟨-, block, hblock, -, rfl⟩ := mem_predecessors.mp hsource
  exact id_lt h hblock

theorem length_predecessors_le (h : region.Numbered) (target : BlockId) :
    (region.predecessors target).length ≤ region.blocks.length := by
  have hnodup : (region.predecessors target).Nodup := by
    rw [predecessors]
    split
    · exact nodup_dedup _
    · exact nodup_nil
  have hsubset : region.predecessors target ⊆ List.range region.blocks.length :=
    fun _ hsource => mem_range.mpr (lt_of_mem_predecessors h hsource)
  have hle := (subperm_of_subset hnodup hsubset).length_le
  rwa [length_range] at hle

/-- Blocks of a loop other than its header are entered from the loop. -/
theorem naturalLoop_closed (h : region.Numbered) (hsource : source < region.blocks.length)
    (hblock : block ∈ region.naturalLoop region.predecessors source header) (hne : block ≠ header)
    (hpredecessor : predecessor ∈ region.predecessors block) :
    predecessor ∈ region.naturalLoop region.predecessors source header := by
  have hlength (block : Nat) : ((region.predecessors block).filter (· ≠ header)).length ≤ region.blocks.length :=
    Nat.le_trans (length_filter_le _ _) (length_predecessors_le h block)
  have hpending : ∀ other ∈ if source = header then [] else [source], other < region.blocks.length := by
    split <;> simp [hsource]
  have hone : (if source = header then [] else [source]).length ≤ 1 := by split <;> simp
  obtain ⟨result, hresult⟩ := exists_search _ _
    (fun _ _ hother => lt_of_mem_predecessors h (mem_filter.mp hother).1) hlength hpending
    (show _ < (region.blocks.length + 1) * (region.blocks.length + 1) + 2 by rw [Nat.mul_succ]; omega)
  have hloop : region.naturalLoop region.predecessors source header = header :: result := by
    rw [naturalLoop, hresult]
    rfl
  rw [hloop] at hblock ⊢
  have hblock := (mem_cons.mp hblock).resolve_left hne
  by_cases heq : predecessor = header
  · exact heq ▸ mem_cons_self
  · obtain ⟨-, -, hclosed⟩ := search_closed hresult nofun
    exact mem_cons_of_mem _ (hclosed block hblock predecessor
      (mem_filter.mpr ⟨hpredecessor, decide_eq_true heq⟩))

end RegionGraph

/-! ## Machines that differ in some registers -/

namespace NativeRuntime
variable (R : NativeRuntime O W D)

/-- An instruction other than a move or a scalar operation sees the registers that it reads, the locals
and the world. -/
def ReadsOnly : Prop :=
  ∀ (instruction : RegionInstruction) (machine machine' : Machine (RuntimeValue O) W),
    (∀ register ∈ instruction.registerUses, machine'.registers register = machine.registers register) →
    machine'.locals = machine.locals → machine'.world = machine.world →
    R.perform instruction.kind machine' = R.perform instruction.kind machine

/-- Machines that differ in other registers than the given ones only. -/
structure Agree (uses : List RegId) (machine machine' : Machine (RuntimeValue O) W) : Prop where
  registers : ∀ register ∈ uses, machine'.registers register = machine.registers register
  locals : machine'.locals = machine.locals
  world : machine'.world = machine.world

variable {R} {machine machine' : Machine (RuntimeValue O) W} {instruction : RegionInstruction}

theorem step_of_scalarResult (h : instruction.kind.scalarResult? = some dst) :
    R.step instruction machine = assign machine dst (R.scalarOutcome instruction.kind machine) := by
  rw [RegionInstructionKind.scalarResult?.eq_def] at h
  split at h
  · next hkind =>
    cases h
    rw [step_move hkind, hkind]
    rfl
  · next hmove =>
    obtain ⟨⟨dst, expression⟩, hscalar, rfl⟩ := map_eq_some_iff.mp h
    rw [step_scalar hscalar, scalarOutcome.eq_def]
    split
    · next hkind => exact absurd hkind (hmove _ _)
    · rw [hscalar]

theorem scalarOutcome_congr
    (h : ∀ operand ∈ scalarOperands kind, R.operandValue machine' operand = R.operandValue machine operand) :
    R.scalarOutcome kind machine' = R.scalarOutcome kind machine := by
  rw [scalarOutcome.eq_def, scalarOutcome.eq_def]
  split
  · rw [h _ (mem_singleton_self _)]
  · cases hscalar : kind.scalar? with
    | none => rfl
    | some scalar =>
      rw [scalarOperands_of_scalar hscalar] at h
      exact congrArg R.outcome (ScalarExpression.map_congr h)

/-- The values of operands are those of the registers that are read, and of the locals. -/
theorem Agree.operandValue (h : Agree uses machine machine')
    (hoperand : ∀ register, operand = .register register → register ∈ uses) :
    R.operandValue machine' operand = R.operandValue machine operand := by
  cases operand with
  | register id => exact h.registers id (hoperand id rfl)
  | local_ id => exact congrFun h.locals id
  | _ => rfl

theorem performed_of_none (h : instruction.kind.scalarResult? = none) :
    R.step instruction machine = R.performed instruction machine := by
  rw [step.eq_def]
  split
  · next hkind => rw [hkind] at h; cases h
  · split
    · next hscalar => rw [BlockFacts.scalarResult_of_scalar hscalar] at h; cases h
    · rfl

/-- On machines that agree in what the instruction reads, a step does the same. -/
theorem Agree.step (h : Agree instruction.registerUses machine machine') (hreads : R.ReadsOnly) :
    (R.step instruction machine').events = (R.step instruction machine).events ∧
    (R.step instruction machine').stays = (R.step instruction machine).stays ∧
    (R.step instruction machine').machine.locals = (R.step instruction machine).machine.locals ∧
    (R.step instruction machine').machine.world = (R.step instruction machine).machine.world ∧
    ∀ register, machine'.registers register = machine.registers register →
      (R.step instruction machine').machine.registers register =
        (R.step instruction machine).machine.registers register := by
  cases hscalar : instruction.kind.scalarResult? with
  | some dst =>
    rw [step_of_scalarResult hscalar, step_of_scalarResult hscalar,
      scalarOutcome_congr fun operand hoperand => h.operandValue fun register heq =>
        (mem_registerUses_of_scalar hscalar).mpr (heq ▸ hoperand), assign, assign]
    split
    · refine ⟨rfl, rfl, h.locals, h.world, fun register hregister => ?_⟩
      rw [h.world]
      by_cases heq : register = dst
      · rw [heq, set_self, set_self]
      · rw [set_of_ne heq, set_of_ne heq, hregister]
    · exact ⟨rfl, rfl, h.locals, h.world, fun _ h => h⟩
  | none =>
    rw [performed_of_none hscalar, performed_of_none hscalar, performed, performed,
      hreads instruction machine machine' h.registers h.locals h.world]
    refine ⟨rfl, rfl, rfl, rfl, fun register hregister => ?_⟩
    simp only
    split
    · rfl
    · exact hregister

theorem Agree.sighting (h : Agree instruction.registerUses machine machine') (hreads : R.ReadsOnly)
    (hidden : List RegId) : R.sighting hidden instruction machine' = R.sighting hidden instruction machine := by
  rw [NativeRuntime.sighting, NativeRuntime.sighting, (h.step hreads).1, map_congr_left h.registers]

theorem Agree.traceTerminator
    (h : Agree terminator.registerUses machine machine') : R.traceTerminator terminator machine' =
      { R.traceTerminator terminator machine with machine := machine' } := by
  have hvalue {operand : RegionOperand} (huses : operand.registers ⊆ terminator.registerUses) :
      R.operandValue machine' operand = R.operandValue machine operand :=
    h.operandValue fun register heq => huses (by rw [heq]; exact mem_singleton_self register)
  have hbranch {condition : RegionOperand} (ifTrue ifFalse : BlockId)
      (huses : condition.registers ⊆ terminator.registerUses) :
      R.branch machine' condition ifTrue ifFalse =
        { R.branch machine condition ifTrue ifFalse with machine := machine' } := by
    rw [branch, branch, hvalue huses, h.world]
    split <;> rfl
  have hrun : R.terminate machine' terminator =
      { R.terminate machine terminator with machine := machine' } := by
    cases terminator with
    | jump | returnReference => rfl
    | jumpIfFalse | jumpIfTrue | jumpIf => exact hbranch _ _ fun _ huse => huse
    | return_ value finally_ => rw [terminate, terminate, hvalue fun _ huse => huse]
    | exit value finally_ =>
      cases value with
      | none => rfl
      | some value =>
        rw [terminate, terminate, map_some, map_some, hvalue fun _ huse =>
          mem_flatMap.mpr ⟨value, mem_singleton_self value, huse⟩]
  rw [NativeRuntime.traceTerminator, NativeRuntime.traceTerminator, hrun, map_congr_left h.registers]

theorem traceTerminator_machine (terminator : RegionTerminator) :
    (R.traceTerminator terminator machine).machine = machine := by
  rw [(⟨fun _ _ => rfl, rfl, rfl⟩ : Agree terminator.registerUses machine machine).traceTerminator]

/-! ## Moved operations -/

/-- The result of the operation is in its register already. -/
def Settled (R : NativeRuntime O W D) (machine : Machine (RuntimeValue O) W)
    (instruction : RegionInstruction) : Prop :=
  ∃ dst value, instruction.kind.scalarResult? = some dst ∧
    R.scalarOutcome instruction.kind machine = ⟨[], some value⟩ ∧
    ∀ world, value world = machine.registers dst

def OnRegisters (instruction : RegionInstruction) : Prop :=
  ∃ dst, instruction.kind.scalarResult? = some dst ∧
    ∀ local_, .local_ local_ ∉ scalarOperands instruction.kind

theorem OnRegisters.scalarOutcome_congr (h : OnRegisters instruction)
    (hregisters : ∀ register ∈ instruction.registerUses,
      machine'.registers register = machine.registers register) :
    R.scalarOutcome instruction.kind machine' = R.scalarOutcome instruction.kind machine := by
  obtain ⟨dst, hscalar, hlocal⟩ := h
  refine NativeRuntime.scalarOutcome_congr fun operand hoperand => ?_
  cases operand with
  | register id => exact hregisters id ((mem_registerUses_of_scalar hscalar).mpr hoperand)
  | local_ id => exact absurd hoperand (hlocal id)
  | _ => rfl

theorem Settled.congr (h : R.Settled machine instruction) (honly : OnRegisters instruction)
    (hresult : ∀ dst, instruction.kind.scalarResult? = some dst →
      machine'.registers dst = machine.registers dst) (hregisters : ∀ register ∈ instruction.registerUses,
      machine'.registers register = machine.registers register) : R.Settled machine' instruction := by
  obtain ⟨dst, value, hscalar, houtcome, hvalue⟩ := h
  refine ⟨dst, value, hscalar, (honly.scalarOutcome_congr hregisters).trans houtcome, fun world => ?_⟩
  rw [hvalue, hresult dst hscalar]

/-- Operations that read no register of a later one, and have different results. -/
structure Independent (instructions : List RegionInstruction) : Prop where
  onRegisters {instruction : RegionInstruction} : instruction ∈ instructions → OnRegisters instruction
  own {instruction : RegionInstruction} {dst : RegId} : instruction ∈ instructions →
    instruction.kind.scalarResult? = some dst → dst ∉ instruction.registerUses
  later : instructions.Pairwise fun earlier later => ∀ dst, later.kind.scalarResult? = some dst →
    dst ∉ earlier.registerUses ∧ earlier.kind.scalarResult? ≠ some dst

theorem Independent.tail (h : Independent (instruction :: instructions)) : Independent instructions where
  onRegisters hmem := h.onRegisters (mem_cons_of_mem _ hmem)
  own hmem := h.own (mem_cons_of_mem _ hmem)
  later := (pairwise_cons.mp h.later).2

theorem step_quiet (hscalar : instruction.kind.scalarResult? = some dst)
    (houtcome : R.scalarOutcome instruction.kind machine = ⟨[], some value⟩) :
    R.step instruction machine = ⟨machine.set dst (value machine.world), [], true⟩ := by
  rw [step_of_scalarResult hscalar, houtcome, assign]

/-- The operations are all done and are settled, nothing is seen of them, and only their results have
changed. -/
structure Completes (R : NativeRuntime O W D) (hidden : List RegId) (instructions : List RegionInstruction)
    (machine : Machine (RuntimeValue O) W) : Prop where
  seen : (R.stretch hidden instructions machine).seen = []
  stays : (R.stretch hidden instructions machine).stays = true
  locals : (R.stretch hidden instructions machine).machine.locals = machine.locals
  world : (R.stretch hidden instructions machine).machine.world = machine.world
  others {register : RegId} :
    (∀ instruction ∈ instructions, instruction.kind.scalarResult? ≠ some register) →
    (R.stretch hidden instructions machine).machine.registers register = machine.registers register
  settled {instruction : RegionInstruction} : instruction ∈ instructions →
    R.Settled (R.stretch hidden instructions machine).machine instruction

/-- Quiet operations complete also on a machine that agrees in what they read. -/
theorem completes_of_quiet {hidden : List RegId}
    (hindependent : Independent instructions) (hquiet : R.Quiet instructions machine)
    (hhidden : ∀ instruction ∈ instructions, skips hidden instruction = true)
    (hagree : ∀ instruction ∈ instructions, ∀ register ∈ instruction.registerUses,
      (∃ other ∈ instructions, other.kind.scalarResult? = some register) ∨
        machine'.registers register = machine.registers register) :
    R.Completes hidden instructions machine' := by
  induction instructions generalizing machine machine' with
  | nil => exact ⟨rfl, rfl, rfl, rfl, fun _ => rfl, nofun⟩
  | cons instruction instructions ih =>
    obtain ⟨⟨value, houtcome, hconstant⟩, hrest⟩ := hquiet
    have honly := hindependent.onRegisters mem_cons_self
    obtain ⟨dst, hscalar, -⟩ := id honly
    obtain ⟨hlater, -⟩ := pairwise_cons.mp hindependent.later
    have hregisters : ∀ register ∈ instruction.registerUses,
        machine'.registers register = machine.registers register := by
      intro register hregister
      refine (hagree instruction mem_cons_self register hregister).resolve_left ?_
      rintro ⟨other, hother, hresult⟩
      rcases mem_cons.mp hother with rfl | hother
      · exact hindependent.own mem_cons_self hresult hregister
      · exact (hlater other hother register hresult).1 hregister
    have houtcome' := (honly.scalarOutcome_congr (R := R) hregisters).trans houtcome
    rw [step_quiet hscalar houtcome] at hrest
    have hnext : R.Completes hidden instructions (machine'.set dst (value machine'.world)) := by
      refine ih hindependent.tail hrest (forall_mem_cons.mp hhidden).2
        fun other hother register hregister => ?_
      by_cases heq : register = dst
      · rw [heq, set_self, set_self]
        exact .inr (hconstant _ _)
      rw [set_of_ne heq, set_of_ne heq]
      refine (hagree other (mem_cons_of_mem _ hother) register hregister).imp_left ?_
      rintro ⟨third, hthird, hresult⟩
      rcases mem_cons.mp hthird with rfl | hthird
      · exact absurd (Option.some.inj (hresult.symm.trans hscalar)) heq
      · exact ⟨third, hthird, hresult⟩
    have hsighting : R.sighting hidden instruction machine' = [] := by
      rw [sighting, if_pos (hhidden instruction mem_cons_self), step_quiet hscalar houtcome']
      rfl
    have hstretch : R.stretch hidden (instruction :: instructions) machine' =
        R.stretch hidden instructions (machine'.set dst (value machine'.world)) := by
      rw [stretch, hsighting, step_quiet hscalar houtcome']
      rfl
    -- The later operations write neither the result nor the operands of this one.
    have hkept : ∀ register, register = dst ∨ register ∈ instruction.registerUses →
        ∀ other ∈ instructions, other.kind.scalarResult? ≠ some register := by
      rintro register (rfl | hregister) other hother hresult
      · exact (hlater other hother _ hresult).2 hscalar
      · exact (hlater other hother _ hresult).1 hregister
    constructor
    · rw [hstretch, hnext.seen]
    · rw [hstretch, hnext.stays]
    · rw [hstretch, hnext.locals]
      rfl
    · rw [hstretch, hnext.world]
      rfl
    · intro register hregister
      rw [hstretch, hnext.others fun other hother => hregister other (mem_cons_of_mem _ hother)]
      exact set_of_ne fun heq => hregister instruction mem_cons_self (heq ▸ hscalar)
    · intro other hother
      rw [hstretch]
      rcases mem_cons.mp hother with rfl | hother
      · refine ⟨dst, value, hscalar, ?_, fun world => ?_⟩
        · refine (honly.scalarOutcome_congr fun register hregister => ?_).trans houtcome'
          rw [hnext.others (hkept register (.inr hregister))]
          exact set_of_ne fun heq => hindependent.own mem_cons_self hscalar (heq ▸ hregister)
        · rw [hnext.others (hkept dst (.inl rfl)), set_self]
          exact hconstant _ _
      · exact hnext.settled hother

end NativeRuntime

/-! ## Sound plans -/

namespace HoistPlan
variable (plan : HoistPlan) (region : RegionGraph)

/-- What a run from a block needs of a plan. -/
structure Sound (R : NativeRuntime O W D) (start : Nat) (machine : Machine (RuntimeValue O) W) : Prop where
  /-- The run starts outside the loop. -/
  outside : start ∉ plan.loopBlocks
  /-- No finally edge leads into the loop. -/
  finally_ {block : RegionBlock} {target : BlockId} : block ∈ region.blocks →
    block.id ∉ plan.loopBlocks → target ∈ block.terminator.edges → target ∈ plan.loopBlocks →
    target ∈ block.terminator.targets
  /-- The registers that are moved, or read by a moved operation, are written by the kinds of
  instructions that the analysis counts. -/
  writes {block : RegionBlock} {instruction : RegionInstruction} {register : RegId} :
    block ∈ region.blocks → instruction ∈ block.instructions → register ∈ instruction.writes →
    (register ∈ plan.candidates ∨ ∃ moved ∈ plan.hoisted region, register ∈ moved.registerUses) →
    instructionResultRegister instruction.kind = some register
  /-- No path reads a moved register before it is assigned. -/
  assigned {register : RegId} {point : Nat × Nat} : register ∈ plan.candidates →
    region.ReadsAt register point.1 point.2 → ¬region.Unassigned start register point
  /-- A moved operation does not read the result of one that stands behind it. -/
  ordered : (plan.hoisted region).Pairwise fun earlier later => ∀ register,
    instructionResultRegister later.kind = some register → register ∉ earlier.registerUses
  /-- Whenever the run is at the end of the preheader, the moved operations are silent there. -/
  quiet {block : RegionBlock} {current : Machine (RuntimeValue O) W} :
    region.blocks[plan.preheader]? = some block → R.Visits region start machine plan.preheader current →
    (R.stretch [] block.instructions current).stays = true →
    R.Quiet (plan.hoisted region) (R.stretch [] block.instructions current).machine

/-- What the loop and the moved operations look like. -/
structure Laid : Prop where
  enters {source target : Nat} : target ∈ region.successors source → target ∈ plan.loopBlocks →
    source ∉ plan.loopBlocks → source = plan.preheader
  preheader : plan.preheader ∉ plan.loopBlocks
  candidate {id : BlockId} {instruction : RegionInstruction} {register : RegId} :
    (id, instruction) ∈ region.placed → register ∈ instruction.writes → register ∈ plan.candidates →
    id ∈ plan.loopBlocks ∧ plan.moves instruction = true
  operand {id : BlockId} {instruction moved : RegionInstruction} {register : RegId} :
    (id, instruction) ∈ region.placed → id ∈ plan.loopBlocks → register ∈ instruction.writes →
    moved ∈ plan.hoisted region → register ∈ moved.registerUses → register ∈ plan.candidates
  result {moved : RegionInstruction} : moved ∈ plan.hoisted region →
    ∃ register ∈ plan.candidates, moved.kind.scalarResult? = some register
  covered {register : RegId} : register ∈ plan.candidates →
    ∃ moved ∈ plan.hoisted region, moved.kind.scalarResult? = some register
  independent : Independent (plan.hoisted region)

variable {plan region}

theorem candidates_of_hoistPlan {predecessors : BlockId → List BlockId}
    (h : region.hoistPlan? predecessors edge = some plan) :
    plan.loopBlocks = region.naturalLoop predecessors edge.1 edge.2 ∧ plan.header = edge.2 ∧
      (predecessors edge.2).filter (· ∉ plan.loopBlocks) = [plan.preheader] ∧
      plan.candidates = region.loopCandidates plan.loopBlocks := by
  simp only [hoistPlan?] at h
  split at h
  · cases h
  split at h
  · next hpreheader =>
    split at h
    · cases h
    · cases h
      exact ⟨rfl, rfl, hpreheader, rfl⟩
  · cases h

section
variable (h : plan.candidates = region.loopCandidates plan.loopBlocks)
include h

theorem hoisted_spec (hmoved : moved ∈ plan.hoisted region) :
    ∃ register ∈ plan.candidates, instructionResultRegister moved.kind = some register ∧
      scalarResultRegister region.inferRegisterClasses moved.kind = some register ∧
      region.multiplyDefined register = false ∧ register ∉ moved.registerUses ∧
      ∀ use_ ∈ moved.registerUses, use_ ∈ plan.candidates ∨
        ∃ id ∉ plan.loopBlocks, (use_, id) ∈ region.definitions := by
  obtain ⟨hloop, hmoves⟩ := mem_filter.mp hmoved
  rw [moves, Option.any_eq_true] at hmoves
  obtain ⟨register, hresult, hcandidate⟩ := hmoves
  rw [decide_eq_true_eq] at hcandidate
  obtain ⟨hsingle, found, hfound, hscalar, hself, huses⟩ := candidate_spec (h ▸ hcandidate)
  obtain ⟨id, -, hplaced⟩ := mem_loopInstructions.mp hloop
  obtain ⟨id', -, hplaced'⟩ := mem_loopInstructions.mp hfound
  cases placed_unique hsingle hplaced hplaced' hresult (scalarResultRegister_spec hscalar).2.1
  exact ⟨register, hcandidate, hresult, hscalar, hsingle, hself, h ▸ huses⟩

theorem mem_hoisted_of_candidate (hcandidate : register ∈ plan.candidates) :
    ∃ moved ∈ plan.hoisted region, moved.kind.scalarResult? = some register := by
  obtain ⟨-, found, hfound, hscalar, -⟩ := candidate_spec (h ▸ hcandidate)
  obtain ⟨hresult, hregister, -⟩ := scalarResultRegister_spec hscalar
  refine ⟨found, mem_filter.mpr ⟨hfound, ?_⟩, hresult⟩
  rw [moves, hregister, any_some, decide_eq_true_eq]
  exact hcandidate

theorem onRegisters_hoisted (hmoved : moved ∈ plan.hoisted region) : OnRegisters moved := by
  obtain ⟨register, -, -, hscalar, -⟩ := hoisted_spec h hmoved
  obtain ⟨hresult, -, hclasses⟩ := scalarResultRegister_spec hscalar
  exact ⟨register, hresult, fun local_ hlocal => nomatch hclasses _ hlocal⟩

theorem independent_hoisted (hordered : (plan.hoisted region).Pairwise fun earlier later => ∀ register,
      instructionResultRegister later.kind = some register → register ∉ earlier.registerUses) :
    Independent (plan.hoisted region) where
  onRegisters := onRegisters_hoisted h
  own hmoved hresult := by
    obtain ⟨register, -, -, hscalar, -, hself, -⟩ := hoisted_spec h hmoved
    cases hresult.symm.trans (scalarResultRegister_spec hscalar).1
    exact hself
  later := by
    rw [pairwise_iff_forall_sublist] at hordered ⊢
    intro earlier later hsublist register hresult
    have hlater : later ∈ plan.hoisted region :=
      hsublist.subset (mem_cons_of_mem _ (mem_singleton_self later))
    have hearlier : earlier ∈ plan.hoisted region := hsublist.subset mem_cons_self
    obtain ⟨_, -, hlater', hscalar, hsingle, -⟩ := hoisted_spec h hlater
    cases hresult.symm.trans (scalarResultRegister_spec hscalar).1
    refine ⟨hordered hsublist register hlater', fun hsame => ?_⟩
    obtain ⟨_, -, hearlier', hscalar', -⟩ := hoisted_spec h hearlier
    cases hsame.symm.trans (scalarResultRegister_spec hscalar').1
    -- Both instructions define the register, at different places.
    have hplaced : List.Sublist [earlier, later] (region.placed.map Prod.snd) := by
      refine (hsublist.trans filter_sublist).trans ?_
      rw [loopInstructions_eq]
      exact filter_sublist.map _
    have htwo := hplaced.countP_le (p := fun entry => instructionResultRegister entry.kind = some register)
    have hone := length_filter_placed_le hsingle
    rw [← countP_eq_length_filter] at hone
    rw [countP_map, countP_cons, countP_cons] at htwo
    simp only [hearlier', hlater', countP_nil, decide_true, if_true] at htwo
    exact absurd (htwo.trans hone) (by decide)

end

theorem mem_successors (hnumbered : region.Numbered) (h : target ∈ region.successors source) :
    ∃ block, region.blocks[source]? = some block ∧ block.id = source ∧
      target ∈ block.terminator.edges ∧ target < region.blocks.length := by
  rw [successors] at h
  split at h
  · next block hblock =>
    obtain ⟨id, hedge, hindex⟩ := mem_filterMap.mp h
    obtain ⟨rfl, other, hother⟩ := blockIndex_eq hnumbered hindex
    exact ⟨block, hblock, hnumbered source block hblock, hedge, (List.getElem?_eq_some_iff.mp hother).1⟩
  · cases h

theorem Sound.laid {R : NativeRuntime O W D} {machine : Machine (RuntimeValue O) W}
    {edge : BlockId × BlockId} (hsound : plan.Sound region R start machine)
    (hnumbered : region.Numbered) (hedge : edge.1 < region.blocks.length)
    (hplan : region.hoistPlan? region.predecessors edge = some plan) : plan.Laid region := by
  obtain ⟨hloop, -, hpreheader, hcandidates⟩ := candidates_of_hoistPlan hplan
  have hwrites {id : BlockId} {instruction : RegionInstruction} {register : RegId}
      (hplaced : (id, instruction) ∈ region.placed) (hwrite : register ∈ instruction.writes)
      (h : register ∈ plan.candidates ∨ ∃ moved ∈ plan.hoisted region, register ∈ moved.registerUses) :
      instructionResultRegister instruction.kind = some register := by
    obtain ⟨block, hblock, -, hinstruction⟩ := mem_placed.mp hplaced
    exact hsound.writes hblock hinstruction hwrite h
  constructor
  · intro source target htarget hinside houtside
    obtain ⟨block, hget, hid, hedges, hlt⟩ := mem_successors hnumbered htarget
    have hblock := mem_of_getElem? hget
    have htargets := hsound.finally_ hblock (hid ▸ houtside) hedges hinside
    have hpredecessor : source ∈ region.predecessors target :=
      mem_predecessors.mpr ⟨hlt, block, hblock, htargets, hid⟩
    by_cases hheader : target = edge.2
    · have hmem : source ∈ (region.predecessors edge.2).filter (· ∉ plan.loopBlocks) :=
        mem_filter.mpr ⟨hheader ▸ hpredecessor, decide_eq_true houtside⟩
      rw [hpreheader] at hmem
      exact mem_singleton.mp hmem
    · rw [hloop] at hinside houtside
      exact absurd (naturalLoop_closed hnumbered hedge hinside hheader hpredecessor) houtside
  · have hmem : plan.preheader ∈ (region.predecessors edge.2).filter (· ∉ plan.loopBlocks) :=
      hpreheader ▸ mem_singleton_self _
    exact of_decide_eq_true (mem_filter.mp hmem).2
  · intro id instruction register hplaced hwrite hcandidate
    have hresult := hwrites hplaced hwrite (.inl hcandidate)
    obtain ⟨hsingle, found, hfound, hscalar, -⟩ := candidate_spec (hcandidates ▸ hcandidate)
    obtain ⟨id', hinside, hplaced'⟩ := mem_loopInstructions.mp hfound
    cases placed_unique hsingle hplaced hplaced' hresult (scalarResultRegister_spec hscalar).2.1
    refine ⟨hinside, ?_⟩
    rw [moves, hresult, any_some, decide_eq_true_eq]
    exact hcandidate
  · intro id instruction moved register hplaced hinside hwrite hmoved huse
    have hresult := hwrites hplaced hwrite (.inr ⟨moved, hmoved, huse⟩)
    obtain ⟨_, -, -, -, -, -, huses⟩ := hoisted_spec hcandidates hmoved
    rcases huses register huse with hcandidate | ⟨other, houtside, hdefinition⟩
    · exact hcandidate
    obtain ⟨hmem, hsingle⟩ := mem_filter.mp hdefinition
    rw [resultBlocks_eq] at hmem
    obtain ⟨entry, hentry, hmap⟩ := mem_filterMap.mp hmem
    obtain ⟨_, hresult', heq⟩ := map_eq_some_iff.mp hmap
    cases heq
    rw [Bool.not_eq_true'] at hsingle
    cases placed_unique hsingle hplaced hentry hresult hresult'
    exact absurd hinside houtside
  · intro moved hmoved
    obtain ⟨register, hcandidate, -, hscalar, -⟩ := hoisted_spec hcandidates hmoved
    exact ⟨register, hcandidate, (scalarResultRegister_spec hscalar).1⟩
  · exact mem_hoisted_of_candidate hcandidates
  · exact independent_hoisted hcandidates hsound.ordered

end HoistPlan

namespace RegionGraph
variable {region : RegionGraph}

theorem placed_of_instructionAt (hnumbered : region.Numbered)
    (h : region.instructionAt block index = some instruction) : (block, instruction) ∈ region.placed := by
  obtain ⟨regionBlock, hblock, hinstruction⟩ := instructionAt_eq_some.mp h
  exact mem_placed.mpr ⟨regionBlock, mem_of_getElem? hblock, hnumbered block regionBlock hblock,
    mem_of_getElem? hinstruction⟩

theorem size_of_block (h : region.blocks[index]? = some block) :
    region.graph.size index = some block.instructions.length := congrArg (Option.map _) h

end RegionGraph

/-! ## Simulation -/

namespace HoistPlan
variable (R : NativeRuntime O W D) (plan : HoistPlan) (region : RegionGraph) (start : Nat)

/-- A path that does not enter the loop. -/
def Avoids (point : Nat × Nat) : Prop :=
  region.graph.Path (fun block _ => block ∉ plan.loopBlocks) (start, 0) point

/-- The two runs at the same point. A moved register has the same value, or might not be assigned yet;
inside the loop the moved operations are settled. -/
structure Related (point : Nat × Nat) (machine machine' : Machine (RuntimeValue O) W) : Prop where
  locals : machine'.locals = machine.locals
  world : machine'.world = machine.world
  others {register : RegId} : register ∉ plan.candidates →
    machine'.registers register = machine.registers register
  moved {register : RegId} : register ∈ plan.candidates →
    machine'.registers register = machine.registers register ∨ region.Unassigned start register point
  settled {instruction : RegionInstruction} : point.1 ∈ plan.loopBlocks →
    instruction ∈ plan.hoisted region → R.Settled machine' instruction
  avoids : (point.1 ∉ plan.loopBlocks ∧ plan.Avoids region start point) ∨
    ∃ size, region.graph.size plan.preheader = some size ∧
      plan.Avoids region start (plan.preheader, size)

/-- What the comparison of the two runs rests on. -/
structure Comparable (first : Machine (RuntimeValue O) W) (hidden : List RegId) : Prop extends
    plan.Sound region R start first, plan.Laid region where
  numbered : region.Numbered
  reads : R.ReadsOnly
  hides {register : RegId} : register ∈ plan.candidates → register ∈ hidden

variable {R plan region start} {machine machine' first : Machine (RuntimeValue O) W} {hidden : List RegId}
variable (H : Comparable R plan region start first hidden)
include H

/-- What is read has the same value in both runs. -/
theorem Related.agree (h : Related R plan region start point machine machine')
    (hreads : ∀ register ∈ uses, region.ReadsAt register point.1 point.2) :
    NativeRuntime.Agree uses machine machine' where
  registers register huse := by
    by_cases hcandidate : register ∈ plan.candidates
    · exact (h.moved hcandidate).resolve_right (H.assigned hcandidate (hreads register huse))
    · exact h.others hcandidate
  locals := h.locals
  world := h.world

theorem Comparable.leavesAt (h : region.instructionAt block index = some instruction)
    (hstays : ¬(block ∈ plan.loopBlocks ∧ plan.moves instruction = true))
    (hcandidate : register ∈ plan.candidates) : register ∉ instruction.writes := by
  intro hwrite
  exact hstays (H.candidate (placed_of_instructionAt H.numbered h) hwrite hcandidate)

/-- A path around the loop does not assign what is moved. -/
theorem Comparable.unassigned (hcandidate : register ∈ plan.candidates) (h : plan.Avoids region start point) :
    region.Unassigned start register point := by
  refine BlockGraph.Path.mono (fun block index houtside instruction hinstruction => ?_) h
  exact H.leavesAt hinstruction (fun hmoves => houtside hmoves.1) hcandidate

variable (h : Related R plan region start (block, index) machine machine')
  (hat : region.instructionAt block index = some instruction)
include h hat

theorem Related.step_kept (hstays : ¬(block ∈ plan.loopBlocks ∧ plan.moves instruction = true)) :
    R.sighting hidden instruction machine' = R.sighting hidden instruction machine ∧
      (R.step instruction machine').stays = (R.step instruction machine).stays ∧
      Related R plan region start (block, index + 1) (R.step instruction machine).machine
        (R.step instruction machine').machine := by
  have hreads : NativeRuntime.Agree instruction.registerUses machine machine' :=
    h.agree H fun register huse => .inl ⟨instruction, hat, huse⟩
  have hagree := hreads.step H.reads
  obtain ⟨size, hsize, hlt⟩ := size_of_instructionAt hat
  have hstep : region.graph.Step (block, index) (block, index + 1) := .next hsize hlt
  refine ⟨hreads.sighting H.reads hidden, hagree.2.1, ?_⟩
  constructor
  · exact hagree.2.2.1
  · exact hagree.2.2.2.1
  · intro register hcandidate
    exact hagree.2.2.2.2 register (h.others hcandidate)
  · intro register hcandidate
    have hleaves := H.leavesAt hat hstays hcandidate
    refine (h.moved hcandidate).imp (hagree.2.2.2.2 register) fun hunassigned => hunassigned.tail ⟨?_, hstep⟩
    intro other hother
    cases hat.symm.trans hother
    exact hleaves
  · intro moved hinside hmoved
    have hkept {register : RegId} (hregister : register ∈ plan.candidates ∨ register ∈ moved.registerUses) :
        (R.step instruction machine').machine.registers register = machine'.registers register := by
      refine step_registers fun hwrite => ?_
      have hcandidate := hregister.elim (fun h => h) fun huse => H.operand
        (placed_of_instructionAt H.numbered hat) hinside hwrite hmoved huse
      exact H.leavesAt hat hstays hcandidate hwrite
    obtain ⟨register, hcandidate, hresult⟩ := H.result hmoved
    refine (h.settled hinside hmoved).congr (H.independent.onRegisters hmoved) (fun dst hdst => ?_)
      fun register huse => hkept (.inr huse)
    cases hresult.symm.trans hdst
    exact hkept (.inl hcandidate)
  · exact h.avoids.imp_left fun ⟨houtside, hpath⟩ => ⟨houtside, hpath.tail ⟨houtside, hstep⟩⟩

/-- A moved operation of the loop only repeats what the preheader has done. -/
theorem Related.step_moved (hinside : block ∈ plan.loopBlocks) (hmoves : plan.moves instruction = true) :
    (R.step instruction machine).events = [] ∧ (R.step instruction machine).stays = true ∧
      Related R plan region start (block, index + 1) (R.step instruction machine).machine machine' := by
  have hplaced := placed_of_instructionAt H.numbered hat
  have hmoved : instruction ∈ plan.hoisted region :=
    mem_filter.mpr ⟨mem_loopInstructions.mpr ⟨block, hinside, hplaced⟩, hmoves⟩
  have honly := H.independent.onRegisters hmoved
  obtain ⟨dst, value, hscalar, houtcome, hvalue⟩ := h.settled hinside hmoved
  have hreads := h.agree H fun register huse => .inl ⟨instruction, hat, huse⟩
  have hquiet := step_quiet hscalar
    ((honly.scalarOutcome_congr hreads.registers).symm.trans houtcome)
  obtain ⟨size, hsize, hlt⟩ := size_of_instructionAt hat
  have hstep : region.graph.Step (block, index) (block, index + 1) := .next hsize hlt
  have hcandidate : dst ∈ plan.candidates := by
    obtain ⟨register, hcandidate, hresult⟩ := H.result hmoved
    cases hscalar.symm.trans hresult
    exact hcandidate
  rw [hquiet]
  refine ⟨rfl, rfl, ?_⟩
  constructor
  · exact h.locals
  · exact h.world
  · intro register hother
    have hne : register ≠ dst := fun heq => hother (by rwa [heq])
    rw [set_of_ne hne]
    exact h.others hother
  · intro register hregister
    by_cases heq : register = dst
    · rw [heq, set_self, hvalue]
      exact .inl rfl
    rw [set_of_ne heq]
    refine (h.moved hregister).imp_right fun hunassigned => hunassigned.tail ⟨?_, hstep⟩
    intro other hother
    cases hat.symm.trans hother
    rw [RegionInstruction.writes, hscalar]
    exact fun hmem => heq (mem_singleton.mp hmem)
  · exact h.settled
  · exact .inr (h.avoids.resolve_left fun houtside => houtside.1 hinside)

end HoistPlan

namespace NativeRuntime
variable {R : NativeRuntime O W D} (hidden : List RegId)

theorem stretch_append (first second : List RegionInstruction) (machine : Machine (RuntimeValue O) W) :
    R.stretch hidden (first ++ second) machine =
      if (R.stretch hidden first machine).stays then
        (R.stretch hidden second (R.stretch hidden first machine).machine).prepend
          (R.stretch hidden first machine).seen else R.stretch hidden first machine := by
  induction first generalizing machine with
  | nil => rfl
  | cons instruction first ih =>
    rw [cons_append, stretch, stretch]
    by_cases hstays : (R.step instruction machine).stays = true
    · rw [if_pos hstays, if_pos hstays, ih]
      by_cases hrest : (R.stretch hidden first (R.step instruction machine).machine).stays = true
      · simp [Stretch.prepend, if_pos hrest]
      · rw [if_neg hrest]
        exact (if_neg hrest).symm
    · rw [if_neg hstays, if_neg hstays]
      rfl

/-- What is hidden changes nothing but what is seen. -/
theorem stretch_hidden (instructions : List RegionInstruction) (machine : Machine (RuntimeValue O) W) :
    (R.stretch hidden instructions machine).machine = (R.stretch [] instructions machine).machine ∧
      (R.stretch hidden instructions machine).stays = (R.stretch [] instructions machine).stays := by
  induction instructions generalizing machine with
  | nil => exact ⟨rfl, rfl⟩
  | cons instruction instructions ih =>
    rw [stretch, stretch]
    split
    · exact ih _
    · exact ⟨rfl, rfl⟩

theorem traceBlock_hidden (block : RegionBlock) (machine : Machine (RuntimeValue O) W) :
    (R.traceBlock hidden block machine).machine = (R.traceBlock [] block machine).machine ∧
      (R.traceBlock hidden block machine).exit = (R.traceBlock [] block machine).exit := by
  obtain ⟨hmachine, hstays⟩ := stretch_hidden (R := R) hidden block.instructions machine
  simp only [traceBlock, hmachine, hstays]
  split <;> exact ⟨rfl, rfl⟩

theorem next_mem_edges {machine : Machine (RuntimeValue O) W} {terminator : RegionTerminator}
    (h : (R.traceTerminator terminator machine).exit.next = some target) : target ∈ terminator.edges := by
  have hbranch {condition : RegionOperand} {ifTrue ifFalse : BlockId}
      (h : (R.branch machine condition ifTrue ifFalse).exit.next = some target) :
      target = ifTrue ∨ target = ifFalse := by
    rw [branch] at h
    split at h
    · cases h
      split
      · exact .inl rfl
      · exact .inr rfl
    · cases h
  cases terminator with
  | jump destination =>
    cases h
    exact mem_singleton_self _
  | jumpIfFalse condition target fallthrough =>
    exact mem_cons.mpr ((hbranch h).symm.imp_right mem_singleton.mpr)
  | jumpIfTrue | jumpIf => exact mem_cons.mpr ((hbranch h).imp_right mem_singleton.mpr)
  | return_ | returnReference | exit => exact mem_toList.mpr h

end NativeRuntime

namespace HoistPlan
variable {R : NativeRuntime O W D} {plan : HoistPlan} {region : RegionGraph} {start : Nat}
variable {machine machine' first : Machine (RuntimeValue O) W} {hidden : List RegId}

/-- What is left of some instructions of a block of the loop. -/
def kept (plan : HoistPlan) (inside : Bool) (instructions : List RegionInstruction) :
    List RegionInstruction :=
  if inside then instructions.filter (!plan.moves ·) else instructions

theorem kept_cons (plan : HoistPlan) (inside : Bool) (instruction : RegionInstruction)
    (instructions : List RegionInstruction) : plan.kept inside (instruction :: instructions) =
      if inside = true ∧ plan.moves instruction = true then plan.kept inside instructions
      else instruction :: plan.kept inside instructions := by
  cases inside with
  | false => rfl
  | true =>
    cases hmoves : plan.moves instruction with
    | true => simp [kept, hmoves]
    | false => simp [kept, hmoves]

section
variable (H : Comparable R plan region start first hidden)
include H

theorem Comparable.skips (h : plan.moves instruction = true) : skips hidden instruction = true := by
  rw [moves, Option.any_eq_true] at h
  obtain ⟨register, hresult, hcandidate⟩ := h
  rw [Jit.skips, hresult, any_some, decide_eq_true_eq]
  exact H.hides (of_decide_eq_true hcandidate)

variable {block : RegionBlock}

theorem Related.stretch (hblock : region.blocks[index]? = some block)
    (done : List RegionInstruction) (hrest : block.instructions = done ++ rest)
    (h : Related R plan region start (index, done.length) machine machine') :
    (R.stretch hidden (plan.kept (index ∈ plan.loopBlocks) rest) machine').seen =
        (R.stretch hidden rest machine).seen ∧
      (R.stretch hidden (plan.kept (index ∈ plan.loopBlocks) rest) machine').stays =
        (R.stretch hidden rest machine).stays ∧ ((R.stretch hidden rest machine).stays = true →
        Related R plan region start (index, block.instructions.length)
          (R.stretch hidden rest machine).machine
          (R.stretch hidden (plan.kept (index ∈ plan.loopBlocks) rest) machine').machine) := by
  induction rest generalizing done machine machine' with
  | nil =>
    rw [append_nil] at hrest
    have hnil : plan.kept (index ∈ plan.loopBlocks) [] = [] := ite_self _
    rw [hnil, hrest]
    exact ⟨rfl, rfl, fun _ => h⟩
  | cons instruction rest ih =>
    have hat : region.instructionAt index done.length = some instruction := by
      refine instructionAt_eq_some.mpr ⟨block, hblock, ?_⟩
      rw [hrest, getElem?_append_right (Nat.le_refl _), Nat.sub_self]
      rfl
    have hnext : block.instructions = (done ++ [instruction]) ++ rest := by
      rw [hrest, append_assoc]
      rfl
    have hlength : (done ++ [instruction]).length = done.length + 1 := length_append
    rw [kept_cons]
    by_cases hmoved : index ∈ plan.loopBlocks ∧ plan.moves instruction = true
    · obtain ⟨hevents, hstays, hrelated⟩ := h.step_moved H hat hmoved.1 hmoved.2
      have hsighting : R.sighting hidden instruction machine = [] := by
        rw [NativeRuntime.sighting, if_pos (H.skips hmoved.2), hevents]
        rfl
      rw [if_pos ⟨decide_eq_true hmoved.1, hmoved.2⟩, NativeRuntime.stretch, if_pos hstays, hsighting]
      exact ih (done ++ [instruction]) hnext (hlength ▸ hrelated)
    · obtain ⟨hsighting, hstays, hrelated⟩ := h.step_kept H hat hmoved
      rw [if_neg fun hinside => hmoved ⟨of_decide_eq_true hinside.1, hinside.2⟩, NativeRuntime.stretch,
        NativeRuntime.stretch, hstays, hsighting]
      split
      · obtain ⟨hseen, hstays, hend⟩ := ih (done ++ [instruction]) hnext (hlength ▸ hrelated)
        refine ⟨?_, hstays, hend⟩
        rw [Stretch.prepend, Stretch.prepend, hseen]
      · exact ⟨rfl, rfl, nofun⟩

/-- Along an edge. In front of the loop the moved operations are done already. -/
theorem Related.exit {next : Nat} (h : Related R plan region start (index, size) machine machine')
    (hsize : region.graph.size index = some size) (hsuccessor : next ∈ region.successors index)
    (hsettled : index = plan.preheader → ∀ instruction ∈ plan.hoisted region, R.Settled machine' instruction) :
    Related R plan region start (next, 0) machine machine' := by
  have hstep : region.graph.Step (index, size) (next, 0) := .exit hsize hsuccessor
  have hbehind : region.instructionAt index size = none := by
    by_contra hsome
    obtain ⟨instruction, hat⟩ := ne_none_iff_exists'.mp hsome
    obtain ⟨size', hsize', hlt⟩ := size_of_instructionAt hat
    cases hsize.symm.trans hsize'
    exact Nat.lt_irrefl size hlt
  constructor
  · exact h.locals
  · exact h.world
  · exact h.others
  · intro register hcandidate
    refine (h.moved hcandidate).imp_right fun hunassigned => hunassigned.tail ⟨?_, hstep⟩
    intro instruction hat
    cases hbehind.symm.trans hat
  · intro instruction hinside hmoved
    by_cases hloop : index ∈ plan.loopBlocks
    · exact h.settled hloop hmoved
    · exact hsettled (H.enters hsuccessor hinside hloop) instruction hmoved
  · rcases h.avoids with ⟨houtside, hpath⟩ | hpath
    · by_cases hinside : next ∈ plan.loopBlocks
      · cases H.enters hsuccessor hinside houtside
        exact .inr ⟨size, hsize, hpath⟩
      · exact .inl ⟨hinside, hpath.tail ⟨houtside, hstep⟩⟩
    · exact .inr hpath

/-- The moved operations at the end of the preheader. -/
theorem Related.hoisted (h : Related R plan region start (plan.preheader, size) machine machine')
    (hsize : region.graph.size plan.preheader = some size) (hquiet : R.Quiet (plan.hoisted region) machine) :
    R.Completes hidden (plan.hoisted region) machine' ∧
      Related R plan region start (plan.preheader, size) machine
        (R.stretch hidden (plan.hoisted region) machine').machine := by
  have hcompletes := completes_of_quiet H.independent hquiet
    (fun instruction hmoved => H.skips (mem_filter.mp hmoved).2)
    fun instruction hmoved register _ => by
      by_cases hcandidate : register ∈ plan.candidates
      · exact .inl (H.covered hcandidate)
      · exact .inr (h.others hcandidate)
  have hpath : plan.Avoids region start (plan.preheader, size) := by
    rcases h.avoids with ⟨-, hpath⟩ | ⟨size', hsize', hpath⟩
    · exact hpath
    · cases hsize.symm.trans hsize'
      exact hpath
  refine ⟨hcompletes, ?_⟩
  constructor
  · exact hcompletes.locals.trans h.locals
  · exact hcompletes.world.trans h.world
  · intro register hother
    refine (hcompletes.others fun instruction hmoved hresult => ?_).trans (h.others hother)
    obtain ⟨result, hcandidate, hresult'⟩ := H.result hmoved
    cases hresult.symm.trans hresult'
    exact hother hcandidate
  · exact fun hcandidate => .inr (H.unassigned hcandidate hpath)
  · exact fun hinside => absurd hinside H.preheader
  · exact h.avoids

section
variable {index : Nat} (hblock : region.blocks[index]? = some block)
include hblock

theorem Comparable.instructions_rewriteBlock :
    (plan.rewriteBlock (plan.hoisted region) index block).instructions =
      plan.kept (index ∈ plan.loopBlocks) block.instructions ++
        if index = plan.preheader then plan.hoisted region else [] := by
  rw [rewriteBlock, kept, H.numbered index block hblock]
  simp

variable (hvisits : R.Visits region start first index machine)
  (h : Related R plan region start (index, 0) machine machine')
include hvisits h

theorem Related.body : let run := R.stretch hidden block.instructions machine
    let run' := R.stretch hidden (plan.rewriteBlock (plan.hoisted region) index block).instructions machine'
    run'.seen = run.seen ∧ run'.stays = run.stays ∧ (run.stays = true →
      Related R plan region start (index, block.instructions.length) run.machine run'.machine ∧
        (index = plan.preheader → ∀ instruction ∈ plan.hoisted region, R.Settled run'.machine instruction)) := by
  intro run run'
  obtain ⟨hseen, hstays, hend⟩ := Related.stretch H hblock [] rfl h
  have hrun' : run' = R.stretch hidden (plan.kept (index ∈ plan.loopBlocks) block.instructions ++
      if index = plan.preheader then plan.hoisted region else []) machine' := by
    rw [← H.instructions_rewriteBlock hblock]
  rw [stretch_append, hstays] at hrun'
  by_cases hleft : run.stays = true
  · rw [if_pos hleft, hseen] at hrun'
    by_cases hpreheader : index = plan.preheader
    · have hquiet := H.quiet (hpreheader ▸ hblock) (hpreheader ▸ hvisits)
      obtain ⟨hmachine, hstays'⟩ := stretch_hidden (R := R) hidden block.instructions machine
      rw [← hmachine, ← hstays'] at hquiet
      have hrelated := hend hleft
      rw [hpreheader] at hrelated hrun'
      obtain ⟨hcompletes, hrelated'⟩ := hrelated.hoisted H
        (size_of_block (hpreheader ▸ hblock)) (hquiet hleft)
      rw [if_pos rfl] at hrun'
      rw [hrun', hpreheader]
      refine ⟨?_, hcompletes.stays.trans hleft.symm, fun _ => ⟨hrelated', fun _ instruction hmoved =>
        hcompletes.settled hmoved⟩⟩
      rw [Stretch.prepend, hcompletes.seen, append_nil]
    · rw [if_neg hpreheader] at hrun'
      rw [hrun']
      refine ⟨append_nil _, hleft.symm, fun _ => ⟨hend hleft, fun heq => absurd heq hpreheader⟩⟩
  · rw [if_neg hleft] at hrun'
    rw [hrun']
    exact ⟨hseen, hstays, fun hstays => absurd hstays hleft⟩

/-- A block is run alike in both regions, and the runs are related where they go on. -/
theorem Related.traceBlock : let run := R.traceBlock hidden block machine
    let run' := R.traceBlock hidden (plan.rewriteBlock (plan.hoisted region) index block) machine'
    run'.seen = run.seen ∧ run'.exit = run.exit ∧ ∀ next,
      run.exit.next.bind region.blockIndex = some next →
        Related R plan region start (next, 0) run.machine run'.machine := by
  intro run run'
  obtain ⟨hseen, hstays, hend⟩ := h.body H hblock hvisits
  simp only [run, run', NativeRuntime.traceBlock]
  rw [hstays, hseen]
  split
  · next hleft =>
    obtain ⟨hrelated, hsettled⟩ := hend hleft
    have hterminator : (plan.rewriteBlock (plan.hoisted region) index block).terminator = block.terminator := rfl
    rw [hterminator]
    rw [(hrelated.agree H fun register huse => .inr ⟨block, hblock, rfl, huse⟩).traceTerminator]
    refine ⟨rfl, rfl, fun next hnext => ?_⟩
    obtain ⟨target, htarget, hindex⟩ := bind_eq_some_iff.mp hnext
    have hsuccessor : next ∈ region.successors index := by
      rw [successors, hblock]
      exact mem_filterMap.mpr ⟨target, next_mem_edges htarget, hindex⟩
    rw [traceTerminator_machine]
    exact hrelated.exit H (size_of_block hblock) hsuccessor hsettled
  · exact ⟨rfl, rfl, fun _ h => by cases h⟩

end
end
end HoistPlan

/-! ## Layout -/

namespace RegionGraph
variable {region other : RegionGraph}

/-- What hoisting does not change. -/
def layout (region : RegionGraph) : List (BlockId × RegionTerminator) :=
  region.blocks.map fun block => (block.id, block.terminator)

section
variable (h : other.layout = region.layout)
include h

theorem length_of_layout : other.blocks.length = region.blocks.length := by
  have hlength := congrArg List.length h
  rwa [layout, layout, length_map, length_map] at hlength

theorem numbered_of_layout (hnumbered : region.Numbered) : other.Numbered := by
  intro index block hblock
  have hget : region.layout[index]? = some (block.id, block.terminator) := by
    rw [← h, layout, getElem?_map, hblock]
    rfl
  rw [layout, getElem?_map, map_eq_some_iff] at hget
  obtain ⟨original, horiginal, heq⟩ := hget
  rw [← hnumbered index original horiginal]
  exact (congrArg Prod.fst heq).symm

theorem blockIndex_of_layout : other.blockIndex = region.blockIndex := by
  have hlayout (region : RegionGraph) (id : BlockId) : region.blockIndex id =
      ((region.layout.zipIdx.filter (·.1.1 = id)).getLast?).map Prod.snd := by
    rw [layout, zipIdx_map, List.filter_map, getLast?_map, Option.map_map]
    rfl
  funext id
  rw [hlayout, hlayout, h]

theorem predecessors_of_layout : other.predecessors = region.predecessors := by
  have hlayout (region : RegionGraph) (block : BlockId) :
      (region.blocks.filter fun source => block ∈ source.terminator.targets).map (·.id) =
        (region.layout.filter fun source => block ∈ source.2.targets).map Prod.fst := by
    rw [layout, List.filter_map, List.map_map]
    rfl
  funext block
  rw [predecessors, predecessors, hlayout, hlayout, h, length_of_layout h]

end
end RegionGraph

theorem HoistPlan.layout_apply (plan : HoistPlan) (region : RegionGraph) :
    (plan.apply region).layout = region.layout := by
  refine ext_getElem? fun index => ?_
  rw [layout, layout, apply, getElem?_map, getElem?_map, getElem?_mapIdx, Option.map_map]
  rfl

/-! ## Runs -/

namespace HoistPlan
variable {R : NativeRuntime O W D} {plan : HoistPlan} {region : RegionGraph} {start : Nat}
variable {machine machine' first : Machine (RuntimeValue O) W} {hidden : List RegId}

theorem Related.trace (H : Comparable R plan region start first hidden)
    (hvisits : R.Visits region start first index machine)
    (h : Related R plan region start (index, 0) machine machine') (fuel : Nat) :
    R.trace hidden (plan.apply region) fuel index machine' = R.trace hidden region fuel index machine := by
  induction fuel generalizing index machine machine' with
  | zero => rfl
  | succ fuel ih =>
    rw [NativeRuntime.trace, NativeRuntime.trace, blockIndex_of_layout (plan.layout_apply region),
      apply, getElem?_mapIdx]
    cases hblock : region.blocks[index]? with
    | none => rfl
    | some block =>
      obtain ⟨hseen, hexit, hnext⟩ := h.traceBlock H hblock hvisits
      simp only [map_some]
      rw [hseen, hexit]
      split
      · next next hindex =>
        obtain ⟨hmachine, hexit'⟩ := traceBlock_hidden (R := R) hidden block machine
        have hvisits' : R.Visits region start first next (R.traceBlock hidden block machine).machine := by
          rw [hmachine]
          exact hvisits.next hblock (hexit' ▸ hindex)
        rw [← ih hvisits' (hnext next hindex)]
        rfl
      · rfl

theorem Comparable.trace (H : Comparable R plan region start first hidden) (fuel : Nat) :
    R.trace hidden (plan.apply region) fuel start first = R.trace hidden region fuel start first := by
  have hrelated : Related R plan region start (start, 0) first first := by
    constructor
    · rfl
    · rfl
    · exact fun _ => rfl
    · exact fun _ => .inl rfl
    · exact fun hinside => absurd hinside H.outside
    · exact .inl ⟨H.outside, .refl⟩
  exact hrelated.trace H .start fuel

end HoistPlan

namespace RegionGraph
variable (R : NativeRuntime O W D) (predecessors : BlockId → List BlockId) (start : Nat)
variable (machine : Machine (RuntimeValue O) W)

/-- Every plan that is carried out is sound for the run. -/
def HoistsSound : List (BlockId × BlockId) → RegionGraph → Prop
  | [], _ => True
  | edge :: edges, region =>
    (∀ plan, region.hoistPlan? predecessors edge = some plan → plan.Sound region R start machine) ∧
      HoistsSound edges (region.hoistLoop predecessors edge)

/-- The registers whose operations are moved. -/
def movedRegisters : List (BlockId × BlockId) → RegionGraph → List RegId
  | [], _ => []
  | edge :: edges, region =>
    (region.hoistPlan? predecessors edge).toList.flatMap (·.candidates) ++
      movedRegisters edges (region.hoistLoop predecessors edge)

variable {R predecessors start machine}

theorem layout_hoistLoop (predecessors : BlockId → List BlockId) (region : RegionGraph)
    (edge : BlockId × BlockId) : (region.hoistLoop predecessors edge).layout = region.layout := by
  rw [hoistLoop]
  split
  · exact HoistPlan.layout_apply _ _
  · rfl

theorem trace_foldl_hoistLoop {region : RegionGraph} {hidden : List RegId} {edges : List (BlockId × BlockId)}
    (hreads : R.ReadsOnly) (hnumbered : region.Numbered) (hpredecessors : predecessors = region.predecessors)
    (hedges : ∀ edge ∈ edges, edge.1 < region.blocks.length)
    (hsound : HoistsSound R predecessors start machine edges region)
    (hhidden : ∀ register ∈ movedRegisters predecessors edges region, register ∈ hidden) (fuel : Nat) :
    R.trace hidden (edges.foldl (hoistLoop predecessors) region) fuel start machine =
      R.trace hidden region fuel start machine := by
  induction edges generalizing region with
  | nil => rfl
  | cons edge edges ih =>
    have hlayout := layout_hoistLoop predecessors region edge
    refine (ih (numbered_of_layout hlayout hnumbered)
      (hpredecessors.trans (predecessors_of_layout hlayout).symm) (fun other hother => ?_) hsound.2
      fun register hregister => hhidden register (mem_append_right _ hregister)).trans ?_
    · rw [length_of_layout hlayout]
      exact hedges other (mem_cons_of_mem _ hother)
    · rw [hoistLoop]
      split
      · next plan hplan =>
        have hplanSound := hsound.1 plan hplan
        have hlaid := hplanSound.laid hnumbered (hedges edge mem_cons_self) (hpredecessors ▸ hplan)
        refine HoistPlan.Comparable.trace ⟨hplanSound, hlaid, hnumbered, hreads,
          fun {register} hcandidate => hhidden register (mem_append_left _ ?_)⟩ fuel
        rw [hplan]
        exact mem_flatMap.mpr ⟨plan, mem_singleton_self plan, hcandidate⟩
      · rfl

/-- The run reads the same values and shows the same events before and after hoisting, whichever block
it starts in. -/
theorem trace_hoistLoopInvariants (R : NativeRuntime O W D) (region : RegionGraph) (start : Nat)
    (machine : Machine (RuntimeValue O) W) (fuel : Nat) (hverify : region.verify = .ok ())
    (hreads : R.ReadsOnly)
    (hsound : HoistsSound R region.predecessors start machine region.backedges region) :
    R.trace (movedRegisters region.predecessors region.backedges region) region.hoistLoopInvariants fuel
        start machine =
      R.trace (movedRegisters region.predecessors region.backedges region) region fuel start machine := by
  have hnumbered := numbered_of_verify hverify
  refine trace_foldl_hoistLoop hreads hnumbered rfl (fun edge hedge => ?_) hsound (fun _ h => h) fuel
  obtain ⟨block, hblock, hedge⟩ := mem_flatMap.mp hedge
  obtain ⟨target, -, rfl⟩ := mem_map.mp hedge
  exact id_lt hnumbered hblock

end RegionGraph

namespace NativeRuntime

/-- A runtime whose other instructions do nothing. -/
def still : NativeRuntime Int Unit String where
  __ := halves
  perform _ machine := ⟨⟨fun _ => .null, machine.locals, machine.world, true⟩, []⟩

/-- `echo r0` -/
def echoed : RegionInstruction :=
  OwnershipFlow.untouched 2 (.echo (.register 0)) (.echo (.register 0))

/-- `r0 = 5; echo r0` in a loop. -/
def echoLoop : RegionGraph := OwnershipFlow.loopRegion [] [OwnershipFlow.assignment, echoed]

theorem readsOnly_still : still.ReadsOnly := by
  intro instruction machine machine' _ hlocals hworld
  simp [still, hlocals]

/-- At the start of the loop the register might not be assigned, behind its first line it is. -/
theorem unassigned_echoLoop (h : echoLoop.Unassigned 0 0 point) : point = (0, 0) ∨ point = (1, 0) := by
  induction h with
  | refl => exact .inl rfl
  | tail _ hstep ih =>
    obtain ⟨hleaves, hstep⟩ := hstep
    rcases ih with rfl | rfl
    · cases hstep with
      | next hsize hlt =>
        cases hsize
        exact absurd hlt (Nat.not_lt_zero 0)
      | exit hsize hsuccessor =>
        rw [show echoLoop.graph.succ 0 = [1] from by decide, mem_singleton] at hsuccessor
        exact .inr (by rw [hsuccessor])
    · exact absurd (hleaves OwnershipFlow.assignment rfl) (by decide)

/-- The assignment is moved to block 0. -/
def echoPlan : HoistPlan := ⟨[1], 1, 0, [0]⟩

theorem sound_echoPlan : echoPlan.Sound echoLoop still 0 cleared where
  outside := by decide
  finally_ {block target} hblock _ hedge _ := by
    rcases mem_cons.mp hblock with rfl | hblock
    · exact hedge
    · cases mem_singleton.mp hblock
      exact hedge
  writes {block instruction register} hblock hinstruction hwrite _ := by
    rcases mem_cons.mp hblock with rfl | hblock
    · cases hinstruction
    · cases mem_singleton.mp hblock
      rcases mem_cons.mp hinstruction with rfl | hinstruction
      · rw [mem_singleton.mp hwrite]
        rfl
      · cases mem_singleton.mp hinstruction
        cases hwrite
  assigned {register point} hcandidate hreads hunassigned := by
    cases mem_singleton.mp hcandidate
    rcases unassigned_echoLoop hunassigned with rfl | rfl <;>
      rcases hreads with ⟨_, hat, huse⟩ | ⟨_, hblock, _, huse⟩
    · cases hat
    · cases hblock; cases huse
    · cases hat
      exact absurd huse (by decide)
    · cases hblock; cases huse
  ordered := pairwise_singleton _ _
  quiet _ _ _ := ⟨⟨fun _ => .int 5, rfl, fun _ _ => rfl⟩, trivial⟩

/-- A run from block 0 enters the loop through the preheader. -/
theorem trace_echoLoop_zero :
    still.trace [0] echoLoop.hoistLoopInvariants 5 0 cleared = still.trace [0] echoLoop 5 0 cleared := by
  have hedges : echoLoop.backedges = [(1, 1)] := by decide
  have hplan : echoLoop.hoistPlan? echoLoop.predecessors (1, 1) = some echoPlan := by decide
  refine trace_hoistLoopInvariants still echoLoop 0 cleared 5 (by decide) readsOnly_still ?_
  rw [hedges]
  refine ⟨fun plan h => ?_, trivial⟩
  cases hplan.symm.trans h
  exact sound_echoPlan

/-- A run from the on-stack replacement entry does not. -/
theorem trace_echoLoop_one : echoLoop.verify = .ok () ∧ 1 ∈ echoLoop.osrEntries ∧
    still.trace [0] echoLoop.hoistLoopInvariants 1 1 cleared ≠ still.trace [0] echoLoop 1 1 cleared := by
  decide

end NativeRuntime
end Phrust.Jit
