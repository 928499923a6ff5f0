import Phrust.Ir.RegisterPaths
import Phrust.Verify.OperandRanges
import Phrust.Verify.RegisterAnalysis

/-!
# Registers of accepted functions

The verifier is right about the paths that it knows: those along named targets, through blocks in which
a foreach step is followed by the test of its outcome. It does not know fall-throughs.
-/

namespace Phrust.Ir
open List Option

/-! ## What acceptance says about one function -/

structure Accepted (function : IrFunction) : Prop where
  instructions : ∀ block ∈ function.blocks, ∀ instruction ∈ block.instructions,
    ∀ register ∈ instructionRegisterUses instruction.kind, register < function.registerCount
  terminators : ∀ block ∈ function.blocks, ∀ terminator, block.terminator = some terminator →
    ∀ register ∈ terminatorRegisterUses terminator.kind, register < function.registerCount
  definitions : verifyRegisterDefinitions function = []

theorem Verified.accepted (h : Verified unit) (hfunction : function ∈ unit.functions) :
    Accepted function where
  instructions _ hblock instruction hinstruction :=
    Within.instructionRegisterUses instruction.kind (h.instruction hfunction hblock hinstruction)
  terminators _ hblock terminator hterminator :=
    Within.terminatorRegisterUses terminator (h.terminator hfunction hblock hterminator)
  definitions := h.definitions hfunction

/-! ## Facts along a block -/

theorem getElem?_foldl_set {defs : List Bool} (registers : List RegId)
    (h : (registers.foldl (·.set · value) defs)[register]? = some x) :
    register ∈ registers ∧ x = value ∨ register ∉ registers ∧ defs[register]? = some x := by
  induction registers generalizing defs with
  | nil => exact .inr ⟨not_mem_nil, h⟩
  | cons other registers ih =>
    rcases ih h with ⟨hmem, hvalue⟩ | ⟨hmem, hdefs⟩
    · exact .inl ⟨mem_cons_of_mem _ hmem, hvalue⟩
    · rcases getElem?_set_cases hdefs with ⟨hvalue, rfl⟩ | ⟨hne, hdefs⟩
      · exact .inl ⟨mem_cons_self, hvalue⟩
      · exact .inr ⟨not_mem_cons_of_ne_of_not_mem hne hmem, hdefs⟩

theorem getElem?_foldl_mark {defs : List Bool} (instructions : List Instruction)
    (h : (instructions.foldl (fun defined instruction =>
      markInstructionDefs instruction.kind defined) defs)[register]? = some true) :
    defs[register]? = some true ∨
      ∃ instruction ∈ instructions, register ∈ instructionRegisterDefs instruction.kind := by
  induction instructions generalizing defs with
  | nil => exact .inl h
  | cons instruction instructions ih =>
    rcases ih h with hdefs | ⟨other, hother, hregister⟩
    · rcases getElem?_foldl_set _ hdefs with ⟨hmem, -⟩ | ⟨-, hdefs⟩
      · exact .inr ⟨instruction, mem_cons_self, hmem⟩
      · exact .inl hdefs
    · exact .inr ⟨other, mem_cons_of_mem _ hother, hregister⟩

theorem length_foldl_mark (instructions : List Instruction) (defs : List Bool) :
    (instructions.foldl (fun defined instruction =>
      markInstructionDefs instruction.kind defined) defs).length = defs.length :=
  length_applyRegisterDefs ⟨0, instructions, none⟩ defs

theorem reportUndefinedRegisters_eq_nil
    (h : reportUndefinedRegisters place uses defined = []) (hregister : register ∈ uses)
    (hlt : register < defined.length) : defined[register]? = some true := by
  have hone := flatMap_eq_nil_iff.mp h register hregister
  rw [getElem?_eq_getElem hlt] at hone ⊢
  cases hbit : defined[register] with
  | true => rfl
  | false =>
    rw [hbit] at hone
    cases hone

theorem reportInstructions_eq_nil (h : reportInstructions block defined instructions = []) :
    (∀ before instruction after, instructions = before ++ instruction :: after →
      ∃ place, reportUndefinedRegisters place (instructionRegisterUses instruction.kind)
        (before.foldl (fun defined instruction =>
          markInstructionDefs instruction.kind defined) defined) = []) ∧
    ∀ terminator, block.terminator = some terminator →
      ∃ place, reportUndefinedRegisters place (terminatorRegisterUses terminator.kind)
        (instructions.foldl (fun defined instruction =>
          markInstructionDefs instruction.kind defined) defined) = [] := by
  induction instructions generalizing defined with
  | nil =>
    refine ⟨fun before instruction after heq => ?_, fun terminator hterminator => ?_⟩
    · exact absurd heq.symm (append_ne_nil_of_right_ne_nil _ (cons_ne_nil _ _))
    · rw [reportInstructions, hterminator] at h
      exact ⟨_, h⟩
  | cons head instructions ih =>
    obtain ⟨hhead, htail⟩ := append_eq_nil_iff.mp h
    obtain ⟨hinstructions, hterminator⟩ := ih htail
    refine ⟨fun before instruction after heq => ?_, hterminator⟩
    cases before with
    | nil =>
      cases heq
      exact ⟨_, hhead⟩
    | cons first before =>
      cases heq
      exact hinstructions before instruction after rfl

theorem mem_instructionRegisterDefs (h : register ∈ instructionRegisterDefs kind) :
    register ∈ sureDefs kind ∨ register ∈ stepDefs kind := by
  cases kind
  case foreachNext | foreachNextRef => exact (mem_cons.mp h).imp_left mem_singleton.mpr
  all_goals exact .inl h

theorem hasValueRegister_mem (h : hasValueRegister kind = some register) :
    register ∈ sureDefs kind ∧ register ∈ instructionRegisterDefs kind := by
  cases kind
  case foreachNext | foreachNextRef =>
    cases h
    exact ⟨mem_singleton_self _, mem_cons_self⟩
  all_goals cases h

theorem mem_blockDefs (hinstruction : instruction ∈ instructions)
    (h : register ∈ sureDefs instruction.kind) : register ∈ blockDefs instructions :=
  mem_flatMap.mpr ⟨instruction, hinstruction, h⟩

/-- In a guarded block only the last instruction can be a foreach step. -/
theorem Guarded.stepDefs_eq_nil {after : List Instruction} (h : Guarded block)
    (hsplit : block.instructions = before ++ instruction :: after) (hother : other ∈ before) :
    stepDefs other.kind = [] := by
  obtain ⟨first, rest, rfl⟩ := append_of_mem hother
  by_contra hstep
  rw [append_assoc, cons_append] at hsplit
  exact absurd (h first other (rest ++ instruction :: after) hsplit hstep).1
    (append_ne_nil_of_right_ne_nil _ (cons_ne_nil _ _))

/-- The foreach step of a guarded block is its last instruction, and the condition is its outcome. -/
theorem Guarded.step_cases (h : Guarded block) (hinstruction : instruction ∈ block.instructions)
    (hstep : register ∈ stepDefs instruction.kind) :
    block.instructions.getLast? = some instruction ∧ ∃ tested,
      hasValueRegister instruction.kind = some tested ∧
        block.terminator.bind (·.kind.condition) = some (.register tested) := by
  obtain ⟨before, after, hsplit⟩ := append_of_mem hinstruction
  obtain ⟨rfl, htested⟩ := h before instruction after hsplit (ne_nil_of_mem hstep)
  exact ⟨by rw [hsplit]; exact getLast?_concat, htested⟩

/-! ## Facts along a path -/

theorem applyEdgeRegisterDefs_eq (hterminator : block.terminator = some terminator)
    (hlast : block.instructions.getLast? = some last) (defs : List Bool) :
    applyEdgeRegisterDefs block target defs =
      if isFalseSuccessor terminator.kind target then (stepDefs last.kind).foldl (·.set · false) defs
      else defs := by
  simp only [applyEdgeRegisterDefs, hterminator, hlast]
  refine ite_congr rfl (fun _ => ?_) fun _ => rfl
  cases last.kind <;> rfl

/-- Where the verifier sees a false successor, it drops the key and the value of the step. -/
theorem getElem?_applyEdgeRegisterDefs
    (h : (applyEdgeRegisterDefs block target defs)[register]? = some true) :
    defs[register]? = some true ∧ ∀ terminator last, block.terminator = some terminator →
      block.instructions.getLast? = some last → isFalseSuccessor terminator.kind target = true →
        register ∉ stepDefs last.kind := by
  cases hterminator : block.terminator with
  | none =>
    simp only [applyEdgeRegisterDefs, hterminator] at h
    refine ⟨h, fun _ _ hnone => ?_⟩
    cases hnone
  | some terminator =>
    cases hlast : block.instructions.getLast? with
    | none =>
      simp only [applyEdgeRegisterDefs, hterminator, hlast] at h
      refine ⟨h, fun _ _ _ hnone => ?_⟩
      cases hnone
    | some last =>
      rw [applyEdgeRegisterDefs_eq hterminator hlast] at h
      split at h
      · rcases getElem?_foldl_set _ h with ⟨-, hfalse⟩ | ⟨hstep, hdefs⟩
        · cases hfalse
        · refine ⟨hdefs, fun _ _ hterminator' hlast' _ => ?_⟩
          rw [← Option.some.inj hlast']
          exact hstep
      · next hfalse =>
        refine ⟨h, fun _ _ hterminator' hlast' hfalse' => ?_⟩
        rw [← Option.some.inj hterminator'] at hfalse'
        exact absurd hfalse' hfalse

section
variable {function : IrFunction}

theorem reachableBlocks_closed (function : IrFunction) (hblocks : function.blocks ≠ []) :
    0 ∈ reachableBlocks function ∧ (∀ index ∈ reachableBlocks function, index < function.blocks.length) ∧
      ∀ index ∈ reachableBlocks function, ∀ target ∈ blockTargets function index,
        target < function.blocks.length → target ∈ reachableBlocks function := by
  have hwidth (index : BlockId) : (blockTargets function index).length ≤ 2 := by
    rw [blockTargets]
    split
    · next terminator _ => cases terminator.kind <;> simp [terminatorTargets]
    · exact Nat.zero_le 2
  obtain ⟨result, hresult, hclosed⟩ := search_below (blockTargets function) 2
    function.blocks.length (length_pos_iff.mpr hblocks) hwidth
  rw [reachableBlocks, if_neg (by simpa using hblocks), hresult]
  exact hclosed

theorem getElem?_intersect {register : RegId} (hsource : source ∈ blockPredecessors function target)
    (hreachable : source ∈ reachable)
    (h : (intersectPredecessorDefs function reachable facts target)[register]? = some true) :
    (edgeDefs function facts target source)[register]? = some true := by
  have hmem : source ∈ (blockPredecessors function target).filter (· ∈ reachable) :=
    mem_filter.mpr ⟨hsource, by simpa using hreachable⟩
  rw [intersectPredecessorDefs] at h
  generalize (blockPredecessors function target).filter (· ∈ reachable) = sources at h hmem
  cases sources with
  | nil => cases hmem
  | cons first rest =>
    -- a bit that is left was set in the first fact and in every further one
    have hfold : ∀ (rest : List BlockId) (result : List Bool),
        (rest.foldl (fun result source =>
          List.zipWith and result (edgeDefs function facts target source)) result)[register]? =
            some true →
        result[register]? = some true ∧ ∀ source ∈ rest,
          (edgeDefs function facts target source)[register]? = some true := by
      intro rest
      induction rest with
      | nil => exact fun result h => ⟨h, forall_mem_nil _⟩
      | cons source rest ih =>
        intro result h
        obtain ⟨hzip, hrest⟩ := ih _ h
        obtain ⟨left, right, hresult, hedge, hand⟩ := getElem?_zipWith_eq_some.mp hzip
        obtain ⟨rfl, rfl⟩ := Bool.and_eq_true_iff.mp hand
        exact ⟨hresult, forall_mem_cons.mpr ⟨hedge, hrest⟩⟩
    obtain ⟨hfirst, hrest⟩ := hfold rest _ h
    rcases mem_cons.mp hmem with rfl | hmem
    · exact hfirst
    · exact hrest source hmem

theorem mem_exits (hblock : function.blocks[index]? = some block)
    (hexit : exit ∈ exits function index block) (hnamed : exit.falls = false) :
    ∃ terminator, block.terminator = some terminator ∧ exit.target ∈ blockTargets function index ∧
      (∀ condition, terminator.kind.condition = some condition →
        exit.holds = some true ∨ isFalseSuccessor terminator.kind exit.target = true) := by
  rw [blockTargets, hblock, bind_some]
  obtain ⟨id, instructions, _ | ⟨span, kind⟩⟩ := block
  · cases hexit
  have hfalls (holds : Bool) (h : exit ∈ if index + 1 < function.blocks.length then
      [(⟨index + 1, some holds, true⟩ : Exit)] else []) : False := by
    split at h
    · rw [mem_singleton.mp h] at hnamed
      cases hnamed
    · cases h
  refine ⟨_, rfl, ?_⟩
  cases kind with
  | jump target =>
    rw [mem_singleton.mp hexit]
    exact ⟨mem_singleton_self _, nofun⟩
  | jumpIfFalse condition target =>
    rcases mem_cons.mp hexit with rfl | hexit
    · exact ⟨mem_singleton_self _, fun _ _ => .inr (beq_self_eq_true target)⟩
    · exact (hfalls true hexit).elim
  | jumpIfTrue condition target =>
    rcases mem_cons.mp hexit with rfl | hexit
    · exact ⟨mem_singleton_self _, fun _ _ => .inl rfl⟩
    · exact (hfalls false hexit).elim
  | jumpIf condition ifTrue ifFalse =>
    rcases mem_cons.mp hexit with rfl | hexit
    · exact ⟨mem_cons_self, fun _ _ => .inl rfl⟩
    · rw [mem_singleton.mp hexit]
      exact ⟨mem_cons_of_mem _ mem_cons_self, fun _ _ => .inr (beq_self_eq_true ifFalse)⟩
  | return_ | exit => cases hexit

/-- The outcome of the last instruction decides about its key and value. -/
theorem valueDefs_eq (hlast : block.instructions.getLast? = some last)
    (hvalue : hasValueRegister last.kind = some tested)
    (hcondition : block.terminator.bind (·.kind.condition) = some (.register tested)) :
    valueDefs block = stepDefs last.kind := by
  obtain ⟨before, hbefore⟩ := getLast?_eq_some_iff.mp hlast
  rw [valueDefs, hcondition]
  simp only [hbefore, reverse_append, reverse_singleton, singleton_append]
  rw [find?_cons_of_pos (by simpa using (hasValueRegister_mem hvalue).2)]
  exact if_pos hvalue

/-- A step that the verifier knows: along a named target out of a guarded block. -/
def KnownStep (step : BasicBlock × Exit) : Prop := step.2.falls = false ∧ Guarded step.1

theorem Path.written_of_defined (h : Path function steps index written)
    (hknown : ∀ step ∈ steps, KnownStep step) (hlt : index < function.blocks.length) :
    index ∈ reachableBlocks function ∧ ∀ defs, (registerFacts function).inDefs[index]? = some defs →
      ∀ register, defs[register]? = some true → register ∈ written := by
  have hblocks : function.blocks ≠ [] := ne_nil_of_length_pos (Nat.zero_lt_of_lt hlt)
  obtain ⟨hstart, hbound, hclosed⟩ := reachableBlocks_closed function hblocks
  obtain ⟨-, hstable⟩ := registerFacts_stable function hbound
  induction h with
  | start =>
    refine ⟨hstart, fun defs hdefs register hregister => ?_⟩
    rw [(hstable 0 hstart).1, Option.some.injEq, nextIn, if_pos (.inl rfl)] at hdefs
    rw [← hdefs, getElem?_replicate] at hregister
    split at hregister <;> cases hregister
  | @step steps index written block exit hpath hblock hexit ih =>
    obtain ⟨hnamed, hguarded⟩ := hknown (block, exit) (mem_append_right _ (mem_singleton_self _))
    obtain ⟨terminator, hterminator, htarget, hfalse⟩ := mem_exits hblock hexit hnamed
    have hindex := (List.getElem?_eq_some_iff.mp hblock).1
    obtain ⟨hreachable, hwritten⟩ := ih (fun step hstep =>
      hknown step (mem_append_left _ hstep)) hindex
    have hreachable' := hclosed index hreachable exit.target htarget hlt
    refine ⟨hreachable', fun defs hdefs register hregister => ?_⟩
    have hsource := mem_blockPredecessors.mpr ⟨hindex, htarget⟩
    rw [(hstable exit.target hreachable').1, Option.some.injEq, nextIn] at hdefs
    split at hdefs
    · rw [← hdefs, getElem?_replicate] at hregister
      split at hregister <;> cases hregister
    -- the bit was set on the edge, so at the end of the block
    rw [← hdefs] at hregister
    have hedge := getElem?_intersect hsource hreachable hregister
    rw [edgeDefs, hblock] at hedge
    obtain ⟨hin, hout⟩ := hstable index hreachable
    rw [hout, getD_some, nextOut, hblock] at hedge
    obtain ⟨hdefined, hkilled⟩ := getElem?_applyEdgeRegisterDefs hedge
    rcases getElem?_foldl_mark block.instructions hdefined with hdefined | ⟨instruction, hmem, hdef⟩
    · exact mem_append_left _ (mem_append_left _ (hwritten _ hin register hdefined))
    rcases mem_instructionRegisterDefs hdef with hsure | hstep
    · exact mem_append_left _ (mem_append_right _ (mem_blockDefs hmem hsure))
    obtain ⟨hlast, tested, hvalue, hcondition⟩ := hguarded.step_cases hmem hstep
    have hkind : terminator.kind.condition = some (.register tested) := by
      rw [hterminator] at hcondition
      exact hcondition
    rcases hfalse _ hkind with hholds | hfalse
    · refine mem_append_right _ ?_
      rw [exitDefs, if_pos hholds, valueDefs_eq hlast hvalue hcondition]
      exact hstep
    · exact absurd hstep (hkilled terminator instruction hterminator hlast hfalse)

/-- The block at the end of a path that the verifier knows. -/
theorem Accepted.safeVisit (h : Accepted function) (hpath : Path function steps index written)
    (hknown : ∀ step ∈ steps, KnownStep step) (hblock : function.blocks[index]? = some block)
    (hguarded : Guarded block) : SafeVisit block written := by
  have hlt := (List.getElem?_eq_some_iff.mp hblock).1
  have hmem := mem_of_getElem? hblock
  by_cases hcount : function.registerCount = 0
  · -- there is no register to read
    refine ⟨fun before instruction after hsplit register hregister => ?_,
      fun terminator hterminator register hregister => ?_⟩
    · have hlt := h.instructions block hmem instruction (by simp [hsplit]) register hregister
      exact absurd (hcount ▸ hlt) (Nat.not_lt_zero _)
    · have hlt := h.terminators block hmem terminator hterminator register hregister
      exact absurd (hcount ▸ hlt) (Nat.not_lt_zero _)
  obtain ⟨hreachable, hwritten⟩ := hpath.written_of_defined hknown hlt
  have hblocks : function.blocks ≠ [] := ne_nil_of_length_pos (Nat.zero_lt_of_lt hlt)
  obtain ⟨hsized, -⟩ := registerFacts_stable function (reachableBlocks_closed function hblocks).2.1
  obtain ⟨defs, hdefs⟩ : ∃ defs, (registerFacts function).inDefs[index]? = some defs :=
    ⟨_, getElem?_eq_getElem (hsized.inLength ▸ hlt)⟩
  have hwritten := hwritten defs hdefs
  have hlength := hsized.ins defs (mem_of_getElem? hdefs)
  have hreport : reportInstructions block defs block.instructions = [] := by
    have hnil := h.definitions
    rw [verifyRegisterDefinitions, if_neg (not_or.mpr ⟨(Nat.zero_lt_of_lt hlt).ne', hcount⟩)] at hnil
    have hone := flatMap_eq_nil_iff.mp hnil (block, index)
      (mem_zipIdx_iff_getElem?.mpr hblock)
    simp only [if_pos hreachable, hdefs, getD_some] at hone
    exact hone
  obtain ⟨hinstructions, hterminators⟩ := reportInstructions_eq_nil hreport
  refine ⟨fun before instruction after hsplit register hregister => ?_,
    fun terminator hterminator register hregister => ?_⟩
  · obtain ⟨place, hplace⟩ := hinstructions before instruction after hsplit
    have hdefined := reportUndefinedRegisters_eq_nil hplace hregister (by
      rw [length_foldl_mark, hlength]
      exact h.instructions block hmem instruction (by simp [hsplit]) register hregister)
    rcases getElem?_foldl_mark before hdefined with hdefined | ⟨other, hother, hdef⟩
    · exact mem_append_left _ (hwritten register hdefined)
    refine mem_append_right _ (mem_blockDefs hother ?_)
    refine (mem_instructionRegisterDefs hdef).resolve_right fun hstep => ?_
    rw [hguarded.stepDefs_eq_nil hsplit hother] at hstep
    cases hstep
  · obtain ⟨place, hplace⟩ := hterminators terminator hterminator
    have hdefined := reportUndefinedRegisters_eq_nil hplace hregister (by
      rw [length_foldl_mark, hlength]
      exact h.terminators block hmem terminator hterminator register hregister)
    rcases getElem?_foldl_mark block.instructions hdefined with hdefined | ⟨other, hother, hdef⟩
    · exact mem_append_left _ (hwritten register hdefined)
    refine mem_append_right _ ?_
    rcases mem_instructionRegisterDefs hdef with hsure | hstep
    · exact mem_blockDefs hother hsure
    -- the terminator reads nothing but the outcome of the step
    obtain ⟨-, tested, hvalue, hcondition⟩ := hguarded.step_cases hother hstep
    rw [hterminator, bind_some] at hcondition
    have htested : register = tested := by
      cases hkind : terminator.kind <;> rw [hkind] at hcondition hregister <;> cases hcondition <;>
        exact mem_singleton.mp hregister
    exact htested ▸ mem_blockDefs hother (hasValueRegister_mem hvalue).1

/-- Every register read along a path is written before. -/
def PathsSafe (function : IrFunction) : Prop :=
  ∀ steps index written block, Path function steps index written →
    function.blocks[index]? = some block → SafeVisit block written

/-- The same for the paths with a fall-through or with a foreach step that is not followed by the test
of its outcome. -/
def OtherPathsSafe (function : IrFunction) : Prop :=
  ∀ steps index written block, Path function steps index written →
    function.blocks[index]? = some block →
    (∃ step ∈ steps, ¬KnownStep step) ∨ ¬Guarded block → SafeVisit block written

/-- The verifier leaves open only the paths that it does not know. -/
theorem verified_pathsSafe_iff (unit : IrUnit) (h : Verified unit) :
    (∀ function ∈ unit.functions, PathsSafe function) ↔
      ∀ function ∈ unit.functions, OtherPathsSafe function := by
  refine forall₂_congr fun function hfunction => ⟨fun hsafe steps index written block hpath hblock _ =>
    hsafe steps index written block hpath hblock, fun hother steps index written block hpath hblock => ?_⟩
  by_cases hknown : (∃ step ∈ steps, ¬KnownStep step) ∨ ¬Guarded block
  · exact hother steps index written block hpath hblock hknown
  · push Not at hknown
    exact (h.accepted hfunction).safeVisit hpath hknown.1 hblock hknown.2

/-- The loop `foreach ($x as $value) { echo $value; }`. -/
def foreachLoop : IrUnit :=
  let block (id : BlockId) (kinds : List InstructionKind) (kind : TerminatorKind) : BasicBlock :=
    ⟨id, kinds.zipIdx.map fun p => ⟨p.2, ⟨0, 0, 0⟩, p.1⟩, some ⟨⟨0, 0, 0⟩, kind⟩⟩
  unitOf [] 3 [block 0 [.foreachInit 0 (.local_ 0)] (.jump 1),
    block 1 [.foreachNext 1 0 none 2] (.jumpIf (.register 1) 2 3),
    block 2 [.echo (.register 2)] (.jump 1), block 3 [.foreachCleanup 0] (.return_ none none)]

theorem foreachLoop_guarded (hfunction : function ∈ foreachLoop.functions) (hblock : block ∈ function.blocks) :
    Guarded block := by
  have hone : ∀ function ∈ foreachLoop.functions, ∀ block ∈ function.blocks, block.instructions.length = 1 ∧
      ∀ instruction ∈ block.instructions, stepDefs instruction.kind ≠ [] →
        hasValueRegister instruction.kind = some 1 ∧
          block.terminator.bind (·.kind.condition) = some (.register 1) := by decide
  intro before instruction after hsplit hstep
  obtain ⟨hlength, hguard⟩ := hone function hfunction block hblock
  rw [hsplit, length_append, length_cons] at hlength
  exact ⟨length_eq_zero_iff.mp (by omega), 1, hguard instruction (by simp [hsplit]) hstep⟩

/-- The loop has no fall-through, and its step is followed by the test of its outcome: the verifier knows every
path. -/
theorem verified_pathsSafe_iff_foreach : Verified foreachLoop ∧
    (∀ function ∈ foreachLoop.functions, PathsSafe function) ∧
    ∃ function ∈ foreachLoop.functions, ∃ steps written, Path function steps 2 written := by
  have h : Verified foreachLoop := by decide +kernel
  refine ⟨h, (verified_pathsSafe_iff foreachLoop h).mpr ?_, ?_⟩
  · intro function hfunction steps index written block hpath hblock hunknown
    have hfalls : ∀ function ∈ foreachLoop.functions, ∀ index < 4, ∀ block ∈ function.blocks[index]?,
        ∀ exit ∈ exits function index block, exit.falls = false := by decide
    have hlength : ∀ function ∈ foreachLoop.functions, function.blocks.length = 4 := by decide
    have hknown : ∀ step ∈ steps, KnownStep step := by
      clear hunknown hblock
      induction hpath with
      | start => nofun
      | @step steps index written block exit _ hblock hexit ih =>
        have hlt := (List.getElem?_eq_some_iff.mp hblock).1
        rw [hlength function hfunction] at hlt
        exact forall_mem_append.mpr ⟨ih, forall_mem_singleton.mpr
          ⟨hfalls function hfunction index hlt block hblock exit hexit,
            foreachLoop_guarded hfunction (mem_of_getElem? hblock)⟩⟩
    rcases hunknown with ⟨step, hstep, hnot⟩ | hnot
    · exact absurd (hknown step hstep) hnot
    · exact absurd (foreachLoop_guarded hfunction (mem_of_getElem? hblock)) hnot
  · exact ⟨_, mem_singleton_self _, _, _, @Path.step _ _ _ _ _ ⟨2, some true, false⟩
      (@Path.step _ _ _ _ _ ⟨1, none, false⟩ .start rfl (by decide)) rfl (by decide)⟩

/-- Block 1, which reads a register that is never written, is entered by falling through only. -/
def readBehindBranch : IrUnit :=
  unitOf [] 1 [⟨0, [], some ⟨⟨0, 0, 0⟩, .jumpIfTrue (.local_ 0) 2⟩⟩,
    ⟨1, [⟨0, ⟨0, 0, 0⟩, .echo (.register 0)⟩], some ⟨⟨0, 0, 0⟩, .return_ none none⟩⟩,
    ⟨2, [], some ⟨⟨0, 0, 0⟩, .return_ none none⟩⟩]

theorem not_verified_pathsSafe :
    ∃ unit, Verified unit ∧ ∃ function ∈ unit.functions, ¬PathsSafe function := by
  refine ⟨readBehindBranch, by decide +kernel, _, mem_singleton_self _, fun hsafe => ?_⟩
  have hvisit := hsafe _ _ _ _ (@Path.step _ _ _ _ _ ⟨1, some false, true⟩ .start rfl (by decide)) rfl
  cases hvisit.1 [] _ [] rfl 0 (by decide)

end
end Phrust.Ir
