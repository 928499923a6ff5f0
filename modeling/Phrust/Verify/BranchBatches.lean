import Phrust.Optimizer.Branch
import Phrust.Theory.IndexedEdits

/-!
# The batches of branch simplification

Each batch in closed form: what it makes of each function by itself.
-/

namespace Phrust.Optimizer
open List Ir Option

/-! ## Batches in closed form -/

section
variable (constants : List IrConstant) (function : IrFunction)

def settleBlock (blockIndex : BlockId) (block : BasicBlock) : BasicBlock :=
  match blockConstantTarget constants function blockIndex block with
  | some target => setTerminator (fun _ => .jump target) block
  | none => block

def settleBranches : IrFunction :=
  { function with
    blocks := function.blocks.zipIdx.map fun p => settleBlock constants function p.2 p.1 }

/-- The replacements of one block, one after the other. -/
def forwardBlock (block : BasicBlock) : BasicBlock :=
  (blockForwards function block).foldl
    (fun block edit => setTerminator (replaceTerminatorTarget edit.1 edit.2) block) block

/-- The batch of forwards. -/
def forwardBlocks : IrFunction :=
  { function with blocks := function.blocks.map (forwardBlock function) }

/-- The batch of unreachable tails. -/
def cutTail : IrFunction :=
  match unreachableEmptyTail function with
  | some newLen => { function with blocks := function.blocks.take newLen }
  | none => function

end

def withFunctions (unit : IrUnit) (update : IrFunction → IrFunction) : IrUnit :=
  { unit with functions := unit.functions.map update }

theorem foldl_block_edits {ε : Type} (tag : Nat → BlockId → ε → BranchSimplification)
    (act : ε → BasicBlock → BasicBlock)
    (htag : ∀ unit i b edit, applyBranchSimplification unit (tag i b edit) =
      { unit with functions := unit.functions.modify i fun function =>
        { function with blocks := function.blocks.modify b (act edit) } })
    (edits : IrFunction → BasicBlock → BlockId → List ε) (unit : IrUnit) :
    (unit.functions.zipIdx.flatMap fun p => p.1.blocks.zipIdx.flatMap fun q =>
        (edits p.1 q.1 q.2).map (tag p.2 q.2)).foldl applyBranchSimplification unit =
      withFunctions unit fun function =>
        { function with blocks := function.blocks.zipIdx.map fun q =>
          (edits function q.1 q.2).foldl (fun block edit => act edit block) q.1 } := by
  -- the edits of a function, each with its block
  have hgroup (p : IrFunction × Nat) :
      (p.1.blocks.zipIdx.flatMap fun q => (edits p.1 q.1 q.2).map (tag p.2 q.2)) =
        (p.1.blocks.zipIdx.flatMap fun q => (edits p.1 q.1 q.2).map (q.2, ·)).map
          fun edit => tag p.2 edit.1 edit.2 := by
    rw [map_flatMap]
    simp only [List.map_map]
    rfl
  simp only [hgroup]
  refine (foldl_steps_eq applyBranchSimplification (fun functions => { unit with functions })
    (fun i edit => tag i edit.1 edit.2)
    (fun edit function => { function with blocks := function.blocks.modify edit.1 (act edit.2) })
    (fun functions i edit => htag _ i edit.1 edit.2)
    (fun function _ => function.blocks.zipIdx.flatMap fun q =>
      (edits function q.1 q.2).map (q.2, ·)) unit.functions).trans ?_
  -- the edits of each block
  have hfunction (function : IrFunction) :
      (function.blocks.zipIdx.flatMap fun q => (edits function q.1 q.2).map (q.2, ·)).foldl
          (fun function edit =>
            { function with blocks := function.blocks.modify edit.1 (act edit.2) }) function =
        { function with blocks := function.blocks.zipIdx.map fun q =>
          (edits function q.1 q.2).foldl (fun block edit => act edit block) q.1 } :=
    foldl_steps_eq _ (fun blocks => { function with blocks }) Prod.mk act
      (fun _ _ _ => rfl) (edits function) function.blocks
  simp only [hfunction]
  refine congrArg (fun functions => { unit with functions })
    (map_zipIdx_eq (fun function i => ?_) unit.functions)
  rfl

section
variable (unit : IrUnit)

theorem foldl_constantBranches :
    (constantBranches unit).foldl applyBranchSimplification unit =
      withFunctions unit (settleBranches unit.constants) := by
  refine (foldl_block_edits .constantBranch (fun target => setTerminator fun _ => .jump target)
    (fun _ _ _ _ => rfl) (fun function block i =>
      (blockConstantTarget unit.constants function i block).toList) unit).trans ?_
  refine congrArg (withFunctions unit) (funext fun function => ?_)
  rw [settleBranches]
  refine congrArg (fun blocks => { function with blocks }) (map_congr_left fun p _ => ?_)
  rw [settleBlock]
  cases blockConstantTarget unit.constants function p.2 p.1 <;> rfl

theorem foldl_emptyBlockForwards :
    (emptyBlockForwards unit).foldl applyBranchSimplification unit = withFunctions unit forwardBlocks := by
  refine (foldl_block_edits (fun i b edit => .forwardEmptyBlock i b edit.1 edit.2)
    (fun edit => setTerminator (replaceTerminatorTarget edit.1 edit.2))
    (fun _ _ _ _ => rfl) (fun function block _ => blockForwards function block) unit).trans ?_
  refine congrArg (withFunctions unit) (funext fun function => ?_)
  refine congrArg (fun blocks => { function with blocks })
    (map_zipIdx_eq (fun block i => ?_) function.blocks)
  rfl

theorem foldl_unreachableTails :
    (unreachableTails unit).foldl applyBranchSimplification unit = withFunctions unit cutTail := by
  have htag (p : IrFunction × Nat) :
      ((unreachableEmptyTail p.1).toList.map fun newLen =>
          BranchSimplification.removeUnreachableEmptyTail p.2 newLen (p.1.blocks.length - newLen)) =
        ((unreachableEmptyTail p.1).toList.map fun newLen =>
          (newLen, p.1.blocks.length - newLen)).map fun edit =>
            BranchSimplification.removeUnreachableEmptyTail p.2 edit.1 edit.2 := by
    rw [List.map_map]
    rfl
  rw [unreachableTails]
  simp only [htag]
  refine (foldl_steps_eq applyBranchSimplification (fun functions => { unit with functions })
    (fun i edit => BranchSimplification.removeUnreachableEmptyTail i edit.1 edit.2)
    (fun edit function => { function with blocks := function.blocks.take edit.1 })
    (fun _ _ _ => rfl)
    (fun function _ => (unreachableEmptyTail function).toList.map fun newLen =>
      (newLen, function.blocks.length - newLen)) unit.functions).trans ?_
  refine congrArg (fun functions => { unit with functions })
    (map_zipIdx_eq (fun function _ => ?_) unit.functions)
  rw [cutTail]
  cases unreachableEmptyTail function <;> rfl

/-- The three kinds of batches, in the order in which they are tried. -/
theorem branchBatch_eq :
    branchBatch unit =
      if constantBranches unit ≠ [] then some (withFunctions unit (settleBranches unit.constants))
      else if emptyBlockForwards unit ≠ [] then some (withFunctions unit forwardBlocks)
      else if unreachableTails unit ≠ [] then some (withFunctions unit cutTail) else none := by
  rw [branchBatch, findBranchSimplifications]
  split
  · rw [map_some, foldl_constantBranches]
  split
  · rw [map_some, foldl_emptyBlockForwards]
  · split
    · rw [map_some, foldl_unreachableTails]
    · rfl

end

/-! ## Empty batches -/

theorem constantBranches_eq_nil_iff {unit : IrUnit} :
    constantBranches unit = [] ↔ ∀ function ∈ unit.functions, ∀ i block, function.blocks[i]? = some block →
        blockConstantTarget unit.constants function i block = none := by
  simp only [constantBranches, flatMap_eq_nil_iff, map_eq_nil_iff,
    toList_eq_nil_iff, Prod.forall, mem_zipIdx_iff_getElem?]
  constructor
  · intro h function hfunction i block hblock
    obtain ⟨j, hj⟩ := getElem?_of_mem hfunction
    exact h function j hj block i hblock
  · exact fun h function j hj block i hblock =>
      h function (mem_of_getElem? hj) i block hblock

theorem emptyBlockForwards_eq_nil_iff {unit : IrUnit} :
    emptyBlockForwards unit = [] ↔ ∀ function ∈ unit.functions, ∀ block ∈ function.blocks,
      blockForwards function block = [] := by
  simp only [emptyBlockForwards, flatMap_eq_nil_iff, map_eq_nil_iff, Prod.forall, mem_zipIdx_iff_getElem?]
  constructor
  · intro h function hfunction block hblock
    obtain ⟨j, hj⟩ := getElem?_of_mem hfunction
    obtain ⟨i, hi⟩ := getElem?_of_mem hblock
    exact h function j hj block i hi
  · exact fun h function j hj block i hi =>
      h function (mem_of_getElem? hj) block (mem_of_getElem? hi)

theorem unreachableTails_eq_nil_iff {unit : IrUnit} :
    unreachableTails unit = [] ↔ ∀ function ∈ unit.functions, unreachableEmptyTail function = none := by
  simp only [unreachableTails, flatMap_eq_nil_iff, map_eq_nil_iff,
    toList_eq_nil_iff, Prod.forall, mem_zipIdx_iff_getElem?]
  constructor
  · intro h function hfunction
    obtain ⟨j, hj⟩ := getElem?_of_mem hfunction
    exact h function j hj
  · exact fun h function j hj => h function (mem_of_getElem? hj)

/-! ## Forwarding -/

section
variable (function : IrFunction)

/-- One step through an empty block that jumps; every other block is where it is. -/
def hop (target : BlockId) : BlockId := (forwardTarget function target).getD target

theorem forwardTarget_eq_none_iff : forwardTarget function target = none ↔ hop function target = target := by
  have hne : ∀ newTarget, forwardTarget function target = some newTarget → newTarget ≠ target := by
    intro newTarget h
    rw [forwardTarget.eq_def] at h
    split at h
    · split at h
      · cases h
      · next hne =>
        cases h
        exact hne
    · cases h
  rw [hop]
  cases h : forwardTarget function target with
  | none => simp
  | some newTarget => simpa using hne newTarget h

end

def emptyJump : BasicBlock → Option BlockId
  | ⟨_, [], some ⟨_, .jump target⟩⟩ => some target
  | _ => none

theorem emptyJump_eq_some_iff : emptyJump block = some target ↔ block.instructions = [] ∧
      ∃ span, block.terminator = some ⟨span, .jump target⟩ := by
  rw [emptyJump.eq_def]
  split
  · simp
  · next h =>
    simp only [reduceCtorEq, false_iff, not_and, not_exists]
    intro hempty span hterminator
    obtain ⟨id, instructions, terminator⟩ := block
    cases hempty
    cases hterminator
    exact h _ _ _ rfl

section
variable (function : IrFunction)

theorem hop_eq (index : BlockId) :
    hop function index = (function.blocks[index]?.bind emptyJump).getD index := by
  rw [hop, forwardTarget.eq_def]
  split
  · next hblock =>
    rw [hblock]
    split
    · next heq => exact heq.symm
    · rfl
  · next hother =>
    cases hblock : function.blocks[index]? with
    | none => rfl
    | some block =>
      rw [bind_some]
      cases hjump : emptyJump block with
      | none => rfl
      | some target =>
        obtain ⟨id, instructions, terminator⟩ := block
        obtain ⟨rfl, span, rfl⟩ := emptyJump_eq_some_iff.mp hjump
        exact absurd hblock (hother _ _ _)

section
variable (kind : TerminatorKind)

/-- The replacements in a terminator, one after the other. -/
def forwardKind : TerminatorKind :=
  ((sortedTargets kind).filterMap fun target =>
    (forwardTarget function target).map (target, ·)).foldl
      (fun kind edit => replaceTerminatorTarget edit.1 edit.2 kind) kind

theorem forwardBlock_eq (block : BasicBlock) :
    forwardBlock function block =
      if blockHasExceptionBoundary block then block else setTerminator (forwardKind function) block := by
  obtain ⟨id, instructions, terminator⟩ := block
  cases terminator with
  | none =>
    split <;> rfl
  | some terminator =>
    rw [forwardBlock, blockForwards]
    dsimp only
    split
    · rfl
    change _ = BasicBlock.mk id instructions
      (some ⟨terminator.span, forwardKind function terminator.kind⟩)
    rw [forwardKind]
    generalize (sortedTargets terminator.kind).filterMap _ = edits
    have hfold : ∀ (edits : List (BlockId × BlockId)) (kind : TerminatorKind),
        edits.foldl (fun block edit => setTerminator (replaceTerminatorTarget edit.1 edit.2) block)
            (⟨id, instructions, some ⟨terminator.span, kind⟩⟩ : BasicBlock) =
          ⟨id, instructions, some ⟨terminator.span, edits.foldl
            (fun kind edit => replaceTerminatorTarget edit.1 edit.2 kind) kind⟩⟩ := by
      intro edits
      induction edits with
      | nil => exact fun _ => rfl
      | cons edit edits ih => exact fun kind => ih _
    exact hfold edits terminator.kind

/-- One replacement moves a target by one hop, if the target is the one to be replaced. -/
theorem replace_hop (old target : BlockId) : (if target = old then hop function old else target) = target ∨
      (if target = old then hop function old else target) = hop function target := by
  split
  · next h =>
    subst h
    exact .inr rfl
  · exact .inl rfl

/-- A single replacement, whether it is made or not. -/
theorem foldl_forward_one (target : BlockId) (kind : TerminatorKind) :
    (((forwardTarget function target).map (target, ·)).toList).foldl
        (fun kind edit => replaceTerminatorTarget edit.1 edit.2 kind) kind =
      replaceTerminatorTarget target (hop function target) kind := by
  rw [hop]
  cases forwardTarget function target with
  | some newTarget => rfl
  | none =>
    cases kind <;> simp only [map_none, toList_none, foldl_nil,
      getD_none, replaceTerminatorTarget, ite_eq_right_iff.mpr Eq.symm]

theorem filterMap_cons_toList (f : α → Option β) (x : α) (list : List α) :
    (x :: list).filterMap f = (f x).toList ++ list.filterMap f := by
  rw [filterMap_cons]
  cases f x <;> rfl

theorem forwardKind_eq :
    forwardKind function kind = (sortedTargets kind).foldl
      (fun kind target => replaceTerminatorTarget target (hop function target) kind) kind := by
  rw [forwardKind]
  generalize sortedTargets kind = targets
  induction targets generalizing kind with
  | nil => rfl
  | cons target targets ih =>
    rw [filterMap_cons_toList, foldl_append, foldl_forward_one, foldl_cons, ih]

theorem forwardKind_jump (target : BlockId) :
    forwardKind function (.jump target) = .jump (hop function target) := by
  simp [forwardKind_eq, sortedTargets, terminatorExplicitTargets, replaceTerminatorTarget]

theorem forwardKind_jumpIfFalse (condition : Operand) (target : BlockId) :
    forwardKind function (.jumpIfFalse condition target) = .jumpIfFalse condition (hop function target) := by
  simp [forwardKind_eq, sortedTargets, terminatorExplicitTargets, replaceTerminatorTarget]

theorem forwardKind_jumpIfTrue (condition : Operand) (target : BlockId) :
    forwardKind function (.jumpIfTrue condition target) = .jumpIfTrue condition (hop function target) := by
  simp [forwardKind_eq, sortedTargets, terminatorExplicitTargets, replaceTerminatorTarget]

/-- The second replacement can meet the result of the first one, so a target may hop twice. -/
theorem forwardKind_jumpIf (condition : Operand) (ifTrue ifFalse : BlockId) :
    ∃ ifTrue' ifFalse', forwardKind function (.jumpIf condition ifTrue ifFalse) =
        .jumpIf condition ifTrue' ifFalse' ∧
      (ifTrue' = hop function ifTrue ∨ ifTrue' = hop function (hop function ifTrue)) ∧
      (ifFalse' = hop function ifFalse ∨ ifFalse' = hop function (hop function ifFalse)) := by
  rw [forwardKind_eq, sortedTargets]
  simp only [terminatorExplicitTargets]
  split
  · next hlt =>
    refine ⟨_, _, rfl, ?_, ?_⟩
    · rw [if_pos rfl]
      exact replace_hop function ifFalse (hop function ifTrue)
    · rw [if_neg (Nat.ne_of_gt hlt), if_pos rfl]
      exact .inl rfl
  · split
    · next hlt =>
      refine ⟨_, _, rfl, ?_, ?_⟩
      · rw [if_neg (Nat.ne_of_gt hlt), if_pos rfl]
        exact .inl rfl
      · rw [if_pos rfl]
        exact replace_hop function ifTrue (hop function ifFalse)
    · next h h' =>
      obtain rfl : ifTrue = ifFalse := Nat.le_antisymm (Nat.not_lt.mp h') (Nat.not_lt.mp h)
      refine ⟨_, _, rfl, ?_, ?_⟩ <;> exact .inl (if_pos rfl)

inductive Retargeted : TerminatorKind → TerminatorKind → Prop where
  | jump : Retargeted (.jump target) (.jump target')
  | jumpIfFalse : Retargeted (.jumpIfFalse condition target) (.jumpIfFalse condition target')
  | jumpIfTrue : Retargeted (.jumpIfTrue condition target) (.jumpIfTrue condition target')
  | jumpIf : Retargeted (.jumpIf condition ifTrue ifFalse) (.jumpIf condition ifTrue' ifFalse')
  | return_ : Retargeted (.return_ value byRefLocal) (.return_ value byRefLocal)
  | exit : Retargeted (.exit value) (.exit value)

theorem Retargeted.refl : Retargeted kind kind := by
  cases kind <;> constructor

theorem forwardKind_retargeted : Retargeted kind (forwardKind function kind) := by
  cases kind with
  | jump target =>
    rw [forwardKind_jump]
    exact .jump
  | jumpIfFalse condition target =>
    rw [forwardKind_jumpIfFalse]
    exact .jumpIfFalse
  | jumpIfTrue condition target =>
    rw [forwardKind_jumpIfTrue]
    exact .jumpIfTrue
  | jumpIf condition ifTrue ifFalse =>
    obtain ⟨ifTrue', ifFalse', heq, -⟩ := forwardKind_jumpIf function condition ifTrue ifFalse
    rw [heq]
    exact .jumpIf
  | return_ value byRefLocal => exact .return_
  | exit value => exact .exit

end

theorem forwardBlock_cases (block : BasicBlock) :
    (forwardBlock function block).instructions = block.instructions ∧
      (blockHasExceptionBoundary block = true ∧ forwardBlock function block = block ∨
        blockHasExceptionBoundary block = false ∧
          (forwardBlock function block).terminator = block.terminator.map fun terminator =>
            { terminator with kind := forwardKind function terminator.kind }) := by
  rw [forwardBlock_eq]
  cases blockHasExceptionBoundary block with
  | true => exact ⟨rfl, .inl ⟨rfl, rfl⟩⟩
  | false => exact ⟨rfl, .inr ⟨rfl, rfl⟩⟩

theorem getElem?_forwardBlocks (index : BlockId) :
    (forwardBlocks function).blocks[index]? =
      function.blocks[index]?.map (forwardBlock function) := getElem?_map

theorem length_forwardBlocks :
    (forwardBlocks function).blocks.length = function.blocks.length := length_map _

theorem boundary_of_empty (h : block.instructions = []) : blockHasExceptionBoundary block = false := by
  rw [blockHasExceptionBoundary, h]
  rfl

theorem emptyJump_forwardBlock (block : BasicBlock) :
    emptyJump (forwardBlock function block) = (emptyJump block).map (hop function) := by
  obtain ⟨hinstructions, hcases⟩ := forwardBlock_cases function block
  cases hjump : emptyJump block with
  | some target =>
    obtain ⟨hempty, span, hterminator⟩ := emptyJump_eq_some_iff.mp hjump
    refine emptyJump_eq_some_iff.mpr ⟨hinstructions.trans hempty, span, ?_⟩
    rcases hcases with ⟨hboundary, -⟩ | ⟨-, hforward⟩
    · rw [boundary_of_empty hempty] at hboundary
      cases hboundary
    · rw [hforward, hterminator, map_some, forwardKind_jump]
  | none =>
    refine eq_none_iff_forall_ne_some.mpr fun target htarget => ?_
    obtain ⟨hempty, span, hterminator⟩ := emptyJump_eq_some_iff.mp htarget
    rcases hcases with ⟨-, hsame⟩ | ⟨-, hforward⟩
    · rw [hsame, hjump] at htarget
      cases htarget
    -- forwarding makes a jump of a jump only
    rw [hforward] at hterminator
    obtain ⟨terminator, hfinal, heq⟩ := map_eq_some_iff.mp hterminator
    have hretargeted := forwardKind_retargeted function terminator.kind
    rw [Terminator.mk.injEq] at heq
    rw [heq.2] at hretargeted
    obtain ⟨span', kind⟩ := terminator
    cases hretargeted
    rw [emptyJump_eq_some_iff.mpr ⟨hinstructions.symm.trans hempty, _, hfinal⟩] at hjump
    cases hjump

theorem hop_forwardBlocks (index : BlockId) :
    hop (forwardBlocks function) index = hop function (hop function index) := by
  rw [hop_eq, getElem?_forwardBlocks, bind_map]
  cases hjump : function.blocks[index]?.bind emptyJump with
  | none =>
    have hrest : hop function index = index := by rw [hop_eq, hjump]; rfl
    rw [hrest, hrest]
    cases hblock : function.blocks[index]? with
    | none => rfl
    | some block =>
      rw [hblock, bind_some] at hjump
      rw [bind_some, Function.comp_apply, emptyJump_forwardBlock, hjump]
      rfl
  | some target =>
    obtain ⟨block, hblock, hjump'⟩ := bind_eq_some_iff.mp hjump
    have hmove : hop function index = target := by rw [hop_eq, hjump]; rfl
    rw [hmove, hblock, bind_some, Function.comp_apply, emptyJump_forwardBlock, hjump']
    rfl

end
end Phrust.Optimizer
