import Phrust.Ir.ControlFlow
import Phrust.Theory.Shortcut
import Phrust.Verify.BranchTermination

/-!
# Branch simplification and control flow

Each kind of batch keeps what can be seen of a run: a constant branch takes the step it took before, a
forward is a shortcut, and a tail that no run enters can be cut. That the pass cuts such tails only is
not true: it does not follow exceptions into the blocks that it keeps.
-/

namespace Phrust.Optimizer
open Ir Relation Option Nat

/-! ## Equal steps -/

section
variable {constants : List IrConstant} {oracle : Oracle} {function function' : IrFunction}
variable (h : ∀ run, Reached constants oracle function run →
  step constants oracle function' run = step constants oracle function run)
include h

theorem reached_congr : Reached constants oracle function' run ↔ Reached constants oracle function run := by
  constructor
  · intro hrun
    induction hrun with
    | refl => exact .refl
    | tail _ hstep ih => exact ih.tail ((h _ ih).symm.trans hstep)
  · intro hrun
    induction hrun with
    | refl => exact .refl
    | tail hrun hstep ih => exact ih.tail ((h _ hrun).trans hstep)

theorem observed_congr : Observed constants oracle function' visited ending ↔
      Observed constants oracle function visited ending := by
  constructor
  · rintro (hrun | ⟨hrun, hended⟩)
    · exact .running ((reached_congr h).mp hrun)
    · have hrun := (reached_congr h).mp hrun
      exact .ended hrun ((h _ hrun).symm.trans hended)
  · rintro (hrun | ⟨hrun, hended⟩)
    · exact .running ((reached_congr h).mpr hrun)
    · exact .ended ((reached_congr h).mpr hrun) ((h _ hrun).trans hended)

end

/-- A transformed function shows the same runs and enters no block that was removed. -/
structure Preserves (constants : List IrConstant) (function function' : IrFunction) : Prop where
  observed : ∀ oracle visited ending, Observed constants oracle function' visited ending ↔
    Observed constants oracle function visited ending
  reached : ∀ oracle run, Reached constants oracle function' run → Reached constants oracle function run
  kept : ∀ oracle run, Reached constants oracle function' run →
    run.block < function.blocks.length → run.block < function'.blocks.length

namespace Preserves
variable {constants : List IrConstant} {function function' function'' : IrFunction}

theorem refl (constants : List IrConstant) (function : IrFunction) : Preserves constants function function :=
  ⟨fun _ _ _ => Iff.rfl, fun _ _ h => h, fun _ _ _ h => h⟩

theorem trans (h : Preserves constants function function')
    (h' : Preserves constants function' function'') : Preserves constants function function'' where
  observed oracle visited ending := (h'.observed oracle visited ending).trans
    (h.observed oracle visited ending)
  reached oracle run hrun := h.reached oracle run (h'.reached oracle run hrun)
  kept oracle run hrun hlt :=
    h'.kept oracle run hrun (h.kept oracle run (h'.reached oracle run hrun) hlt)

theorem of_steps (hsteps : ∀ oracle run, Reached constants oracle function run →
      step constants oracle function' run = step constants oracle function run)
    (hkept : ∀ oracle run, Reached constants oracle function run →
      run.block < function.blocks.length → run.block < function'.blocks.length) :
    Preserves constants function function' where
  observed oracle _ _ := observed_congr (hsteps oracle)
  reached oracle _ hrun := (reached_congr (hsteps oracle)).mp hrun
  kept oracle run hrun := hkept oracle run ((reached_congr (hsteps oracle)).mp hrun)

end Preserves

/-! ## Constant branches -/

theorem blockRegisterBoolConstant_eq
    (h : ∀ instruction ∈ block.instructions, instruction.kind ≠ .foreachCleanup register) :
    blockRegisterBoolConstant block register = registerConstant register block.instructions := by
  rw [blockRegisterBoolConstant]
  generalize block.instructions = instructions at h ⊢
  induction instructions using List.reverseRecOn with
  | nil => rfl
  | append_singleton instructions instruction ih =>
    have ih := ih fun other hother => h other (List.mem_append_left _ hother)
    have hwritten := mem_definedRegisters_iff
      (h instruction (List.mem_append_right _ (List.mem_singleton_self _)))
    rw [registerConstant] at ih ⊢
    rw [List.reverse_append, List.foldl_append, List.reverse_singleton, List.singleton_append,
      List.foldl_cons, List.foldl_nil, blockRegisterBoolConstant.go.eq_def]
    simp only [ih]
    split
    · simp_all only
    · simp [hwritten]

/-- No `ForeachCleanup` in a block names the register of its condition. -/
def CleanCondition (block : BasicBlock) : Prop :=
  ∀ terminator, block.terminator = some terminator →
    ∀ register ∈ terminatorRegisterUses terminator.kind,
      ∀ instruction ∈ block.instructions, instruction.kind ≠ .foreachCleanup register

theorem conditionBoolValue_eq (h : ∀ register ∈ operandRegisterUses condition,
      ∀ instruction ∈ block.instructions, instruction.kind ≠ .foreachCleanup register) :
    conditionBoolValue block condition constants = knownCondition constants block condition := by
  cases condition with
  | register register =>
    simp only [conditionBoolValue, blockRegisterBoolConstant_eq (h register (List.mem_singleton_self _))]
    rfl
  | local_ | constant => rfl

theorem nextBlock_eq_some (h : nextBlock function index = some target) : target = index + 1 := by
  rw [nextBlock] at h
  split at h
  · exact (Option.some.inj h).symm
  · cases h

section
variable {constants : List IrConstant} {oracle : Oracle} {function : IrFunction} {block : BasicBlock}

/-- A constant branch goes where it would have gone. -/
theorem follow_eq_of_constantBranchTarget (hterminator : block.terminator = some terminator)
    (hclean : CleanCondition block)
    (h : constantBranchTarget function run.block block terminator.kind constants = some target) :
    follow constants oracle block run = .on (run.goto target) := by
  obtain ⟨span, kind⟩ := terminator
  have hclean := hclean _ hterminator
  rw [follow.eq_def, hterminator]
  cases kind with
  | jump | return_ | exit => cases h
  | jumpIfFalse condition other | jumpIfTrue condition other =>
    simp only [constantBranchTarget, conditionBoolValue_eq hclean] at h
    obtain ⟨value, hvalue, htarget⟩ := bind_eq_some_iff.mp h
    simp only [branch, hvalue]
    cases value with
    | false | true =>
      first
        | rw [nextBlock_eq_some htarget]
        | rw [← Option.some.inj htarget]
      rfl
  | jumpIf condition ifTrue ifFalse =>
    simp only [constantBranchTarget, conditionBoolValue_eq hclean] at h
    obtain ⟨value, hvalue, htarget⟩ := map_eq_some_iff.mp h
    simp [branch, hvalue, htarget]

/-- Only its terminator sets a block apart from one with the same instructions. -/
theorem stepBlock_rel (rel : Progress → Progress → Prop) (hrefl : ∀ progress, rel progress progress)
    (hinstructions : block'.instructions = block.instructions)
    (hdivertible : divertible block' = divertible block) (hfollow : ∀ next, next.block = run.block →
      rel (follow constants oracle block next) (follow constants oracle block' next)) :
    rel (stepBlock constants oracle block run) (stepBlock constants oracle block' run) := by
  have henter : enter block' run = enter block run := by
    rw [enter, enter, BasicBlock.exceptionTargets, BasicBlock.exceptionTargets, hinstructions]
  have hblock : (enter block run).block = run.block := by
    rw [enter]
    split <;> rfl
  simp only [stepBlock, hdivertible, henter]
  split
  · split
    · exact hfollow _ hblock
    · split
      · exact hrefl _
      · exact hfollow _ hblock
    · exact hrefl _
  · exact hfollow _ hblock

theorem stepBlock_settleBlock (hclean : blockConstantTarget constants function run.block block ≠ none →
      CleanCondition block) :
    stepBlock constants oracle (settleBlock constants function run.block block) run =
      stepBlock constants oracle block run := by
  rw [settleBlock]
  cases htarget : blockConstantTarget constants function run.block block with
  | none => rfl
  | some target =>
    have hclean := hclean (htarget ▸ some_ne_none target)
    rw [blockConstantTarget] at htarget
    split at htarget
    · cases htarget
    obtain ⟨terminator, hterminator, htarget⟩ := bind_eq_some_iff.mp htarget
    refine stepBlock_rel (fun progress progress' => progress' = progress) (fun _ => rfl) rfl ?_
      fun next hblock => ?_
    · obtain ⟨span, kind⟩ := terminator
      simp only [divertible, setTerminator, hterminator]
      cases kind with
      | jump | jumpIfFalse | jumpIfTrue | jumpIf => rfl
      | return_ | exit => cases htarget
    · rw [follow_eq_of_constantBranchTarget hterminator hclean (hblock ▸ htarget), follow.eq_def]
      simp [setTerminator, hterminator]

theorem preserves_settleBranches (hclean : ∀ i block, function.blocks[i]? = some block →
      blockConstantTarget constants function i block ≠ none → CleanCondition block) :
    Preserves constants function (settleBranches constants function) := by
  refine .of_steps (fun oracle run _ => ?_) fun _ _ _ hlt => ?_
  · rw [step, step, getElem?_settleBranches]
    cases hblock : function.blocks[run.block]? with
    | none => rfl
    | some block => exact stepBlock_settleBlock (hclean _ _ hblock)
  · rw [length_settleBranches]
    exact hlt

end

/-! ## Forwards -/

section
variable {constants : List IrConstant} {oracle : Oracle} {function : IrFunction}

/-- One silent step through an empty block that jumps. -/
def Run.hop (function : IrFunction) (run : Run) : Run := run.goto (Optimizer.hop function run.block)

theorem iterate_hop (function : IrFunction) (run : Run) (k : Nat) :
    (Run.hop function)^[k] run = run.goto ((Optimizer.hop function)^[k] run.block) := by
  induction k generalizing run with
  | zero => rfl
  | succ k ih => exact ih _

/-- A block that hops does nothing else. -/
theorem step_of_emptyJump (h : function.blocks[run.block]?.bind emptyJump = some target) :
    step constants oracle function run = .on (run.goto target) := by
  obtain ⟨block, hblock, hjump⟩ := bind_eq_some_iff.mp h
  obtain ⟨hempty, span, hterminator⟩ := emptyJump_eq_some_iff.mp hjump
  obtain ⟨id, instructions, terminator⟩ := block
  cases hempty
  cases hterminator
  rw [step, hblock]
  rfl

theorem emptyJump_of_hop_ne (h : hop function index ≠ index) :
    function.blocks[index]?.bind emptyJump = some (hop function index) := by
  rw [hop_eq] at h ⊢
  cases hjump : function.blocks[index]?.bind emptyJump with
  | none => exact absurd (by rw [hjump]; rfl) h
  | some target => rfl

/-- Where a step goes on, the step with forwards goes on some hops ahead; where it does not, the step
with forwards does the same. -/
inductive Ahead (function : IrFunction) : Progress → Progress → Prop where
  | on (k : Nat) : Ahead function (.on run) (.on ((Run.hop function)^[k] run))
  | ended : Ahead function (.ended visited ending) (.ended visited ending)
  | stuck : Ahead function .stuck .stuck

theorem Ahead.ended_iff (h : Ahead function old new) :
    new = .ended visited ending ↔ old = .ended visited ending := by
  cases h <;> simp

theorem Ahead.goto (run : Run) (target : BlockId) (k : Nat) :
    Ahead function (.on (run.goto target)) (.on (run.goto ((hop function)^[k] target))) :=
  (iterate_hop function (run.goto target) k) ▸ .on k

theorem Ahead.refl (function : IrFunction) (progress : Progress) : Ahead function progress progress := by
  cases progress with
  | on run => exact .on 0
  | ended => exact .ended
  | stuck => exact .stuck

theorem branch_ahead (hinstructions : block'.instructions = block.instructions)
    (htrue : ∃ k, ifTrue' = (hop function)^[k] ifTrue) (hfalse : ∃ k, ifFalse' = (hop function)^[k] ifFalse) :
    Ahead function (.on (branch constants oracle block condition ifTrue ifFalse run))
      (.on (branch constants oracle block' condition ifTrue' ifFalse' run)) := by
  have hknown : knownCondition constants block' condition = knownCondition constants block condition := by
    cases condition <;> simp only [knownCondition, hinstructions]
  obtain ⟨k, rfl⟩ := htrue
  obtain ⟨j, rfl⟩ := hfalse
  simp only [branch, hknown]
  cases knownCondition constants block condition with
  | some value =>
    cases value
    · exact .goto run ifFalse j
    · exact .goto run ifTrue k
  | none =>
    cases oracle.decides run.queries
    · exact .goto run.asked ifFalse j
    · exact .goto run.asked ifTrue k

theorem follow_ahead (block : BasicBlock) (run : Run) : Ahead function (follow constants oracle block run)
      (follow constants oracle (setTerminator (forwardKind function) block) run) := by
  obtain ⟨id, instructions, _ | ⟨span, kind⟩⟩ := block
  · exact .stuck
  change Ahead function _ (follow constants oracle
    ⟨id, instructions, some ⟨span, forwardKind function kind⟩⟩ run)
  cases kind with
  | jump target =>
    rw [forwardKind_jump]
    exact .goto run target 1
  | jumpIfFalse condition target =>
    rw [forwardKind_jumpIfFalse]
    exact branch_ahead rfl ⟨0, rfl⟩ ⟨1, rfl⟩
  | jumpIfTrue condition target =>
    rw [forwardKind_jumpIfTrue]
    exact branch_ahead rfl ⟨1, rfl⟩ ⟨0, rfl⟩
  | jumpIf condition ifTrue ifFalse =>
    obtain ⟨ifTrue', ifFalse', heq, htrue, hfalse⟩ :=
      forwardKind_jumpIf function condition ifTrue ifFalse
    rw [heq]
    exact branch_ahead rfl (htrue.elim (⟨1, ·⟩) (⟨2, ·⟩)) (hfalse.elim (⟨1, ·⟩) (⟨2, ·⟩))
  | return_ | exit => exact .ended

theorem divertible_retargeted (h : Retargeted kind kind') :
    divertible ⟨index, instructions, some ⟨span, kind'⟩⟩ =
      divertible ⟨index, instructions, some ⟨span, kind⟩⟩ := by
  cases h <;> rfl

theorem stepBlock_ahead (block : BasicBlock) (run : Run) :
    Ahead function (stepBlock constants oracle block run)
      (stepBlock constants oracle (setTerminator (forwardKind function) block) run) := by
  refine stepBlock_rel (Ahead function) (.refl function) rfl ?_ fun next _ => follow_ahead block next
  obtain ⟨id, instructions, _ | ⟨span, kind⟩⟩ := block
  · rfl
  · exact divertible_retargeted (forwardKind_retargeted function kind)

theorem step_ahead (constants : List IrConstant) (oracle : Oracle) (function : IrFunction) (run : Run) :
    Ahead function (step constants oracle function run)
      (step constants oracle (forwardBlocks function) run) := by
  rw [step, step, getElem?_forwardBlocks]
  cases function.blocks[run.block]? with
  | none => exact .stuck
  | some block =>
    simp only [map_some, forwardBlock_eq]
    by_cases hboundary : blockHasExceptionBoundary block = true
    · rw [if_pos hboundary]
      exact .refl function _
    · rw [if_neg hboundary]
      exact stepBlock_ahead block run

theorem preserves_forwardBlocks (constants : List IrConstant) (function : IrFunction) :
    Preserves constants function (forwardBlocks function) := by
  have hreached (oracle : Oracle) (run : Run)
      (hrun : Reached constants oracle (forwardBlocks function) run) :
      Reached constants oracle function run := by
    refine shortcut_behind (Run.hop function) (fun run => ?_) (fun run next hstep => ?_) hrun
    · -- a hop is a step
      by_cases hfixed : Optimizer.hop function run.block = run.block
      · rw [Run.hop, hfixed]
        exact .refl
      · exact .single (step_of_emptyJump (emptyJump_of_hop_ne hfixed))
    · have hahead := step_ahead constants oracle function run
      rw [hstep] at hahead
      generalize step constants oracle function run = old at hahead ⊢
      cases hahead with
      | on k => exact ⟨_, k, rfl, rfl⟩
  have hahead (oracle : Oracle) (run : Run) (hrun : Reached constants oracle function run) :
      ∃ k, Reached constants oracle (forwardBlocks function) ((Run.hop function)^[k] run) := by
    refine shortcut_ahead (Run.hop function) (fun run next hmoves hstep => ?_) (fun run next hstep => ?_) hrun
    · have hmoves : Optimizer.hop function run.block ≠ run.block := fun hfixed =>
        hmoves (by rw [Run.hop, hfixed]; rfl)
      rw [step_of_emptyJump (emptyJump_of_hop_ne hmoves)] at hstep
      exact (Progress.on.inj hstep).symm
    · have hahead := step_ahead constants oracle function run
      rw [hstep] at hahead
      generalize step constants oracle (forwardBlocks function) run = new at hahead ⊢
      cases hahead with
      | on k => exact ⟨k, rfl⟩
  refine ⟨fun oracle visited ending => ⟨fun h => ?_, fun h => ?_⟩, hreached, fun _ _ _ hlt => ?_⟩
  · cases h with
    | running hrun => exact .running (hreached oracle _ hrun)
    | @ended run _ _ hrun hended =>
      exact .ended (hreached oracle _ hrun)
        ((step_ahead constants oracle function run).ended_iff.mp hended)
  · cases h with
    | @running run hrun =>
      obtain ⟨k, hk⟩ := hahead oracle _ hrun
      rw [iterate_hop] at hk
      have hvisited : run.visited = (run.goto ((Optimizer.hop function)^[k] run.block)).visited := rfl
      rw [hvisited]
      exact .running hk
    | @ended run _ _ hrun hended =>
      obtain ⟨k, hk⟩ := hahead oracle _ hrun
      -- a block that ends the run does not hop
      have hfixed : Optimizer.hop function run.block = run.block := by
        by_contra hmoves
        rw [step_of_emptyJump (emptyJump_of_hop_ne hmoves)] at hended
        cases hended
      rw [Function.iterate_fixed (by rw [Run.hop, hfixed]; rfl)] at hk
      exact .ended hk ((step_ahead constants oracle function run).ended_iff.mpr hended)
  · rw [length_forwardBlocks]
    exact hlt

end

/-! ## Tails -/

section
variable {constants : List IrConstant} {oracle : Oracle} {function : IrFunction}

theorem length_blockSuccessors (function : IrFunction) (index : BlockId) :
    (blockSuccessors function index).length ≤ 2 := by
  rw [blockSuccessors.eq_def]
  split
  · exact zero_le 2
  split
  · exact le_succ 1
  · rw [nextBlock]
    split <;> simp
  · rw [nextBlock]
    split <;> simp
  · exact le_rfl
  · exact zero_le 2
  · exact zero_le 2

/-- The search marks the first block and all that the graph leads to. -/
theorem cfgReachable_closed (function : IrFunction) (hblocks : function.blocks ≠ []) :
    0 ∈ cfgReachable function ∧ ∀ index ∈ cfgReachable function,
      ∀ target ∈ blockSuccessors function index, target < function.blocks.length →
        target ∈ cfgReachable function := by
  obtain ⟨result, hresult, hstart, -, hclosed⟩ := search_below (blockSuccessors function) 2
    function.blocks.length (List.length_pos_iff.mpr hblocks) (length_blockSuccessors function)
  rw [cfgReachable, if_neg (by simpa using hblocks), hresult]
  exact ⟨hstart, hclosed⟩

theorem le_foldl_max (list : List Nat) (first : Nat) :
    first ≤ list.foldl max first ∧ ∀ x ∈ list, x ≤ list.foldl max first := by
  induction list generalizing first with
  | nil => exact ⟨le_rfl, nofun⟩
  | cons head list ih =>
    obtain ⟨hfirst, hlist⟩ := ih (max first head)
    refine ⟨(le_max_left first head).trans hfirst, fun x hx => ?_⟩
    rcases List.mem_cons.mp hx with rfl | hx
    · exact (le_max_right first x).trans hfirst
    · exact hlist x hx

/-- What the pass checks of a tail before it cuts it. -/
theorem unreachableEmptyTail_eq_some (h : unreachableEmptyTail function = some newLen) :
    newLen < function.blocks.length ∧ (∀ index ∈ cfgReachable function, index < newLen) ∧
      ∀ index block, index < newLen → function.blocks[index]? = some block →
        ∀ target ∈ block.exceptionTargets, target < newLen := by
  simp only [unreachableEmptyTail] at h
  split at h
  · cases h
  next hlt =>
  split at h
  · cases h
  next hreference =>
  split at h
  · cases h
    refine ⟨not_le.mp hlt, fun index hindex => ?_, fun index block hlt hblock target htarget => ?_⟩
    · exact lt_succ_of_le ((le_foldl_max _ 0).2 index hindex)
    obtain ⟨instruction, hinstruction, htarget⟩ := List.mem_flatMap.mp htarget
    by_contra hge
    refine hreference (List.any_eq_true.mpr ⟨instruction, List.mem_flatMap.mpr ⟨block, ?_,
      hinstruction⟩, List.any_eq_true.mpr ⟨target, ?_, by simpa using hge⟩⟩)
    · refine List.mem_of_getElem? (i := index) ?_
      rw [List.getElem?_take, if_pos hlt, hblock]
    · exact htarget
  · cases h

/-- No block that only exceptions lead to goes on into the part that is cut. -/
def TailSafe (constants : List IrConstant) (function : IrFunction) (newLen : Nat) : Prop :=
  ∀ index block, Enterable constants function index → index < newLen →
    index ∉ cfgReachable function → function.blocks[index]? = some block →
      ∀ target ∈ branchTargets constants index block, target < function.blocks.length → target < newLen

theorem mem_chosenTargets (h : target ∈ chosenTargets constants block condition ifTrue ifFalse) :
    target = ifTrue ∨ target = ifFalse := by
  rw [chosenTargets] at h
  split at h
  · rw [List.mem_singleton.mp h]
    split
    · exact .inl rfl
    · exact .inr rfl
  · simpa using h

/-- The pass counts every edge but those of exceptions. -/
theorem mem_blockSuccessors (hblock : function.blocks[index]? = some block)
    (h : target ∈ branchTargets constants index block) (hlt : target < function.blocks.length) :
    target ∈ blockSuccessors function index := by
  have hnext : target = index + 1 → target ∈ (nextBlock function index).toList := by
    rintro rfl
    rw [nextBlock, if_pos hlt]
    exact List.mem_singleton_self _
  rw [blockSuccessors.eq_def, hblock, bind_some]
  obtain ⟨index', instructions, _ | ⟨span, kind⟩⟩ := block
  · cases h
  cases kind with
  | jump => exact h
  | jumpIfFalse condition other =>
    exact (mem_chosenTargets h).elim (fun h => List.mem_cons_of_mem _ (hnext h))
      fun h => h ▸ List.mem_cons_self
  | jumpIfTrue condition other =>
    exact (mem_chosenTargets h).elim (fun h => h ▸ List.mem_cons_self)
      fun h => List.mem_cons_of_mem _ (hnext h)
  | jumpIf condition ifTrue ifFalse => simpa using mem_chosenTargets h
  | return_ | exit => cases h

theorem enterable_kept (htail : unreachableEmptyTail function = some newLen)
    (hsafe : TailSafe constants function newLen) (h : Enterable constants function index)
    (hlt : index < function.blocks.length) : index < newLen := by
  obtain ⟨hlen, hreachable, hexceptions⟩ := unreachableEmptyTail_eq_some htail
  obtain ⟨hstart, hclosed⟩ := cfgReachable_closed function (by
    rintro hnil
    rw [hnil] at hlt
    cases hlt)
  induction h with
  | refl => exact hreachable 0 hstart
  | @tail index target henterable hedge ih =>
    rw [edges] at hedge
    split at hedge
    · next block hblock =>
      have hkept := ih (List.getElem?_eq_some_iff.mp hblock).1
      rcases List.mem_append.mp hedge with hbranch | hexception
      · by_cases hindex : index ∈ cfgReachable function
        · exact hreachable target (hclosed index hindex target (mem_blockSuccessors hblock hbranch hlt) hlt)
        · exact hsafe index block henterable hkept hindex hblock target hbranch hlt
      · exact hexceptions index block hkept hblock target hexception
    · cases hedge

theorem branch_mem_chosenTargets :
    (branch constants oracle block condition ifTrue ifFalse run).block ∈
        chosenTargets constants block condition ifTrue ifFalse ∧
      (branch constants oracle block condition ifTrue ifFalse run).handlers = run.handlers := by
  rw [branch, chosenTargets]
  split
  · exact ⟨List.mem_singleton_self _, rfl⟩
  refine ⟨?_, rfl⟩
  simp only [Run.goto, List.mem_cons, List.not_mem_nil, or_false]
  split
  · exact .inl rfl
  · exact .inr rfl

theorem follow_eq_on (h : follow constants oracle block run = .on next) :
    next.block ∈ branchTargets constants run.block block ∧ next.handlers = run.handlers := by
  rw [branchTargets.eq_def]
  obtain ⟨index', instructions, _ | ⟨span, kind⟩⟩ := block
  · cases h
  cases kind with
  | jump =>
    cases h
    exact ⟨List.mem_singleton_self _, rfl⟩
  | jumpIfFalse | jumpIfTrue | jumpIf =>
    cases h
    exact branch_mem_chosenTargets
  | return_ | exit => cases h

theorem stepBlock_eq_on (h : stepBlock constants oracle block run = .on next) :
    (next.block ∈ branchTargets constants run.block block ∨ next.block ∈ (enter block run).handlers) ∧
      next.handlers = (enter block run).handlers := by
  have hblock : (enter block run).block = run.block := by
    rw [enter]
    split <;> rfl
  have hfollow (run' : Run) (hrun' : run'.block = run.block)
      (hhandlers : run'.handlers = (enter block run).handlers)
      (h : follow constants oracle block run' = .on next) :
      (next.block ∈ branchTargets constants run.block block ∨
        next.block ∈ (enter block run).handlers) ∧ next.handlers = (enter block run).handlers := by
    obtain ⟨htarget, hsame⟩ := follow_eq_on h
    exact ⟨.inl (hrun' ▸ htarget), hsame.trans hhandlers⟩
  simp only [stepBlock] at h
  split at h
  · split at h
    · exact hfollow (enter block run).asked hblock rfl h
    · split at h
      · next hhandler =>
        cases h
        exact ⟨.inr hhandler, rfl⟩
      · exact hfollow (enter block run).asked hblock rfl h
    · cases h
  · exact hfollow (enter block run) hblock rfl h

/-- A run goes along edges only, and so do the exceptions that it can meet. -/
theorem reached_enterable (h : Reached constants oracle function run) :
    Enterable constants function run.block ∧
      ∀ handler ∈ run.handlers, Enterable constants function handler := by
  induction h with
  | refl => exact ⟨.refl, nofun⟩
  | @tail run next _ hstep ih =>
    obtain ⟨henterable, hhandlers⟩ := ih
    rw [step] at hstep
    split at hstep
    · next block hblock =>
      have hedges : edges constants function run.block =
          branchTargets constants run.block block ++ block.exceptionTargets := by
        rw [edges, hblock]
      have hentered : ∀ handler ∈ (enter block run).handlers,
          Enterable constants function handler := by
        intro handler hhandler
        rw [enter] at hhandler
        split at hhandler
        · exact hhandlers handler hhandler
        · rcases List.mem_append.mp hhandler with hhandler | hhandler
          · exact hhandlers handler hhandler
          · exact henterable.step (hedges ▸ List.mem_append_right _ hhandler)
      obtain ⟨hnext, hsame⟩ := stepBlock_eq_on hstep
      refine ⟨?_, hsame ▸ hentered⟩
      rcases hnext with hbranch | hhandler
      · exact henterable.step (hedges ▸ List.mem_append_left _ hbranch)
      · exact hentered _ hhandler
    · cases hstep

theorem preserves_cutTail (hsafe : ∀ newLen, unreachableEmptyTail function = some newLen →
      TailSafe constants function newLen) : Preserves constants function (cutTail function) := by
  obtain ⟨hsame, -⟩ | ⟨newLen, -, htail, hcut⟩ := cutTail_cases function
  · rw [hsame]
    exact .refl constants function
  have hkept {oracle : Oracle} {run : Run} (hrun : Reached constants oracle function run) :
      run.block < function.blocks.length → run.block < newLen :=
    enterable_kept htail (hsafe newLen htail) (reached_enterable hrun).1
  rw [hcut]
  refine .of_steps (fun oracle run hrun => ?_) fun oracle run hrun hlt => ?_
  · rw [step, step, List.getElem?_take]
    by_cases hlt : run.block < newLen
    · rw [if_pos hlt]
    · rw [if_neg hlt, List.getElem?_eq_none (not_lt.mp fun h => hlt (hkept hrun h))]
  · rw [List.length_take]
    exact Nat.lt_min.mpr ⟨hkept hrun hlt, hlt⟩

end

/-! ## Batches -/

/-- A batch does not touch what a run can notice. -/
def SafeBatch (unit : IrUnit) : Prop :=
  if constantBranches unit ≠ [] then
    ∀ function ∈ unit.functions, ∀ i block, function.blocks[i]? = some block →
      blockConstantTarget unit.constants function i block ≠ none → CleanCondition block
  else if emptyBlockForwards unit ≠ [] then True
  else ∀ function ∈ unit.functions, ∀ newLen, unreachableEmptyTail function = some newLen →
    TailSafe unit.constants function newLen

/-- Batches that are safe, one after the other. -/
inductive SafeBatches : IrUnit → IrUnit → Prop where
  | refl : SafeBatches unit unit
  | head (hsafe : SafeBatch unit) (hbatch : branchBatch unit = some next)
    (h : SafeBatches next final) : SafeBatches unit final

theorem preserves_branchBatch (hsafe : SafeBatch unit) (hbatch : branchBatch unit = some next) :
    ∃ update, next = withFunctions unit update ∧
      ∀ function ∈ unit.functions, Preserves unit.constants function (update function) := by
  rw [branchBatch_eq] at hbatch
  rw [SafeBatch] at hsafe
  split at hbatch
  · next hconstant =>
    rw [if_pos hconstant] at hsafe
    cases hbatch
    exact ⟨_, rfl, fun function hfunction => preserves_settleBranches (hsafe function hfunction)⟩
  · next hconstant =>
    rw [if_neg hconstant] at hsafe
    split at hbatch
    · cases hbatch
      exact ⟨_, rfl, fun function _ => preserves_forwardBlocks unit.constants function⟩
    · next hforward =>
      rw [if_neg hforward] at hsafe
      split at hbatch
      · cases hbatch
        exact ⟨_, rfl, fun function hfunction => preserves_cutTail (hsafe function hfunction)⟩
      · cases hbatch

/-- In every sequence of safe batches, each function keeps its runs. -/
theorem branchBatches_preserve (h : SafeBatches unit final) : final.constants = unit.constants ∧
      List.Forall₂ (Preserves unit.constants) unit.functions final.functions := by
  induction h with
  | @refl unit => exact ⟨rfl, List.forall₂_same.mpr fun function _ => .refl unit.constants function⟩
  | @head unit next final hsafe hbatch _ ih =>
    obtain ⟨update, rfl, hupdate⟩ := preserves_branchBatch hsafe hbatch
    obtain ⟨hconstants, hfunctions⟩ := ih
    rw [withFunctions, List.forall₂_map_left_iff] at hfunctions
    exact ⟨hconstants, ((List.forall₂_and_left _ _).mpr ⟨hupdate, hfunctions⟩).imp fun _ _ h => h.1.trans h.2⟩

/-- `try { g(); } catch (E $e) { h(); } if (true) {} else {}`: block 2 is the handler. The branch is settled, the
jump of the handler is forwarded, and the `else` is cut. -/
def branchAfterTry : IrUnit :=
  let block (id : BlockId) (kinds : List InstructionKind) (kind : TerminatorKind) : BasicBlock :=
    ⟨id, kinds.zipIdx.map fun p => ⟨p.2, ⟨0, 0, 0⟩, p.1⟩, some ⟨⟨0, 0, 0⟩, kind⟩⟩
  unitOf [.bool true] 0 [block 0 [.enterTry (some 2) [] none 3 none] (.jump 1), block 1 [.leaveTry] (.jump 3),
    block 2 [.nop] (.jump 3), block 3 [] (.jumpIf (.constant 0) 4 5), block 4 [] (.return_ none none),
    block 5 [] (.jump 4)]

theorem branchBatches_preserve_try : ∃ final, SafeBatches branchAfterTry final ∧ branchBatch final = none ∧
    final.functions.map (·.blocks.length) = [5] ∧ final.constants = branchAfterTry.constants ∧
    List.Forall₂ (Preserves branchAfterTry.constants) branchAfterTry.functions final.functions := by
  let settled := withFunctions branchAfterTry (settleBranches branchAfterTry.constants)
  let forwarded := withFunctions settled forwardBlocks
  have hsettled : branchBatch branchAfterTry = some settled := by
    rw [branchBatch_eq, if_pos (by decide)]
  have hforwarded : branchBatch settled = some forwarded := by
    rw [branchBatch_eq, if_neg (by decide), if_pos (by decide)]
  have hcut : branchBatch forwarded = some (withFunctions forwarded cutTail) := by
    rw [branchBatch_eq, if_neg (by decide), if_neg (by decide), if_pos (by decide)]
  have hsafe : SafeBatch branchAfterTry := by
    rw [SafeBatch, if_pos (by decide)]
    have huses : ∀ function ∈ branchAfterTry.functions, ∀ block ∈ function.blocks, ∀ terminator ∈ block.terminator,
        terminatorRegisterUses terminator.kind = [] := by decide
    intro function hfunction i block hblock _ terminator hterminator register hregister
    rw [huses function hfunction block (List.mem_of_getElem? hblock) terminator hterminator] at hregister
    cases hregister
  have htail : SafeBatch forwarded := by
    rw [SafeBatch, if_neg (by decide), if_neg (by decide)]
    have htargets : ∀ function ∈ forwarded.functions, ∀ newLen ∈ unreachableEmptyTail function, ∀ index < newLen,
        ∀ block ∈ function.blocks[index]?, ∀ target ∈ branchTargets forwarded.constants index block, target < newLen := by
      decide
    intro function hfunction newLen hlen index block _ hlt _ hblock target htarget _
    exact htargets function hfunction newLen hlen index hlt block hblock target htarget
  have h : SafeBatches branchAfterTry _ :=
    .head hsafe hsettled (.head (by rw [SafeBatch, if_neg (by decide), if_pos (by decide)]; trivial) hforwarded
      (.head htail hcut .refl))
  refine ⟨_, h, ?_, by decide, branchBatches_preserve h⟩
  rw [branchBatch_eq, if_neg (by decide), if_neg (by decide), if_neg (by decide)]

/-- `try { g(); } catch (E $e) { if ($x) { return; } }` when its empty blocks are forwarded: block 2 is
the handler, block 3 what follows the statement and block 4 the `return`. -/
def returnInCatch : IrUnit :=
  let block (id : BlockId) (kinds : List InstructionKind) (kind : TerminatorKind) : BasicBlock :=
    ⟨id, kinds.zipIdx.map fun p => ⟨p.2, ⟨0, 0, 0⟩, p.1⟩, some ⟨⟨0, 0, 0⟩, kind⟩⟩
  unitOf [] 0 [block 0 [.enterTry (some 2) [] none 3 none] (.jump 1), block 1 [.leaveTry] (.jump 3),
    block 2 [.nop] (.jumpIf (.local_ 0) 4 3), block 3 [] (.return_ none none),
    block 4 [] (.return_ none none)]

/-- The exception is caught and `$x` is true: the handler goes on to the block that was cut. -/
theorem returnInCatch_leaves : ∃ oracle, Reached returnInCatch.constants oracle
    (cutTail (returnInCatch.functions.head (by decide))) ⟨4, [3, 2], [0, 1, 2], 4⟩ := by
  refine ⟨⟨fun n => if n = 1 then .caught 2 else .completes, fun _ => true⟩, ?_⟩
  refine .head (b := ⟨1, [3, 2], [0], 1⟩) (by decide) ?_
  exact .head (b := ⟨2, [3, 2], [0, 1], 2⟩) (by decide) (.single (by decide))

theorem not_branchBatches_preserve : ∃ unit final, Verified unit ∧ branchBatch unit = some final ∧
    ¬List.Forall₂ (Preserves unit.constants) unit.functions final.functions := by
  refine ⟨returnInCatch, withFunctions returnInCatch cutTail, by decide +kernel, ?_, fun h => ?_⟩
  · rw [branchBatch_eq, if_neg (by decide), if_neg (by decide), if_pos (by decide)]
  · obtain ⟨hpreserves, -⟩ := List.forall₂_cons.mp h
    obtain ⟨oracle, hreached⟩ := returnInCatch_leaves
    exact absurd (hpreserves.kept oracle _ hreached (by decide)) (by decide)

end Phrust.Optimizer
