import Mathlib.Algebra.Order.BigOperators.Group.List
import Mathlib.Dynamics.PeriodicPts.Lemmas
import Phrust.Theory.RepeatedSquaring
import Phrust.Verify.BranchBatches

/-!
# When branch simplification ends

A batch of forwards squares the map that takes an empty block to the target of its jump. So the loop
ends exactly when the cycles of empty blocks have powers of two as their lengths.
-/

namespace Phrust.Optimizer
open Ir Function Option Nat List

def Terminates (unit : IrUnit) : Prop := ∃ fuel, (branchSimplify fuel unit).isSome = true

theorem terminates_of_batch_none (h : branchBatch unit = none) : Terminates unit := by
  refine ⟨1, ?_⟩
  rw [branchSimplify, h]
  rfl

theorem terminates_iff_of_batch {next : IrUnit} (h : branchBatch unit = some next) : Terminates unit ↔ Terminates next := by
  constructor
  · rintro ⟨fuel, hfuel⟩
    cases fuel with
    | zero => cases hfuel
    | succ fuel =>
      rw [branchSimplify, h] at hfuel
      exact ⟨fuel, hfuel⟩
  · rintro ⟨fuel, hfuel⟩
    refine ⟨fuel + 1, ?_⟩
    rw [branchSimplify, h]
    exact hfuel

/-! ## Constant branches are settled in one batch -/

def Settled (constants : List IrConstant) (function : IrFunction) : Prop :=
  ∀ i block, function.blocks[i]? = some block → blockConstantTarget constants function i block = none

variable {block block' : BasicBlock}

theorem conditionBoolValue_congr (constants : List IrConstant)
    (h : block'.instructions = block.instructions) (condition : Operand) :
    conditionBoolValue block' condition constants = conditionBoolValue block condition constants := by
  cases condition with
  | register register => simp only [conditionBoolValue, blockRegisterBoolConstant, h]
  | local_ | constant => rfl

variable {function function' : IrFunction}

/-- The condition decides, and whether there is a next block; the targets do not. -/
theorem constantBranchTarget_none
    (hinstructions : block'.instructions = block.instructions) (hkind : Retargeted kind kind')
    (hnext : nextBlock function' i = nextBlock function i ∨ nextBlock function' i = none)
    (h : constantBranchTarget function i block kind constants = none) :
    constantBranchTarget function' i block' kind' constants = none := by
  have hcondition := conditionBoolValue_congr constants hinstructions
  cases hkind with
  | jump | return_ | exit => rfl
  | jumpIf =>
    simp only [constantBranchTarget, map_eq_none_iff, hcondition] at h ⊢
    exact h
  | @jumpIfFalse condition | @jumpIfTrue condition =>
    simp only [constantBranchTarget, hcondition] at h ⊢
    cases hvalue : conditionBoolValue block condition constants with
    | none => rfl
    | some value =>
      rw [bind_some]
      cases value <;> simp_all

theorem blockConstantTarget_none
    (retarget : TerminatorKind → TerminatorKind) (hinstructions : block'.instructions = block.instructions)
    (hterminator : block'.terminator = block.terminator.map fun terminator =>
      { terminator with kind := retarget terminator.kind })
    (hkind : ∀ kind, Retargeted kind (retarget kind))
    (hnext : nextBlock function' i = nextBlock function i ∨ nextBlock function' i = none)
    (h : blockConstantTarget constants function i block = none) :
    blockConstantTarget constants function' i block' = none := by
  have hboundary : blockHasExceptionBoundary block' = blockHasExceptionBoundary block := by
    rw [blockHasExceptionBoundary, blockHasExceptionBoundary, hinstructions]
  rw [blockConstantTarget, hboundary] at *
  split at h
  · next hboundary => rw [if_pos hboundary]
  · next hboundary =>
    rw [if_neg hboundary, hterminator]
    cases hfinal : block.terminator with
    | none => rfl
    | some terminator =>
      rw [hfinal] at h
      exact constantBranchTarget_none hinstructions (hkind _) hnext h

theorem nextBlock_congr (h : function'.blocks.length = function.blocks.length) (i : BlockId) :
    nextBlock function' i = nextBlock function i := by
  rw [nextBlock, nextBlock, h]

section
variable (constants : List IrConstant) (function : IrFunction)

theorem getElem?_settleBranches (i : BlockId) :
    (settleBranches constants function).blocks[i]? =
      function.blocks[i]?.map (settleBlock constants function i) := by
  rw [settleBranches, getElem?_map, getElem?_zipIdx, Option.map_map, zero_add]
  rfl

theorem length_settleBranches :
    (settleBranches constants function).blocks.length = function.blocks.length := by
  simp [settleBranches]

theorem settled_settleBranches : Settled constants (settleBranches constants function) := by
  intro i block' hblock'
  rw [getElem?_settleBranches] at hblock'
  obtain ⟨block, hblock, rfl⟩ := map_eq_some_iff.mp hblock'
  have hnext := nextBlock_congr (length_settleBranches constants function) i
  rw [settleBlock]
  cases htarget : blockConstantTarget constants function i block with
  | none =>
    refine blockConstantTarget_none id rfl ?_ Retargeted.refl (.inl hnext) htarget
    cases block.terminator <;> rfl
  | some target =>
    rw [blockConstantTarget, ite_eq_left_iff]
    intro _
    simp only [setTerminator]
    cases block.terminator <;> rfl

end

theorem Settled.forwardBlocks (h : Settled constants function) :
    Settled constants (forwardBlocks function) := by
  intro i block' hblock'
  rw [getElem?_forwardBlocks] at hblock'
  obtain ⟨block, hblock, rfl⟩ := map_eq_some_iff.mp hblock'
  have hnext := nextBlock_congr (length_forwardBlocks function) i
  obtain ⟨hinstructions, ⟨-, hsame⟩ | ⟨-, hterminator⟩⟩ := forwardBlock_cases function block
  · rw [hsame]
    refine blockConstantTarget_none id rfl ?_ Retargeted.refl (.inl hnext) (h i block hblock)
    cases block.terminator <;> rfl
  · exact blockConstantTarget_none _ hinstructions hterminator (forwardKind_retargeted function)
      (.inl hnext) (h i block hblock)

theorem cutTail_cases (function : IrFunction) :
    cutTail function = function ∧ unreachableEmptyTail function = none ∨
      ∃ newLen < function.blocks.length, unreachableEmptyTail function = some newLen ∧
        cutTail function = { function with blocks := function.blocks.take newLen } := by
  rw [cutTail]
  cases htail : unreachableEmptyTail function with
  | none => exact .inl ⟨rfl, rfl⟩
  | some newLen =>
    refine .inr ⟨newLen, ?_, rfl, rfl⟩
    simp only [unreachableEmptyTail] at htail
    split at htail
    · cases htail
    · next hlt =>
      split at htail
      · cases htail
      split at htail
      · cases htail
        exact not_le.mp hlt
      · cases htail

theorem Settled.cutTail (h : Settled constants function) : Settled constants (cutTail function) := by
  obtain ⟨hsame, -⟩ | ⟨newLen, hlt, -, hcut⟩ := cutTail_cases function
  · rw [hsame]
    exact h
  rw [hcut]
  intro i block hblock
  rw [getElem?_take] at hblock
  split at hblock
  · next hi =>
    refine blockConstantTarget_none id rfl ?_ Retargeted.refl ?_ (h i block hblock)
    · cases block.terminator <;> rfl
    simp only [nextBlock, length_take, min_eq_left hlt.le]
    by_cases hnext : i + 1 < newLen
    · exact .inl (by rw [if_pos hnext, if_pos (hnext.trans hlt)])
    · exact .inr (if_neg hnext)
  · cases hblock

/-! ## Forwards -/

theorem mem_sortedTargets : target ∈ sortedTargets kind ↔ target ∈ terminatorExplicitTargets kind := by
  cases kind with
  | jump | jumpIfFalse | jumpIfTrue | return_ | exit => exact Iff.rfl
  | jumpIf condition ifTrue ifFalse =>
    simp only [sortedTargets, terminatorExplicitTargets]
    split
    · exact Iff.rfl
    split
    · simp [or_comm]
    · next h h' =>
      obtain rfl : ifTrue = ifFalse := le_antisymm (not_lt.mp h') (not_lt.mp h)
      simp

theorem blockForwards_eq_nil_iff :
    blockForwards function block = [] ↔ blockHasExceptionBoundary block = true ∨
      ∀ terminator, block.terminator = some terminator →
        ∀ target ∈ terminatorExplicitTargets terminator.kind, hop function target = target := by
  rw [blockForwards]
  cases block.terminator with
  | none => simp
  | some terminator =>
    dsimp only
    split
    · next hboundary => simp [hboundary]
    · next hboundary =>
      simp only [Bool.eq_false_iff.mpr hboundary, Bool.false_eq_true, false_or,
        filterMap_eq_nil_iff, map_eq_none_iff, mem_sortedTargets, Option.some.injEq,
        forall_eq', forwardTarget_eq_none_iff]

theorem forwardKind_targets (h : target ∈ terminatorExplicitTargets (forwardKind function kind)) :
    ∃ source, target = hop function source := by
  cases kind with
  | jump old =>
    rw [forwardKind_jump] at h
    exact ⟨old, mem_singleton.mp h⟩
  | jumpIfFalse condition old =>
    rw [forwardKind_jumpIfFalse] at h
    exact ⟨old, mem_singleton.mp h⟩
  | jumpIfTrue condition old =>
    rw [forwardKind_jumpIfTrue] at h
    exact ⟨old, mem_singleton.mp h⟩
  | jumpIf condition ifTrue ifFalse =>
    obtain ⟨ifTrue', ifFalse', heq, htrue, hfalse⟩ :=
      forwardKind_jumpIf function condition ifTrue ifFalse
    rw [heq] at h
    rcases mem_cons.mp h with rfl | h
    · exact htrue.elim (⟨_, ·⟩) (⟨_, ·⟩)
    · cases mem_singleton.mp h
      exact hfalse.elim (⟨_, ·⟩) (⟨_, ·⟩)
  | return_ | exit => cases h

def Forwarded (function : IrFunction) : Prop :=
  ∀ block ∈ function.blocks, blockForwards function block = []

theorem forwarded_forwardBlocks (h : ∀ x, hop function (hop function x) = hop function x) :
    Forwarded (forwardBlocks function) := by
  intro block' hblock'
  obtain ⟨block, hblock, rfl⟩ := List.mem_map.mp hblock'
  refine blockForwards_eq_nil_iff.mpr ?_
  obtain ⟨-, ⟨hboundary, hsame⟩ | ⟨-, hterminator⟩⟩ := forwardBlock_cases function block
  · rw [hsame]
    exact .inl hboundary
  refine .inr fun terminator hfinal target htarget => ?_
  rw [hterminator] at hfinal
  obtain ⟨old, -, rfl⟩ := map_eq_some_iff.mp hfinal
  obtain ⟨source, rfl⟩ := forwardKind_targets htarget
  rw [hop_forwardBlocks, h, h]

theorem hop_take (index : BlockId) (h : hop function index = index) :
    hop { function with blocks := function.blocks.take newLen } index = index := by
  rw [hop_eq] at h ⊢
  rw [getElem?_take]
  split
  · exact h
  · rfl

theorem Forwarded.cutTail (h : Forwarded function) : Forwarded (cutTail function) := by
  obtain ⟨hsame, -⟩ | ⟨newLen, -, -, hcut⟩ := cutTail_cases function
  · rw [hsame]
    exact h
  rw [hcut]
  intro block hblock
  refine blockForwards_eq_nil_iff.mpr ((blockForwards_eq_nil_iff.mp
    (h block (mem_of_mem_take hblock))).imp_right fun h terminator hfinal target htarget => ?_)
  exact hop_take target (h terminator hfinal target htarget)

theorem finite_hop (function : IrFunction) : {x | hop function x ≠ x}.Finite := by
  refine (Set.finite_lt_nat function.blocks.length).subset fun x hx => ?_
  by_contra hge
  rw [Set.mem_ofPred_eq, hop_eq, getElem?_eq_none (not_lt.mp hge)] at hx
  exact hx rfl

/-! ## The loop -/

section
variable {unit : IrUnit}

theorem constantBranches_eq_nil :
    constantBranches unit = [] ↔ ∀ function ∈ unit.functions, Settled unit.constants function :=
  constantBranches_eq_nil_iff

theorem forall_withFunctions {update : IrFunction → IrFunction} {P : IrFunction → Prop} :
    (∀ function ∈ (withFunctions unit update).functions, P function) ↔
      ∀ function ∈ unit.functions, P (update function) := forall_mem_map

def blockCount (unit : IrUnit) : Nat := (unit.functions.map (·.blocks.length)).sum

theorem blockCount_cutTail (h : unreachableTails unit ≠ []) :
    blockCount (withFunctions unit cutTail) < blockCount unit := by
  have hlength (function : IrFunction) :
      (cutTail function).blocks.length ≤ function.blocks.length ∧
        (unreachableEmptyTail function ≠ none →
          (cutTail function).blocks.length < function.blocks.length) := by
    obtain ⟨hsame, hnone⟩ | ⟨newLen, hlt, -, hcut⟩ := cutTail_cases function
    · rw [hsame]
      exact ⟨le_rfl, fun h => absurd hnone h⟩
    · rw [hcut]
      simp only [length_take, min_eq_left hlt.le]
      exact ⟨hlt.le, fun _ => hlt⟩
  rw [Ne, unreachableTails_eq_nil_iff] at h
  push Not at h
  obtain ⟨function, hfunction, htail⟩ := h
  rw [blockCount, blockCount, withFunctions, List.map_map]
  exact sum_lt_sum (fun function => (cutTail function).blocks.length) (·.blocks.length)
    (fun function _ => (hlength function).1) ⟨function, hfunction, (hlength function).2 htail⟩

section
variable (hsettled : ∀ function ∈ unit.functions, Settled unit.constants function)
include hsettled

/-- Cutting tails makes no other work. -/
theorem terminates_of_forwarded
    (hforwarded : ∀ function ∈ unit.functions, Forwarded function) : Terminates unit := by
  induction hcount : blockCount unit using Nat.strong_induction_on generalizing unit with | _ n ih
  subst hcount
  have hconstant := constantBranches_eq_nil.mpr hsettled
  have hforward := emptyBlockForwards_eq_nil_iff.mpr hforwarded
  have hbatch := branchBatch_eq unit
  rw [if_neg (not_not.mpr hconstant), if_neg (not_not.mpr hforward)] at hbatch
  by_cases htails : unreachableTails unit = []
  · rw [if_neg (not_not.mpr htails)] at hbatch
    exact terminates_of_batch_none hbatch
  rw [if_pos htails] at hbatch
  rw [terminates_iff_of_batch hbatch]
  exact ih _ (blockCount_cutTail htails)
    (forall_withFunctions.mpr fun function hfunction => (hsettled function hfunction).cutTail)
    (forall_withFunctions.mpr fun function hfunction => (hforwarded function hfunction).cutTail) rfl

theorem settled_forwardBlocks : ∀ function ∈ (withFunctions unit forwardBlocks).functions,
      Settled (withFunctions unit forwardBlocks).constants function :=
  forall_withFunctions.mpr fun function hfunction => (hsettled function hfunction).forwardBlocks

theorem branchBatch_of_settled (hforward : emptyBlockForwards unit ≠ []) :
    branchBatch unit = some (withFunctions unit forwardBlocks) := by
  rw [branchBatch_eq, if_neg (not_not.mpr (constantBranches_eq_nil.mpr hsettled)), if_pos hforward]

end

theorem hop_square (function : IrFunction) : hop (forwardBlocks function) = (hop function)^[2] :=
  funext (hop_forwardBlocks function)

/-- A settled unit ends when some square of the hops is idempotent. -/
theorem terminates_of_idempotent (k : Nat)
    (hsettled : ∀ function ∈ unit.functions, Settled unit.constants function)
    (hidempotent : ∀ function ∈ unit.functions, ∀ x,
      (hop function)^[2 ^ k] ((hop function)^[2 ^ k] x) = (hop function)^[2 ^ k] x) : Terminates unit := by
  by_cases hforward : emptyBlockForwards unit = []
  · exact terminates_of_forwarded hsettled (emptyBlockForwards_eq_nil_iff.mp hforward)
  rw [terminates_iff_of_batch (branchBatch_of_settled hsettled hforward)]
  induction k generalizing unit with
  | zero =>
    refine terminates_of_forwarded (settled_forwardBlocks hsettled)
      (forall_withFunctions.mpr fun function hfunction => ?_)
    exact forwarded_forwardBlocks (hidempotent function hfunction)
  | succ k ih =>
    have hsettled' := settled_forwardBlocks hsettled
    by_cases hforward : emptyBlockForwards (withFunctions unit forwardBlocks) = []
    · exact terminates_of_forwarded hsettled' (emptyBlockForwards_eq_nil_iff.mp hforward)
    rw [terminates_iff_of_batch (branchBatch_of_settled hsettled' hforward)]
    refine ih hsettled' (forall_withFunctions.mpr fun function hfunction => ?_) hforward
    rw [hop_square, ← iterate_mul, ← pow_succ']
    exact hidempotent function hfunction

/-- A cycle whose length is no power of two keeps the loop going. -/
theorem not_terminates (hsettled : ∀ function ∈ unit.functions, Settled unit.constants function)
    (hcycle : ∃ function ∈ unit.functions, ¬DyadicCycles (hop function)) (fuel : Nat) :
    branchSimplify fuel unit = none := by
  induction fuel generalizing unit with
  | zero => rfl
  | succ fuel ih =>
    obtain ⟨function, hfunction, hcycle⟩ := hcycle
    have hforward : emptyBlockForwards unit ≠ [] := by
      intro hnil
      obtain ⟨x, hmoves, hagain⟩ := exists_not_idempotent hcycle
      have hjump : function.blocks[x]?.bind emptyJump = some (hop function x) := by
        rw [hop_eq] at hmoves ⊢
        cases h : function.blocks[x]?.bind emptyJump with
        | none => exact absurd (by rw [h]; rfl) hmoves
        | some target => rfl
      obtain ⟨block, hblock, hjump⟩ := bind_eq_some_iff.mp hjump
      obtain ⟨hempty, span, hterminator⟩ := emptyJump_eq_some_iff.mp hjump
      rcases blockForwards_eq_nil_iff.mp (emptyBlockForwards_eq_nil_iff.mp hnil function hfunction
        block (mem_of_getElem? hblock)) with hboundary | hrest
      · rw [boundary_of_empty hempty] at hboundary
        cases hboundary
      · exact hagain (hrest _ hterminator _ (mem_singleton_self _))
    rw [branchSimplify, branchBatch_of_settled hsettled hforward]
    refine ih (settled_forwardBlocks hsettled)
      ⟨forwardBlocks function, mem_map_of_mem hfunction, fun hdyadic => hcycle ?_⟩
    rw [hop_square] at hdyadic
    exact hdyadic.of_square

theorem terminates_iff_of_settled (hsettled : ∀ function ∈ unit.functions, Settled unit.constants function) :
    Terminates unit ↔ ∀ function ∈ unit.functions, DyadicCycles (hop function) := by
  constructor
  · rintro ⟨fuel, hfuel⟩
    by_contra hcycle
    push Not at hcycle
    rw [not_terminates hsettled hcycle fuel] at hfuel
    cases hfuel
  · intro hdyadic
    have hrest : ∀ functions : List IrFunction, (∀ function ∈ functions, DyadicCycles (hop function)) →
        ∃ k, ∀ function ∈ functions, ∀ x,
          (hop function)^[2 ^ k] ((hop function)^[2 ^ k] x) = (hop function)^[2 ^ k] x := by
      intro functions
      induction functions with
      | nil => exact fun _ => ⟨0, nofun⟩
      | cons function functions ih =>
        intro hdyadic
        obtain ⟨k, hk⟩ := (hdyadic function mem_cons_self).exists_idempotent (finite_hop function)
        obtain ⟨k', hk'⟩ := ih (forall_mem_cons.mp hdyadic).2
        refine ⟨max k k', fun other hother => ?_⟩
        rcases mem_cons.mp hother with rfl | hother
        · exact idempotent_mono (le_max_left k k') hk
        · exact idempotent_mono (le_max_right k k') (hk' other hother)
    obtain ⟨k, hk⟩ := hrest unit.functions hdyadic
    exact terminates_of_idempotent k hsettled hk

/-- Where control goes from an empty block once the constant branches are settled; every other block
is where it is. -/
def settledHop (constants : List IrConstant) (function : IrFunction) (index : BlockId) : BlockId :=
  match function.blocks[index]? with
  | some block =>
    (emptyJump block).getD <|
      if block.instructions = [] then
        (blockConstantTarget constants function index block).getD index
      else index
  | none => index

theorem settledHop_eq (constants : List IrConstant) (function : IrFunction) :
    settledHop constants function = hop (settleBranches constants function) := by
  funext index
  rw [hop_eq, getElem?_settleBranches]
  simp only [settledHop]
  cases function.blocks[index]? with
  | none => rfl
  | some block =>
    simp only [map_some, bind_some, settleBlock]
    cases htarget : blockConstantTarget constants function index block with
    | none => simp
    | some target =>
      have hnone : emptyJump block = none := by
        refine eq_none_iff_forall_ne_some.mpr fun other hjump => ?_
        obtain ⟨hempty, span, hterminator⟩ := emptyJump_eq_some_iff.mp hjump
        rw [blockConstantTarget, boundary_of_empty hempty, hterminator] at htarget
        cases htarget
      rw [hnone, getD_none, getD_some]
      split
      · next hempty =>
        obtain ⟨id, instructions, terminator⟩ := block
        cases hempty
        cases terminator with
        | none => cases htarget
        | some terminator => rfl
      · next hne =>
        have : emptyJump (setTerminator (fun _ => .jump target) block) = none :=
          eq_none_iff_forall_ne_some.mpr fun other hjump =>
            hne (emptyJump_eq_some_iff.mp hjump).1
        rw [this]
        rfl

/-- The loop ends exactly when the cycles of empty blocks have powers of two as their lengths. -/
theorem branchSimplify_terminates_iff (unit : IrUnit) : Terminates unit ↔
      ∀ function ∈ unit.functions, DyadicCycles (settledHop unit.constants function) := by
  have hsettle : ∀ function, settledHop unit.constants function =
      hop (settleBranches unit.constants function) := settledHop_eq unit.constants
  by_cases hconstant : constantBranches unit = []
  · have hsettled := constantBranches_eq_nil.mp hconstant
    rw [terminates_iff_of_settled hsettled]
    refine forall₂_congr fun function hfunction => ?_
    have hsame : settleBranches unit.constants function = function := by
      rw [settleBranches]
      have hblocks : (function.blocks.zipIdx.map fun p =>
          settleBlock unit.constants function p.2 p.1) = function.blocks := by
        refine List.ext_getElem? fun i => ?_
        have h := getElem?_settleBranches unit.constants function i
        rw [settleBranches] at h
        rw [h]
        cases hblock : function.blocks[i]? with
        | none => rfl
        | some block =>
          rw [map_some, settleBlock, hsettled function hfunction i block hblock]
      rw [hblocks]
    rw [hsettle, hsame]
  · have hbatch := branchBatch_eq unit
    rw [if_pos hconstant] at hbatch
    rw [terminates_iff_of_batch hbatch, terminates_iff_of_settled
      (forall_withFunctions.mpr fun function _ => settled_settleBranches unit.constants function),
      forall_withFunctions]
    exact forall₂_congr fun function _ => by rw [hsettle]

/-- The blocks of the lowered `for (;;) {}`: block 1 is the condition, block 2 what follows the loop,
block 3 the body and block 4 the update. -/
def endlessFor : IrUnit :=
  let block (id : BlockId) (kind : TerminatorKind) : BasicBlock := ⟨id, [], some ⟨⟨0, 0, 0⟩, kind⟩⟩
  unitOf [] 0 [block 0 (.jump 1), block 1 (.jump 3), block 2 (.return_ none none),
    block 3 (.jump 4), block 4 (.jump 1)]

theorem not_branchSimplify_terminates : ∃ unit, Verified unit ∧ ¬Terminates unit := by
  refine ⟨endlessFor, by decide +kernel, ?_⟩
  have hsettled : ∀ function ∈ endlessFor.functions, Settled endlessFor.constants function :=
    constantBranches_eq_nil.mp (by decide)
  rw [terminates_iff_of_settled hsettled]
  intro hdyadic
  obtain ⟨function, hfunction⟩ : ∃ function, endlessFor.functions = [function] := ⟨_, rfl⟩
  have hperiod : minimalPeriod (hop function) 1 = 3 := by
    cases hfunction
    exact minimalPeriod_eq_prime rfl (by unfold IsFixedPt; decide)
  obtain ⟨k, hk⟩ := hdyadic function (hfunction ▸ mem_singleton_self function) 1
    (minimalPeriod_pos_iff_mem_periodicPts.mp (hperiod ▸ succ_pos 2))
  rw [hperiod] at hk
  cases k with
  | zero => cases hk
  | succ k => omega

end
end Phrust.Optimizer
