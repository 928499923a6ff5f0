import Phrust.Jit.Ownership
import Phrust.Theory.BlockPaths
import Phrust.Theory.Reading

/-!
# Moved registers on every path

What `verify_ownership` accepts is final as long as the block of a move is not entered again with the
moved register still unassigned: uses in front of the move in its own block, and the move itself, are
not looked at.
-/

namespace Phrust.Jit
open List Ir Reading RegionGraph Nat
namespace RegionGraph
variable (region : RegionGraph)

/-- The control-flow graph; a line of a block is an instruction. -/
def graph : BlockGraph where
  size block := region.blocks[block]?.map (·.instructions.length)
  succ := region.successors

def instructionAt (block index : Nat) : Option RegionInstruction :=
  region.blocks[block]?.bind (·.instructions[index]?)

/-- The instruction, or the terminator behind the last one, reads the register. -/
def ReadsAt (register : RegId) (block index : Nat) : Prop :=
  (∃ instruction, region.instructionAt block index = some instruction ∧ register ∈ instruction.registerUses) ∨
  ∃ regionBlock, region.blocks[block]? = some regionBlock ∧
    index = regionBlock.instructions.length ∧ register ∈ regionBlock.terminator.registerUses

/-- The instruction does not assign the register. -/
def KeepsAt (register : RegId) (block index : Nat) : Prop :=
  ∀ instruction, region.instructionAt block index = some instruction →
    register ∉ instruction.registerDefinitions

def ContinuationsDistinct : Prop :=
  (region.blocks.flatMap fun block => block.instructions.map (·.continuationId)).Nodup

end RegionGraph

namespace OwnershipFlow
variable (flow : OwnershipFlow) (region : RegionGraph)

def Moves (instruction : RegionInstruction) (register : RegId) : Prop :=
  match instruction.kind with
  | .storeLocal _ (.register src) => src = register ∧ instruction.continuationId ∈ flow.movedLocalStores
  | .move _ (.register src) => src = register ∧ instruction.continuationId ∈ flow.movedRegisterCopies
  | .arrayInsert _ key value _ => .register register ∈ key.toList ++ [value] ∧
      (instruction.continuationId, register) ∈ flow.movedArrayInsertOperands
  | _ => False

def Consumes (instruction : RegionInstruction) (register : RegId) : Prop :=
  match instruction.kind with
  | .nativeCall _ => (instruction.continuationId, register) ∈ flow.consumedCallOperands
  | _ => False

def ElidesAt (block index : Nat) : Prop :=
  ∃ instruction, region.instructionAt block index = some instruction ∧
    isDiscard instruction = true ∧ instruction.continuationId ∈ flow.elidedDiscards

/-- On every path, until the register is assigned again: a moved register is read by elided discards
only and the move is not executed again; a consuming call is not executed again. -/
structure MovesFinal : Prop where
  reads {block index : Nat} {instruction : RegionInstruction} {register : RegId}
    {point : Nat × Nat} : region.instructionAt block index = some instruction →
    flow.Moves instruction register →
    region.graph.Walk (region.KeepsAt register) (block, index) point →
    region.ReadsAt register point.1 point.2 → flow.ElidesAt region point.1 point.2
  move {block index : Nat} {instruction : RegionInstruction} {register : RegId} :
    region.instructionAt block index = some instruction → flow.Moves instruction register →
    ¬region.graph.Walk (region.KeepsAt register) (block, index) (block, index)
  call {block index : Nat} {instruction : RegionInstruction} {register : RegId} :
    region.instructionAt block index = some instruction → flow.Consumes instruction register →
    ¬region.graph.Walk (region.KeepsAt register) (block, index) (block, index)

/-- No cycle leads from the instruction back to the line of its block without an assignment. -/
def NoCycle (register : RegId) (block index line : Nat) : Prop :=
  ¬((∀ k, index ≤ k → region.KeepsAt register block k) ∧
    region.graph.Through (region.KeepsAt register) block block ∧
    ∀ k < line, region.KeepsAt register block k)

/-- Every cycle through the block of a move assigns the moved register before the block reads it or
moves it again, and every cycle through the block of a consuming call assigns the consumed one. -/
structure CyclesAssign : Prop where
  reads {block index line : Nat} {instruction use_ : RegionInstruction} {register : RegId} :
    region.instructionAt block index = some instruction → flow.Moves instruction register →
    line < index → region.instructionAt block line = some use_ → register ∈ use_.registerUses →
    (isDiscard use_ = true → use_.continuationId ∉ flow.elidedDiscards) →
    NoCycle region register block index line
  move {block index : Nat} {instruction : RegionInstruction} {register : RegId} :
    region.instructionAt block index = some instruction → flow.Moves instruction register →
    NoCycle region register block index index
  call {block index : Nat} {instruction : RegionInstruction} {register : RegId} :
    region.instructionAt block index = some instruction → flow.Consumes instruction register →
    NoCycle region register block index index

end OwnershipFlow

/-! ## Reachability -/

namespace RegionGraph
variable {region : RegionGraph}

theorem blockIndex_lt {id : BlockId} (h : region.blockIndex id = some index) : index < region.blocks.length := by
  rw [blockIndex, Option.map_eq_some_iff] at h
  obtain ⟨⟨block, position⟩, hlast, rfl⟩ := h
  have hmem := (mem_filter.mp (mem_of_getLast? hlast)).1
  exact (mem_zipIdx' hmem).1

theorem length_edges_le (terminator : RegionTerminator) : terminator.edges.length ≤ 2 := by
  cases terminator with
  | return_ _ finally_ | returnReference _ finally_ | exit _ finally_ =>
    cases finally_ <;> simp [RegionTerminator.edges]
  | _ => simp [RegionTerminator.edges, RegionTerminator.targets]

theorem length_successors_le (index : Nat) : (region.successors index).length ≤ 2 := by
  rw [successors]
  split
  · exact le_trans (length_filterMap_le _ _) (length_edges_le _)
  · simp

theorem lt_of_mem_successors (h : target ∈ region.successors index) : target < region.blocks.length := by
  rw [successors] at h
  split at h
  · obtain ⟨id, -, hindex⟩ := mem_filterMap.mp h
    exact blockIndex_lt hindex
  · cases h

theorem mem_blockReachability (start : Nat) : target ∈ region.blockReachability start ↔
    ∃ node ∈ region.successors start, Reaches region.successors node target := by
  have hlength (index : Nat) : (region.successors index).reverse.length ≤ 2 := by
    rw [length_reverse]
    exact length_successors_le index
  have hlt {index i : Nat} (hi : i ∈ (region.successors index).reverse) : i < region.blocks.length :=
    lt_of_mem_successors (mem_reverse.mp hi)
  have hstart := hlength start
  obtain ⟨result, hresult⟩ := exists_search 2 _ (fun _ _ => hlt) hlength (fun _ => hlt)
    (show (region.successors start).reverse.length + _ < 3 * region.blocks.length + 3 by omega)
  rw [blockReachability, hresult, Option.getD_some, mem_search_pending_iff hresult]
  simp only [mem_reverse]
  exact exists_congr fun node => and_congr_right fun _ =>
    Reaches.congr fun b _ c => mem_reverse

/-- A walk that leaves its block comes to reachable blocks only. -/
theorem mem_blockReachability_of_through (h : region.graph.Through S start target) :
    target ∈ region.blockReachability start := by
  rw [mem_blockReachability]
  induction h with
  | edge hc => exact ⟨_, hc, .refl⟩
  | more _ _ _ hd ih =>
    obtain ⟨node, hnode, hreaches⟩ := ih
    exact ⟨node, hnode, hreaches.step hd⟩

/-! ## Instructions by position -/

theorem instructionAt_eq_some : region.instructionAt block index = some instruction ↔
    ∃ regionBlock, region.blocks[block]? = some regionBlock ∧
      regionBlock.instructions[index]? = some instruction := Option.bind_eq_some_iff

theorem size_of_instructionAt (h : region.instructionAt block index = some instruction) :
    ∃ size, region.graph.size block = some size ∧ index < size := by
  obtain ⟨regionBlock, hblock, hinstruction⟩ := instructionAt_eq_some.mp h
  exact ⟨_, congrArg (Option.map _) hblock, (List.getElem?_eq_some_iff.mp hinstruction).1⟩

theorem mem_instructionUses : (block, index, continuation) ∈ region.instructionUses register ↔
    ∃ instruction, region.instructionAt block index = some instruction ∧
      register ∈ instruction.registerUses ∧ instruction.continuationId = continuation := by
  simp only [instructionUses, mem_flatMap, mem_filterMap, Prod.exists,
    mem_zipIdx_iff_getElem?, Option.ite_none_right_eq_some, Option.some.injEq, Prod.mk.injEq,
    instructionAt_eq_some]
  constructor
  · rintro ⟨regionBlock, _, hblock, instruction, _, hinstruction, huse, rfl, rfl, rfl⟩
    exact ⟨instruction, ⟨regionBlock, hblock, hinstruction⟩, huse, rfl⟩
  · rintro ⟨instruction, ⟨regionBlock, hblock, hinstruction⟩, huse, rfl⟩
    exact ⟨regionBlock, block, hblock, instruction, index, hinstruction, huse, rfl, rfl, rfl⟩

/-- A cycle without an assignment leads back to a line of the block. -/
theorem walk_of_cycle (h : region.instructionAt block index = some instruction) (hline : line ≤ index)
    (hafter : ∀ k, index ≤ k → region.KeepsAt register block k)
    (hthrough : region.graph.Through (region.KeepsAt register) block block)
    (hbefore : ∀ k < line, region.KeepsAt register block k) :
    region.graph.Walk (region.KeepsAt register) (block, index) (block, line) := by
  obtain ⟨size, hsize, hlt⟩ := size_of_instructionAt h
  exact (hthrough.walk hsize (le_of_lt hlt) fun k hk _ => hafter k hk).down hsize (zero_le line)
    (by omega) fun k _ hk => hbefore k hk

end RegionGraph

/-! ## What the check accepts -/

namespace OwnershipFlow
variable {flow : OwnershipFlow} {region : RegionGraph}

theorem checkMoved_ok (h : flow.checkMoved region what block index register = .ok ()) :
    register ∉ region.terminatorUses ∧ ∀ useBlock useIndex use_,
      region.instructionAt useBlock useIndex = some use_ → register ∈ use_.registerUses →
      region.useMayFollow block index useBlock useIndex = true →
      use_.continuationId ∈ flow.elidedDiscards := by
  rw [checkMoved] at h
  split at h
  · cases h
  · next hterminator =>
    refine ⟨hterminator, fun useBlock useIndex use_ huse hread hfollow => ?_⟩
    split at h
    · cases h
    · next hfind =>
      have hmem := mem_instructionUses.mpr ⟨use_, huse, hread, rfl⟩
      have hnot := find?_eq_none.mp hfind _ hmem
      simpa [hfollow] using hnot

section
variable (h : flow.verifyOwnership region = .ok ())
include h

/-- Every decision is checked, and the elided continuations are those of discards. -/
theorem verifyOwnership_ok :
    (∀ block index regionBlock instruction, region.blocks[block]? = some regionBlock →
      regionBlock.instructions[index]? = some instruction →
      flow.checkInstruction region regionBlock block instruction index = .ok ()) ∧
    ∀ continuation ∈ flow.elidedDiscards, ∃ regionBlock ∈ region.blocks,
      ∃ instruction ∈ regionBlock.instructions, instruction.continuationId = continuation ∧
        isDiscard instruction = true := by
  obtain ⟨⟨⟩, hblocks, helided⟩ := ok_bind.mp h
  constructor
  · intro block index regionBlock instruction hblock hinstruction
    have hinstructions := forM_ok.mp hblocks (regionBlock, block)
      (mem_zipIdx_iff_getElem?.mpr hblock)
    exact forM_ok.mp hinstructions (instruction, index) (mem_zipIdx_iff_getElem?.mpr hinstruction)
  · intro continuation hmem
    have hdiscard := forM_ok.mp helided continuation hmem
    split at hdiscard
    · next hany =>
      simp only [any_eq_true, Bool.and_eq_true, decide_eq_true_eq] at hany
      exact hany
    · cases hdiscard

/-- The three kinds of moves go through the same check. -/
theorem checkMoved_of_moves (hat : region.instructionAt block index = some instruction)
    (hmoves : flow.Moves instruction register) :
    ∃ what, flow.checkMoved region what block index register = .ok () := by
  obtain ⟨regionBlock, hblock, hinstruction⟩ := instructionAt_eq_some.mp hat
  have hcheck := (verifyOwnership_ok h).1 block index regionBlock instruction hblock hinstruction
  unfold Moves at hmoves
  unfold checkInstruction at hcheck
  split at hmoves
  · next hkind =>
    obtain ⟨rfl, hmem⟩ := hmoves
    simp only [hkind, if_pos hmem] at hcheck
    exact ⟨_, hcheck⟩
  · next hkind =>
    obtain ⟨rfl, hmem⟩ := hmoves
    simp only [hkind, if_pos hmem] at hcheck
    exact ⟨_, hcheck⟩
  · next hkind =>
    obtain ⟨hoperand, hmem⟩ := hmoves
    simp only [hkind] at hcheck
    have hmoved := forM_ok.mp hcheck _ hoperand
    simp only [if_pos hmem] at hmoved
    exact ⟨_, hmoved⟩
  · exact hmoves.elim

theorem elidesAt_of_mem (hdistinct : region.ContinuationsDistinct)
    (hat : region.instructionAt block index = some instruction)
    (hmem : instruction.continuationId ∈ flow.elidedDiscards) : flow.ElidesAt region block index := by
  obtain ⟨regionBlock, hblock, discard, hdiscard, hcontinuation, hkind⟩ :=
    (verifyOwnership_ok h).2 _ hmem
  obtain ⟨ownBlock, hown, hinstruction⟩ := instructionAt_eq_some.mp hat
  have hnodup : ((region.blocks.flatMap (·.instructions)).map (·.continuationId)).Nodup := by
    rw [map_flatMap]
    exact hdistinct
  have heq : discard = instruction := by
    refine inj_on_of_nodup_map hnodup ?_ ?_ hcontinuation
    · exact mem_flatMap.mpr ⟨regionBlock, hblock, hdiscard⟩
    · exact mem_flatMap.mpr
        ⟨ownBlock, mem_of_getElem? hown, mem_of_getElem? hinstruction⟩
  exact ⟨instruction, hat, heq ▸ hkind, hmem⟩

end

/-! ## Cycles -/

theorem MovesFinal.cyclesAssign (H : flow.MovesFinal region) : flow.CyclesAssign region where
  reads hat hmoves hline huse hread helided := by
    rintro ⟨hafter, hthrough, hbefore⟩
    have hwalk := walk_of_cycle hat (le_of_lt hline) hafter hthrough hbefore
    obtain ⟨other, hother, hdiscard, hmem⟩ := H.reads hat hmoves hwalk (.inl ⟨_, huse, hread⟩)
    cases huse.symm.trans hother
    exact helided hdiscard hmem
  move hat hmoves := by
    rintro ⟨hafter, hthrough, hbefore⟩
    exact H.move hat hmoves (walk_of_cycle hat (le_refl _) hafter hthrough hbefore)
  call hat hconsumes := by
    rintro ⟨hafter, hthrough, hbefore⟩
    exact H.call hat hconsumes (walk_of_cycle hat (le_refl _) hafter hthrough hbefore)

/-- A walk from an instruction back to it or to a line above it goes round a cycle. -/
theorem cycle_of_walk (hwalk : region.graph.Walk (region.KeepsAt register) (block, index)
      (block, line)) (hline : line ≤ index) : (∀ k, index ≤ k → region.KeepsAt register block k) ∧
      region.graph.Through (region.KeepsAt register) block block ∧
      ∀ k < line, region.KeepsAt register block k := by
  rcases hwalk.cases_blocks with ⟨-, hlt, -⟩ | ⟨size, hsize, -, hafter, hthrough, hbefore⟩
  · exact absurd hlt (Nat.not_lt_of_le hline)
  refine ⟨fun k hk => ?_, hthrough, hbefore⟩
  rcases lt_or_ge size k with hk' | hk'
  · intro instruction hat
    obtain ⟨size', hsize', hlt⟩ := size_of_instructionAt hat
    cases hsize.symm.trans hsize'
    omega
  · exact hafter k hk hk'

theorem useMayFollow_of_walk (hwalk : region.graph.Walk S (block, index) (useBlock, useIndex))
    (h : useBlock = block → index < useIndex) : region.useMayFollow block index useBlock useIndex = true := by
  rw [useMayFollow]
  split
  · next heq => simpa using h heq
  · next hne =>
    rcases hwalk.cases_blocks with ⟨heq, -⟩ | ⟨_, -, -, -, hthrough, -⟩
    · exact absurd heq.symm hne
    · simpa using mem_blockReachability_of_through hthrough

/-- What `verify_ownership` accepts is final on every path exactly if every cycle through the block of
a move, or of a consuming call, assigns the register in time. -/
theorem movesFinal_iff_cyclesAssign (flow : OwnershipFlow) (region : RegionGraph)
    (hdistinct : region.ContinuationsDistinct) (h : flow.verifyOwnership region = .ok ()) :
    flow.MovesFinal region ↔ flow.CyclesAssign region := by
  refine ⟨MovesFinal.cyclesAssign, fun H => ⟨?_, ?_, ?_⟩⟩
  · intro block index instruction register point hat hmoves hwalk hreads
    obtain ⟨what, hcheck⟩ := checkMoved_of_moves h hat hmoves
    obtain ⟨hterminator, huses⟩ := checkMoved_ok hcheck
    rcases hreads with ⟨use_, huse, hread⟩ | ⟨regionBlock, hblock, -, hread⟩
    · by_cases hsame : point.1 = block ∧ point.2 ≤ index
      · -- Back in the block of the move, above it or at it.
        obtain ⟨rfl, hline⟩ := hsame
        have hcycle := cycle_of_walk hwalk hline
        rcases eq_or_lt_of_le hline with rfl | hline
        · exact absurd hcycle (H.move hat hmoves)
        · by_contra helided
          refine H.reads hat hmoves hline huse hread (fun hdiscard hmem => ?_) hcycle
          exact helided ⟨use_, huse, hdiscard, hmem⟩
      · have hfollow := useMayFollow_of_walk hwalk fun heq => by
          by_contra hle
          exact hsame ⟨heq, Nat.le_of_not_lt hle⟩
        exact elidesAt_of_mem h hdistinct huse (huses _ _ use_ huse hread hfollow)
    · exact absurd (mem_flatMap.mpr ⟨regionBlock, mem_of_getElem? hblock, hread⟩) hterminator
  · intro block index instruction register hat hmoves hwalk
    exact H.move hat hmoves (cycle_of_walk hwalk (le_refl _))
  · intro block index instruction register hat hconsumes hwalk
    exact H.call hat hconsumes (cycle_of_walk hwalk (le_refl _))

/-! ### A store in a loop -/

/-- An instruction that the optimizer has not touched. -/
def untouched (continuationId : Nat) (sourceKind : InstructionKind) (kind : RegionInstructionKind) :
    RegionInstruction :=
  ⟨continuationId, none, false, sourceKind, kind⟩

/-- `r0 = 5` and `$x = r0` -/
def assignment : RegionInstruction := untouched 1 (.loadConst 0 0) (.move 0 (.i64 5))

def localStore : RegionInstruction := untouched 2 (.storeLocal 0 (.register 0)) (.storeLocal 0 (.register 0))

/-- A block that is followed by an endless loop. -/
def loopRegion (before body : List RegionInstruction) : RegionGraph :=
  ⟨[], [], 1, 1, [⟨0, 10, [], before, none, .jump 1⟩, ⟨1, 11, [], body, none, .jump 1⟩]⟩

/-- The store is marked as a move. -/
def storeMoved : OwnershipFlow := ⟨[], [2], [], [], [], []⟩

theorem loopRegion_instructionAt (h : (loopRegion before body).instructionAt block index = some instruction) :
    block = 0 ∧ before[index]? = some instruction ∨ block = 1 ∧ body[index]? = some instruction := by
  match block with
  | 0 => exact .inl ⟨rfl, h⟩
  | 1 => exact .inr ⟨rfl, h⟩
  | block + 2 => cases h

/-- If the loop assigns the register, the store in it moves the new value each time. -/
theorem movesFinal_loopRegion : storeMoved.MovesFinal (loopRegion [] [assignment, localStore]) := by
  refine (movesFinal_iff_cyclesAssign storeMoved (loopRegion [] [assignment, localStore])
    (by unfold ContinuationsDistinct; decide) (by decide)).mpr ?_
  have hkeeps : ¬(loopRegion [] [assignment, localStore]).KeepsAt 0 1 0 :=
    fun h => h assignment rfl (by decide)
  have hmoves {block index : Nat} {instruction : RegionInstruction} {register : RegId}
      (hat : (loopRegion [] [assignment, localStore]).instructionAt block index = some instruction)
      (hmoves : storeMoved.Moves instruction register) : block = 1 ∧ index = 1 ∧ register = 0 := by
    rcases loopRegion_instructionAt hat with ⟨-, hat⟩ | ⟨rfl, hat⟩
    · cases hat
    match index with
    | 0 => cases hat; exact hmoves.elim
    | 1 => cases hat; exact ⟨rfl, rfl, hmoves.1.symm⟩
    | index + 2 => cases hat
  constructor
  · intro block index line instruction use_ register hat hmarked hline huse hread _
    obtain ⟨rfl, rfl, rfl⟩ := hmoves hat hmarked
    obtain rfl : line = 0 := by omega
    cases huse
    exact absurd hread (by decide)
  · intro block index instruction register hat hmarked
    obtain ⟨rfl, rfl, rfl⟩ := hmoves hat hmarked
    exact fun ⟨_, _, hbefore⟩ => hkeeps (hbefore 0 zero_lt_one)
  · intro block index instruction register hat hconsumes
    rcases loopRegion_instructionAt hat with ⟨-, hat⟩ | ⟨-, hat⟩
    · cases hat
    match index with
    | 0 | 1 => cases hat; exact hconsumes.elim
    | index + 2 => cases hat

/-- The store moves a register that is assigned in front of the loop. The check accepts it, and the
loop moves the register again and again. -/
theorem not_movesFinal_loopRegion : (loopRegion [assignment] [localStore]).ContinuationsDistinct ∧
      storeMoved.verifyOwnership (loopRegion [assignment] [localStore]) = .ok () ∧
      ¬storeMoved.MovesFinal (loopRegion [assignment] [localStore]) := by
  refine ⟨by unfold ContinuationsDistinct; decide, by decide, fun H => ?_⟩
  have hkeeps (index : Nat) : (loopRegion [assignment] [localStore]).KeepsAt 0 1 index := by
    intro instruction hat
    match index with
    | 0 => cases hat; decide
    | index + 1 => cases hat
  have hedge : 1 ∈ (loopRegion [assignment] [localStore]).successors 1 := by decide
  have hstore : (loopRegion [assignment] [localStore]).instructionAt 1 0 = some localStore := rfl
  exact H.move hstore ⟨rfl, by decide⟩
    (walk_of_cycle hstore (le_refl 0) (fun k _ => hkeeps k) (.edge hedge) fun k _ => hkeeps k)

end OwnershipFlow
end Phrust.Jit
