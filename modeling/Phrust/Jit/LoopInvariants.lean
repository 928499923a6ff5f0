import Phrust.Jit.Ownership
import Phrust.Jit.ScalarFolding

/-!
# Loop-invariant hoisting

`hoist_loop_invariants` goes through the back edges of the region. For each of them it takes the natural
loop, looks for scalar operations whose operands do not change in the loop, and puts them behind the
instructions of the one block that leads into the loop.
-/

namespace Phrust.Jit
open Ir
namespace RegionGraph
variable (region : RegionGraph)

/-! ## Verified regions and their entries -/

/-- Code and message of a rejection. -/
abbrev NativeCompileError := String × String

def verifyTarget (block : RegionBlock) (target : BlockId) : Except NativeCompileError Unit :=
  if region.blocks.length ≤ target then
    .error ("JIT_REGION_REJECT_TARGET", s!"block {block.id} targets missing block {target}")
  else .ok ()

def verifyBlock (block : RegionBlock) (index : Nat) : Except NativeCompileError Unit := do
  if block.id ≠ index then
    .error ("JIT_REGION_REJECT_BLOCK_IDS", s!"block {block.id} appears at position {index}")
  block.terminator.targets.forM (region.verifyTarget block)

/-- Dense ids and targets in range. The test of the optimizing tier that no reference argument of a call has a
superseded form is left out. -/
def verify : Except NativeCompileError Unit :=
  if region.blocks.isEmpty then .error ("JIT_REGION_REJECT_EMPTY", "executable region has no blocks")
  else region.blocks.zipIdx.forM fun (block, index) => region.verifyBlock block index

/-- The blocks with an entry for on-stack replacement: the targets of backward jumps. -/
def osrEntries : List BlockId :=
  (sortDedup <| region.blocks.flatMap fun block => block.terminator.targets.filter (· ≤ block.id)).filter
    (· < region.blocks.length)

/-! ## Dominators -/

def predecessors (block : BlockId) : List BlockId :=
  if block < region.blocks.length then
    sortDedup ((region.blocks.filter fun source => block ∈ source.terminator.targets).map (·.id))
  else []

def targetsOf (block : BlockId) : List BlockId :=
  region.blocks[block]?.toList.flatMap (·.terminator.targets)

/-- A block is put in front of the order when all its targets are done. -/
def reversePostorderFrom : Nat → List (BlockId × Bool) → List BlockId → List BlockId → List BlockId
  | 0, _, _, order => order
  | _ + 1, [], _, order => order
  | fuel + 1, (block, true) :: work, visited, order =>
    reversePostorderFrom fuel work visited (block :: order)
  | fuel + 1, (block, false) :: work, visited, order =>
    if block ∈ visited then reversePostorderFrom fuel work visited order
    else
      let targets := (region.targetsOf block).filter (· ∉ block :: visited)
      reversePostorderFrom fuel (targets.map (·, false) ++ (block, true) :: work) (block :: visited) order

/-- Each block is expanded once, and has at most two targets. -/
def reversePostorder (entry : BlockId) : List BlockId :=
  region.reversePostorderFrom (4 * region.blocks.length + 4) [(entry, false)] [] []

/-- The immediate dominators that are known so far. -/
abbrev Dominators := List (Option BlockId)

def intersectDominators (order : List BlockId) (dominators : Dominators) :
    Nat → BlockId → BlockId → BlockId
  | 0, left, _ => left
  | fuel + 1, left, right =>
    if order.idxOf right < order.idxOf left then
      intersectDominators order dominators fuel ((dominators[left]?.join).getD left) right
    else if order.idxOf left < order.idxOf right then
      intersectDominators order dominators fuel left ((dominators[right]?.join).getD right)
    else left

def updateDominator (order : List BlockId) (dominators : Dominators) (block : BlockId) : Dominators :=
  match (region.predecessors block).filter fun source => (dominators[source]?.join).isSome with
  | [] => dominators
  | first :: incoming =>
    dominators.set block <| some <| incoming.foldl
      (fun next source => intersectDominators order dominators (2 * region.blocks.length) source next) first

/-- The algorithm of Cooper, Harvey and Kennedy. A round that changes something raises a dominator, so
the square of the number of blocks bounds the rounds. -/
def immediateDominators : Dominators :=
  match region.blocks with
  | [] => []
  | entry :: _ =>
    let order := region.reversePostorder entry.id
    let start := (List.replicate region.blocks.length none).set entry.id (some entry.id)
    let round := fun dominators => order.tail.foldl (region.updateDominator order) dominators
    (round^[region.blocks.length * region.blocks.length + 1] start).set entry.id none

/-- Follow the immediate dominators of the block. -/
def dominatesFrom (dominators : Dominators) (dominator : BlockId) : Nat → BlockId → Bool
  | 0, _ => false
  | fuel + 1, block =>
    match dominators[block]?.join with
    | some next => next = dominator || dominatesFrom dominators dominator fuel next
    | none => false

def dominates (dominator block : BlockId) : Bool :=
  if dominator = block then
    region.blocks.head?.any fun entry => block ∈ region.reversePostorder entry.id
  else dominatesFrom region.immediateDominators dominator region.blocks.length block

/-- Edges to a dominating block. -/
def backedges : List (BlockId × BlockId) :=
  region.blocks.flatMap fun block =>
    (block.terminator.targets.filter fun target => region.dominates target block.id).map (block.id, ·)

end RegionGraph

/-! ## Candidates -/

def instructionIsMotionBarrier : RegionInstructionKind → Bool
  | .arrayCallback _ | .pregCallbackArray _ | .nativeCall _ | .nativeControl _ | .nativeSuspend _ |
    .nativeDynamicCode _ | .runtimeFatal .. | .compileTimeFatal _ => true
  | _ => false

def instructionResultRegister : RegionInstructionKind → Option RegId
  | .move dst _ | .loadLocal dst _ _ | .binary dst _ _ _ | .unary dst _ _ | .compare dst _ _ _ |
    .cast dst _ _ => some dst
  | _ => none

section
variable (classes : KeyMap RegId SsaValueClass) (kind : RegionInstructionKind)

def instructionIsLicmSafeScalar : Bool :=
  match kind with
  | .binary _ op lhs rhs =>
    (op = .bitAnd || op = .bitOr || op = .bitXor) && operandClass classes lhs = some .int &&
      operandClass classes rhs = some .int
  | .unary _ op _ => op ≠ .minus && instructionIsPureScalar classes kind
  | .compare .. | .cast .. => instructionIsPureScalar classes kind
  | _ => false

def scalarResultRegister : Option RegId :=
  match kind with
  | .move dst src => if (operandClass classes src).any (·.nullBoolInt) then some dst else none
  | kind => if instructionIsLicmSafeScalar classes kind then instructionResultRegister kind else none

end

namespace RegionGraph
variable (region : RegionGraph)

/-- The later definition wins, whatever block it stands in. A round without a change ends the loop of
the source; further rounds change nothing either. -/
def inferRegisterClasses : KeyMap RegId SsaValueClass :=
  let round := fun classes => (region.blocks.flatMap (·.instructions)).foldl
    (fun classes instruction =>
      match instructionResultClass classes instruction.kind with
      | some (register, class_) => classes.insert register class_
      | none => classes) classes
  round^[region.registerCount + 1] []

/-- The registers with the blocks that define them, as far as the kind of the instruction counts. -/
def resultBlocks : List (RegId × BlockId) :=
  region.blocks.flatMap fun block => block.instructions.filterMap fun instruction =>
    (instructionResultRegister instruction.kind).map (·, block.id)

def multiplyDefined (register : RegId) : Bool :=
  1 < (region.resultBlocks.filter (·.1 = register)).length

/-- The registers with one definition. -/
def definitions : List (RegId × BlockId) :=
  region.resultBlocks.filter fun entry => !region.multiplyDefined entry.1

/-- The blocks from which the source of the back edge is reached without the header. -/
def naturalLoop (predecessors : BlockId → List BlockId) (source header : BlockId) : List BlockId :=
  let count := region.blocks.length
  header :: (search (fun block => (predecessors block).filter (· ≠ header)) ((count + 1) * (count + 1) + 2)
    (if source = header then [] else [source]) []).getD []

/-- Registers that do not change in the loop, and those among them that are to be moved. -/
structure Invariants where
  invariant : List RegId
  candidates : List RegId

def considerInvariant (classes : KeyMap RegId SsaValueClass) (state : Invariants)
    (instruction : RegionInstruction) : Invariants :=
  match scalarResultRegister classes instruction.kind with
  | some result =>
    if region.multiplyDefined result ∨ result ∈ state.invariant ∨
        ¬∀ use_ ∈ instruction.registerUses, use_ ∈ state.invariant then state
    else ⟨result :: state.invariant, result :: state.candidates⟩
  | none => state

def loopInstructions (loopBlocks : List BlockId) : List RegionInstruction :=
  (region.blocks.filter (·.id ∈ loopBlocks)).flatMap (·.instructions)

/-- A pass that changes something finds a candidate, so the number of instructions bounds the passes. -/
def loopCandidates (loopBlocks : List BlockId) : List RegId :=
  let instructions := region.loopInstructions loopBlocks
  let start := (region.definitions.filter (·.2 ∉ loopBlocks)).map Prod.fst
  let pass := fun state => instructions.foldl (region.considerInvariant region.inferRegisterClasses) state
  (pass^[instructions.length + 1] ⟨start, []⟩).candidates

end RegionGraph

/-! ## Hoisting -/

/-- What is moved out of which blocks and where to. -/
structure HoistPlan where
  loopBlocks : List BlockId
  header : BlockId
  preheader : BlockId
  candidates : List RegId
  deriving DecidableEq

namespace HoistPlan
variable (plan : HoistPlan)

/-- The result register decides whether an instruction of the loop is moved. -/
def moves (instruction : RegionInstruction) : Bool :=
  (instructionResultRegister instruction.kind).any (· ∈ plan.candidates)

def hoisted (region : RegionGraph) : List RegionInstruction :=
  (region.loopInstructions plan.loopBlocks).filter plan.moves

def rewriteBlock (hoisted : List RegionInstruction) (index : Nat) (block : RegionBlock) : RegionBlock :=
  { block with
    instructions :=
      (if block.id ∈ plan.loopBlocks then block.instructions.filter (!plan.moves ·)
        else block.instructions) ++ if index = plan.preheader then hoisted else [] }

def apply (region : RegionGraph) : RegionGraph :=
  { region with blocks := region.blocks.mapIdx (plan.rewriteBlock (plan.hoisted region)) }

end HoistPlan

namespace RegionGraph

section
variable (predecessors : BlockId → List BlockId) (region : RegionGraph) (edge : BlockId × BlockId)

/-- Loops with a barrier, or with more than one way in, are left alone. -/
def hoistPlan? : Option HoistPlan :=
  let loopBlocks := region.naturalLoop predecessors edge.1 edge.2
  if (region.loopInstructions loopBlocks).any (instructionIsMotionBarrier ·.kind) then none
  else
    match (predecessors edge.2).filter (· ∉ loopBlocks) with
    | [preheader] =>
      let candidates := region.loopCandidates loopBlocks
      if candidates.isEmpty then none else some ⟨loopBlocks, edge.2, preheader, candidates⟩
    | _ => none

def hoistLoop : RegionGraph :=
  match region.hoistPlan? predecessors edge with
  | some plan => plan.apply region
  | none => region

end

/-- The predecessors and the back edges are those of the region at the start. -/
def hoistLoopInvariants (region : RegionGraph) : RegionGraph :=
  region.backedges.foldl (hoistLoop region.predecessors) region

end RegionGraph
end Phrust.Jit
