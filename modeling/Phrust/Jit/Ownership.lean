import Phrust.Jit.Region

/-!
# Ownership decisions and their check

`verify_ownership` looks at each decision of the value flow that transfers an owner: which later uses
may follow is decided by block reachability, and by the instruction order inside the block.
-/

namespace Phrust.Jit
open Ir

/-- The ownership decisions of the value flow. Instructions are named by their continuations. -/
structure OwnershipFlow where
  borrowedLocalLoads : List Nat
  movedLocalStores : List Nat
  movedRegisterCopies : List Nat
  movedArrayInsertOperands : List (Nat × RegId)
  consumedCallOperands : List (Nat × RegId)
  elidedDiscards : List Nat

/-! ## Reachability -/

/-- The successors, with the finally block of a return or exit. -/
def RegionTerminator.edges : RegionTerminator → List BlockId
  | .return_ _ finally_ | .returnReference _ finally_ | .exit _ finally_ => finally_.toList
  | terminator => terminator.targets

namespace RegionGraph
variable (region : RegionGraph)

/-- The position of a block by its id. -/
def blockIndex (id : BlockId) : Option Nat :=
  ((region.blocks.zipIdx.filter (·.1.id = id)).getLast?).map Prod.snd

/-- The positions of the successors. -/
def successors (index : Nat) : List Nat :=
  match region.blocks[index]? with
  | some block => block.terminator.edges.filterMap region.blockIndex
  | none => []

/-- The worklist of the source is a stack. -/
def blockReachability (start : Nat) : List Nat :=
  (search (fun index => (region.successors index).reverse) (3 * region.blocks.length + 3)
    (region.successors start).reverse []).getD []

def useMayFollow (block instruction useBlock useInstruction : Nat) : Bool :=
  if useBlock = block then useInstruction > instruction
  else useBlock ∈ region.blockReachability block

/-! ## The check -/

/-- The uses of a register: block, instruction and continuation. -/
def instructionUses (register : RegId) : List (Nat × Nat × Nat) :=
  region.blocks.zipIdx.flatMap fun (block, blockIndex) =>
    block.instructions.zipIdx.filterMap fun (instruction, instructionIndex) =>
      if register ∈ instruction.registerUses then
        some (blockIndex, instructionIndex, instruction.continuationId)
      else none

def terminatorUses : List RegId := region.blocks.flatMap (·.terminator.registerUses)

end RegionGraph

namespace OwnershipFlow
variable (flow : OwnershipFlow) (region : RegionGraph)

/-- A moved register has no later use but an elided discard. -/
def checkMoved (what : String) (block instruction : Nat) (src : RegId) : Except String Unit :=
  if src ∈ region.terminatorUses then .error s!"{what} r{src} is used by a terminator"
  else
    match (region.instructionUses src).find? fun (useBlock, useIndex, continuation) =>
        region.useMayFollow block instruction useBlock useIndex &&
          decide (continuation ∉ flow.elidedDiscards) with
    | some (_, _, continuation) => .error s!"{what} r{src} is reused at continuation {continuation}"
    | none => .ok ()

/-- The block returns or exits with the register. -/
def retainedResult (terminator : RegionTerminator) (dst : RegId) : Bool :=
  match terminator with
  | .return_ (.register register) _ => register = dst
  | .exit (some (.register register)) _ => register = dst
  | _ => false

/-- A borrowed register is used behind its load in the same block. -/
def checkBorrowed (block : RegionBlock) (blockIndex instructionIndex : Nat) (dst : RegId) :
    Except String Unit :=
  if dst ∈ region.terminatorUses ∧ retainedResult block.terminator dst = false then
    .error s!"borrowed r{dst} escapes through a terminator"
  else if (region.instructionUses dst).any fun (useBlock, useIndex, _) =>
      decide (useBlock ≠ blockIndex ∨ useIndex ≤ instructionIndex) then
    .error s!"borrowed r{dst} escapes its forward same-block lifetime"
  else .ok ()

def checkInstruction (block : RegionBlock) (blockIndex : Nat) (instruction : RegionInstruction)
    (instructionIndex : Nat) : Except String Unit :=
  match instruction.kind with
  | .loadLocal dst _ _ =>
    if instruction.continuationId ∈ flow.borrowedLocalLoads then
      checkBorrowed region block blockIndex instructionIndex dst
    else .ok ()
  | .storeLocal _ (.register src) =>
    if instruction.continuationId ∈ flow.movedLocalStores then
      flow.checkMoved region "moved" blockIndex instructionIndex src
    else .ok ()
  | .move _ (.register src) =>
    if instruction.continuationId ∈ flow.movedRegisterCopies then
      flow.checkMoved region "moved" blockIndex instructionIndex src
    else .ok ()
  | .arrayInsert _ key value _ =>
    (key.toList ++ [value]).forM fun
      | .register src =>
        if (instruction.continuationId, src) ∈ flow.movedArrayInsertOperands then
          flow.checkMoved region "array-moved" blockIndex instructionIndex src
        else .ok ()
      | _ => .ok ()
  | _ => .ok ()

def isDiscard (instruction : RegionInstruction) : Bool :=
  match instruction.kind with
  | .discard _ => true
  | _ => false

def verifyOwnership : Except String Unit := do
  region.blocks.zipIdx.forM fun (block, blockIndex) =>
    block.instructions.zipIdx.forM fun (instruction, instructionIndex) =>
      flow.checkInstruction region block blockIndex instruction instructionIndex
  flow.elidedDiscards.forM fun continuation =>
    if region.blocks.any fun block => block.instructions.any fun instruction =>
        instruction.continuationId = continuation && isDiscard instruction then .ok ()
    else .error s!"ownership elision references non-discard continuation {continuation}"

end OwnershipFlow
end Phrust.Jit
