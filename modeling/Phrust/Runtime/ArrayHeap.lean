import Phrust.Runtime.PhpArray
import Phrust.Theory.SharedHeap

/-!
# Arrays on a heap, and what their metadata answers

`PhpArray` handles share a storage until one of them writes. The fast queries answer from the cached
metadata alone. `set_native_next_append_key` and `set_native_pointer_position` are the two writes
that only the boundary to native code uses.
-/

namespace Phrust

/-! ## Fast queries -/

inductive PhpArrayElementSummary where
  | empty | allInt | mixed
  deriving DecidableEq, Repr

inductive PhpArrayKeyKindSummary where
  | empty | sequentialInt | intOnly | stringOnly | mixed
  deriving DecidableEq, Repr

inductive PhpArrayPackedIntReductionError where
  | notPacked | shared | containsReferences | nonIntElement | overflow
  deriving DecidableEq, Repr

namespace ArrayCachedMetadata
variable (metadata : ArrayCachedMetadata)

def containsReferences : Bool :=
  decide (0 < metadata.referenceValues)

def elementSummary : PhpArrayElementSummary :=
  if metadata.len = 0 then .empty
  else if metadata.intValues = metadata.len then .allInt
  else .mixed

def keyKindSummary (isPacked : Bool) : PhpArrayKeyKindSummary :=
  if metadata.len = 0 then .empty
  else if isPacked then .sequentialInt
  else if metadata.intKeys = metadata.len then .intOnly
  else if metadata.stringKeys = metadata.len then .stringOnly
  else .mixed

end ArrayCachedMetadata

/-- Values whose integers can be read. -/
class IntPayload (V : Type) extends ValueKind V where
  asInt : V → Option Int
  isInt_eq : ∀ value, isInt value = (asInt value).isSome

export IntPayload (asInt)

namespace PhpArray
variable {V : Type}

section
variable (array : PhpArray V)

def isPackedFast : Bool := array.storage.isPacked

def containsReferencesFast : Bool := array.storage.metadata.containsReferences

def elementSummaryFast : PhpArrayElementSummary :=
  array.storage.metadata.elementSummary

def keyKindSummaryFast : PhpArrayKeyKindSummary :=
  array.storage.metadata.keyKindSummary array.isPackedFast

end

/-- The loop of `packed_int_sum_fast`. -/
def checkedSum [IntPayload V] (sum : Int) : List V → Except PhpArrayPackedIntReductionError Int
  | [] => .ok sum
  | value :: rest =>
    match asInt value with
    | none => .error .nonIntElement
    | some number =>
      if i64Min ≤ sum + number ∧ sum + number ≤ i64Max then checkedSum (sum + number) rest
      else .error .overflow

/-- `shared` is whether the storage has another handle. -/
def packedIntSumFast [IntPayload V] (array : PhpArray V) (shared : Bool) :
    Except PhpArrayPackedIntReductionError Int :=
  if !array.isPackedFast then .error .notPacked
  else if shared then .error .shared
  else if array.containsReferencesFast then .error .containsReferences
  else
    match array.elementSummaryFast with
    | .empty => .ok 0
    | .mixed => .error .nonIntElement
    | .allInt => checkedSum 0 (array.iter.map Prod.snd)

/-! ## The boundary to native code -/

def setNativeNextAppendKey (array : PhpArray V) (nextAppendKey : Option Int) : PhpArray V :=
  ⟨array.storage.setNextAppendKey nextAppendKey⟩

/-- The slot at a position in insertion order. -/
def indexAtPosition (array : PhpArray V) : Nat → Option Nat
  | 0 => array.storage.firstIndex
  | position + 1 => (array.indexAtPosition position).bind array.storage.nextIndex

def setNativePointerPosition (array : PhpArray V) (position : Option Nat) : PhpArray V :=
  ⟨array.storage.setInternalPointer (position.bind array.indexAtPosition)⟩

/-- Whether an operation asks for a storage of its own. It does not when it returns before writing. -/
def separates (array : PhpArray V) : ArrayOp V → Bool
  | .tryAppend _ | .append _ => array.canAppend
  | .recordSetSymbol key _ => (array.recordSlotForSymbol key).isSome
  | .pop => (array.storage.lastIndex.bind array.storage.keyAt).isSome
  | .spreadExtend source => source.iter.any fun
    | (.int _, _) => array.canAppend
    | (.string _, _) => true
  | _ => true

end PhpArray

/-! ## Runs -/

/-- One operation on a handle. An operation that writes names the address of the copy it makes if
the storage is shared. -/
inductive ArrayHeapOp (V : Type) where
  | new (handle address : Nat)
  | fromPacked (handle address : Nat) (elements : { l : List V // (l.length : Int) ≤ i64Max })
  | clone (handle copy : Nat)
  | drop (handle : Nat)
  | separateForWrite (handle address : Nat)
  | apply (handle address : Nat) (env : Env) (op : ArrayOp V)
  | setNativeNextAppendKey (handle address : Nat) (nextAppendKey : Option Int)
  | setNativePointerPosition (handle address : Nat) (position : Option Nat)

/-- The arrays of a thread and its record shapes. -/
structure ArrayHeap (V : Type) where
  arrays : SharedHeap (PhpArray V)
  cache : ShapeCache

namespace ArrayHeap
variable {V : Type}

def initial : ArrayHeap V := ⟨.empty, .empty⟩

/-- Write through a handle what `write` makes of its array. -/
def update (heap : ArrayHeap V) (handle address : Nat) (write : PhpArray V → PhpArray V) :
    Option (ArrayHeap V) := do
  let (_, cell) ← heap.arrays.locate handle
  let arrays ← heap.arrays.write handle address (write cell.value)
  some { heap with arrays }

variable [ValueKind V]

def step (heap : ArrayHeap V) : ArrayHeapOp V → Option (ArrayHeap V)
  | .new handle address =>
    (heap.arrays.create handle address .new).map fun arrays => { heap with arrays }
  | .fromPacked handle address elements =>
    (heap.arrays.create handle address (.fromPacked elements)).map fun arrays => { heap with arrays }
  | .clone handle copy => (heap.arrays.clone handle copy).map fun arrays => { heap with arrays }
  | .drop handle => (heap.arrays.drop handle).map fun arrays => { heap with arrays }
  | .separateForWrite handle address => heap.update handle address id
  | .apply handle address env op => do
    let (_, cell) ← heap.arrays.locate handle
    let (_, array, cache) ← cell.value.step env heap.cache op
    if cell.value.separates op then
      let arrays ← heap.arrays.write handle address array
      some ⟨arrays, cache⟩
    else some { heap with cache }
  | .setNativeNextAppendKey handle address nextAppendKey =>
    heap.update handle address (·.setNativeNextAppendKey nextAppendKey)
  | .setNativePointerPosition handle address position =>
    heap.update handle address (·.setNativePointerPosition position)

def run (heap : ArrayHeap V) : List (ArrayHeapOp V) → Option (ArrayHeap V)
  | [] => some heap
  | op :: ops => do
    let heap ← heap.step op
    heap.run ops

end ArrayHeap
end Phrust
