import Phrust.Runtime.ArrayStorage

/-!
# Operations of the PHP array

The public operations of `PhpArray` over the storage layouts. An operation that can grow a record
shape also threads the thread's shape cache. Copy-on-write separation copies the storage and leaves
its contents alone, so it is not visible here.
-/

namespace Phrust

/-- Copy-on-write ordered PHP array facade. -/
structure PhpArray (V : Type) where
  storage : ArrayStorage V

/-- Mutable slot guard: the storage it borrows, the slot and the flags of the old value. -/
structure PhpArrayValueMut (V : Type) where
  storage : ArrayStorage V
  index : Nat
  oldIsReference : Bool
  oldIsInt : Bool

namespace PhpArrayValueMut
variable {V : Type} [ValueKind V]
variable (slot : PhpArrayValueMut V)

def deref : Option V := slot.storage.valueAt slot.index

def write (value : V) : PhpArrayValueMut V :=
  { slot with storage := slot.storage.setValueAt slot.index value }

/-- Dropping the guard refreshes the value counters. -/
def drop : Option (PhpArray V) := do
  let value ← slot.storage.valueAt slot.index
  return ⟨slot.storage.setMetadata (slot.storage.metadata.replaceValueFlags
    slot.oldIsReference (isReference value) slot.oldIsInt (isInt value))⟩

end PhpArrayValueMut

namespace PhpArray
variable {V : Type}

def new : PhpArray V :=
  ⟨.packed
    { nextAppendKey := none, internalPointer := none, mutationEpoch := 0, cachedMetadata := {}
      values := [] }⟩

section
variable (array : PhpArray V)

def len : Nat := array.storage.len

def iter : List (ArrayKey × V) := array.storage.iterPairs

def isRecordStorage : Bool := array.storage.isRecord

def recordSlotForSymbol (key : PhpString) : Option Nat :=
  match array.storage with
  | .record storage => storage.shape.slotByKey.get key
  | _ => none

def get (key : ArrayKey) : Option V :=
  match array.storage, key with
  | .packed storage, key => do storage.values[← ArrayStorage.packedKeyIndex storage.values.length key]?
  | .record _, .int _ => none
  | .record storage, .string name => do storage.values[← storage.shape.slotByKey.get name]?
  | .mixed storage, key => do
    let entry ← storage.entries[← storage.index.get key]?.join
    return entry.value

def canAppend : Bool :=
  let next := array.storage.nextAppendKey.getD 0
  next != i64Max || (array.storage.findIndex (.int i64Max)).isNone

def pointerValue : Option V := do
  array.storage.getValue (← array.storage.internalPointer)

def pointerKey : Option ArrayKey := do
  array.storage.keyAt (← array.storage.internalPointer)

def resetPointer : Option V × PhpArray V :=
  let storage := array.storage
  if storage.isEmpty then (none, ⟨storage.setInternalPointer none⟩)
  else
    match storage.firstIndex with
    | none => (none, array)
    | some first =>
      let storage := storage.setInternalPointer (some first)
      (storage.getValue first, ⟨storage⟩)

def endPointer : Option V × PhpArray V :=
  match array.storage.lastIndex with
  | none => (none, array)
  | some last =>
    let storage := array.storage.setInternalPointer (some last)
    (storage.getValue last, ⟨storage⟩)

def nextPointer : Option V × PhpArray V :=
  match array.storage.internalPointer with
  | none => (none, array)
  | some current =>
    match array.storage.nextIndex current with
    | none => (none, ⟨array.storage.setInternalPointer none⟩)
    | some next =>
      let storage := array.storage.setInternalPointer (some next)
      (storage.getValue next, ⟨storage⟩)

def prevPointer : Option (Option V × PhpArray V) :=
  match array.storage.internalPointer with
  | none => some (none, array)
  | some current => do
    match ← array.storage.previousIndex current with
    | none => return (none, ⟨array.storage.setInternalPointer none⟩)
    | some previous =>
      let storage := array.storage.setInternalPointer (some previous)
      return (storage.getValue previous, ⟨storage⟩)

end

section
variable [ValueKind V]

/-- A `Vec` holds at most `isize::MAX` elements, so its length is an `i64`. -/
def fromPacked (elements : { l : List V // (l.length : Int) ≤ i64Max }) : PhpArray V :=
  let len := elements.val.length
  ⟨.packed
    { nextAppendKey := if len > 0 then some len else none
      internalPointer := if len > 0 then some 0 else none
      mutationEpoch := .ofNat len
      cachedMetadata := .fromPackedValues elements.val
      values := elements.val }⟩

section
variable (env : Env) (cache : ShapeCache)

/-- The layout a new key needs: a packed array takes only the next integer key, a record array only
unambiguous string keys, and an empty packed array becomes a record for one of those. -/
def storageForNewKey (storage : ArrayStorage V) (key : ArrayKey) : ArrayStorage V × ShapeCache :=
  let oldLen := storage.len
  let remainsPacked := storage.isPacked && key == .int oldLen
  if remainsPacked then (storage, cache)
  else if storage.isRecord then
    match key with
    | .int _ => (storage.makeRecordMixed, cache)
    | .string name =>
      if arrayKeyHasNumericStringAmbiguity env name then (storage.makeRecordMixed, cache)
      else (storage, cache)
  else
    match key with
    | .string name =>
      if storage.isPacked && oldLen == 0 && !arrayKeyHasNumericStringAmbiguity env name then
        storage.promoteEmptyToRecord cache
      else (storage.makeMixed, cache)
    | .int _ => (storage.makeMixed, cache)

/-- Push a new entry and give a cleared pointer the first element. -/
def pushNew (storage : ArrayStorage V) (key : ArrayKey)
    (value : V) : Option (PhpArray V × ShapeCache) := do
  let (storage, cache) ← storage.pushEntry env cache (.new env key value)
  let storage :=
    if storage.internalPointer.isNone then storage.setInternalPointer storage.firstIndex
    else storage
  return (⟨storage.bumpMutationEpoch⟩, cache)

section
variable (array : PhpArray V)

def insert (key : ArrayKey) (value : V) : Option (Option V × PhpArray V × ShapeCache) := do
  let storage := array.storage.bumpAppendKey key
  match storage.findIndex key with
  | some index =>
    let (old, storage) ← storage.bumpMutationEpoch.replaceValue index value
    return (some old, ⟨storage⟩, cache)
  | none =>
    let (storage, cache) := storageForNewKey env cache storage key
    let (array, cache) ← pushNew env cache storage key value
    return (none, array, cache)

def tryAppend (value : V) : Option (Except PhpArrayAppendError ArrayKey × PhpArray V × ShapeCache) := do
  if !array.canAppend then return (.error {}, array, cache)
  let storage := array.storage.makeRecordMixed
  let next := storage.nextAppendKey.getD 0
  let key := ArrayKey.int next
  let remainsPacked := storage.isPacked && next == storage.len
  let storage := storage.bumpAppendKey key
  let storage := if remainsPacked then storage else storage.makeMixed
  let (array, cache) ← pushNew env cache storage key value
  return (.ok key, array, cache)

def append (value : V) : Option (ArrayKey × PhpArray V × ShapeCache) := do
  let (result, array, cache) ← array.tryAppend env cache value
  match result with
  | .ok key => return (key, array, cache)
  | .error _ => return (.int i64Max, array, cache)

/-- One entry of `spread_extend`: integer keys append, string keys overwrite. -/
def spreadEntry (pair : ArrayKey × V) : Option (PhpArray V × ShapeCache) :=
  match pair with
  | (.int _, value) => (array.append env cache value).map Prod.snd
  | (.string key, value) => (array.insert env cache (.string key) value).map Prod.snd

end

def spreadExtend (array source : PhpArray V) : Option (PhpArray V × ShapeCache) :=
  source.iter.foldlM (fun (array, cache) pair => array.spreadEntry env cache pair) (array, cache)

end

def getMut (array : PhpArray V) (key : ArrayKey) : Option (Option (PhpArrayValueMut V)) :=
  match array.storage.findIndex key with
  | none => some none
  | some index => do
    let value ← array.storage.valueAt index
    return some
      { storage := array.storage.bumpMutationEpoch, index
        oldIsReference := isReference value, oldIsInt := isInt value }

/-- Write one value through `get_mut` and drop the guard; whether the key was there. -/
def getMutWrite (array : PhpArray V) (key : ArrayKey) (value : V) : Option (Bool × PhpArray V) := do
  match ← array.getMut key with
  | none => return (false, array)
  | some slot => return (true, ← (slot.write value).drop)

def recordSetSymbol (array : PhpArray V) (key : PhpString) (value : V) : Option (Bool × PhpArray V) :=
  match array.recordSlotForSymbol key with
  | none => some (false, array)
  | some slot => do
    let (_, storage) ← array.storage.replaceValue slot value
    return (true, ⟨storage.bumpMutationEpoch⟩)

def remove (env : Env) (array : PhpArray V) (key : ArrayKey) : Option (Option V × PhpArray V) :=
  match array.storage.findIndex key with
  | none => some (none, array)
  | some index => do
    let storage :=
      if array.storage.isRecord then array.storage.makeRecordMixed
      else if array.storage.isPacked && index + 1 != array.storage.len then array.storage.makeMixed
      else array.storage
    let ((_, value), storage) ← storage.removeIndex env index
    let storage := (storage.adjustPointerAfterRemove index).compactMixedIfNeeded
    return (some value, ⟨storage.bumpMutationEpoch⟩)

def pop (env : Env) (array : PhpArray V) : Option (Option V × PhpArray V) :=
  match array.storage.lastIndex.bind array.storage.keyAt with
  | none => some (none, array)
  | some lastKey => do
    let previousNext := array.storage.nextAppendKey
    let (value, array) ← array.remove env lastKey
    match lastKey with
    | .int key =>
      if previousNext == some (saturatingAdd key 1) then
        return (value, ⟨array.storage.setNextAppendKey (some key)⟩)
      else return (value, array)
    | .string _ => return (value, array)

end
end PhpArray

/-! ## Runs -/

/-- One operation of a run. The source of `spread_extend` is any array. -/
inductive ArrayOp (V : Type) where
  | insert (key : ArrayKey) (value : V)
  | tryAppend (value : V)
  | append (value : V)
  | remove (key : ArrayKey)
  | pop
  | getMutWrite (key : ArrayKey) (value : V)
  | recordSetSymbol (key : PhpString) (value : V)
  | spreadExtend (source : PhpArray V)
  | resetPointer
  | endPointer
  | nextPointer
  | prevPointer

/-- What an operation returns. -/
inductive ArrayOut (V : Type) where
  | value (value : Option V)
  | key (key : ArrayKey)
  | appended (result : Except PhpArrayAppendError ArrayKey)
  | written (done : Bool)
  | unit

namespace PhpArray
variable {V : Type} [ValueKind V]

def step (env : Env) (cache : ShapeCache) (array : PhpArray V) :
    ArrayOp V → Option (ArrayOut V × PhpArray V × ShapeCache)
  | .insert key value => do
    let (old, array, cache) ← array.insert env cache key value
    return (.value old, array, cache)
  | .tryAppend value => do
    let (result, array, cache) ← array.tryAppend env cache value
    return (.appended result, array, cache)
  | .append value => do
    let (key, array, cache) ← array.append env cache value
    return (.key key, array, cache)
  | .remove key => do
    let (old, array) ← array.remove env key
    return (.value old, array, cache)
  | .pop => do
    let (old, array) ← array.pop env
    return (.value old, array, cache)
  | .getMutWrite key value => do
    let (done, array) ← array.getMutWrite key value
    return (.written done, array, cache)
  | .recordSetSymbol key value => do
    let (done, array) ← array.recordSetSymbol key value
    return (.written done, array, cache)
  | .spreadExtend source => do
    let (array, cache) ← array.spreadExtend env cache source
    return (.unit, array, cache)
  | .resetPointer => some (.value array.resetPointer.1, array.resetPointer.2, cache)
  | .endPointer => some (.value array.endPointer.1, array.endPointer.2, cache)
  | .nextPointer => some (.value array.nextPointer.1, array.nextPointer.2, cache)
  | .prevPointer => do
    let (value, array) ← array.prevPointer
    return (.value value, array, cache)

end PhpArray
end Phrust
