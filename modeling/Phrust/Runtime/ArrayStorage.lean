import Phrust.Theory.Slots

/-!
# PHP array storage

The ordered PHP array of `php_runtime/src/array.rs`. An array lives in one of three layouts: values
only (packed), a shared key shape with a slot vector (record), or entries with tombstones and a hash
index (mixed). `usize` is `Nat`, `i64` is `Int` with its bounds written out, and a panic is `none`.
Reference counts are not part of the storage: what an operation reads of them, together with the
answers of the numeric-string classifier, is its `Env`.
-/

namespace Phrust

/-- Bytes of a PHP string. Equality, hashing and interning are functions of the bytes. -/
abbrev PhpString := List UInt8

/-- `u8::to_ascii_lowercase` -/
def toAsciiLowercase (byte : UInt8) : UInt8 := if 65 ≤ byte ∧ byte ≤ 90 then byte + 32 else byte

def i64Max : Int := 9223372036854775807

def i64Min : Int := -9223372036854775808

def saturatingAdd (a b : Int) : Int := max i64Min (min i64Max (a + b))

/-- PHP array key after normalization. -/
inductive ArrayKey where
  | int (value : Int)
  | string (value : PhpString)
  deriving DecidableEq, Repr

inductive NumericStringArrayKey where
  | integer (value : Int)
  | string
  deriving DecidableEq, Repr

structure PhpArrayAppendError where
  deriving DecidableEq, Repr

/-- The two questions the array storage asks about its values. -/
class ValueKind (V : Type) where
  isReference : V → Bool
  isInt : V → Bool

export ValueKind (isReference isInt)

/-- What an operation reads of the shared state around the array. -/
structure Env where
  /-- `classify_array_key`, through its thread-local cache. -/
  classifyArrayKey : PhpString → NumericStringArrayKey
  /-- Whether the bytes of an incoming key have another owner. -/
  isShared : PhpString → Bool
  /-- Whether a private record shape has no other owner (`Rc::get_mut` succeeds). -/
  soleShapeOwner : Bool

/-- A hash map, given by its lookup function. -/
def StableKeyMap (K : Type u) (V : Type v) := K → Option V

namespace StableKeyMap
variable {K : Type u} {V : Type v} [DecidableEq K]

def empty : StableKeyMap K V := fun _ => none
section
variable (map : StableKeyMap K V) (key : K)

def get : Option V := map key
def insert (value : V) : StableKeyMap K V :=
  fun k => if k = key then some value else map k
def remove : StableKeyMap K V :=
  fun k => if k = key then none else map k

end

omit [DecidableEq K] in
@[simp] theorem get_empty (key : K) : (empty : StableKeyMap K V).get key = none := rfl

@[simp] theorem get_insert (map : StableKeyMap K V) (key k : K) (value : V) :
    (map.insert key value).get k = if k = key then some value else map.get k := rfl

end StableKeyMap

/-- A string key that looks numeric but does not normalize to an integer key. -/
def arrayKeyHasNumericStringAmbiguity (env : Env) (value : PhpString) : Bool :=
  match value.head? with
  | none => false
  | some first =>
    if (48 ≤ first && first ≤ 57) || first == 43 || first == 45 || first == 32 || first == 9 ||
        first == 10 || first == 13 then
      env.classifyArrayKey value == .string
    else false

/-! ## Cached metadata -/

structure ArrayCachedMetadata where
  len : Nat := 0
  referenceValues : Nat := 0
  intValues : Nat := 0
  intKeys : Nat := 0
  stringKeys : Nat := 0
  numericStringAmbiguousKeys : Nat := 0
  sharedStringKeys : Nat := 0
  deriving DecidableEq, Repr

/-- One ordered slot of a mixed array. -/
structure ArrayEntry (V : Type) where
  key : ArrayKey
  value : V
  stringKeySharedForShape : Bool

def ArrayEntry.new (env : Env) (key : ArrayKey) (value : V) : ArrayEntry V where
  key := key
  value := value
  stringKeySharedForShape :=
    match key with
    | .int _ => false
    | .string key => env.isShared key

namespace ArrayCachedMetadata
variable {V : Type} [ValueKind V]

section
variable (metadata : ArrayCachedMetadata) (value : V)

/-- The value counters; the key counters are the callers'. -/
def addValue : ArrayCachedMetadata :=
  { metadata with
    len := metadata.len + 1
    referenceValues := metadata.referenceValues + (isReference value).toNat
    intValues := metadata.intValues + (isInt value).toNat }

def removeValue : ArrayCachedMetadata :=
  { metadata with
    len := metadata.len - 1
    referenceValues := metadata.referenceValues - (isReference value).toNat
    intValues := metadata.intValues - (isInt value).toNat }

def addPackedValue : ArrayCachedMetadata :=
  { metadata.addValue value with intKeys := metadata.intKeys + 1 }

def addRecordValue : ArrayCachedMetadata :=
  { metadata.addValue value with
    stringKeys := metadata.stringKeys + 1
    sharedStringKeys := metadata.sharedStringKeys + 1 }

def removePackedValue : ArrayCachedMetadata :=
  { metadata.removeValue value with intKeys := metadata.intKeys - 1 }

end

section
variable (env : Env) (metadata : ArrayCachedMetadata) (entry : ArrayEntry V)

def addEntry : ArrayCachedMetadata :=
  match entry.key with
  | .int _ => { metadata.addValue entry.value with intKeys := metadata.intKeys + 1 }
  | .string key =>
    { metadata.addValue entry.value with
      stringKeys := metadata.stringKeys + 1
      numericStringAmbiguousKeys :=
        metadata.numericStringAmbiguousKeys + (arrayKeyHasNumericStringAmbiguity env key).toNat
      sharedStringKeys := metadata.sharedStringKeys + entry.stringKeySharedForShape.toNat }

def removeEntry : ArrayCachedMetadata :=
  match entry.key with
  | .int _ => { metadata.removeValue entry.value with intKeys := metadata.intKeys - 1 }
  | .string key =>
    { metadata.removeValue entry.value with
      stringKeys := metadata.stringKeys - 1
      numericStringAmbiguousKeys :=
        metadata.numericStringAmbiguousKeys - (arrayKeyHasNumericStringAmbiguity env key).toNat
      sharedStringKeys := metadata.sharedStringKeys - entry.stringKeySharedForShape.toNat }

end

def replaceValueFlags (metadata : ArrayCachedMetadata)
    (oldIsReference newIsReference oldIsInt newIsInt : Bool) : ArrayCachedMetadata :=
  { metadata with
    referenceValues := metadata.referenceValues - oldIsReference.toNat + newIsReference.toNat
    intValues := metadata.intValues - oldIsInt.toNat + newIsInt.toNat }

def fromPackedValues (values : List V) : ArrayCachedMetadata :=
  values.foldl addPackedValue {}

end ArrayCachedMetadata

/-! ## Record shapes -/

/-- Key layout of a record array. A slot number is a `u32`. -/
structure RecordShape where
  shapeId : UInt64
  keys : List PhpString
  slotByKey : StableKeyMap PhpString Nat

def u32 (n : Nat) : Nat := n % 2 ^ 32

/-- An interned shape with its memoized transitions, which name other interned shapes. -/
structure CachedShape where
  sequenceHash : UInt64
  shape : RecordShape
  transitions : StableKeyMap PhpString Nat

/-- The thread-local `RECORD_SHAPE_CACHE` and `NEXT_RECORD_SHAPE_ID`. The buckets of the hash map
are the shapes of one `sequenceHash`, in order. -/
structure ShapeCache where
  shapes : List CachedShape
  nextRecordShapeId : UInt64

def ShapeCache.empty : ShapeCache := ⟨[], 1⟩

def stableHashBytes (bytes : PhpString) : UInt64 :=
  let hash := bytes.foldl (fun hash byte => (hash ^^^ byte.toUInt64) * 0x00000100000001b3)
    0xcbf29ce484222325
  if hash == 0 then 1 else hash

def recordShapeSequenceHash (keys : List PhpString) (appended : Option PhpString) : UInt64 :=
  (keys ++ appended.toList).foldl
    (fun hash key => (hash ^^^ stableHashBytes key) * 0x00000100000001b3) 0xcbf29ce484222325

/-- `enumerate().map(|(index, key)| (key, index as u32)).collect()`. -/
def slotsOfKeys (keys : List PhpString) : StableKeyMap PhpString Nat :=
  keys.zipIdx.foldl (fun map (key, index) => map.insert key (u32 index)) .empty

def CachedShape.hasKeys (cached : CachedShape) (keys : List PhpString) (appended : Option PhpString) : Bool :=
  cached.shape.keys.length == keys.length + appended.isSome.toNat &&
    (cached.shape.keys.zip (keys ++ appended.toList)).all fun (a, b) => a == b

/-- The interned shape for `keys + appended` and its place in the cache. -/
def recordShapeFor (cache : ShapeCache) (keys : List PhpString) (appended : Option PhpString) :
    Nat × RecordShape × ShapeCache :=
  let sequenceHash := recordShapeSequenceHash keys appended
  match cache.shapes.zipIdx.find? fun (cached, _) =>
      cached.sequenceHash == sequenceHash && cached.hasKeys keys appended with
  | some (existing, index) => (index, existing.shape, cache)
  | none =>
    let internedKeys := keys ++ appended.toList
    let shape := ⟨cache.nextRecordShapeId, internedKeys, slotsOfKeys internedKeys⟩
    (cache.shapes.length, shape,
      ⟨cache.shapes ++ [⟨sequenceHash, shape, .empty⟩], cache.nextRecordShapeId + 1⟩)

def recordShapePrivateGrowthThreshold : Nat := 32

/-- `shape + key` in place: a private shape with a single owner. -/
def RecordShape.extendInPlace (shape : RecordShape) (key : PhpString) : RecordShape :=
  { shape with
    keys := shape.keys ++ [key]
    slotByKey := shape.slotByKey.insert key (u32 shape.keys.length) }

/-- `shape + key` as a private copy. -/
def recordShapePrivateExtended (cache : ShapeCache) (shape : RecordShape) (key : PhpString) :
    RecordShape × ShapeCache :=
  (⟨cache.nextRecordShapeId, shape.keys ++ [key], shape.slotByKey.insert key (u32 shape.keys.length)⟩,
    { cache with nextRecordShapeId := cache.nextRecordShapeId + 1 })

section
variable (cache : ShapeCache) (parent : Option Nat)

/-- Memoize a transition on the parent. Only an interned parent outlives the call. -/
def ShapeCache.addTransition (key : PhpString) (target : Nat) : ShapeCache :=
  match parent with
  | none => cache
  | some parent =>
    { cache with
      shapes := cache.shapes.modify parent fun cached =>
        { cached with transitions := cached.transitions.insert key target } }

/-- The memoized transition of the parent, when it passes its guard. A private shape has none. -/
def ShapeCache.transition (shape : RecordShape) (key : PhpString) : Option (Nat × RecordShape) := do
  let cached ← cache.shapes[← parent]?
  let target ← cached.transitions.get key
  let next ← cache.shapes[target]?
  if next.shape.keys.length == shape.keys.length + 1 && next.shape.keys.getLast? == some key then
    some (target, next.shape)
  else none

/-- `shape + key` as an interned shape, memoized on the parent. -/
def recordShapeExtended (shape : RecordShape) (key : PhpString) : Nat × RecordShape × ShapeCache :=
  match cache.transition parent shape key with
  | some (target, next) => (target, next, cache)
  | none =>
    let (target, next, cache) := recordShapeFor cache shape.keys (some key)
    (target, next, cache.addTransition parent key target)

end

/-! ## The three layouts -/

/-- The fields the three layouts share. -/
structure ArrayHeader where
  nextAppendKey : Option Int
  internalPointer : Option Nat
  mutationEpoch : UInt64
  cachedMetadata : ArrayCachedMetadata

/-- Values only: the keys are `0..len`. -/
structure PackedArrayStorage (V : Type) extends ArrayHeader where
  values : List V

/-- A key shape and its values. `interned` is the shape's place in the cache; a private shape has
none. -/
structure RecordArrayStorage (V : Type) extends ArrayHeader where
  shape : RecordShape
  interned : Option Nat
  values : List V

/-- Entries in insertion order, with tombstones, and an index from keys to physical slots. -/
structure MixedArrayStorage (V : Type) extends ArrayHeader where
  entries : List (Option (ArrayEntry V))
  liveLen : Nat
  index : StableKeyMap ArrayKey Nat

inductive ArrayStorage (V : Type) where
  | packed (storage : PackedArrayStorage V)
  | record (storage : RecordArrayStorage V)
  | mixed (storage : MixedArrayStorage V)

namespace ArrayStorage
variable {V : Type}

def header : ArrayStorage V → ArrayHeader
  | .packed storage => storage.toArrayHeader
  | .record storage => storage.toArrayHeader
  | .mixed storage => storage.toArrayHeader

def setHeader : ArrayStorage V → ArrayHeader → ArrayStorage V
  | .packed storage, header => .packed { storage with toArrayHeader := header }
  | .record storage, header => .record { storage with toArrayHeader := header }
  | .mixed storage, header => .mixed { storage with toArrayHeader := header }

section
variable (storage : ArrayStorage V)

def nextAppendKey : Option Int := storage.header.nextAppendKey
def internalPointer : Option Nat := storage.header.internalPointer
def mutationEpoch : UInt64 := storage.header.mutationEpoch
def metadata : ArrayCachedMetadata := storage.header.cachedMetadata

def setNextAppendKey (value : Option Int) : ArrayStorage V :=
  storage.setHeader { storage.header with nextAppendKey := value }

def setInternalPointer (value : Option Nat) : ArrayStorage V :=
  storage.setHeader { storage.header with internalPointer := value }

def setMutationEpoch (value : UInt64) : ArrayStorage V :=
  storage.setHeader { storage.header with mutationEpoch := value }

def setMetadata (value : ArrayCachedMetadata) : ArrayStorage V :=
  storage.setHeader { storage.header with cachedMetadata := value }

end

/-- The value of a slot that must be live; the source panics on any other index. -/
def valueAt : ArrayStorage V → Nat → Option V
  | .packed storage, index => storage.values[index]?
  | .record storage, index => storage.values[index]?
  | .mixed storage, index => storage.entries[index]?.join.map ArrayEntry.value

def getValue : ArrayStorage V → Nat → Option V
  | .packed storage, index => storage.values[index]?
  | .record storage, index => storage.values[index]?
  | .mixed storage, index => storage.entries[index]?.join.map ArrayEntry.value

/-- Write through `value_at_mut`. -/
def setValueAt : ArrayStorage V → Nat → V → ArrayStorage V
  | .packed storage, index, value => .packed { storage with values := storage.values.set index value }
  | .record storage, index, value => .record { storage with values := storage.values.set index value }
  | .mixed storage, index, value =>
    .mixed { storage with
      entries := storage.entries.modify index fun entry => entry.map ({ · with value }) }

def keyAt : ArrayStorage V → Nat → Option ArrayKey
  | .packed storage, index => if index < storage.values.length then some (.int index) else none
  | .record storage, index => storage.shape.keys[index]?.map .string
  | .mixed storage, index => storage.entries[index]?.join.map ArrayEntry.key

def iterPairs : ArrayStorage V → List (ArrayKey × V)
  | .packed storage => storage.values.zipIdx.map fun (value, index) => (.int index, value)
  | .record storage => (storage.shape.keys.zip storage.values).map fun (key, value) =>
      (.string key, value)
  | .mixed storage => storage.entries.reduceOption.map fun entry => (entry.key, entry.value)

def len : ArrayStorage V → Nat
  | .packed storage => storage.values.length
  | .record storage => storage.values.length
  | .mixed storage => storage.liveLen

def isEmpty (storage : ArrayStorage V) : Bool := storage.len == 0

def firstIndex : ArrayStorage V → Option Nat
  | .packed storage => if storage.values.isEmpty then none else some 0
  | .record storage => if storage.values.isEmpty then none else some 0
  | .mixed storage => storage.entries.findIdx? Option.isSome

def lastIndex : ArrayStorage V → Option Nat
  | .packed storage => if storage.values.isEmpty then none else some (storage.values.length - 1)
  | .record storage => if storage.values.isEmpty then none else some (storage.values.length - 1)
  | .mixed storage => Slots.rposition Option.isSome storage.entries

def nextIndex : ArrayStorage V → Nat → Option Nat
  | .packed storage, index => if index + 1 < storage.values.length then some (index + 1) else none
  | .record storage, index => if index + 1 < storage.values.length then some (index + 1) else none
  | .mixed storage, index =>
    ((storage.entries.drop (index + 1)).findIdx? Option.isSome).map (· + (index + 1))

/-- The outer `Option` is the panic of slicing past the end. -/
def previousIndex : ArrayStorage V → Nat → Option (Option Nat)
  | .packed _, index => some (if index = 0 then none else some (index - 1))
  | .record _, index => some (if index = 0 then none else some (index - 1))
  | .mixed storage, index =>
    if index ≤ storage.entries.length then
      some (Slots.rposition Option.isSome (storage.entries.take index))
    else none

def isPacked : ArrayStorage V → Bool
  | .packed _ => true
  | _ => false

def isRecord : ArrayStorage V → Bool
  | .record _ => true
  | _ => false

def mixedCompactionMinTombstones : Nat := 32

/-- One step of the compaction loop: the entries kept so far, their index and the new pointer. -/
def compactStep (oldPointer : Option Nat)
    (kept : List (Option (ArrayEntry V)) × StableKeyMap ArrayKey Nat × Option Nat)
    (slot : Option (ArrayEntry V) × Nat) :
    List (Option (ArrayEntry V)) × StableKeyMap ArrayKey Nat × Option Nat :=
  match slot with
  | (none, _) => kept
  | (some entry, oldIndex) =>
    let (entries, index, pointer) := kept
    let newIndex := entries.length
    (entries ++ [some entry], index.insert entry.key newIndex,
      if oldPointer == some oldIndex then some newIndex else pointer)

def compactMixedIfNeeded : ArrayStorage V → ArrayStorage V
  | .mixed storage =>
    let tombstones := storage.entries.length - storage.liveLen
    if tombstones < mixedCompactionMinTombstones || tombstones * 2 < storage.entries.length then
      .mixed storage
    else
      let (entries, index, pointer) :=
        storage.entries.zipIdx.foldl (compactStep storage.internalPointer) ([], .empty, none)
      .mixed { storage with entries, index, internalPointer := pointer }
  | storage => storage

/-- The caller has checked that the array is packed and empty. -/
def promoteEmptyToRecord (storage : ArrayStorage V) (cache : ShapeCache) : ArrayStorage V × ShapeCache :=
  let (interned, shape, cache) := recordShapeFor cache [] none
  (.record
    { nextAppendKey := storage.nextAppendKey
      internalPointer := storage.internalPointer
      mutationEpoch := storage.mutationEpoch
      cachedMetadata := {}
      shape, interned := some interned, values := [] }, cache)

def buildIndex (entries : List (ArrayEntry V)) : StableKeyMap ArrayKey Nat :=
  entries.zipIdx.foldl (fun index (entry, i) => index.insert entry.key i) .empty

/-- A full mixed storage for `entries` with the header of the storage it replaces. -/
def mixedOfEntries (header : ArrayHeader) (entries : List (ArrayEntry V)) : ArrayStorage V :=
  .mixed
    { toArrayHeader := header
      entries := entries.map some
      liveLen := entries.length
      index := buildIndex entries }

/-- The keys are clones of keys the shape still owns, so each of them is shared. -/
def makeRecordMixed : ArrayStorage V → ArrayStorage V
  | .record storage =>
    mixedOfEntries storage.toArrayHeader ((storage.values.zip storage.shape.keys).map
      fun (value, key) => ⟨.string key, value, true⟩)
  | storage => storage

def makeMixed : ArrayStorage V → ArrayStorage V
  | .record storage => makeRecordMixed (.record storage)
  | .packed storage =>
    mixedOfEntries storage.toArrayHeader (storage.values.zipIdx.map
      fun (value, index) => ⟨.int index, value, false⟩)
  | storage => storage

def packedKeyIndex (len : Nat) : ArrayKey → Option Nat
  | .string _ => none
  | .int index => if 0 ≤ index ∧ index.toNat < len then some index.toNat else none

def findIndex : ArrayStorage V → ArrayKey → Option Nat
  | .packed storage, key => packedKeyIndex storage.values.length key
  | .record _, .int _ => none
  | .record storage, .string key => storage.shape.slotByKey.get key
  | .mixed storage, key => storage.index.get key

/-- The shape of a record array grown by `key`: in place for a private shape with one owner, as a
private copy past the threshold, else interned. The cache owns every interned shape, so `Rc::get_mut`
fails on it. -/
def growShape (env : Env) (cache : ShapeCache) (shape : RecordShape) (interned : Option Nat)
    (key : PhpString) : RecordShape × Option Nat × ShapeCache :=
  if interned.isNone && env.soleShapeOwner then
    (shape.extendInPlace key, none, cache)
  else if shape.keys.length ≥ recordShapePrivateGrowthThreshold then
    let (shape, cache) := recordShapePrivateExtended cache shape key
    (shape, none, cache)
  else
    let (target, shape, cache) := recordShapeExtended cache interned shape key
    (shape, some target, cache)

section
variable [ValueKind V]

/-- The source panics when a record array is given an integer key. -/
def pushEntry (env : Env) (cache : ShapeCache) (entry : ArrayEntry V) :
    ArrayStorage V → Option (ArrayStorage V × ShapeCache)
  | .record storage =>
    match entry.key with
    | .int _ => none
    | .string key =>
      let (shape, interned, cache) := growShape env cache storage.shape storage.interned key
      some (.record { storage with
        shape, interned
        cachedMetadata := storage.cachedMetadata.addRecordValue entry.value
        values := storage.values ++ [entry.value] }, cache)
  | .packed storage =>
    some (.packed { storage with
      cachedMetadata := storage.cachedMetadata.addPackedValue entry.value
      values := storage.values ++ [entry.value] }, cache)
  | .mixed storage =>
    some (.mixed { storage with
      index := storage.index.insert entry.key storage.entries.length
      cachedMetadata := storage.cachedMetadata.addEntry env entry
      entries := storage.entries ++ [some entry]
      liveLen := storage.liveLen + 1 }, cache)

def replaceValue (storage : ArrayStorage V) (index : Nat) (value : V) :
    Option (V × ArrayStorage V) := do
  let old ← storage.valueAt index
  let storage := storage.setValueAt index value
  let new ← storage.valueAt index
  return (old, storage.setMetadata (storage.metadata.replaceValueFlags
    (isReference old) (isReference new) (isInt old) (isInt new)))

/-- The source panics on a record array and on an index that is not live. -/
def removeIndex (env : Env) : ArrayStorage V → Nat → Option ((ArrayKey × V) × ArrayStorage V)
  | .record _, _ => none
  | .packed storage, index => do
    let value ← storage.values[index]?
    return ((.int index, value), .packed { storage with
      values := storage.values.eraseIdx index
      cachedMetadata := storage.cachedMetadata.removePackedValue value })
  | .mixed storage, index => do
    let entry ← storage.entries[index]?.join
    return ((entry.key, entry.value), .mixed { storage with
      entries := storage.entries.set index none
      cachedMetadata := storage.cachedMetadata.removeEntry env entry
      index := storage.index.remove entry.key
      liveLen := storage.liveLen - 1 })

end

variable (storage : ArrayStorage V)

def bumpAppendKey : ArrayKey → ArrayStorage V
  | .string _ => storage
  | .int value =>
    let next := saturatingAdd value 1
    if storage.nextAppendKey.all (· < next) then storage.setNextAppendKey (some next) else storage

def bumpMutationEpoch : ArrayStorage V :=
  storage.setMutationEpoch (storage.mutationEpoch + 1)

/-- The pointer after `removedIndex` has gone from a mixed array. -/
def mixedPointerAfterRemove (pointer removedIndex : Nat) : Option Nat :=
  if storage.isEmpty then none
  else if pointer = removedIndex then storage.nextIndex removedIndex
  else some pointer

/-- The pointer after `removedIndex` has gone from a packed array. -/
def densePointerAfterRemove (pointer removedIndex : Nat) : Option Nat :=
  if storage.isEmpty then none
  else if pointer > removedIndex then some (pointer - 1)
  else if pointer ≥ storage.len then none
  else some pointer

def adjustPointerAfterRemove (removedIndex : Nat) : ArrayStorage V :=
  match storage.internalPointer with
  | none => storage
  | some pointer =>
    match storage with
    | .mixed _ => storage.setInternalPointer (mixedPointerAfterRemove storage pointer removedIndex)
    | _ => storage.setInternalPointer (densePointerAfterRemove storage pointer removedIndex)

end ArrayStorage
end Phrust
