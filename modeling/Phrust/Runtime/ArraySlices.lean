import Phrust.Runtime.ReferenceArray
import Phrust.Runtime.StringWriters

/-!
# Slices of arrays

`array_slice` and `array_splice` over the entries of an array, for arrays as the reference has them and for
those of the runtime. Values are passed on as they are, and a slice out of range or an overflow is `none`.
-/

namespace Phrust
open ReferenceArray
variable {V : Type}

def normalizeSliceStart (len : Nat) (offset : Int) : Nat :=
  if 0 ≤ offset then min offset.toNat len else len - offset.natAbs

/-- The resolved range; the addition saturates. -/
def sliceBounds (len : Nat) (offset : Int) (length : Option Int) : Nat × Nat :=
  let start := normalizeSliceStart len offset
  let stop :=
    match length with
    | none => len
    | some length =>
      if 0 ≤ length then min (min (start + length.toNat) (usizeLimit - 1)) len
      else len - length.natAbs
  (start, max stop start)

/-- `entries[start..stop]` -/
def slice (entries : List α) (start stop : Nat) : Option (List α) :=
  if start ≤ stop ∧ stop ≤ entries.length then some ((entries.take stop).drop start) else none

def spliceLength (total start : Nat) (length : Int) : Nat :=
  if 0 ≤ length then min length.toNat (total - start) else total - start - length.natAbs

def sliceEntries (entries : List α) (offset : Int) (length : Option Int) : Option (List α) :=
  let (start, stop) := sliceBounds entries.length offset length
  slice entries start stop

/-- The entries that are removed and those of the array that is left behind. -/
def spliceEntries (entries : List (ArrayKey × V)) (offset : Int) (length : Option Int) (replacement : List V) :
    Option (List (ArrayKey × V) × List (ArrayKey × V)) := do
  let start := normalizeSliceStart entries.length offset
  let deleteLen := (length.map (spliceLength entries.length start)).getD (entries.length - start)
  let stop ← if start + deleteLen < usizeLimit then some (start + deleteLen) else none
  let removed ← slice entries start stop
  let before ← slice entries 0 start
  let after ← slice entries stop entries.length
  return (removed, before ++ replacement.map (.int 0, ·) ++ after)

def arrayFromEntriesPreserve (entries : List (ArrayKey × V)) : ReferenceArray V :=
  entries.foldl (fun array (key, value) => (array.insert key value).2) new

def arrayFromEntriesReindexInts (entries : List (ArrayKey × V)) : ReferenceArray V :=
  entries.foldl spreadEntry new

section
variable (array : ReferenceArray V) (offset : Int) (length : Option Int)

def arraySlice (preserveKeys : Bool) : Option (ReferenceArray V) := do
  let entries ← sliceEntries array.map.entries offset length
  return if preserveKeys then arrayFromEntriesPreserve entries else arrayFromEntriesReindexInts entries

/-- The removed part and the array that is left behind. -/
def arraySplice (replacement : List V) : Option (ReferenceArray V × ReferenceArray V) := do
  let (removed, left) ← spliceEntries array.map.entries offset length replacement
  return (arrayFromEntriesReindexInts removed, arrayFromEntriesReindexInts left)

end

namespace PhpArray
variable [ValueKind V] (env : Env) (cache : ShapeCache)

def arrayFromEntriesPreserve (entries : List (ArrayKey × V)) : Option (PhpArray V × ShapeCache) :=
  entries.foldlM (fun (array, cache) (key, value) => (array.insert env cache key value).map Prod.snd) (new, cache)

def arrayFromEntriesReindexInts (entries : List (ArrayKey × V)) : Option (PhpArray V × ShapeCache) :=
  entries.foldlM (fun (array, cache) pair => array.spreadEntry env cache pair) (new, cache)

variable (array : PhpArray V) (offset : Int) (length : Option Int)

def arraySlice (preserveKeys : Bool) : Option (PhpArray V × ShapeCache) := do
  let entries ← sliceEntries array.iter offset length
  if preserveKeys then arrayFromEntriesPreserve env cache entries else arrayFromEntriesReindexInts env cache entries

def arraySplice (replacement : List V) : Option (PhpArray V × PhpArray V × ShapeCache) := do
  let (removed, left) ← spliceEntries array.iter offset length replacement
  let (left, cache) ← arrayFromEntriesReindexInts env cache left
  let (removed, cache) ← arrayFromEntriesReindexInts env cache removed
  return (removed, left, cache)

end PhpArray
end Phrust
