import Phrust.Theory.OrderedMap
import Phrust.Runtime.PhpArray

/-!
# The reference for PHP arrays

What a PHP array is for: an ordered association list with an internal pointer and the next free
integer key. There are no layouts, no tombstones and no index here.
-/

namespace Phrust

/-- An ordered association list with its pointer and the next implicit key, if one was ever set. -/
structure ReferenceArray (V : Type) where
  map : OrderedMap ArrayKey V
  next : Option Int

namespace ReferenceArray
variable {V : Type}

def new : ReferenceArray V := ⟨.empty, none⟩

/-- The integer keys `0..len` in order. -/
def listEntries (elements : List V) : List (ArrayKey × V) :=
  elements.zipIdx.map fun (value, index) => (.int index, value)

theorem listEntries_keys_nodup (elements : List V) : ((listEntries elements).map Prod.fst).Nodup := by
  have hkeys : (listEntries elements).map Prod.fst =
      (List.range elements.length).map fun i : Nat => ArrayKey.int i := by
    apply List.ext_getElem?
    intro i
    simp only [listEntries, List.getElem?_map, List.getElem?_zipIdx]
    by_cases h : i < elements.length
    · simp [h]
    · simp [h]
  rw [hkeys]
  exact List.nodup_range.map fun i j h => Int.ofNat_inj.mp (ArrayKey.int.inj h)

def ofList (elements : List V) : ReferenceArray V where
  map := .ofList (listEntries elements) (listEntries_keys_nodup elements)
  next := if elements.isEmpty then none else some elements.length

/-- The next implicit key once `key` is in use. -/
def nextAfter (next : Option Int) : ArrayKey → Option Int
  | .string _ => next
  | .int value => if next.all (· < saturatingAdd value 1) then some (saturatingAdd value 1) else next

section
variable (array : ReferenceArray V)

def insert (key : ArrayKey) (value : V) : Option V × ReferenceArray V :=
  let (old, map) := array.map.insert key value
  (old, ⟨map, nextAfter array.next key⟩)

/-- An implicit append takes the next key; it fails when that is the largest and already in use. -/
def tryAppend (value : V) : Except PhpArrayAppendError ArrayKey × ReferenceArray V :=
  let next := array.next.getD 0
  if next = i64Max ∧ (array.map.get (.int i64Max)).isSome then (.error {}, array)
  else (.ok (.int next), (array.insert (.int next) value).2)

def append (value : V) : ArrayKey × ReferenceArray V :=
  match array.tryAppend value with
  | (.ok key, array) => (key, array)
  | (.error _, array) => (.int i64Max, array)

def remove (key : ArrayKey) : Option V × ReferenceArray V :=
  let (old, map) := array.map.erase key
  (old, { array with map })

end

/-- Popping the most recent implicit key gives that key back. -/
def nextAfterPop (next : Option Int) : ArrayKey → Option Int
  | .string _ => next
  | .int key => if next = some (saturatingAdd key 1) then some key else next

section
variable (array : ReferenceArray V)

def pop : Option V × ReferenceArray V :=
  match array.map.entries.getLast? with
  | none => (none, array)
  | some (key, _) =>
    let (old, array') := array.remove key
    (old, { array' with next := nextAfterPop array.next key })

def spreadEntry : ArrayKey × V → ReferenceArray V
  | (.int _, value) => (array.append value).2
  | (.string key, value) => (array.insert (.string key) value).2

def seek (map : OrderedMap ArrayKey V) : ArrayOut V × ReferenceArray V :=
  (.value (map.current.map Prod.snd), { array with map })

end

/-- One operation. `shaped` is whether the array is record-shaped, which `record_set_symbol`
reports: it refuses any other array. -/
def step (shaped : Bool) (array : ReferenceArray V) : ArrayOp V → ArrayOut V × ReferenceArray V
  | .insert key value => ((array.insert key value).1 |> .value, (array.insert key value).2)
  | .tryAppend value => ((array.tryAppend value).1 |> .appended, (array.tryAppend value).2)
  | .append value => ((array.append value).1 |> .key, (array.append value).2)
  | .remove key => ((array.remove key).1 |> .value, (array.remove key).2)
  | .pop => (array.pop.1 |> .value, array.pop.2)
  | .getMutWrite key value =>
    let (done, map) := array.map.replace key value
    (.written done, { array with map })
  | .recordSetSymbol key value =>
    if shaped then
      let (done, map) := array.map.replace (.string key) value
      (.written done, { array with map })
    else (.written false, array)
  | .spreadExtend source => (.unit, source.iter.foldl spreadEntry array)
  | .resetPointer => array.seek array.map.toFirst
  | .endPointer => array.seek array.map.toLast
  | .nextPointer => array.seek array.map.toNext
  | .prevPointer => array.seek array.map.toPrev

end ReferenceArray

/-- Everything a caller can see of the array is what the reference has. -/
structure PhpArray.Observes {V : Type} (array : PhpArray V) (ref : ReferenceArray V) : Prop where
  iter : array.iter = ref.map.entries
  len : array.len = ref.map.entries.length
  get : ∀ key, array.get key = ref.map.get key
  pointerKey : array.pointerKey = ref.map.current.map Prod.fst
  pointerValue : array.pointerValue = ref.map.current.map Prod.snd

/-- The run `steps` follows the reference: what is seen agrees after every step, and every step
returns what the reference returns. -/
def PhpArray.Follows {V : Type} [ValueKind V] (cache : ShapeCache) (array : PhpArray V)
    (ref : ReferenceArray V) : List (Env × ArrayOp V) → Prop
  | [] => array.Observes ref
  | (env, op) :: steps =>
    array.Observes ref ∧ ∃ out array' cache', array.step env cache op = some (out, array', cache') ∧
      out = (ref.step array.isRecordStorage op).1 ∧
      PhpArray.Follows cache' array' (ref.step array.isRecordStorage op).2 steps

end Phrust
