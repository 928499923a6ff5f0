import Phrust.Runtime.ArrayHeap
import Phrust.Verify.ArrayRuns

/-!
# Arrays on a heap keep exact metadata

Every operation of an array keeps its metadata exact, so every array that a run of operations on
handles reaches has exact metadata, whoever shares it, and the fast queries answer as a walk over the
entries would. The run may not give a record array a key past its `u32` slot numbers.
-/

namespace Phrust
open Slots ArrayStorage PhpArray ArrayCachedMetadata Option
namespace PhpArray
variable {V : Type} [ValueKind V] {classify : PhpString → NumericStringArrayKey} {env : Env}
  {array array' : PhpArray V} {ref : ReferenceArray V} {cache cache' : ShapeCache}

/-! ## What exact metadata says -/

def elementSummaryOf (values : List V) : PhpArrayElementSummary :=
  if values = [] then .empty else if values.all isInt then .allInt else .mixed

end PhpArray

/-- The summary holds of the keys. `intOnly` does not exclude the keys `0..len`: an array that has
left the packed layout does not come back to it. -/
def PhpArrayKeyKindSummary.Describes : PhpArrayKeyKindSummary → List ArrayKey → Prop
  | .empty, keys => keys = []
  | .sequentialInt, keys =>
    keys ≠ [] ∧ keys = (List.range keys.length).map fun index => .int index
  | .intOnly, keys => keys ≠ [] ∧ ∀ key ∈ keys, key.isInt = true
  | .stringOnly, keys => keys ≠ [] ∧ ∀ key ∈ keys, key.isString = true
  | .mixed, keys => (∃ key ∈ keys, key.isInt = true) ∧ ∃ key ∈ keys, key.isString = true

/-- What each layout promises about its keys. -/
def ArrayStorage.LayoutExact (classify : PhpString → NumericStringArrayKey) : ArrayStorage V → Prop
  | .packed storage => (ArrayStorage.packed storage).iterPairs.map Prod.fst =
      (List.range storage.values.length).map fun index => .int index
  | .record storage => storage.shape.keys.length = storage.values.length ∧
      storage.shape.keys.Nodup ∧
      (∀ name ∈ storage.shape.keys, (ArrayKey.string name).isAmbiguous classify = false) ∧
      ∀ name slot, storage.shape.slotByKey.get name = some slot ↔
        storage.shape.keys[slot]? = some name
  | .mixed storage => storage.liveLen = storage.entries.reduceOption.length ∧
      ∀ key slot, storage.index.get key = some slot ↔
        ∃ entry, storage.entries[slot]? = some (some entry) ∧ entry.key = key

namespace PhpArray
variable {V : Type} {classify : PhpString → NumericStringArrayKey} {env : Env}
  {array array' : PhpArray V} {ref : ReferenceArray V} {cache cache' : ShapeCache}

/-- `packed_int_sum_fast` with every guard read off the values. -/
def packedIntSumOf [IntPayload V] (array : PhpArray V) (shared : Bool) :
    Except PhpArrayPackedIntReductionError Int :=
  if !array.isPackedFast then .error .notPacked
  else if shared then .error .shared
  else if (array.iter.map Prod.snd).any isReference then .error .containsReferences
  else if !(array.iter.map Prod.snd).all isInt then .error .nonIntElement
  else checkedSum 0 (array.iter.map Prod.snd)

/-- The metadata is exact, the layout keeps its promises, and the fast queries answer what the
entries say. -/
structure Truthful [IntPayload V] (classify : PhpString → NumericStringArrayKey) (array : PhpArray V)
    (shared : Bool) : Prop where
  metadata : array.storage.metadata = recount classify array.storage.liveEntries
  layout : array.storage.LayoutExact classify
  elementSummary : array.elementSummaryFast = elementSummaryOf (array.iter.map Prod.snd)
  containsReferences : array.containsReferencesFast = (array.iter.map Prod.snd).any isReference
  keyKindSummary : array.keyKindSummaryFast.Describes (array.iter.map Prod.fst)
  packedIntSum : array.packedIntSumFast shared = array.packedIntSumOf shared

theorem packed_keys (storage : PackedArrayStorage V) :
    (ArrayStorage.packed storage).iterPairs.map Prod.fst =
      (List.range storage.values.length).map fun index => .int index := by
  apply List.ext_getElem?
  intro i
  by_cases hi : i < storage.values.length
  · simp [iterPairs, hi]
  · simp [iterPairs, hi]

theorem layoutExact [ValueKind V] (hwf : array.storage.WF cache) (E : array.storage.Exact classify) :
    array.storage.LayoutExact classify := by
  obtain ⟨storage⟩ := array
  cases storage with
  | packed storage => exact packed_keys storage
  | record storage => exact ⟨hwf.1, hwf.2.1.nodup, E.unambiguous, hwf.2.1⟩
  | mixed storage =>
    refine ⟨hwf.1, fun key slot => (hwf.2 key slot).trans ?_⟩
    simp only [LiveAt, getElem?_slots_mixed]
    constructor
    · rintro ⟨value, h⟩
      obtain ⟨cell, hcell, h⟩ := map_eq_some_iff.mp h
      obtain ⟨entry, rfl, hpair⟩ := map_eq_some_iff.mp h
      exact ⟨entry, hcell, congrArg Prod.fst hpair⟩
    · rintro ⟨entry, hcell, rfl⟩
      exact ⟨entry.value, by rw [hcell]; rfl⟩

theorem iter_values (array : PhpArray V) :
    array.iter.map Prod.snd = array.storage.liveEntries.map ArrayEntry.value := by
  rw [iter, iterPairs_eq_liveEntries, List.map_map]
  rfl

theorem iter_keys (array : PhpArray V) :
    array.iter.map Prod.fst = array.storage.liveEntries.map ArrayEntry.key := by
  rw [iter, iterPairs_eq_liveEntries, List.map_map]
  rfl

section
variable [ValueKind V]
variable (E : array.storage.Exact classify)
include E

theorem elementSummaryFast_eq : array.elementSummaryFast = elementSummaryOf (array.iter.map Prod.snd) := by
  rw [elementSummaryFast, E.metadata, iter_values, elementSummaryOf]
  simp only [elementSummary, recount, List.length_eq_zero_iff, List.map_eq_nil_iff,
    List.countP_eq_length, List.all_map, List.all_eq_true]
  rfl

theorem containsReferencesFast_eq :
    array.containsReferencesFast = (array.iter.map Prod.snd).any isReference := by
  rw [containsReferencesFast, E.metadata, iter_values, Bool.eq_iff_iff]
  simp [containsReferences, recount]

theorem keyKindSummaryFast_describes : array.keyKindSummaryFast.Describes (array.iter.map Prod.fst) := by
  have hkeys := iter_keys array
  have hint : ∀ key : ArrayKey, key.isInt = !key.isString := by rintro (_ | _) <;> rfl
  simp only [keyKindSummaryFast, E.metadata, keyKindSummary, recount,
    List.length_eq_zero_iff, List.countP_eq_length]
  split
  · next hnil => rw [hkeys, hnil]; rfl
  next hnil =>
  have hne : array.iter.map Prod.fst ≠ [] := by rwa [hkeys, Ne, List.map_eq_nil_iff]
  split
  · next hpacked =>
    obtain ⟨storage⟩ := array
    cases storage with
    | packed storage =>
      refine ⟨hne, (packed_keys storage).trans ?_⟩
      rw [iter, List.length_map, length_iterPairs_packed]
    | _ => cases hpacked
  split
  · next hall =>
    refine ⟨hne, fun key hkey => ?_⟩
    rw [hkeys] at hkey
    obtain ⟨entry, hentry, rfl⟩ := List.mem_map.mp hkey
    exact hall entry hentry
  next hints =>
  split
  · next hall =>
    refine ⟨hne, fun key hkey => ?_⟩
    rw [hkeys] at hkey
    obtain ⟨entry, hentry, rfl⟩ := List.mem_map.mp hkey
    exact hall entry hentry
  next hstrings =>
  push Not at hints hstrings
  obtain ⟨entry, hentry, hstring⟩ := hints
  obtain ⟨entry', hentry', hint'⟩ := hstrings
  rw [hkeys]
  refine ⟨⟨_, List.mem_map_of_mem hentry', ?_⟩, ⟨_, List.mem_map_of_mem hentry, ?_⟩⟩
  · simpa [hint] using hint'
  · simpa [hint] using hstring

end

theorem packedIntSumFast_eq [IntPayload V] (E : array.storage.Exact classify) (shared : Bool) :
    array.packedIntSumFast shared = array.packedIntSumOf shared := by
  rw [packedIntSumFast, packedIntSumOf, containsReferencesFast_eq E, elementSummaryFast_eq E]
  split
  · rfl
  split
  · rfl
  split
  · rfl
  generalize array.iter.map Prod.snd = values
  by_cases hnil : values = []
  · subst hnil
    rfl
  cases hints : values.all isInt <;> simp [elementSummaryOf, hnil, hints]

theorem Truthful.of_exact [IntPayload V] (hwf : array.storage.WF cache)
    (E : array.storage.Exact classify) (shared : Bool) : array.Truthful classify shared where
  metadata := E.metadata
  layout := layoutExact hwf E
  elementSummary := elementSummaryFast_eq E
  containsReferences := containsReferencesFast_eq E
  keyKindSummary := keyKindSummaryFast_describes E
  packedIntSum := packedIntSumFast_eq E shared

/-! ## Fresh arrays and the native setters -/

section
variable [ValueKind V]

theorem new_exact : (new : PhpArray V).storage.Exact classify where
  metadata := rfl
  unambiguous := fun _ h => by cases h

theorem fromPackedValues_eq (values : List V) : fromPackedValues values =
    recount classify (values.zipIdx.map fun (value, index) => ⟨.int index, value, false⟩) := by
  induction values using List.reverseRecOn with
  | nil => rfl
  | append_singleton values value ih =>
    rw [fromPackedValues, List.foldl_append, List.zipIdx_append, List.map_append]
    exact (congrArg (addPackedValue · value) ih).trans
      (recount_concat_packed classify _ _ value).symm

theorem fromPacked_exact (elements : { l : List V // (l.length : Int) ≤ i64Max }) :
    (fromPacked elements).storage.Exact classify where
  metadata := fromPackedValues_eq elements.val
  unambiguous := fun _ h => by cases h

end

/-- A next key at which nothing is stored yet: it lies above every integer key. -/
def NextKeyAbove (array : PhpArray V) (next : Option Int) : Prop :=
  (∀ n ∈ next, (ArrayKey.int n).IsI64) ∧
    ∀ n, .int n ∈ array.iter.map Prod.fst → ∃ bound ∈ next, n < bound ∨ i64Max ≤ n

theorem Refines.setNativeNextAppendKey (R : Refines cache array ref) {next : Option Int}
    (hnext : array.NextKeyAbove next) :
    Refines cache (array.setNativeNextAppendKey next) { ref with next } := by
  refine R.setNextAppendKey ⟨hnext.1, fun n hn => ⟨(R.bounded.keys n hn).1, ?_⟩⟩
  rw [← R.observes.iter] at hn
  exact hnext.2 n hn

theorem Shows.indexAtPosition (H : array.Shows m) (position : Nat) : ∃ m', m'.entries = m.entries ∧
      Represents array.storage.slots (array.indexAtPosition position) m' := by
  induction position with
  | zero =>
    refine ⟨m.toFirst, rfl, ?_⟩
    rw [PhpArray.indexAtPosition, firstIndex_eq H.counted]
    exact H.represents.toFirst
  | succ position ih =>
    obtain ⟨m', hentries, H'⟩ := ih
    refine ⟨m'.toNext, hentries, ?_⟩
    rw [PhpArray.indexAtPosition, funext (nextIndex_eq H.counted)]
    exact H'.toNext

theorem Refines.setNativePointerPosition (R : Refines cache array ref) (position : Option Nat) :
    ∃ ref', Refines cache (array.setNativePointerPosition position) ref' := by
  cases position with
  | none =>
    have H := R.represents.seek_none (c := none) nofun
    exact ⟨_, (R.seekTo (m := ref.map.seek none) rfl H).2⟩
  | some position =>
    obtain ⟨m, hentries, H⟩ := R.shows.indexAtPosition position
    exact ⟨_, (R.seekTo hentries H).2⟩

end PhpArray

/-! ## Runs of the heap -/

namespace ArrayHeap
variable {V : Type} {classify : PhpString → NumericStringArrayKey} {heap heap' : ArrayHeap V}
  {P : ShapeCache → PhpArray V → Prop}

structure Holds (P : ShapeCache → PhpArray V → Prop) (heap : ArrayHeap V) : Prop where
  valid : heap.cache.Valid
  arrays : heap.arrays.Forall (P heap.cache)

theorem holds_initial : (initial : ArrayHeap V).Holds P := ⟨.empty, SharedHeap.forall_empty⟩

theorem Holds.update (H : heap.Holds P) (write : PhpArray V → PhpArray V)
    (hwrite : ∀ old cell, heap.arrays.locate handle = some (old, cell) → P heap.cache cell.value →
      P heap.cache (write cell.value))
    (h : heap.update handle address write = some heap') : heap'.Holds P := by
  obtain ⟨⟨old, cell⟩, hlocate, h⟩ := bind_eq_some_iff.mp h
  obtain ⟨arrays, hstore, h⟩ := bind_eq_some_iff.mp h
  cases h
  exact ⟨H.valid, H.arrays.write (hwrite old cell hlocate (H.arrays.locate hlocate)) hstore⟩

theorem Holds.create (H : heap.Holds P) (harray : P heap.cache array)
    (h : (heap.arrays.create handle address array).map (fun arrays => { heap with arrays }) =
      some heap') : heap'.Holds P := by
  obtain ⟨arrays, hcreate, rfl⟩ := map_eq_some_iff.mp h
  exact ⟨H.valid, H.arrays.create harray hcreate⟩

section
variable [ValueKind V] {Allowed : ArrayHeap V → ArrayHeapOp V → Prop}

/-- The conditions of one operation: numeric strings are classified as `classify` does, a record
array has a slot number left for a new key, and native code restores a next key above every key. -/
def Meets (classify : PhpString → NumericStringArrayKey) (heap : ArrayHeap V) : ArrayHeapOp V → Prop
  | .apply handle _ env op => ∀ address cell, heap.arrays.locate handle = some (address, cell) →
      op.IsI64 ∧ env.classifyArrayKey = classify ∧ cell.value.StepRoom env heap.cache op
  | .setNativeNextAppendKey handle _ next => ∀ address cell,
      heap.arrays.locate handle = some (address, cell) → cell.value.NextKeyAbove next
  | _ => True

/-- Every operation of the run meets its conditions. -/
def RunMeets (classify : PhpString → NumericStringArrayKey) (heap : ArrayHeap V) : List (ArrayHeapOp V) → Prop
  | [] => True
  | op :: ops => heap.Meets classify op ∧
      ∀ heap', heap.step op = some heap' → heap'.RunMeets classify ops

def RunAllowed (Allowed : ArrayHeap V → ArrayHeapOp V → Prop) (heap : ArrayHeap V) :
    List (ArrayHeapOp V) → Prop
  | [] => True
  | op :: ops => Allowed heap op ∧ ∀ heap', heap.step op = some heap' → heap'.RunAllowed Allowed ops

theorem RunMeets.allowed (h : heap.RunMeets classify ops) : heap.RunAllowed (Meets classify) ops := by
  induction ops generalizing heap with
  | nil => trivial
  | cons op ops ih => exact ⟨h.1, fun heap' hstep => ih (h.2 heap' hstep)⟩

/-- `P` survives every operation that is `Allowed`. -/
structure Inductive (P : ShapeCache → PhpArray V → Prop)
    (Allowed : ArrayHeap V → ArrayHeapOp V → Prop) : Prop where
  mono {cache cache' : ShapeCache} {array : PhpArray V} :
    P cache array → cache'.Valid → cache.Extends cache' → P cache' array
  new {cache : ShapeCache} : cache.Valid → P cache .new
  fromPacked {cache : ShapeCache} (elements) : cache.Valid → P cache (.fromPacked elements)
  apply {heap : ArrayHeap V} {handle address old : Nat} {cell : SharedCell (PhpArray V)} {env op out}
    {array : PhpArray V} {cache : ShapeCache} : Allowed heap (.apply handle address env op) →
    heap.arrays.locate handle = some (old, cell) → heap.cache.Valid → P heap.cache cell.value →
    cell.value.step env heap.cache op = some (out, array, cache) →
    cache.Valid ∧ heap.cache.Extends cache ∧ P cache array
  setNativeNextAppendKey {heap : ArrayHeap V} {handle address old : Nat}
    {cell : SharedCell (PhpArray V)} {next : Option Int} :
    Allowed heap (.setNativeNextAppendKey handle address next) →
    heap.arrays.locate handle = some (old, cell) → P heap.cache cell.value →
    P heap.cache (cell.value.setNativeNextAppendKey next)
  setNativePointerPosition {cache : ShapeCache} {array : PhpArray V} (position : Option Nat) :
    P cache array → P cache (array.setNativePointerPosition position)

section
variable (I : Inductive P Allowed) (H : heap.Holds P)
include I H

theorem Inductive.holds_apply (hallowed : Allowed heap (.apply handle address env op))
    (h : heap.step (.apply handle address env op) = some heap') : heap'.Holds P := by
  obtain ⟨⟨old, cell⟩, hlocate, h⟩ := bind_eq_some_iff.mp h
  obtain ⟨⟨out, array, cache⟩, hstep, h⟩ := bind_eq_some_iff.mp h
  obtain ⟨hvalid, hext, harray⟩ :=
    I.apply hallowed hlocate H.valid (H.arrays.locate hlocate) hstep
  -- The other arrays keep their shapes: the cache only grows.
  have H' := H.arrays.mono fun _ h => I.mono h hvalid hext
  dsimp only at h
  split at h
  · obtain ⟨arrays, hstore, h⟩ := bind_eq_some_iff.mp h
    cases h
    exact ⟨hvalid, H'.write harray hstore⟩
  · cases h
    exact ⟨hvalid, H'⟩

theorem Inductive.step (hallowed : Allowed heap op) (h : heap.step op = some heap') : heap'.Holds P := by
  cases op with
  | new handle address => exact H.create (I.new H.valid) h
  | fromPacked handle address elements => exact H.create (I.fromPacked elements H.valid) h
  | clone handle copy =>
    obtain ⟨arrays, hclone, rfl⟩ := map_eq_some_iff.mp h
    exact ⟨H.valid, H.arrays.clone hclone⟩
  | drop handle =>
    obtain ⟨arrays, hdrop, rfl⟩ := map_eq_some_iff.mp h
    exact ⟨H.valid, H.arrays.drop hdrop⟩
  | separateForWrite handle address => exact H.update id (fun _ _ _ h => h) h
  | apply handle address env op => exact I.holds_apply H hallowed h
  | setNativeNextAppendKey handle address next =>
    exact H.update (·.setNativeNextAppendKey next)
      (fun _ _ hlocate => I.setNativeNextAppendKey hallowed hlocate) h
  | setNativePointerPosition handle address position =>
    exact H.update (·.setNativePointerPosition position)
      (fun _ _ _ => I.setNativePointerPosition position) h

theorem Inductive.run
    (hops : heap.RunAllowed Allowed ops) (h : heap.run ops = some heap') : heap'.Holds P := by
  induction ops generalizing heap with
  | nil =>
    cases h
    exact H
  | cons op ops ih =>
    obtain ⟨heap₁, hstep, h⟩ := bind_eq_some_iff.mp h
    exact ih (I.step H hops.1 hstep) (hops.2 heap₁ hstep) h

end

/-- The array stands for a reference and has exact metadata. -/
def Tracked (classify : PhpString → NumericStringArrayKey) (cache : ShapeCache) (array : PhpArray V) : Prop :=
  (∃ ref, PhpArray.Refines cache array ref) ∧ array.storage.Exact classify

theorem tracked_inductive : Inductive (V := V) (Tracked classify) (Meets classify) where
  mono := fun ⟨⟨ref, R⟩, E⟩ hvalid hext => ⟨⟨ref, R.mono hvalid hext⟩, E⟩
  new hvalid := ⟨⟨_, new_refines hvalid⟩, new_exact⟩
  fromPacked elements hvalid :=
    ⟨⟨_, fromPacked_refines hvalid elements⟩, fromPacked_exact elements⟩
  apply := by
    rintro heap handle address old cell env op out array cache hmeets hlocate - ⟨⟨ref, R⟩, E⟩ hstep
    obtain ⟨hop, rfl, hroom⟩ := hmeets old cell hlocate
    obtain ⟨array', cache', hstep', hext, R', hexact⟩ := step_refines R hop hroom
    rw [hstep] at hstep'
    cases hstep'
    exact ⟨R'.valid, hext, ⟨_, R'⟩, hexact E⟩
  setNativeNextAppendKey := fun hmeets hlocate ⟨⟨_, R⟩, E⟩ =>
    ⟨⟨_, R.setNativeNextAppendKey (hmeets _ _ hlocate)⟩, E.setNextAppendKey _⟩
  setNativePointerPosition := fun position ⟨⟨_, R⟩, E⟩ =>
    ⟨R.setNativePointerPosition position, E.setInternalPointer _⟩

end

/-- Every array that a run reaches is truthful if every operation of the run meets its
conditions. -/
theorem run_truthful [IntPayload V] {ops : List (ArrayHeapOp V)} {final : ArrayHeap V}
    (hmeets : (initial : ArrayHeap V).RunMeets classify ops) (hrun : initial.run ops = some final) :
    ∀ handle address cell, final.arrays.locate handle = some (address, cell) →
      cell.value.Truthful classify (decide (1 < cell.refcount)) := by
  intro handle address cell hlocate
  obtain ⟨⟨ref, R⟩, E⟩ :=
    (tracked_inductive.run holds_initial hmeets.allowed hrun).arrays.locate hlocate
  exact .of_exact R.wf E _

instance : IntPayload Nat where
  asInt value := some value
  isInt_eq _ := rfl

/-- A clone is written to: both arrays stay truthful. -/
def separationOps : List (ArrayHeapOp Nat) :=
  [.new 0 0, .apply 0 1 plainEnv (.insert (.string [97]) 1), .clone 0 1, .apply 1 1 plainEnv (.append 2)]

theorem run_truthful_separationOps : ∃ final, initial.run separationOps = some final ∧
    ∀ handle address cell, final.arrays.locate handle = some (address, cell) →
      cell.value.Truthful plainEnv.classifyArrayKey (decide (1 < cell.refcount)) := by
  suffices hmeets : initial.RunMeets plainEnv.classifyArrayKey separationOps from
    ⟨_, rfl, run_truthful hmeets rfl⟩
  refine ⟨trivial, fun heap hstep => ?_⟩
  cases hstep
  refine ⟨fun address cell hlocate => ?_, fun heap hstep => ?_⟩
  · cases hlocate
    exact ⟨trivial, rfl, fun _ _ h => by cases h⟩
  cases hstep
  refine ⟨trivial, fun heap hstep => ?_⟩
  cases hstep
  exact ⟨fun _ _ _ => ⟨trivial, rfl, trivial⟩, fun _ _ => trivial⟩

/-! ## Running out of slot numbers on the heap -/

/-- One array under one handle. -/
def single (array : PhpArray Nat) (cache : ShapeCache) : ArrayHeap Nat :=
  ⟨⟨[(0, ⟨1, array⟩)], [(0, 0)]⟩, cache⟩

theorem step_single {cache cache' : ShapeCache}
    (h : array.insert env cache key value = some (old, array', cache')) :
    (single array cache).step (.apply 0 0 env (.insert key value)) = some (single array' cache') := by
  have hstep : array.step env cache (.insert key value) = some (.value old, array', cache') := by
    rw [PhpArray.step, h]
    rfl
  show (array.step env cache (.insert key value)).bind _ = _
  rw [hstep]
  rfl

/-- The run of `overflowSteps` through the handle. -/
def overflowOps (k n : Nat) : List (ArrayHeapOp Nat) :=
  (overflowSteps k n).map fun (env, op) => .apply 0 0 env op

theorem run_overflowOps {cache : ShapeCache} {storage : RecordArrayStorage Nat}
    (hn : k + n = 2 ^ 32) (hk : 0 < k) (R : PhpArray.Refines cache ⟨.record storage⟩ ref)
    (hvalues : storage.values = List.replicate k 0)
    (hfresh : ∀ j ≥ k, ref.map.indexOf (.string (numberedKey j)) = none) :
    ∃ storage' cache', (single ⟨.record storage⟩ cache).run (overflowOps k n) =
        some (single ⟨.record storage'⟩ cache') ∧
      ¬(ArrayStorage.record storage').LayoutExact plainEnv.classifyArrayKey := by
  induction n generalizing k cache storage ref with
  | zero =>
    have hslot := R.slot_numberedKey hfresh
    obtain ⟨storage', cache', hinsert, -, hshape⟩ :=
      insert_record plainEnv cache hslot rfl 1
    refine ⟨storage', cache', ?_, fun L => ?_⟩
    · show ((single ⟨.record storage⟩ cache).step _).bind _ = _
      rw [step_single hinsert]
      rfl
    have hlen : storage.shape.keys.length = 2 ^ 32 := by
      rw [R.wf.1, hvalues, List.length_replicate]
      exact hn
    have hwraps := growShape_wraps hlen plainEnv cache storage.interned
      (numberedKey k)
    rw [← hshape] at hwraps
    -- The first slot still holds the first key, which is not the last one.
    have hfirst := (L.2.2.2 _ _).mp hwraps.2
    rw [hwraps.1, List.getElem?_append_left (by omega)] at hfirst
    have hfound := (R.wf.2.1 _ _).mpr hfirst
    rw [hslot] at hfound
    cases hfound
  | succ n ih =>
    obtain ⟨storage₁, cache₁, hinsert, hvalues₁, R₁⟩ :=
      R.insert_numberedKey (by omega) hvalues hfresh
    obtain ⟨storage', cache', hrun, hlayout⟩ :=
      ih (by omega) (by omega) R₁ hvalues₁ (fresh_insert hfresh 0)
    refine ⟨storage', cache', ?_, hlayout⟩
    show ((single ⟨.record storage⟩ cache).step _).bind _ = _
    rw [step_single hinsert]
    exact hrun

/-- A record array with more than `2 ^ 32` keys is not truthful: the slot number of its last key is
that of the first one. -/
theorem not_run_truthful : ¬∀ (ops : List (ArrayHeapOp Nat)) (final : ArrayHeap Nat),
    (∀ handle address env op, .apply handle address env op ∈ ops →
      op.IsI64 ∧ env.classifyArrayKey = plainEnv.classifyArrayKey) →
    (∀ handle address next, .setNativeNextAppendKey handle address next ∉ ops) →
    initial.run ops = some final → ∀ handle address cell, final.arrays.locate handle = some (address, cell) →
      cell.value.Truthful plainEnv.classifyArrayKey (decide (1 < cell.refcount)) := by
  intro hall
  have hops : ∀ n k, ∀ step ∈ overflowSteps k n,
      step.1 = plainEnv ∧ step.2.IsI64 := by
    intro n
    induction n with
    | zero =>
      intro k step hstep
      cases List.mem_singleton.mp hstep
      exact ⟨rfl, trivial⟩
    | succ n ih =>
      intro k step hstep
      rcases List.mem_cons.mp hstep with rfl | hstep
      · exact ⟨rfl, trivial⟩
      · exact ih _ _ hstep
  obtain ⟨n, hn⟩ : ∃ n, 1 + n = 2 ^ 32 := ⟨2 ^ 32 - 1, by decide⟩
  obtain ⟨storage, cache, hinsert, hvalues, R⟩ := insert_new_numberedKey
  obtain ⟨storage', cache', hrun, hlayout⟩ := run_overflowOps hn (by decide) R hvalues
    (fresh_insert (fun j _ => rfl) 0)
  have hrun' : initial.run (.new 0 0 :: overflowOps 0 (n + 1)) =
      some (single ⟨.record storage'⟩ cache') := by
    have hnew : (initial : ArrayHeap Nat).step (.new 0 0) = some (single .new .empty) := rfl
    have hcons : overflowOps 0 (n + 1) = .apply 0 0 plainEnv
        (.insert (.string (numberedKey 0)) 0) :: overflowOps 1 n := rfl
    rw [ArrayHeap.run, hnew, hcons, bind_eq_bind, bind_some, ArrayHeap.run, step_single hinsert]
    exact hrun
  refine hlayout (hall _ _ ?_ ?_ hrun' 0 0 ⟨1, ⟨.record storage'⟩⟩ rfl).layout
  · intro handle address env op hmem
    rcases List.mem_cons.mp hmem with h | hmem
    · cases h
    obtain ⟨step, hstep, heq⟩ := List.mem_map.mp hmem
    cases heq
    obtain ⟨henv, hop⟩ := hops _ _ step hstep
    exact ⟨hop, by rw [henv]⟩
  · intro handle address next hmem
    rcases List.mem_cons.mp hmem with h | hmem
    · cases h
    obtain ⟨step, -, heq⟩ := List.mem_map.mp hmem
    cases heq

/-! ## Arrays are values -/

/-- The handle that an operation binds, drops or writes through. -/
def target : ArrayHeapOp V → Nat
  | .new handle _ | .fromPacked handle _ _ | .clone _ handle | .drop handle | .separateForWrite handle _
  | .apply handle _ _ _ | .setNativeNextAppendKey handle _ _ | .setNativePointerPosition handle _ _ => handle

variable [ValueKind V]

theorem step_moves (H : heap.arrays.Counted) (h : heap.step op = some heap') :
    heap.arrays.Moves heap'.arrays (target op) := by
  cases op with
  | new | fromPacked =>
    obtain ⟨arrays, hcreate, rfl⟩ := map_eq_some_iff.mp h
    exact SharedHeap.create_moves hcreate
  | clone =>
    obtain ⟨arrays, hclone, rfl⟩ := map_eq_some_iff.mp h
    exact SharedHeap.clone_moves hclone
  | drop =>
    obtain ⟨arrays, hdrop, rfl⟩ := map_eq_some_iff.mp h
    exact SharedHeap.drop_moves H hdrop
  | separateForWrite | setNativeNextAppendKey | setNativePointerPosition =>
    obtain ⟨_, _, h⟩ := bind_eq_some_iff.mp h
    obtain ⟨arrays, hwrite, ⟨⟩⟩ := bind_eq_some_iff.mp h
    exact SharedHeap.write_moves H hwrite
  | apply =>
    obtain ⟨_, _, h⟩ := bind_eq_some_iff.mp h
    obtain ⟨_, _, h⟩ := bind_eq_some_iff.mp h
    dsimp only at h
    split at h
    · obtain ⟨arrays, hwrite, ⟨⟩⟩ := bind_eq_some_iff.mp h
      exact SharedHeap.write_moves H hwrite
    · cases h
      exact ⟨fun _ _ => rfl, fun _ => Nat.le_refl _, fun _ _ hcell _ => congrArg _ hcell⟩

theorem run_unseen (H : heap.arrays.Counted) (h : heap.run ops = some heap') : heap'.arrays.Counted ∧
    ∀ other, (∀ op ∈ ops, other ≠ target op) → heap'.arrays.read other = heap.arrays.read other := by
  induction ops generalizing heap with
  | nil =>
    cases h
    exact ⟨H, fun _ _ => rfl⟩
  | cons op ops ih =>
    obtain ⟨heap₁, hstep, h⟩ := bind_eq_some_iff.mp h
    have hmoves := step_moves H hstep
    refine (ih (H.moves hmoves) h).imp_right fun hread other hother => ?_
    rw [List.forall_mem_cons] at hother
    rw [hread other hother.2, H.read_other hmoves hother.1]

/-- What is done through other handles is not seen through a handle. -/
theorem run_isolated (hrun : initial.run ops = some heap) (hlater : heap.run later = some heap')
    (hother : ∀ op ∈ later, other ≠ target op) : heap'.arrays.read other = heap.arrays.read other :=
  (run_unseen (run_unseen SharedHeap.counted_empty hrun).1 hlater).2 other hother

/-- The clone is written to, the original stays. -/
theorem run_isolated_separationOps : ∃ heap heap', initial.run (separationOps.take 3) = some heap ∧
    heap.run [.apply 1 1 plainEnv (.append 2)] = some heap' ∧ heap'.arrays.read 0 = heap.arrays.read 0 := by
  refine ⟨_, _, rfl, rfl, ?_⟩
  exact run_isolated (show initial.run (separationOps.take 3) = some _ from rfl)
    (show run _ [.apply 1 1 plainEnv (.append 2)] = some _ from rfl) (by simp [target])

end ArrayHeap
end Phrust
