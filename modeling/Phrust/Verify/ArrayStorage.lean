import Phrust.Theory.OrderedMap
import Phrust.Runtime.PhpArray
import Phrust.Verify.RecordShapes

/-!
# The layouts as slot vectors

`ArrayStorage.slots` reads every layout as one slot vector of key/value pairs, and
`ArrayStorage.WF` is what a layout has to keep: a record has as many keys as values and an indexed
shape, a mixed storage counts its live entries and indexes them. Each storage operation then has one
lemma that says what it does to the slots; the conversions between layouts do nothing to them.
-/

namespace Phrust
open List Slots ArrayStorage Option

/-- The pair a mixed entry stands for. -/
def ArrayEntry.pair (entry : ArrayEntry V) : ArrayKey × V := (entry.key, entry.value)

namespace ArrayStorage
variable {V : Type}

/-- The storage as a slot vector. Only the mixed layout has tombstones. -/
def slots : ArrayStorage V → List (Option (ArrayKey × V))
  | .mixed storage => storage.entries.map (Option.map ArrayEntry.pair)
  | storage => storage.iterPairs.map some

/-- The invariant of each layout, relative to the thread's shape cache. -/
def WF (cache : ShapeCache) : ArrayStorage V → Prop
  | .packed _ => True
  | .record storage => storage.shape.keys.length = storage.values.length ∧ storage.shape.Indexed ∧
      ∀ i ∈ storage.interned, cache.Holds i storage.shape
  | .mixed storage => storage.liveLen = storage.entries.reduceOption.length ∧
      Indexes storage.index.get (slots (.mixed storage))

/-- The lengths that each layout keeps in step. -/
def Counted : ArrayStorage V → Prop
  | .packed _ => True
  | .record storage => storage.shape.keys.length = storage.values.length
  | .mixed storage => storage.liveLen = storage.entries.reduceOption.length

variable {storage : ArrayStorage V}

theorem WF.counted (h : storage.WF cache) : storage.Counted := by
  cases storage with
  | packed => trivial
  | record => exact h.1
  | mixed => exact h.1

theorem WF.mono (h : storage.WF cache) (hext : cache.Extends cache') : storage.WF cache' := by
  cases storage with
  | packed => trivial
  | record => exact ⟨h.1, h.2.1, fun i hi => hext _ _ (h.2.2 i hi)⟩
  | mixed => exact h

/-! ## The header does not concern the slots -/

section
variable (storage : ArrayStorage V) (header : ArrayHeader)

@[simp] theorem header_setHeader : (storage.setHeader header).header = header := by
  cases storage <;> rfl

@[simp] theorem slots_setHeader : (storage.setHeader header).slots = storage.slots := by
  cases storage <;> rfl

@[simp] theorem wf_setHeader : (storage.setHeader header).WF cache ↔ storage.WF cache := by
  cases storage <;> rfl

@[simp] theorem findIndex_setHeader : (storage.setHeader header).findIndex = storage.findIndex := by
  funext key
  cases storage <;> cases key <;> rfl

@[simp] theorem len_setHeader : (storage.setHeader header).len = storage.len := by
  cases storage <;> rfl

@[simp] theorem isRecord_setHeader : (storage.setHeader header).isRecord = storage.isRecord := by
  cases storage <;> rfl

end

/-! ## Reading through the slots -/

section
variable {storage : ArrayStorage V}

theorem iterPairs_eq : storage.iterPairs = storage.slots.reduceOption := by
  cases storage with
  | mixed storage =>
    rw [slots, reduceOption_map]
    rfl
  | _ => rw [slots, live_map_some]; simp

theorem length_iterPairs_record {storage : RecordArrayStorage V}
    (h : storage.shape.keys.length = storage.values.length) :
    (record storage).iterPairs.length = storage.values.length := by
  simp [iterPairs, h]

theorem length_iterPairs_packed (storage : PackedArrayStorage V) :
    (packed storage).iterPairs.length = storage.values.length := by
  simp [iterPairs]

theorem len_eq (h : storage.Counted) : storage.len = storage.slots.reduceOption.length := by
  cases storage with
  | packed storage => rw [← iterPairs_eq, length_iterPairs_packed]; rfl
  | record storage => rw [← iterPairs_eq, length_iterPairs_record h]; rfl
  | mixed storage =>
    rw [slots, reduceOption_map, length_map]
    exact h

theorem getElem?_slots_packed (storage : PackedArrayStorage V) (i : Nat) :
    (slots (.packed storage))[i]? = storage.values[i]?.map fun v => some (.int i, v) := by
  simp [slots, iterPairs, Function.comp_def]

theorem getElem?_slots_record (storage : RecordArrayStorage V) (i : Nat) :
    (slots (.record storage))[i]? =
      storage.shape.keys[i]?.bind fun k => storage.values[i]?.map fun v => some (.string k, v) := by
  simp only [slots, iterPairs, List.map_map, getElem?_map]
  cases hk : storage.shape.keys[i]? <;> cases hv : storage.values[i]? <;>
    simp [List.zip, getElem?_zipWith, hk, hv]

theorem getElem?_slots_mixed (storage : MixedArrayStorage V) (i : Nat) :
    (slots (.mixed storage))[i]? = storage.entries[i]?.map (Option.map ArrayEntry.pair) := by
  simp [slots]

theorem length_live_mixed (storage : MixedArrayStorage V) :
    (slots (.mixed storage)).reduceOption.length = storage.entries.reduceOption.length := by
  rw [slots, reduceOption_map, length_map]

/-- A key is present in a record exactly when its value is. -/
theorem getElem?_keys_isSome {storage : RecordArrayStorage V}
    (h : storage.shape.keys.length = storage.values.length) (i : Nat) :
    storage.shape.keys[i]?.isSome = storage.values[i]?.isSome := by
  by_cases hi : i < storage.values.length
  · rw [getElem?_eq_getElem hi, getElem?_eq_getElem (h ▸ hi)]
    rfl
  · rw [getElem?_eq_none (by omega), getElem?_eq_none (by omega)]
    rfl

theorem getValue_eq (h : storage.Counted) (i : Nat) :
    storage.getValue i = (storage.slots[i]?.join).map Prod.snd := by
  cases storage with
  | packed storage =>
    rw [getElem?_slots_packed, getValue]
    cases storage.values[i]? <;> rfl
  | record storage =>
    rw [getElem?_slots_record, getValue]
    have := getElem?_keys_isSome h i
    cases hk : storage.shape.keys[i]? <;> cases hv : storage.values[i]? <;> simp_all
  | mixed storage =>
    rw [getElem?_slots_mixed, getValue]
    rcases storage.entries[i]? with _ | _ | _ <;> rfl

theorem valueAt_eq_getValue (i : Nat) : storage.valueAt i = storage.getValue i := by
  cases storage <;> rfl

theorem valueAt_of_liveAt (h : storage.WF cache) (hi : LiveAt storage.slots i (key, value)) :
    storage.valueAt i = some value := by
  rw [valueAt_eq_getValue, getValue_eq h.counted, show storage.slots[i]? = some (some (key, value)) from hi]
  rfl

theorem keyAt_eq (h : storage.Counted) (i : Nat) :
    storage.keyAt i = (storage.slots[i]?.join).map Prod.fst := by
  cases storage with
  | packed storage =>
    rw [getElem?_slots_packed, keyAt]
    by_cases hi : i < storage.values.length
    · simp [hi]
    · simp [hi]
  | record storage =>
    rw [getElem?_slots_record, keyAt]
    have := getElem?_keys_isSome h i
    cases hk : storage.shape.keys[i]? <;> cases hv : storage.values[i]? <;> simp_all
  | mixed storage =>
    rw [getElem?_slots_mixed, keyAt]
    rcases storage.entries[i]? with _ | _ | _ <;> rfl

theorem isEmpty_iterPairs_record {storage : RecordArrayStorage V}
    (h : storage.shape.keys.length = storage.values.length) :
    (record storage).iterPairs.isEmpty = storage.values.isEmpty := by
  have := length_iterPairs_record h
  cases hv : storage.values <;> cases hp : (record storage).iterPairs <;> simp_all

theorem isEmpty_iterPairs_packed (storage : PackedArrayStorage V) :
    (packed storage).iterPairs.isEmpty = storage.values.isEmpty := by
  cases h : storage.values <;> simp [iterPairs, h]

section
variable (h : storage.Counted)
include h

theorem firstIndex_eq : storage.firstIndex = first storage.slots := by
  cases storage with
  | packed storage => rw [slots, first_map_some, isEmpty_iterPairs_packed]; rfl; simp
  | record storage => rw [slots, first_map_some, isEmpty_iterPairs_record h]; rfl; simp
  | mixed storage => rw [slots, first_map]; rfl

theorem lastIndex_eq : storage.lastIndex = last storage.slots := by
  cases storage with
  | packed storage =>
    rw [slots, last_map_some, isEmpty_iterPairs_packed, length_iterPairs_packed]; rfl; simp
  | record storage =>
    rw [slots, last_map_some, isEmpty_iterPairs_record h, length_iterPairs_record h]; rfl; simp
  | mixed storage => rw [slots, last_map]; rfl

theorem nextIndex_eq (i : Nat) : storage.nextIndex i = next storage.slots i := by
  cases storage with
  | packed storage => rw [slots, next_map_some, length_iterPairs_packed]; rfl; simp
  | record storage => rw [slots, next_map_some, length_iterPairs_record h]; rfl; simp
  | mixed storage => rw [slots, next_map]; rfl

theorem previousIndex_eq (hi : LiveAt storage.slots i e) :
    storage.previousIndex i = some (prev storage.slots i) := by
  have hlt := hi.lt
  cases storage with
  | packed | record =>
    rw [slots, length_map] at hlt
    · rw [slots, prev_map_some _ (Nat.le_of_lt hlt)]; rfl; simp
    · simp
  | mixed storage =>
    rw [slots, length_map] at hlt
    rw [slots, prev_map, previousIndex, if_pos (Nat.le_of_lt hlt)]
    rfl

end

/-- Every layout finds exactly its live slots. -/
theorem WF.indexes (h : storage.WF cache) : Indexes storage.findIndex storage.slots := by
  cases storage with
  | packed storage =>
    intro key i
    simp only [LiveAt, getElem?_slots_packed, map_eq_some_iff, Option.some.injEq, Prod.mk.injEq, findIndex]
    cases key with
    | string name => simp [packedKeyIndex]
    | int n =>
      simp only [packedKeyIndex, ite_none_right_eq_some, Option.some.injEq, ArrayKey.int.injEq]
      constructor
      · rintro ⟨⟨h0, hlt⟩, rfl⟩
        exact ⟨_, _, getElem?_eq_getElem hlt, by omega, rfl⟩
      · rintro ⟨_, v, hv, rfl, rfl⟩
        have := (List.getElem?_eq_some_iff.mp hv).1
        exact ⟨⟨by omega, by omega⟩, by omega⟩
  | record storage =>
    intro key i
    simp only [LiveAt, getElem?_slots_record, bind_eq_some_iff, map_eq_some_iff,
      Option.some.injEq, Prod.mk.injEq, findIndex]
    cases key with
    | int n => simp
    | string name =>
      rw [h.2.1 name i]
      constructor
      · intro hk
        have hi := (List.getElem?_eq_some_iff.mp hk).1
        rw [h.1] at hi
        exact ⟨_, name, hk, _, getElem?_eq_getElem hi, rfl, rfl⟩
      · rintro ⟨_, k, hk, v, hv, hname, -⟩
        rw [hk, ArrayKey.string.inj hname]
  | mixed storage => exact h.2

theorem get_eq (h : storage.WF cache) (key : ArrayKey) :
    PhpArray.get ⟨storage⟩ key =
      (storage.findIndex key).bind fun i => (storage.slots[i]?.join).map Prod.snd := by
  simp only [← getValue_eq h.counted]
  cases storage with
  | packed storage => cases key <;> rfl
  | record storage => cases key <;> rfl
  | mixed storage =>
    simp only [PhpArray.get, findIndex, getValue, bind_eq_bind, Option.pure_def, map_eq_bind]
    rfl

end

/-! ## Conversions between layouts -/

/-- The storage `storage'` holds `slots` with the given pointer and next key, in a valid cache that
extends the old one. -/
structure Stored (cache : ShapeCache) (slots : List (Option (ArrayKey × V))) (pointer : Option Nat)
    (next : Option Int) (storage' : ArrayStorage V) (cache' : ShapeCache) : Prop where
  valid : cache'.Valid
  extends_cache : cache.Extends cache'
  wf : storage'.WF cache'
  slots_eq : storage'.slots = slots
  pointer_eq : storage'.internalPointer = pointer
  next_eq : storage'.nextAppendKey = next

theorem Stored.rfl (hcache : cache.Valid) (h : storage.WF cache) :
    Stored cache storage.slots storage.internalPointer storage.nextAppendKey storage cache :=
  ⟨hcache, .rfl, h, Eq.refl _, Eq.refl _, Eq.refl _⟩

theorem Stored.setHeader (S : Stored cache s pointer nextKey storage' cache') (header : ArrayHeader) :
    Stored cache s header.internalPointer header.nextAppendKey (storage'.setHeader header) cache' :=
  ⟨S.valid, S.extends_cache, (wf_setHeader ..).mpr S.wf, by rw [slots_setHeader, S.slots_eq],
    by rw [internalPointer, header_setHeader], by rw [nextAppendKey, header_setHeader]⟩

theorem indexes_buildIndex (entries : List (ArrayEntry V)) (hnodup : (entries.map ArrayEntry.key).Nodup) :
    Indexes (buildIndex entries).get (entries.map fun entry => some entry.pair) := by
  induction entries using List.reverseRecOn with
  | nil => exact Indexes.nil
  | append_singleton entries entry ih =>
    rw [map_append, nodup_append] at hnodup
    have ih := ih hnodup.1
    have hnew : (buildIndex entries).get entry.key = none := by
      rw [ih.none_iff]
      intro i v hv
      obtain ⟨e, he, heq⟩ := mem_map.mp (mem_of_getElem? hv)
      have hkey : e.key = entry.key := congrArg Prod.fst (Option.some.inj heq)
      exact hnodup.2.2 e.key (mem_map_of_mem he) entry.key (mem_singleton.mpr (Eq.refl _)) hkey
    have hbuild : buildIndex (entries ++ [entry]) =
        (buildIndex entries).insert entry.key entries.length := by
      simp [buildIndex, zipIdx_append]
    have := ih.append hnew entry.value
    rw [length_map] at this
    rw [hbuild, map_append]
    exact this

/-- Full mixed entries that spell out the slots of a storage are the same array. -/
theorem mixedOfEntries_stored (storage : ArrayStorage V) (hcache : cache.Valid)
    (hnodup : (storage.slots.reduceOption.map Prod.fst).Nodup)
    (hslots : entries.map (fun entry => some entry.pair) = storage.slots) :
    Stored cache storage.slots storage.internalPointer storage.nextAppendKey
      (mixedOfEntries storage.header entries) cache := by
  have hs : slots (mixedOfEntries storage.header entries) = storage.slots := by
    rw [← hslots]
    simp [mixedOfEntries, slots]
  have hkeys : entries.map ArrayEntry.key = storage.slots.reduceOption.map Prod.fst := by
    rw [← hslots, ← Function.comp_def, ← List.map_map, live_map_some, List.map_map]
    rfl
  refine ⟨hcache, .rfl, ⟨?_, ?_⟩, hs, Eq.refl _, Eq.refl _⟩
  · rw [live_map_some]
  · show Indexes _ (slots (mixedOfEntries storage.header entries))
    rw [hs, ← hslots]
    exact indexes_buildIndex entries (hkeys ▸ hnodup)

/-- A record needs no slot numbers to become mixed. -/
theorem recordMixed_stored {storage : RecordArrayStorage V} (hcache : cache.Valid)
    (hnodup : ((slots (.record storage)).reduceOption.map Prod.fst).Nodup) :
    Stored cache (slots (.record storage)) storage.internalPointer storage.nextAppendKey
      (makeRecordMixed (.record storage)) cache := by
  refine mixedOfEntries_stored (.record storage) hcache hnodup ?_
  apply ext_getElem?
  intro i
  rw [getElem?_slots_record, getElem?_map, getElem?_map]
  cases hk : storage.shape.keys[i]? <;> cases hv : storage.values[i]? <;>
    simp [List.zip, getElem?_zipWith, hk, hv, ArrayEntry.pair]

theorem makeRecordMixed_stored (hcache : cache.Valid)
    (h : storage.WF cache) : Stored cache storage.slots storage.internalPointer
      storage.nextAppendKey storage.makeRecordMixed cache := by
  cases storage with
  | record storage => exact recordMixed_stored hcache h.indexes.nodup
  | _ => exact .rfl hcache h

theorem makeMixed_stored (hcache : cache.Valid) (h : storage.WF cache) :
    Stored cache storage.slots storage.internalPointer storage.nextAppendKey storage.makeMixed cache := by
  cases storage with
  | packed storage =>
    refine mixedOfEntries_stored (.packed storage) hcache h.indexes.nodup ?_
    apply ext_getElem?
    intro i
    rw [getElem?_slots_packed]
    cases hv : storage.values[i]? <;> simp [hv, ArrayEntry.pair]
  | record storage => exact makeRecordMixed_stored hcache h
  | mixed storage => exact .rfl hcache h

theorem promoteEmptyToRecord_stored (hcache : cache.Valid)
    (hempty : storage.slots = []) : Stored cache storage.slots storage.internalPointer
      storage.nextAppendKey (storage.promoteEmptyToRecord cache).1
      (storage.promoteEmptyToRecord cache).2 := by
  have S := recordShapeFor_shaped hcache [] none nodup_nil (by simp)
  refine ⟨S.valid, S.extends_cache, ⟨?_, S.indexed, S.holds⟩, ?_, Eq.refl _, Eq.refl _⟩
  · exact congrArg List.length S.keys_eq
  · rw [hempty]
    simp [promoteEmptyToRecord, slots, iterPairs]

/-! ## Writing -/

/-- The layout can take `key` at its end: a packed array its next integer, a record array a string
key while the slot fits in a `u32`. -/
def Fits : ArrayStorage V → ArrayKey → Prop
  | .packed storage, key => key = .int storage.values.length
  | .record storage, .string _ => storage.values.length < 2 ^ 32
  | .record _, .int _ => False
  | .mixed _, _ => True

theorem pushEntry_stored [ValueKind V] (hcache : cache.Valid) (h : storage.WF cache)
    (entry : ArrayEntry V) (hfits : storage.Fits entry.key)
    (hnew : storage.findIndex entry.key = none) (env : Env) :
    ∃ storage' cache', storage.pushEntry env cache entry = some (storage', cache') ∧
      Stored cache (storage.slots ++ [some entry.pair]) storage.internalPointer
        storage.nextAppendKey storage' cache' := by
  cases storage with
  | packed storage =>
    refine ⟨_, _, Eq.refl _, hcache, .rfl, trivial, ?_, Eq.refl _, Eq.refl _⟩
    have hkey : entry.key = .int storage.values.length := hfits
    simp [slots, iterPairs, zipIdx_append, ArrayEntry.pair, hkey]
  | record storage =>
    cases hkey : entry.key with
    | int n => rw [hkey] at hfits; exact hfits.elim
    | string name =>
      rw [hkey] at hfits hnew
      have hlen : storage.shape.keys.length < 2 ^ 32 := h.1 ▸ hfits
      have S := growShape_shaped hcache h.2.1 h.2.2 (h.2.1.none_iff.mp hnew) h.2.1.nodup hlen env
      have hpush := pushEntry.eq_1 env cache entry storage
      simp only [hkey] at hpush
      generalize growShape env cache storage.shape storage.interned name = grown at S hpush
      obtain ⟨shape, interned, cache'⟩ := grown
      refine ⟨_, _, hpush, S.valid, S.extends_cache, ⟨?_, S.indexed, S.holds⟩, ?_, Eq.refl _, Eq.refl _⟩
      · rw [S.keys_eq, length_append, length_append, h.1]
        rfl
      · have hkeys : shape.keys = storage.shape.keys ++ [name] := S.keys_eq
        simp only [slots, iterPairs, hkeys, zip_append h.1]
        simp [ArrayEntry.pair, hkey]
  | mixed storage =>
    have hs : slots (.mixed { storage with
        index := storage.index.insert entry.key storage.entries.length
        cachedMetadata := storage.cachedMetadata.addEntry env entry
        entries := storage.entries ++ [some entry]
        liveLen := storage.liveLen + 1 }) = slots (.mixed storage) ++ [some entry.pair] := by
      simp [slots]
    refine ⟨_, _, Eq.refl _, hcache, .rfl, ⟨?_, ?_⟩, hs, Eq.refl _, Eq.refl _⟩
    · rw [reduceOption_append, length_append, ← h.1]
      rfl
    rw [hs]
    have := h.2.append hnew entry.value
    simp only [slots, length_map] at this
    exact this

theorem setValueAt_stored (hcache : cache.Valid) (h : storage.WF cache)
    (hi : LiveAt storage.slots i (key, old)) (value : V) :
    Stored cache (storage.slots.set i (some (key, value))) storage.internalPointer
      storage.nextAppendKey (storage.setValueAt i value) cache := by
  have hs : (setValueAt storage i value).slots = storage.slots.set i (some (key, value)) := by
    apply ext_getElem?
    intro j
    have hi' : storage.slots[i]? = some (some (key, old)) := hi
    rw [getElem?_set, if_pos hi.lt]
    cases storage with
    | packed storage =>
      simp only [setValueAt, getElem?_slots_packed, getElem?_set] at hi' ⊢
      grind
    | record storage =>
      simp only [setValueAt, getElem?_slots_record, getElem?_set] at hi' ⊢
      by_cases hij : i = j
      · subst hij
        cases hk : storage.shape.keys[i]? <;> cases hv : storage.values[i]? <;> grind
      · simp [hij]
    | mixed storage =>
      simp only [setValueAt, getElem?_slots_mixed, getElem?_modify, Option.map_eq_map] at hi' ⊢
      by_cases hij : i = j
      · subst hij
        rcases hslot : storage.entries[i]? with _ | _ | entry <;>
          simp_all [ArrayEntry.pair]
      · simp [hij]
  refine ⟨hcache, .rfl, ?_, hs, ?_, ?_⟩
  · cases storage with
    | packed storage => trivial
    | record storage => exact ⟨by rw [length_set]; exact h.1, h.2⟩
    | mixed storage =>
      have hlive := congrArg (fun s => s.reduceOption.length) hs
      rw [live_set_some hi, length_set, length_live_mixed] at hlive
      exact ⟨h.1.trans (hlive.symm.trans (length_live_mixed _)), hs ▸ h.2.overwrite hi value⟩
  all_goals cases storage <;> rfl

theorem exists_entry_of_liveAt {storage : MixedArrayStorage V}
    (hi : LiveAt (mixed storage).slots i (key, old)) :
    ∃ entry, storage.entries[i]? = some (some entry) ∧ entry.key = key ∧ entry.value = old := by
  rw [LiveAt, getElem?_slots_mixed] at hi
  obtain ⟨slot, hslot, hentry⟩ := map_eq_some_iff.mp hi
  obtain ⟨entry, rfl, hpair⟩ := map_eq_some_iff.mp hentry
  exact ⟨entry, hslot, Prod.mk.inj hpair⟩

section
variable [ValueKind V]

theorem replaceValue_eq {storage : ArrayStorage V} (hcache : cache.Valid)
    (h : storage.WF cache) (hi : LiveAt storage.slots i (key, old)) (value : V) :
    storage.replaceValue i value = some (old, (setValueAt storage i value).setMetadata
      ((setValueAt storage i value).metadata.replaceValueFlags (isReference old)
        (isReference value) (isInt old) (isInt value))) := by
  have S := setValueAt_stored hcache h hi value
  have hold := valueAt_of_liveAt h hi
  have hlive : LiveAt (setValueAt storage i value).slots i (key, value) := by
    rw [S.slots_eq]
    exact getElem?_set_self hi.lt
  simp [replaceValue, hold, valueAt_of_liveAt S.wf hlive]

theorem replaceValue_stored {storage : ArrayStorage V} (hcache : cache.Valid)
    (h : storage.WF cache) (hi : LiveAt storage.slots i (key, old)) (value : V) :
    ∃ storage', storage.replaceValue i value = some (old, storage') ∧
      Stored cache (storage.slots.set i (some (key, value))) storage.internalPointer
        storage.nextAppendKey storage' cache := by
  have S := setValueAt_stored hcache h hi value
  refine ⟨_, replaceValue_eq hcache h hi value, ?_⟩
  have S' := S.setHeader { (setValueAt storage i value).header with
    cachedMetadata := (setValueAt storage i value).metadata.replaceValueFlags (isReference old)
      (isReference value) (isInt old) (isInt value) }
  exact ⟨S'.valid, S'.extends_cache, S'.wf, S'.slots_eq, S'.pointer_eq.trans S.pointer_eq,
    S'.next_eq.trans S.next_eq⟩

/-! ## Removing -/

theorem removeIndex_mixed_stored {storage : MixedArrayStorage V} (hcache : cache.Valid)
    (h : (mixed storage).WF cache) (hi : LiveAt (mixed storage).slots i (key, old)) (env : Env) :
    ∃ storage', (mixed storage).removeIndex env i = some ((key, old), .mixed storage') ∧
      Stored cache ((mixed storage).slots.set i none) storage.internalPointer
        storage.nextAppendKey (.mixed storage') cache := by
  obtain ⟨entry, hslot, rfl, rfl⟩ := exists_entry_of_liveAt hi
  refine ⟨_, by simp only [removeIndex, hslot]; rfl, ?_⟩
  have hs : ∀ storage' : MixedArrayStorage V, storage'.entries = storage.entries.set i none →
      slots (.mixed storage') = (slots (.mixed storage)).set i none := by
    intro storage' he
    rw [slots, slots, he, map_set]
    rfl
  refine ⟨hcache, .rfl, ⟨?_, ?_⟩, hs _ (Eq.refl _), Eq.refl _, Eq.refl _⟩
  · have := congrArg List.length (live_set_none hi)
    rw [length_eraseIdx_of_lt (rank_lt hi), ← hs { storage with
      entries := storage.entries.set i none } (Eq.refl _), length_live_mixed, length_live_mixed,
      ← h.1] at this
    exact this.symm
  · rw [hs _ (Eq.refl _)]
    exact h.2.delete hi

theorem removeIndex_packed_stored {storage : PackedArrayStorage V} (hcache : cache.Valid)
    (hi : i + 1 = storage.values.length) (hv : LiveAt (packed storage).slots i (key, old)) (env : Env) :
    ∃ storage' slots', (packed storage).removeIndex env i =
        some ((key, old), .packed storage') ∧ slots'.length = i ∧
      (packed storage).slots = slots' ++ [some (key, old)] ∧
      Stored cache slots' storage.internalPointer storage.nextAppendKey (.packed storage') cache := by
  have hv' : (slots (.packed storage))[i]? = some (some (key, old)) := hv
  rw [getElem?_slots_packed] at hv'
  obtain ⟨value, hvalue, heq⟩ := map_eq_some_iff.mp hv'
  cases heq
  have hsplit : storage.values = storage.values.eraseIdx i ++ [old] := by
    apply ext_getElem?
    intro j
    grind
  have hlen : (storage.values.eraseIdx i).length = i := by
    rw [length_eraseIdx_of_lt (by omega)]
    omega
  refine ⟨{ storage with
      values := storage.values.eraseIdx i
      cachedMetadata := storage.cachedMetadata.removePackedValue old }, _,
    by simp only [removeIndex, hvalue]; rfl, ?_, ?_,
    ⟨hcache, .rfl, trivial, Eq.refl _, Eq.refl _, Eq.refl _⟩⟩
  · simp [slots, iterPairs, hlen]
  · have hzip := congrArg List.zipIdx hsplit
    rw [zipIdx_append] at hzip
    simp [slots, iterPairs, hzip, hlen]

end

/-- Removing from a mixed array moves a pointer on the removed slot to the next live one. -/
theorem adjustPointerAfterRemove_mixed {storage : MixedArrayStorage V}
    (h : (mixed storage).WF cache) (hi : LiveAt s i e) (hs : (mixed storage).slots = s.set i none)
    (hp : ∀ j ∈ storage.internalPointer, ∃ e, LiveAt s j e) :
    (adjustPointerAfterRemove (.mixed storage) i) = (mixed storage).setInternalPointer
      (storage.internalPointer.bind fun j => if j = i then next s i else some j) := by
  have hnext : nextIndex (.mixed storage) i = next s i := by
    rw [nextIndex_eq h.counted, hs, next_set_none]
  rw [adjustPointerAfterRemove]
  cases hptr : storage.internalPointer with
  | none =>
    rw [show internalPointer (.mixed storage) = none from hptr]
    obtain ⟨⟨_, _, _, _⟩, _⟩ := storage
    cases hptr
    rfl
  | some j =>
    rw [show internalPointer (.mixed storage) = some j from hptr]
    refine congrArg (setInternalPointer (.mixed storage)) ?_
    rw [bind_some, mixedPointerAfterRemove, hnext]
    split
    · next hempty =>
      -- nothing is left, so the pointer was on the removed slot and has no successor
      have hnil : (s.set i none).reduceOption = [] := by
        have := len_eq h.counted
        rw [hs] at this
        rw [isEmpty, beq_iff_eq, this] at hempty
        exact length_eq_zero_iff.mp hempty
      obtain ⟨e', hj⟩ := hp j hptr
      have hnone : ∀ k e, ¬LiveAt (s.set i none) k e := fun k e hk => by
        have := mem_live_iff.mpr ⟨k, hk⟩
        rw [hnil] at this
        cases this
      obtain rfl : j = i := by
        by_contra hji
        exact hnone j e' (liveAt_set_none_iff.mpr ⟨fun h => hji h.symm, hj⟩)
      rw [if_pos (Eq.refl j)]
      refine (eq_none_iff_forall_ne_some.mpr fun k hk => ?_).symm
      obtain ⟨⟨b, hb⟩, hrank⟩ := next_eq_some hi hk
      refine hnone k b (liveAt_set_none_iff.mpr ⟨?_, hb⟩)
      rintro rfl
      omega
    · rfl

/-- Dropping the last slot of a packed array clears a pointer that stood on it. -/
theorem adjustPointerAfterRemove_packed {storage : PackedArrayStorage V}
    (hlen : storage.values.length = i) (hp : ∀ j ∈ storage.internalPointer, j < i + 1) :
    (adjustPointerAfterRemove (.packed storage) i) = (packed storage).setInternalPointer
      (storage.internalPointer.filter (· < i)) := by
  rw [adjustPointerAfterRemove]
  cases hptr : storage.internalPointer with
  | none =>
    rw [show internalPointer (.packed storage) = none from hptr]
    obtain ⟨⟨_, _, _, _⟩, _⟩ := storage
    cases hptr
    rfl
  | some j =>
    have hj := hp j hptr
    rw [show internalPointer (.packed storage) = some j from hptr]
    refine congrArg (setInternalPointer (.packed storage)) ?_
    simp only [densePointerAfterRemove, isEmpty, len, hlen, Option.filter]
    grind

/-! ## Compaction -/

/-- The compaction loop keeps the live entries, renumbers them and carries the pointer along. -/
theorem foldl_compactStep (p : Option Nat) (entries : List (Option (ArrayEntry V))) :
    entries.zipIdx.foldl (compactStep p) ([], .empty, none) =
      (entries.reduceOption.map some, buildIndex entries.reduceOption, renumber entries p) := by
  induction entries using List.reverseRecOn with
  | nil => cases p <;> rfl
  | append_singleton entries slot ih =>
    rw [zipIdx_append, foldl_append, ih, reduceOption_append]
    cases slot with
    | none => simp [compactStep, renumber_append_none]
    | some entry =>
      simp [compactStep, renumber_append_some, buildIndex, zipIdx_append]

/-- Compaction is not visible in the array. -/
theorem compactMixedIfNeeded_represents (storage : ArrayStorage V) (h : storage.WF cache)
    (H : Represents storage.slots storage.internalPointer m) : storage.compactMixedIfNeeded.WF cache ∧
      Represents storage.compactMixedIfNeeded.slots storage.compactMixedIfNeeded.internalPointer m ∧
      storage.compactMixedIfNeeded.nextAppendKey = storage.nextAppendKey := by
  cases storage with
  | packed storage => exact ⟨h, H, rfl⟩
  | record storage => exact ⟨h, H, rfl⟩
  | mixed storage =>
    rw [compactMixedIfNeeded]
    split
    · exact ⟨h, H, Eq.refl _⟩
    rw [foldl_compactStep]
    have hs : ∀ storage' : MixedArrayStorage V,
        storage'.entries = storage.entries.reduceOption.map some →
        slots (.mixed storage') = (slots (.mixed storage)).reduceOption.map some := by
      intro storage' he
      rw [slots, he, slots, reduceOption_map, List.map_map, List.map_map]
      rfl
    refine ⟨⟨?_, ?_⟩, ?_, Eq.refl _⟩
    · rw [live_map_some]
      exact h.1
    · rw [hs _ (Eq.refl _), slots, reduceOption_map, List.map_map]
      refine indexes_buildIndex _ ?_
      have := h.2.nodup
      rw [slots, reduceOption_map, List.map_map] at this
      exact this
    · rw [hs _ (Eq.refl _)]
      have hptr : renumber storage.entries storage.internalPointer =
          storage.internalPointer.map (rank (slots (.mixed storage))) := by
        rw [← renumber_map ArrayEntry.pair]
        exact renumber_live H.live
      show Represents _ (renumber storage.entries storage.internalPointer) m
      rw [hptr]
      exact H.compact

end ArrayStorage
end Phrust
