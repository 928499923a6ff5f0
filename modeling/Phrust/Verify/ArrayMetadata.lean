import Phrust.Verify.ArrayStorage

/-!
# The cached metadata of an array is exact

The counters are kept up to date by every write, copied when the layout changes and refreshed when a
slot guard is dropped. `ArrayStorage.Exact` says that they are what counting the live entries again
gives; each storage operation has one lemma that it keeps this.
-/

namespace Phrust
open List Slots ArrayStorage ArrayCachedMetadata Option

/-! ## Counting again -/

def ArrayKey.isInt : ArrayKey → Bool
  | .int _ => true
  | .string _ => false

def ArrayKey.isString : ArrayKey → Bool
  | .int _ => false
  | .string _ => true

/-- A string key that looks numeric, when keys are classified by `classify`. -/
def ArrayKey.isAmbiguous (classify : PhpString → NumericStringArrayKey) : ArrayKey → Bool
  | .int _ => false
  | .string name => arrayKeyHasNumericStringAmbiguity ⟨classify, fun _ => false, false⟩ name

/-- The entry has a string key that was shared when the entry was made. -/
def ArrayEntry.sharesKey (entry : ArrayEntry V) : Bool :=
  entry.key.isString && entry.stringKeySharedForShape

/-- The live entries in order. A packed array has its positions as keys, and a record array shares
its keys with its shape. -/
def ArrayStorage.liveEntries : ArrayStorage V → List (ArrayEntry V)
  | .packed storage => storage.values.zipIdx.map fun (value, index) => ⟨.int index, value, false⟩
  | .record storage => (storage.shape.keys.zip storage.values).map fun (key, value) =>
      ⟨.string key, value, true⟩
  | .mixed storage => storage.entries.reduceOption

theorem toNat_eq_ite (b : Bool) : b.toNat = if b = true then 1 else 0 := by cases b <;> rfl

section
variable {V : Type} [ValueKind V]

/-- The metadata of `entries`, counted from scratch. -/
def recount (classify : PhpString → NumericStringArrayKey) (entries : List (ArrayEntry V)) :
    ArrayCachedMetadata where
  len := entries.length
  referenceValues := entries.countP fun entry => isReference entry.value
  intValues := entries.countP fun entry => isInt entry.value
  intKeys := entries.countP fun entry => entry.key.isInt
  stringKeys := entries.countP fun entry => entry.key.isString
  numericStringAmbiguousKeys := entries.countP fun entry => entry.key.isAmbiguous classify
  sharedStringKeys := entries.countP fun entry => entry.sharesKey

variable {classify : PhpString → NumericStringArrayKey} {env : Env}

/-- An environment that classifies as `classify` does. -/
def classifyingEnv (classify : PhpString → NumericStringArrayKey) : Env :=
  ⟨classify, fun _ => false, false⟩

theorem classifyingEnv_eq (classify : PhpString → NumericStringArrayKey) :
    (classifyingEnv classify).classifyArrayKey = classify := rfl

theorem recount_concat (henv : env.classifyArrayKey = classify) (entries : List (ArrayEntry V))
    (entry : ArrayEntry V) :
    recount classify (entries ++ [entry]) = (recount classify entries).addEntry env entry := by
  subst henv
  obtain ⟨key, value, shared⟩ := entry
  cases key <;>
    simp only [recount, addEntry, addValue, countP_append, countP_singleton, length_append, length_singleton,
      toNat_eq_ite] <;>
    rfl

/-- The entry of a record slot counts as a record value if its key is unambiguous. -/
theorem recount_concat_record
    (hname : (ArrayKey.string name).isAmbiguous classify = false) (entries : List (ArrayEntry V))
    (value : V) :
    recount classify (entries ++ [⟨.string name, value, true⟩]) =
      (recount classify entries).addRecordValue value := by
  rw [recount_concat (classifyingEnv_eq classify)]
  have hclear : arrayKeyHasNumericStringAmbiguity (classifyingEnv classify) name = false := hname
  simp [addEntry, addRecordValue, hclear, addValue]

theorem recount_concat_packed (classify : PhpString → NumericStringArrayKey)
    (entries : List (ArrayEntry V)) (index : Int) (value : V) :
    recount classify (entries ++ [⟨.int index, value, false⟩]) =
      (recount classify entries).addPackedValue value :=
  recount_concat (classifyingEnv_eq classify) entries _

omit [ValueKind V] in
theorem countP_erase (p : ArrayEntry V → Bool) (before after : List (ArrayEntry V)) (entry : ArrayEntry V) :
    (before ++ after).countP p = (before ++ entry :: after).countP p - (p entry).toNat := by
  simp only [countP_append, countP_cons]
  cases p entry <;> simp

theorem recount_erase (henv : env.classifyArrayKey = classify) (before after : List (ArrayEntry V))
    (entry : ArrayEntry V) :
    recount classify (before ++ after) =
      (recount classify (before ++ entry :: after)).removeEntry env entry := by
  subst henv
  obtain ⟨key, value, shared⟩ := entry
  have hlen : (before ++ after).length =
      (before ++ (⟨key, value, shared⟩ : ArrayEntry V) :: after).length - 1 := by simp
  simp only [recount, hlen, countP_erase _ before after ⟨key, value, shared⟩]
  cases key <;>
    simp [removeEntry, removeValue, ArrayKey.isInt,
      ArrayKey.isString, ArrayKey.isAmbiguous, ArrayEntry.sharesKey,
      arrayKeyHasNumericStringAmbiguity]

omit [ValueKind V] in
theorem countP_replace (p : ArrayEntry V → Bool) (before after : List (ArrayEntry V))
    (old new : ArrayEntry V) :
    (before ++ new :: after).countP p =
      (before ++ old :: after).countP p - (p old).toNat + (p new).toNat := by
  simp only [countP_append, countP_cons]
  cases p old <;> cases p new <;> simp <;> omega

/-- A new value under the same key moves the value counters only. -/
theorem recount_replace (classify : PhpString → NumericStringArrayKey)
    (before after : List (ArrayEntry V)) (entry : ArrayEntry V) (value : V) :
    recount classify (before ++ { entry with value } :: after) =
      (recount classify (before ++ entry :: after)).replaceValueFlags (isReference entry.value)
        (isReference value) (isInt entry.value) (isInt value) := by
  have hkey : ∀ p : ArrayEntry V → Bool, p { entry with value } = p entry →
      (before ++ { entry with value } :: after).countP p = (before ++ entry :: after).countP p := by
    intro p hp
    rw [countP_append, countP_append, countP_cons, countP_cons, hp]
  simp only [recount, replaceValueFlags, length_append, length_cons,
    countP_replace (fun e => isReference e.value) before after entry { entry with value },
    countP_replace (fun e => isInt e.value) before after entry { entry with value }]
  congr 1
  · exact hkey _ rfl
  · exact hkey _ rfl
  · exact hkey _ rfl
  · exact hkey _ rfl

variable {entries : List (ArrayEntry V)}

omit [ValueKind V] in
theorem split_at (h : entries[i]? = some entry) :
    entries = entries.take i ++ entry :: entries.drop (i + 1) := by
  obtain ⟨hlt, rfl⟩ := List.getElem?_eq_some_iff.mp h
  rw [getElem_cons_drop, take_append_drop]

theorem recount_set (h : entries[i]? = some entry) (value : V) :
    recount classify (entries.set i { entry with value }) =
      (recount classify entries).replaceValueFlags (isReference entry.value) (isReference value)
        (isInt entry.value) (isInt value) := by
  have hlt := (List.getElem?_eq_some_iff.mp h).1
  rw [set_eq_take_append_cons_drop, if_pos hlt, recount_replace, ← split_at h]

theorem recount_eraseIdx (henv : env.classifyArrayKey = classify) (h : entries[i]? = some entry) :
    recount classify (entries.eraseIdx i) = (recount classify entries).removeEntry env entry := by
  rw [eraseIdx_eq_take_drop_succ, recount_erase henv _ _ entry, ← split_at h]

end

/-! ## Exact storages -/

namespace ArrayStorage
variable {V : Type}

def recordKeys : ArrayStorage V → List PhpString
  | .record storage => storage.shape.keys
  | _ => []

section
variable (storage : ArrayStorage V)

theorem liveEntries_setHeader (header : ArrayHeader) :
    (storage.setHeader header).liveEntries = storage.liveEntries := by
  cases storage <;> rfl

theorem recordKeys_setHeader (header : ArrayHeader) :
    (storage.setHeader header).recordKeys = storage.recordKeys := by
  cases storage <;> rfl

theorem iterPairs_eq_liveEntries : storage.iterPairs = storage.liveEntries.map ArrayEntry.pair := by
  cases storage with
  | packed | record => simp [iterPairs, liveEntries, ArrayEntry.pair, Function.comp_def]
  | mixed storage => rfl

end

variable [ValueKind V] {classify : PhpString → NumericStringArrayKey} {env : Env}
  {storage storage' : ArrayStorage V}

/-- The cached counters are what counting again gives, and no record key looks numeric. -/
structure Exact (classify : PhpString → NumericStringArrayKey) (storage : ArrayStorage V) : Prop where
  metadata : storage.metadata = recount classify storage.liveEntries
  unambiguous : ∀ name ∈ storage.recordKeys, (ArrayKey.string name).isAmbiguous classify = false

section
variable (E : storage.Exact classify)
include E

theorem Exact.setHeader {header : ArrayHeader}
    (h : header.cachedMetadata = storage.metadata) : (storage.setHeader header).Exact classify where
  metadata := by
    rw [liveEntries_setHeader, ← E.metadata, ← h, ArrayStorage.metadata, header_setHeader]
  unambiguous := by
    rw [recordKeys_setHeader]
    exact E.unambiguous

theorem Exact.setNextAppendKey (next : Option Int) :
    (storage.setNextAppendKey next).Exact classify := E.setHeader rfl

theorem Exact.setInternalPointer (pointer : Option Nat) :
    (storage.setInternalPointer pointer).Exact classify := E.setHeader rfl

theorem Exact.bumpMutationEpoch : storage.bumpMutationEpoch.Exact classify := E.setHeader rfl

theorem Exact.bumpAppendKey (key : ArrayKey) : (storage.bumpAppendKey key).Exact classify := by
  cases key with
  | string name => exact E
  | int value =>
    rw [ArrayStorage.bumpAppendKey]
    split
    · exact E.setNextAppendKey _
    · exact E

end

theorem exact_of_entries (hentries : storage.liveEntries = entries)
    (h : storage.metadata = recount classify entries) (hkeys : storage.recordKeys = []) :
    storage.Exact classify where
  metadata := h.trans (congrArg _ hentries).symm
  unambiguous := hkeys ▸ nofun

/-! ## Conversions copy the counters -/

section
variable (E : storage.Exact classify)
include E

theorem Exact.mixedOfEntries (h : entries = storage.liveEntries) :
    (ArrayStorage.mixedOfEntries storage.header entries).Exact classify :=
  exact_of_entries (live_map_some _) (h ▸ E.metadata) rfl

theorem Exact.makeRecordMixed : storage.makeRecordMixed.Exact classify := by
  cases storage with
  | record storage =>
    refine Exact.mixedOfEntries E ?_
    apply ext_getElem?
    intro i
    cases hk : storage.shape.keys[i]? <;> cases hv : storage.values[i]? <;>
      simp [liveEntries, List.zip, getElem?_zipWith, hk, hv]
  | _ => exact E

theorem Exact.makeMixed : storage.makeMixed.Exact classify := by
  cases storage with
  | packed storage => exact Exact.mixedOfEntries E rfl
  | record storage => exact E.makeRecordMixed
  | mixed storage => exact E

end

theorem exact_promoteEmptyToRecord (hcache : cache.Valid) (storage : ArrayStorage V) :
    (storage.promoteEmptyToRecord cache).1.Exact classify := by
  have S := recordShapeFor_shaped hcache [] none nodup_nil (by simp)
  have hkeys : (recordShapeFor cache [] none).2.1.keys = [] := S.keys_eq
  constructor
  · simp [promoteEmptyToRecord, ArrayStorage.metadata, header, liveEntries, recount]
  intro name hname
  have hmem : name ∈ (recordShapeFor cache [] none).2.1.keys := hname
  rw [hkeys] at hmem
  cases hmem

/-! ## Writes -/

theorem Exact.pushEntry (E : storage.Exact classify) (hcache : cache.Valid) (hwf : storage.WF cache)
    (hfits : storage.Fits key) (hnew : storage.findIndex key = none)
    (hkey : storage.isRecord = true → key.isAmbiguous classify = false)
    (henv : env.classifyArrayKey = classify)
    (h : storage.pushEntry env cache (.new env key value) = some (storage', cache')) :
    storage'.Exact classify := by
  cases storage with
  | packed storage =>
    cases h
    have hentries : liveEntries (.packed { storage with
        cachedMetadata := storage.cachedMetadata.addPackedValue value
        values := storage.values ++ [value] }) =
        liveEntries (.packed storage) ++ [⟨.int storage.values.length, value, false⟩] := by
      simp [liveEntries, zipIdx_append]
    refine exact_of_entries hentries ?_ rfl
    rw [recount_concat_packed, ← E.metadata]
    rfl
  | record storage =>
    cases key with
    | int n => exact hfits.elim
    | string name =>
      have hlen : storage.shape.keys.length < 2 ^ 32 := hwf.1 ▸ hfits
      have S := growShape_shaped hcache hwf.2.1 hwf.2.2 (hwf.2.1.none_iff.mp hnew)
        hwf.2.1.nodup hlen env
      have hpush := pushEntry.eq_1 env cache (.new env (.string name) value) storage
      simp only [ArrayEntry.new] at hpush
      generalize growShape env cache storage.shape storage.interned name = grown at S hpush
      obtain ⟨shape, interned, cache₁⟩ := grown
      cases hpush.symm.trans h
      have hkeys : shape.keys = storage.shape.keys ++ [name] := S.keys_eq
      have hname := hkey rfl
      constructor
      · have hentries : liveEntries (.record { storage with
            shape, interned
            cachedMetadata := storage.cachedMetadata.addRecordValue value
            values := storage.values ++ [value] }) =
            liveEntries (.record storage) ++ [⟨.string name, value, true⟩] := by
          simp only [liveEntries, hkeys, zip_append hwf.1]
          simp
        refine Eq.trans ?_ (congrArg (recount classify) hentries).symm
        rw [recount_concat_record hname, ← E.metadata]
        rfl
      · intro other hother
        have hmem : other ∈ storage.shape.keys ++ [name] := hkeys ▸ hother
        rcases mem_append.mp hmem with hmem | hmem
        · exact E.unambiguous other hmem
        · cases mem_singleton.mp hmem
          exact hname
  | mixed storage =>
    cases h
    have hentries : (storage.entries ++ [some (ArrayEntry.new env key value)]).reduceOption =
        liveEntries (.mixed storage) ++ [ArrayEntry.new env key value] := by
      rw [reduceOption_append]
      rfl
    refine exact_of_entries hentries ?_ rfl
    rw [recount_concat henv, ← E.metadata]
    rfl

omit [ValueKind V] in
/-- A slot is a position among the live entries, and writing the slot writes that position. -/
theorem liveEntries_setValueAt (hwf : storage.WF cache) (hi : LiveAt storage.slots i (key, old)) (value : V) :
    ∃ j entry, storage.liveEntries[j]? = some entry ∧ entry.value = old ∧
      (storage.setValueAt i value).liveEntries = storage.liveEntries.set j { entry with value } := by
  cases storage with
  | packed storage =>
    have hi' : (slots (.packed storage))[i]? = some (some (key, old)) := hi
    rw [getElem?_slots_packed] at hi'
    obtain ⟨old', hvalue, heq⟩ := map_eq_some_iff.mp hi'
    cases heq
    refine ⟨i, ⟨.int i, old, false⟩, by simp [liveEntries, hvalue], rfl, ?_⟩
    apply ext_getElem?
    intro j
    have hlt := (List.getElem?_eq_some_iff.mp hvalue).1
    by_cases hij : i = j
    · subst hij
      simp [liveEntries, setValueAt, hlt]
    · simp [liveEntries, setValueAt, hij]
  | record storage =>
    have hi' : (slots (.record storage))[i]? = some (some (key, old)) := hi
    rw [getElem?_slots_record] at hi'
    obtain ⟨name, hname, hi'⟩ := bind_eq_some_iff.mp hi'
    obtain ⟨old', hvalue, heq⟩ := map_eq_some_iff.mp hi'
    cases heq
    refine ⟨i, ⟨.string name, old, true⟩, ?_, rfl, ?_⟩
    · simp [liveEntries, List.zip, getElem?_zipWith, hname, hvalue]
    apply ext_getElem?
    intro j
    have hlt := (List.getElem?_eq_some_iff.mp hvalue).1
    obtain ⟨hlt', rfl⟩ := List.getElem?_eq_some_iff.mp hname
    by_cases hij : i = j
    · subst hij
      simp [liveEntries, setValueAt, List.zip, hlt, hlt']
    · simp [liveEntries, setValueAt, List.zip, getElem?_zipWith, hij]
  | mixed storage =>
    obtain ⟨entry, hslot, -, hvalue⟩ := exists_entry_of_liveAt hi
    have hlive : LiveAt storage.entries i entry := hslot
    refine ⟨rank storage.entries i, entry, rank_getElem? hlive, hvalue, ?_⟩
    rw [liveEntries, ← live_set_some hlive]
    have hmodify : storage.entries.modify i (fun slot => slot.map ({ · with value })) =
        storage.entries.set i (some { entry with value }) := by
      rw [modify_eq_set_getElem?, hslot]
      rfl
    exact congrArg List.reduceOption hmodify

omit [ValueKind V] in
theorem metadata_setValueAt (storage : ArrayStorage V) (i : Nat) (value : V) :
    (storage.setValueAt i value).metadata = storage.metadata := by
  cases storage <;> rfl

omit [ValueKind V] in
theorem recordKeys_setValueAt (storage : ArrayStorage V) (i : Nat) (value : V) :
    (storage.setValueAt i value).recordKeys = storage.recordKeys := by
  cases storage <;> rfl

/-- Writing a slot and moving the value counters, which is what `replace_value` does in one step and
a slot guard between its creation and its drop. -/
theorem Exact.write (E : storage.Exact classify) (hwf : storage.WF cache)
    (hi : LiveAt storage.slots i (key, old)) (value : V) :
    ((storage.setValueAt i value).setMetadata
      ((storage.setValueAt i value).metadata.replaceValueFlags (isReference old)
        (isReference value) (isInt old) (isInt value))).Exact classify := by
  obtain ⟨j, entry, hentry, rfl, hset⟩ := liveEntries_setValueAt hwf hi value
  constructor
  · rw [setMetadata, liveEntries_setHeader, hset, recount_set hentry, ← E.metadata,
      ← metadata_setValueAt storage i value, ArrayStorage.metadata, header_setHeader]
  · rw [setMetadata, recordKeys_setHeader, recordKeys_setValueAt]
    exact E.unambiguous

theorem Exact.replaceValue (E : storage.Exact classify) (hwf : storage.WF cache)
    (hi : LiveAt storage.slots i (key, old)) (hcache : cache.Valid)
    (h : storage.replaceValue i value = some (old', storage')) : storage'.Exact classify := by
  cases (replaceValue_eq hcache hwf hi value).symm.trans h
  exact E.write hwf hi value

/-! ## Removals -/

theorem Exact.removeIndex_mixed {storage : MixedArrayStorage V}
    (E : (ArrayStorage.mixed storage).Exact classify) (henv : env.classifyArrayKey = classify)
    (h : (ArrayStorage.mixed storage).removeIndex env i = some (removed, storage')) :
    storage'.Exact classify := by
  obtain ⟨entry, hentry, h⟩ := bind_eq_some_iff.mp h
  cases h
  have hlive : LiveAt storage.entries i entry := by
    rw [LiveAt]
    rcases hslot : storage.entries[i]? with _ | _ | _ <;> rw [hslot] at hentry <;> cases hentry
    rfl
  have hentries : (storage.entries.set i none).reduceOption =
      (liveEntries (.mixed storage)).eraseIdx (rank storage.entries i) := live_set_none hlive
  have hentry' : (liveEntries (.mixed storage))[rank storage.entries i]? = some entry :=
    rank_getElem? hlive
  refine exact_of_entries hentries ?_ rfl
  rw [recount_eraseIdx henv hentry', ← E.metadata]
  rfl

theorem Exact.removeIndex_packed {storage : PackedArrayStorage V}
    (E : (ArrayStorage.packed storage).Exact classify) (hlast : i + 1 = storage.values.length)
    (h : (ArrayStorage.packed storage).removeIndex env i = some (removed, storage')) :
    storage'.Exact classify := by
  obtain ⟨value, hvalue, h⟩ := bind_eq_some_iff.mp h
  cases h
  have hentry : (liveEntries (.packed storage))[i]? = some ⟨.int i, value, false⟩ := by
    simp [liveEntries, hvalue]
  have hentries : liveEntries (.packed { storage with
      values := storage.values.eraseIdx i
      cachedMetadata := storage.cachedMetadata.removePackedValue value }) =
      (liveEntries (.packed storage)).eraseIdx i := by
    have htake : ∀ {α : Type} (l : List α), i + 1 = l.length → l.eraseIdx i = l.take i := by
      intro α l hl
      rw [eraseIdx_eq_take_drop_succ, hl, drop_length, append_nil]
    simp only [liveEntries]
    rw [htake _ hlast, htake _ (by simpa using hlast), ← map_take]
    refine congrArg (List.map _) (ext_getElem? fun j => ?_)
    rw [getElem?_zipIdx, getElem?_take, getElem?_take, getElem?_zipIdx]
    split <;> rfl
  refine exact_of_entries hentries ?_ rfl
  rw [recount_eraseIdx (classifyingEnv_eq classify) hentry, ← E.metadata]
  rfl

theorem Exact.adjustPointerAfterRemove (E : storage.Exact classify) (i : Nat) :
    (storage.adjustPointerAfterRemove i).Exact classify := by
  rw [ArrayStorage.adjustPointerAfterRemove]
  split
  · exact E
  · split
    · exact E.setInternalPointer _
    · exact E.setInternalPointer _

theorem Exact.compactMixedIfNeeded (E : storage.Exact classify) :
    storage.compactMixedIfNeeded.Exact classify := by
  cases storage with
  | mixed storage =>
    rw [ArrayStorage.compactMixedIfNeeded]
    split
    · exact E
    rw [foldl_compactStep]
    exact exact_of_entries (live_map_some _) E.metadata rfl
  | _ => exact E

end ArrayStorage
end Phrust
