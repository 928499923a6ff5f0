import Phrust.Runtime.ReferenceArray
import Phrust.Verify.ArrayMetadata

/-!
# PHP arrays refine their reference

`PhpArray.Refines` ties an array in any layout to the reference list. Every operation keeps it and
the exactness of the metadata, as long as a record array never runs out of `u32` slot numbers.
-/

namespace Phrust
open Slots ArrayStorage OrderedMap Option

/-- Integer keys are `i64` values. -/
def ArrayKey.IsI64 : ArrayKey → Prop
  | .int value => i64Min ≤ value ∧ value ≤ i64Max
  | .string _ => True

instance : DecidablePred ArrayKey.IsI64
  | .int value => inferInstanceAs (Decidable (i64Min ≤ value ∧ value ≤ i64Max))
  | .string _ => inferInstanceAs (Decidable True)

namespace ReferenceArray
variable {V : Type}

/-- Every integer key is an `i64`; each is below the next implicit key or the largest of all. -/
structure Bounded (ref : ReferenceArray V) : Prop where
  next_i64 : ∀ n ∈ ref.next, (ArrayKey.int n).IsI64
  keys : ∀ n, .int n ∈ ref.map.entries.map Prod.fst →
    (ArrayKey.int n).IsI64 ∧ ∃ next ∈ ref.next, n < next ∨ i64Max ≤ n

theorem saturatingAdd_isI64 (a b : Int) : (ArrayKey.int (saturatingAdd a b)).IsI64 := by
  simp only [ArrayKey.IsI64, saturatingAdd, i64Min, i64Max]
  omega

theorem lt_saturatingAdd (h : (ArrayKey.int n).IsI64) : n < saturatingAdd n 1 ∨ i64Max ≤ n := by
  simp only [ArrayKey.IsI64, saturatingAdd, i64Min, i64Max] at *
  omega

/-- The next implicit key only grows, and past the key in use. -/
theorem nextAfter_int (next : Option Int) (k : Int) :
    ∃ n', nextAfter next (.int k) = some n' ∧ saturatingAdd k 1 ≤ n' ∧ (∀ n ∈ next, n ≤ n') ∧
      (n' = saturatingAdd k 1 ∨ next = some n') := by
  cases next with
  | none => exact ⟨_, rfl, Int.le_refl _, by simp, .inl rfl⟩
  | some n =>
    by_cases h : n < saturatingAdd k 1
    · refine ⟨_, if_pos (by simpa using h), Int.le_refl _, ?_, .inl rfl⟩
      rintro _ ⟨⟩
      exact Int.le_of_lt h
    · refine ⟨n, if_neg (by simpa using h), Int.not_lt.mp h, ?_, .inr rfl⟩
      rintro _ ⟨⟩
      exact Int.le_refl _

variable {ref : ReferenceArray V}

section
variable (B : ref.Bounded)
include B

theorem Bounded.nextAfter (key : ArrayKey) : Bounded { ref with next := nextAfter ref.next key } := by
  cases key with
  | string name => exact B
  | int k =>
    obtain ⟨n', hnext, hk, hgrow, hfrom⟩ := nextAfter_int ref.next k
    refine ⟨fun n hn => ?_, fun n hn => ?_⟩
    · obtain rfl : n = n' := Option.some.inj (hn.symm.trans hnext)
      rcases hfrom with h | h
      · exact h ▸ saturatingAdd_isI64 ..
      · exact B.next_i64 n h
    · obtain ⟨hi64, next, hn', hlt⟩ := B.keys n hn
      exact ⟨hi64, n', hnext, hlt.imp_left fun h => Int.lt_of_lt_of_le h (hgrow next hn')⟩

theorem Bounded.insert (hkey : key.IsI64) (value : V) : (ref.insert key value).2.Bounded := by
  refine ⟨(B.nextAfter key).next_i64, fun n hn => ?_⟩
  rcases mem_keys_insert hn with rfl | hn
  · obtain ⟨n', hnext, hk, -⟩ := nextAfter_int ref.next n
    exact ⟨hkey, n', hnext, (lt_saturatingAdd hkey).imp_left fun h => Int.lt_of_lt_of_le h hk⟩
  · exact (B.nextAfter key).keys n hn

/-- Nothing is stored at the next implicit key, except when that is the largest key. -/
theorem Bounded.next_absent (h : ref.next.getD 0 ≠ i64Max ∨ ref.map.indexOf (.int i64Max) = none) :
    ref.map.indexOf (.int (ref.next.getD 0)) = none := by
  by_cases hmax : ref.next.getD 0 = i64Max
  · rw [hmax]
    exact h.resolve_left (fun h => h hmax)
  rw [indexOf_eq_none_iff]
  intro hmem
  obtain ⟨hi64, next, hnext, hlt⟩ := B.keys _ hmem
  have hn : ref.next = some next := hnext
  rw [hn, getD_some] at hmax hi64 hlt
  have hle := hi64.2
  omega

theorem Bounded.next_getD : (ArrayKey.int (ref.next.getD 0)).IsI64 := by
  cases h : ref.next with
  | none => decide
  | some n => exact B.next_i64 n h

theorem Bounded.remove (key : ArrayKey) : (ref.remove key).2.Bounded :=
  ⟨B.next_i64, fun n hn => B.keys n (mem_keys_erase hn).2⟩

/-- Giving a popped key back keeps the other integer keys below the next one. -/
theorem Bounded.pop : ref.pop.2.Bounded := by
  rw [ReferenceArray.pop]
  cases hlast : ref.map.entries.getLast? with
  | none => exact B
  | some e =>
    obtain ⟨key, value⟩ := e
    have hmem : key ∈ ref.map.entries.map Prod.fst :=
      List.mem_map_of_mem (List.mem_of_getLast? hlast)
    cases key with
    | string name => exact B.remove _
    | int k =>
      dsimp only
      rw [nextAfterPop]
      have hk := (B.keys k hmem).1
      split
      · next hnext =>
        refine ⟨by rintro _ ⟨⟩; exact hk, fun n hn => ?_⟩
        obtain ⟨hne, hn⟩ := mem_keys_erase hn
        obtain ⟨hmax, next, hn', hlt⟩ := B.keys n hn
        obtain rfl : next = saturatingAdd k 1 := Option.some.inj (hn'.symm.trans hnext)
        have hnk : n ≠ k := fun h => hne (h ▸ rfl)
        refine ⟨hmax, k, rfl, ?_⟩
        simp only [ArrayKey.IsI64, saturatingAdd, i64Min, i64Max] at hk hmax hlt ⊢
        omega
      · exact B.remove _

theorem Bounded.replace (key : ArrayKey) (value : V) :
    Bounded { ref with map := (ref.map.replace key value).2 } :=
  ⟨B.next_i64, fun n hn => B.keys n (by rwa [keys_replace] at hn)⟩

end
end ReferenceArray

namespace ArrayStorage
variable {V : Type}

theorem setHeader_header (storage : ArrayStorage V) : storage.setHeader storage.header = storage := by
  cases storage <;> rfl

/-- Using a key moves the next implicit key as the reference does, and nothing else. -/
theorem bumpAppendKey_eq (storage : ArrayStorage V) (key : ArrayKey) :
    storage.bumpAppendKey key =
      storage.setNextAppendKey (ReferenceArray.nextAfter storage.nextAppendKey key) := by
  have hself : storage.setNextAppendKey storage.nextAppendKey = storage := setHeader_header storage
  cases key with
  | string name => exact hself.symm
  | int value =>
    rw [bumpAppendKey, ReferenceArray.nextAfter]
    split
    · rfl
    · exact hself.symm

end ArrayStorage

namespace PhpArray
variable {V : Type}

section
variable [ValueKind V]

/-- A layout that holds what `storage` held and can take the key. A record takes only keys that do
not look numeric. -/
structure Takes (env : Env) (cache : ShapeCache) (storage : ArrayStorage V) (key : ArrayKey)
    (storage' : ArrayStorage V) (cache' : ShapeCache) : Prop where
  stored : Stored cache storage.slots storage.internalPointer storage.nextAppendKey storage' cache'
  fits : storage'.Fits key
  unambiguous : storage'.isRecord = true → key.isAmbiguous env.classifyArrayKey = false
  exact : storage.Exact env.classifyArrayKey → storage'.Exact env.classifyArrayKey

variable {storage : ArrayStorage V} (hcache : cache.Valid)
  (h : storage.WF cache) (env : Env) (key : ArrayKey)
include hcache h

theorem Takes.makeMixed : Takes env cache storage key storage.makeMixed cache where
  stored := makeMixed_stored hcache h
  fits := by cases storage <;> trivial
  unambiguous := by cases storage <;> exact nofun
  exact := Exact.makeMixed

theorem storageForNewKey_takes (hroom : ∀ name, key = .string name → storage.isRecord = true →
      arrayKeyHasNumericStringAmbiguity env name = false → storage.len < 2 ^ 32) :
    Takes env cache storage key (storageForNewKey env cache storage key).1
      (storageForNewKey env cache storage key).2 := by
  simp only [storageForNewKey]
  split
  · next hpacked =>
    cases storage with
    | packed storage => exact ⟨.rfl hcache h, beq_iff_eq.mp hpacked, nofun, id⟩
    | _ => cases hpacked
  split
  · next hrecord =>
    cases storage with
    | record storage =>
      cases key with
      | int n => exact .makeMixed hcache h env _
      | string name =>
        dsimp only
        split
        · exact .makeMixed hcache h env _
        · next hambiguous =>
          have hclear := eq_false_of_ne_true hambiguous
          exact ⟨.rfl hcache h, hroom name rfl rfl hclear, fun _ => hclear, id⟩
    | _ => cases hrecord
  · cases key with
    | int n => exact .makeMixed hcache h env _
    | string name =>
      dsimp only
      split
      · next hempty =>
        simp only [Bool.and_eq_true, beq_iff_eq, Bool.not_eq_true'] at hempty
        have hslots : storage.slots = [] := by
          cases storage with
          | packed storage =>
            have : storage.values = [] := List.length_eq_zero_iff.mp hempty.1.2
            simp [slots, iterPairs, this]
          | _ => cases hempty.1.1
        exact ⟨promoteEmptyToRecord_stored hcache hslots, Nat.two_pow_pos 32, fun _ => hempty.2,
          fun _ => exact_promoteEmptyToRecord hcache storage⟩
      · exact .makeMixed hcache h env _

end

/-! ## The refinement relation -/

/-- The array, in whatever layout, stands for the reference. -/
structure Refines (cache : ShapeCache) (array : PhpArray V) (ref : ReferenceArray V) : Prop where
  valid : cache.Valid
  wf : array.storage.WF cache
  represents : Represents array.storage.slots array.storage.internalPointer ref.map
  next : array.storage.nextAppendKey = ref.next
  bounded : ref.Bounded

namespace Refines
variable {array : PhpArray V} {ref : ReferenceArray V}
variable (R : Refines cache array ref)
include R

theorem indexOf (key : ArrayKey) :
    ref.map.indexOf key = (array.storage.findIndex key).map (rank array.storage.slots) :=
  R.represents.indexOf R.wf.indexes

theorem indexOf_none (h : array.storage.findIndex key = none) : ref.map.indexOf key = none := by
  rw [R.indexOf, h]
  rfl

/-- A key that is found: its slot, its position in the reference and its value. -/
theorem found (h : array.storage.findIndex key = some i) :
    ∃ value, LiveAt array.storage.slots i (key, value) ∧
      ref.map.indexOf key = some (rank array.storage.slots i) ∧ ref.map.get key = some value := by
  obtain ⟨value, hi⟩ := (R.wf.indexes key i).mp h
  exact ⟨value, hi, by rw [R.indexOf, h]; rfl, get_of_getElem? (R.represents.getElem?_rank hi)⟩

theorem get (key : ArrayKey) : array.get key = ref.map.get key := by
  rw [R.represents.get R.wf.indexes]
  exact get_eq R.wf key

theorem observes : array.Observes ref where
  iter := by rw [iter, iterPairs_eq, R.represents.entries]
  len := by rw [len, len_eq R.wf.counted, R.represents.entries]
  get := R.get
  pointerKey := by
    rw [← R.represents.current, pointerKey]
    cases array.storage.internalPointer with
    | none => rfl
    | some i => exact keyAt_eq R.wf.counted i
  pointerValue := by
    rw [← R.represents.current, pointerValue]
    cases array.storage.internalPointer with
    | none => rfl
    | some i => exact getValue_eq R.wf.counted i

/-- Rewriting header fields other than the pointer and the next key is not visible. -/
theorem setHeader {header : ArrayHeader} (hp : header.internalPointer = array.storage.internalPointer)
    (hn : header.nextAppendKey = array.storage.nextAppendKey) :
    Refines cache ⟨array.storage.setHeader header⟩ ref where
  valid := R.valid
  wf := (wf_setHeader ..).mpr R.wf
  represents := by
    simp only [internalPointer, slots_setHeader, header_setHeader] at hp ⊢
    rw [hp]
    exact R.represents
  next := by
    simp only [nextAppendKey, header_setHeader] at hn ⊢
    rw [hn]
    exact R.next
  bounded := R.bounded

theorem bumpAppendKey (key : ArrayKey) : Refines cache ⟨array.storage.bumpAppendKey key⟩
      { ref with next := ReferenceArray.nextAfter ref.next key } := by
  rw [bumpAppendKey_eq, R.next, setNextAppendKey]
  refine ⟨R.valid, (wf_setHeader ..).mpr R.wf, ?_, ?_, R.bounded.nextAfter key⟩
  · simp only [internalPointer, slots_setHeader, header_setHeader]
    exact R.represents
  · simp [nextAppendKey]

theorem bumpMutationEpoch : Refines cache ⟨array.storage.bumpMutationEpoch⟩ ref := R.setHeader rfl rfl

theorem canAppend : array.canAppend =
    !decide (ref.next.getD 0 = i64Max ∧ (ref.map.get (.int i64Max)).isSome) := by
  have hget : (array.storage.findIndex (.int i64Max)).isNone =
      (ref.map.get (.int i64Max)).isNone := by
    rw [Bool.eq_iff_iff, isNone_iff_eq_none, isNone_iff_eq_none, get_eq_none_iff, R.indexOf, map_eq_none_iff]
  rw [PhpArray.canAppend, R.next, hget]
  by_cases hmax : ref.next.getD 0 = i64Max <;> cases ref.map.get (.int i64Max) <;> simp [hmax]

end Refines

/-- A layout that holds the same slots stands for the same reference. -/
theorem Refines.of_stored {storage : ArrayStorage V}
    (R : Refines cache array ref) (S : Stored cache array.storage.slots array.storage.internalPointer
      array.storage.nextAppendKey storage cache) : Refines cache ⟨storage⟩ ref :=
  ⟨R.valid, S.wf, by rw [S.slots_eq, S.pointer_eq]; exact R.represents, S.next_eq.trans R.next, R.bounded⟩

theorem Refines.mono (R : Refines cache array ref) (hvalid : cache'.Valid)
    (hext : cache.Extends cache') : Refines cache' array ref :=
  ⟨hvalid, R.wf.mono hext, R.represents, R.next, R.bounded⟩

/-! ## Writing operations -/

section
variable [ValueKind V] {array : PhpArray V} {ref : ReferenceArray V}
  {classify : PhpString → NumericStringArrayKey}

/-- A record array with `2 ^ 32` values has no slot number left for a new key. -/
def SlotRoom (env : Env) (array : PhpArray V) (key : ArrayKey) : Prop :=
  ∀ name, key = .string name → array.isRecordStorage = true →
    arrayKeyHasNumericStringAmbiguity env name = false → array.get key = none → array.len < 2 ^ 32

instance SlotRoom.decidable (env : Env) (array : PhpArray V) : ∀ key, Decidable (array.SlotRoom env key)
  | .int _ => isTrue nofun
  | .string name =>
    decidable_of_iff (array.isRecordStorage = true → arrayKeyHasNumericStringAmbiguity env name = false →
        array.get (.string name) = none → array.len < 2 ^ 32)
      ⟨fun h _ hname => by cases hname; exact h, fun h => h name rfl⟩

/-- An operation led from `array` to an array that stands for `ref'`: the cache kept the shapes of
other arrays, and exact metadata stayed exact. -/
structure Leads (classify : PhpString → NumericStringArrayKey) (cache : ShapeCache)
    (array : PhpArray V) (cache' : ShapeCache) (array' : PhpArray V) (ref' : ReferenceArray V) : Prop where
  extends_cache : cache.Extends cache'
  refines : Refines cache' array' ref'
  exact : array.storage.Exact classify → array'.storage.Exact classify

theorem Refines.leads (R : Refines cache array ref) : Leads classify cache array cache array ref :=
  ⟨.rfl, R, id⟩

theorem Leads.after (L : Leads classify cache array₁ cache' array' ref')
    (h : array.storage.Exact classify → array₁.storage.Exact classify) :
    Leads classify cache array cache' array' ref' := ⟨L.extends_cache, L.refines, L.exact ∘ h⟩

theorem Leads.trans (L : Leads classify cache array cache₁ array₁ ref₁)
    (L' : Leads classify cache₁ array₁ cache' array' ref') : Leads classify cache array cache' array' ref' :=
  ⟨L.extends_cache.trans L'.extends_cache, L'.refines, L'.exact ∘ L.exact⟩

section
variable (R : Refines cache array ref)
include R

/-- Overwriting a found slot. -/
theorem Refines.replaceValue (h : array.storage.findIndex key = some i) (value : V) :
    ∃ old storage', array.storage.replaceValue i value = some (old, storage') ∧
      ref.map.get key = some old ∧ (ref.map.replace key value).1 = true ∧
      ∀ classify, Leads classify cache array cache ⟨storage'⟩
        { ref with map := (ref.map.replace key value).2 } := by
  obtain ⟨old, hi, hindex, hget⟩ := R.found h
  obtain ⟨storage', hreplace, S⟩ := replaceValue_stored R.valid R.wf hi value
  have hmap : ref.map.replace key value = (true, ref.map.setAt (rank array.storage.slots i) value) := by
    rw [replace, hindex]
  refine ⟨old, storage', hreplace, hget, by rw [hmap], fun classify => ⟨.rfl,
    ⟨R.valid, S.wf, ?_, S.next_eq.trans R.next, R.bounded.replace key value⟩,
    fun E => E.replaceValue R.wf hi R.valid hreplace⟩⟩
  rw [S.slots_eq, S.pointer_eq, hmap]
  exact R.represents.setAt hi value

/-- A new key at the end of a layout that can take it. -/
theorem Refines.pushNew {storage : ArrayStorage V} (hnew : ref.map.indexOf key = none)
    (T : Takes env cache array.storage key storage cache') (value : V)
    (B : ReferenceArray.Bounded ⟨ref.map.push key value hnew, ref.next⟩) :
    ∃ array'' cache'', PhpArray.pushNew env cache' storage key value = some (array'', cache'') ∧
      Leads env.classifyArrayKey cache array cache'' array'' ⟨ref.map.push key value hnew, ref.next⟩ := by
  have H := R.represents
  rw [← T.stored.slots_eq, ← T.stored.pointer_eq] at H
  have hfind : storage.findIndex key = none := by
    have := H.indexOf (k := key) T.stored.wf.indexes
    rw [hnew] at this
    exact map_eq_none_iff.mp this.symm
  obtain ⟨storage', cache'', hpush, S⟩ :=
    pushEntry_stored T.stored.valid T.stored.wf (.new env key value) T.fits hfind env
  have hptr : (if storage'.internalPointer.isNone then storage'.setInternalPointer storage'.firstIndex
      else storage') = storage'.setInternalPointer (storage'.internalPointer.or storage'.firstIndex) := by
    cases h : storage'.internalPointer with
    | none => rfl
    | some p =>
      rw [some_or, ← h]
      exact (if_neg (by rw [h]; simp)).trans (setHeader_header storage').symm
  have hpushNew : PhpArray.pushNew env cache' storage key value = some (⟨(storage'.setInternalPointer
      (storage'.internalPointer.or storage'.firstIndex)).bumpMutationEpoch⟩, cache'') := by
    simp only [PhpArray.pushNew, hpush, bind_eq_bind, bind_some, hptr]
    rfl
  refine ⟨_, cache'', hpushNew, T.stored.extends_cache.trans S.extends_cache,
    ⟨S.valid, ?_, ?_, ?_, B⟩, fun E => ?_⟩
  · simp only [ArrayStorage.bumpMutationEpoch, setMutationEpoch, setInternalPointer, wf_setHeader, S.wf]
  · have hslots := S.slots_eq
    simp only [ArrayStorage.bumpMutationEpoch, setMutationEpoch, setInternalPointer, slots_setHeader,
      internalPointer, header_setHeader] at hslots ⊢
    rw [hslots]
    refine H.push hnew ?_
    rw [firstIndex_eq S.wf.counted, S.slots_eq]
    exact congrArg (Option.or · _) S.pointer_eq
  · simp only [ArrayStorage.bumpMutationEpoch, setMutationEpoch, setInternalPointer, nextAppendKey,
      header_setHeader]
    exact S.next_eq.trans (T.stored.next_eq.trans R.next)
  · exact ((T.exact E).pushEntry T.stored.valid T.stored.wf T.fits hfind T.unambiguous rfl
      hpush).setInternalPointer _ |>.bumpMutationEpoch

theorem insert_refines (env : Env) (key : ArrayKey)
    (hkey : key.IsI64) (hroom : array.SlotRoom env key) (value : V) :
    ∃ array' cache', array.insert env cache key value = some ((ref.insert key value).1, array', cache') ∧
      Leads env.classifyArrayKey cache array cache' array' (ref.insert key value).2 := by
  have R' := R.bumpAppendKey key
  have hfind' : (array.storage.bumpAppendKey key).findIndex key = array.storage.findIndex key := by
    rw [bumpAppendKey_eq, setNextAppendKey, findIndex_setHeader]
  have B := R.bounded.insert hkey value
  simp only [PhpArray.insert, hfind', ReferenceArray.insert] at B ⊢
  cases hfind : array.storage.findIndex key with
  | some i =>
    have hfind₁ : (array.storage.bumpAppendKey key).bumpMutationEpoch.findIndex key = some i := by
      rw [ArrayStorage.bumpMutationEpoch, setMutationEpoch, findIndex_setHeader, hfind', hfind]
    obtain ⟨old, storage', hreplace, hget, -, L⟩ :=
      R'.bumpMutationEpoch.replaceValue hfind₁ value
    obtain ⟨-, -, hindex, -⟩ := R.found hfind
    refine ⟨⟨storage'⟩, cache, ?_, ?_⟩
    · simp only [hreplace, bind_eq_bind, bind_some, insert_of_some hindex]
      rw [← hget]
      rfl
    · rw [insert_of_some hindex]
      rw [replace, hindex] at L
      exact (L _).after fun E => (E.bumpAppendKey key).bumpMutationEpoch
  | none =>
    have hnew := R.indexOf_none hfind
    rw [insert_of_none hnew] at B ⊢
    have hget : array.get key = none := by
      rw [R.get]
      exact get_eq_none_iff.mpr hnew
    have T := storageForNewKey_takes R'.valid R'.wf env key fun name hname hrec hamb => by
      have := hroom name hname
      rw [bumpAppendKey_eq, setNextAppendKey] at hrec ⊢
      rw [isRecord_setHeader] at hrec
      rw [len_setHeader]
      exact this hrec hamb hget
    obtain ⟨array'', cache'', hpush, L⟩ := R'.pushNew hnew T value B
    exact ⟨array'', cache'', by simp only [hpush]; rfl, L.after fun E => E.bumpAppendKey key⟩

theorem tryAppend_refines (env : Env) (value : V) :
    ∃ array' cache', array.tryAppend env cache value = some ((ref.tryAppend value).1, array', cache') ∧
      Leads env.classifyArrayKey cache array cache' array' (ref.tryAppend value).2 := by
  rw [PhpArray.tryAppend, R.canAppend, ReferenceArray.tryAppend]
  by_cases hfull : ref.next.getD 0 = i64Max ∧ (ref.map.get (.int i64Max)).isSome
  · exact ⟨array, cache, by simp [hfull], by simpa [hfull] using R.leads⟩
  have hnew : ref.map.indexOf (.int (ref.next.getD 0)) = none := by
    refine R.bounded.next_absent ?_
    rw [Decidable.not_and_iff_or_not, not_isSome_iff_eq_none, get_eq_none_iff] at hfull
    exact hfull
  have R₁ := R.of_stored (makeRecordMixed_stored R.valid R.wf)
  have R₂ := R₁.bumpAppendKey (.int (ref.next.getD 0))
  have B := R.bounded.insert R.bounded.next_getD value
  simp only [ReferenceArray.insert, insert_of_none hnew] at B
  -- the bumped storage stays packed or becomes mixed; either layout takes the next key
  obtain ⟨storage', hstorage', T⟩ : ∃ storage', (if array.storage.makeRecordMixed.isPacked &&
        ref.next.getD 0 == array.storage.makeRecordMixed.len then
          array.storage.makeRecordMixed.bumpAppendKey (.int (ref.next.getD 0))
        else (array.storage.makeRecordMixed.bumpAppendKey (.int (ref.next.getD 0))).makeMixed) =
          storage' ∧
      Takes env cache (array.storage.makeRecordMixed.bumpAppendKey (.int (ref.next.getD 0)))
        (.int (ref.next.getD 0)) storage' cache := by
    split
    · next hpacked =>
      refine ⟨_, rfl, .rfl R₂.valid R₂.wf, ?_, fun _ => rfl, id⟩
      rw [bumpAppendKey_eq]
      cases hm : array.storage.makeRecordMixed with
      | packed storage =>
        rw [hm] at hpacked
        exact congrArg ArrayKey.int (beq_iff_eq.mp hpacked)
      | _ => rw [hm] at hpacked; cases hpacked
    · exact ⟨_, rfl, .makeMixed R₂.valid R₂.wf env _⟩
  obtain ⟨array'', cache'', hpush, L⟩ := R₂.pushNew hnew T value B
  refine ⟨array'', cache'', ?_, ?_⟩
  · have hnext : array.storage.makeRecordMixed.nextAppendKey = ref.next := R₁.next
    simp only [hfull, hnext, hstorage', hpush, decide_false, Bool.not_false, Bool.not_true,
      if_false, Bool.false_eq_true]
    rfl
  · simp only [hfull, if_false, ReferenceArray.insert, insert_of_none hnew]
    exact L.after fun E => E.makeRecordMixed.bumpAppendKey (.int (ref.next.getD 0))

theorem append_refines (env : Env) (value : V) :
    ∃ array' cache', array.append env cache value = some ((ref.append value).1, array', cache') ∧
      Leads env.classifyArrayKey cache array cache' array' (ref.append value).2 := by
  obtain ⟨array', cache', happend, L⟩ := tryAppend_refines R env value
  rw [PhpArray.append, happend, ReferenceArray.append]
  rcases h : ref.tryAppend value with ⟨_ | key, ref'⟩ <;> rw [h] at L <;>
    exact ⟨array', cache', rfl, L⟩

/-- The guard of a key that is present: it reads the value, and dropping it after a write leaves the
array with the value replaced. -/
theorem getMut_refines (h : ref.map.get key = some old) :
    ∃ slot, array.getMut key = some (some slot) ∧ slot.deref = some old ∧
      ∀ value, ∃ array', (slot.write value).drop = some array' ∧
        ∀ classify, Leads classify cache array cache array'
          { ref with map := (ref.map.replace key value).2 } := by
  cases hfind : array.storage.findIndex key with
  | none =>
    rw [get_eq_none_iff.mpr (R.indexOf_none hfind)] at h
    cases h
  | some i =>
    obtain ⟨value₀, hi, hindex, hget⟩ := R.found hfind
    obtain rfl : value₀ = old := Option.some.inj (hget.symm.trans h)
    have hi' : LiveAt array.storage.bumpMutationEpoch.slots i (key, value₀) := by
      rwa [ArrayStorage.bumpMutationEpoch, setMutationEpoch, slots_setHeader]
    have hold := valueAt_of_liveAt R.wf hi
    refine ⟨⟨array.storage.bumpMutationEpoch, i, isReference value₀, isInt value₀⟩, ?_,
      valueAt_of_liveAt R.bumpMutationEpoch.wf hi', fun value => ?_⟩
    · simp [getMut, hfind, hold]
    have S := setValueAt_stored R.valid R.bumpMutationEpoch.wf hi' value
    have hlive : LiveAt (array.storage.bumpMutationEpoch.setValueAt i value).slots i
        (key, value) := by
      rw [S.slots_eq]
      exact List.getElem?_set_self hi'.lt
    have hnew := valueAt_of_liveAt S.wf hlive
    have R' : Refines cache ⟨array.storage.bumpMutationEpoch.setValueAt i value⟩
        { ref with map := ref.map.setAt (rank array.storage.slots i) value } := by
      refine ⟨R.valid, S.wf, ?_, S.next_eq.trans R.bumpMutationEpoch.next, ?_⟩
      · rw [S.slots_eq, S.pointer_eq]
        have := R.bumpMutationEpoch.represents.setAt hi' value
        rwa [ArrayStorage.bumpMutationEpoch, setMutationEpoch, slots_setHeader] at this ⊢
      · have := R.bounded.replace key value
        rwa [replace, hindex] at this
    rw [replace, hindex]
    refine ⟨⟨(array.storage.bumpMutationEpoch.setValueAt i value).setMetadata
      ((array.storage.bumpMutationEpoch.setValueAt i value).metadata.replaceValueFlags
        (isReference value₀) (isReference value) (isInt value₀) (isInt value))⟩, ?_,
      fun classify => ⟨.rfl, R'.setHeader rfl rfl,
        fun E => E.bumpMutationEpoch.write R.bumpMutationEpoch.wf hi' value⟩⟩
    simp [PhpArrayValueMut.write, PhpArrayValueMut.drop, hnew]

theorem getMutWrite_refines (key : ArrayKey) (value : V) :
    ∃ array', array.getMutWrite key value = some ((ref.map.replace key value).1, array') ∧
      ∀ classify, Leads classify cache array cache array'
        { ref with map := (ref.map.replace key value).2 } := by
  rw [getMutWrite]
  cases hfind : array.storage.findIndex key with
  | none =>
    rw [getMut, hfind, replace, R.indexOf_none hfind]
    exact ⟨array, rfl, fun _ => R.leads⟩
  | some i =>
    obtain ⟨old, -, hindex, hget⟩ := R.found hfind
    obtain ⟨slot, hslot, -, hwrite⟩ := getMut_refines R hget
    obtain ⟨array', hdrop, L⟩ := hwrite value
    have hdone : (ref.map.replace key value).1 = true := by rw [replace, hindex]
    refine ⟨array', ?_, L⟩
    simp [hslot, hdrop, hdone]

theorem recordSetSymbol_refines (h : array.isRecordStorage = true) (key : PhpString) (value : V) :
    ∃ array', array.recordSetSymbol key value = some ((ref.map.replace (.string key) value).1, array') ∧
      ∀ classify, Leads classify cache array cache array'
        { ref with map := (ref.map.replace (.string key) value).2 } := by
  have hfind : array.recordSlotForSymbol key = array.storage.findIndex (.string key) := by
    obtain ⟨storage⟩ := array
    cases storage with
    | record storage => rfl
    | _ => cases h
  rw [recordSetSymbol, hfind]
  cases hslot : array.storage.findIndex (.string key) with
  | none =>
    rw [replace, R.indexOf_none hslot]
    exact ⟨array, rfl, fun _ => R.leads⟩
  | some i =>
    obtain ⟨old, storage', hreplace, -, hdone, L⟩ := R.replaceValue hslot value
    refine ⟨⟨storage'.bumpMutationEpoch⟩, ?_, fun classify => ⟨.rfl,
      (L classify).refines.bumpMutationEpoch, fun E => ((L classify).exact E).bumpMutationEpoch⟩⟩
    rw [hdone]
    simp only [hreplace]
    rfl

end

/-! ## Removing -/

/-- What `remove` does once the slot is out of the storage. -/
def afterRemove (storage : ArrayStorage V) (i : Nat) : ArrayStorage V :=
  (storage.adjustPointerAfterRemove i).compactMixedIfNeeded.bumpMutationEpoch

theorem exact_afterRemove {storage : ArrayStorage V} (E : storage.Exact classify) (i : Nat) :
    (afterRemove storage i).Exact classify :=
  (E.adjustPointerAfterRemove i).compactMixedIfNeeded.bumpMutationEpoch

omit [ValueKind V] in
theorem Refines.afterRemove (R : Refines cache array ref)
    (S : Stored cache s p array.storage.nextAppendKey storage' cache)
    (hadjust : storage'.adjustPointerAfterRemove i = storage'.setInternalPointer p')
    (H : Represents s p' (ref.remove key).2.map) :
    Refines cache ⟨PhpArray.afterRemove storage' i⟩ (ref.remove key).2 := by
  rw [PhpArray.afterRemove, hadjust]
  have hadjusted : Represents (storage'.setInternalPointer p').slots
      (storage'.setInternalPointer p').internalPointer (ref.remove key).2.map := by
    rw [setInternalPointer, internalPointer, slots_setHeader, header_setHeader, S.slots_eq]
    exact H
  obtain ⟨hwf, H', hnext⟩ := compactMixedIfNeeded_represents (storage'.setInternalPointer p')
    ((wf_setHeader ..).mpr S.wf) hadjusted
  have hnext' : (storage'.setInternalPointer p').nextAppendKey = ref.next := by
    rw [setInternalPointer, nextAppendKey, header_setHeader]
    exact S.next_eq.trans R.next
  have R' : Refines cache ⟨(storage'.setInternalPointer p').compactMixedIfNeeded⟩
      (ref.remove key).2 := ⟨R.valid, hwf, H', hnext.trans hnext', R.bounded.remove key⟩
  exact R'.bumpMutationEpoch

theorem Refines.removeIndex_mixed {storage : MixedArrayStorage V} (R : Refines cache ⟨.mixed storage⟩ ref)
    (hi : LiveAt (ArrayStorage.mixed storage).slots i (key, value))
    (hindex : ref.map.indexOf key = some (rank (ArrayStorage.mixed storage).slots i)) (env : Env) :
    ∃ storage', (ArrayStorage.mixed storage).removeIndex env i = some ((key, value), storage') ∧
      Leads env.classifyArrayKey cache ⟨.mixed storage⟩ cache ⟨PhpArray.afterRemove storage' i⟩
        (ref.remove key).2 := by
  obtain ⟨storage', hremove, S⟩ := removeIndex_mixed_stored R.valid R.wf hi env
  have hptr : storage'.internalPointer = storage.internalPointer := S.pointer_eq
  have hadjust := adjustPointerAfterRemove_mixed S.wf hi S.slots_eq
    (fun j hj => R.represents.live j (hj.symm.trans hptr).symm)
  refine ⟨.mixed storage', hremove, .rfl, R.afterRemove S hadjust ?_, fun E =>
    exact_afterRemove (E.removeIndex_mixed rfl hremove) i⟩
  simp only [ReferenceArray.remove, erase, hindex]
  exact R.represents.eraseAt hi (by rw [hptr]; rfl)

theorem Refines.removeIndex_packed {storage : PackedArrayStorage V}
    (R : Refines cache ⟨.packed storage⟩ ref) (hlen : i + 1 = storage.values.length)
    (hi : LiveAt (ArrayStorage.packed storage).slots i (key, value))
    (hindex : ref.map.indexOf key = some (rank (ArrayStorage.packed storage).slots i)) (env : Env) :
    ∃ storage', (ArrayStorage.packed storage).removeIndex env i = some ((key, value), storage') ∧
      Leads env.classifyArrayKey cache ⟨.packed storage⟩ cache ⟨PhpArray.afterRemove storage' i⟩
        (ref.remove key).2 := by
  obtain ⟨storage', slots', hremove, hlen', hsplit, S⟩ :=
    removeIndex_packed_stored R.valid hlen hi env
  have hptr : storage'.internalPointer = storage.internalPointer := S.pointer_eq
  have hvalues : storage'.values.length = i := by
    rw [← hlen', ← S.slots_eq]
    simp [slots, iterPairs]
  have hadjust := adjustPointerAfterRemove_packed hvalues fun j hj => by
    obtain ⟨e, he⟩ := R.represents.live j (hj.symm.trans hptr).symm
    have := he.lt
    rw [hsplit, List.length_append, hlen'] at this
    exact this
  refine ⟨.packed storage', hremove, .rfl, R.afterRemove S hadjust ?_, fun E =>
    exact_afterRemove (E.removeIndex_packed hlen hremove) i⟩
  have H := R.represents
  rw [hsplit] at H hindex
  rw [rank_append (Nat.le_of_eq hlen'.symm)] at hindex
  simp only [ReferenceArray.remove, erase, hindex]
  subst hlen'
  exact H.dropLast (by rw [hptr]; rfl)

theorem remove_refines (R : Refines cache array ref) (env : Env) (key : ArrayKey) :
    ∃ array', array.remove env key = some ((ref.remove key).1, array') ∧
      Leads env.classifyArrayKey cache array cache array' (ref.remove key).2 := by
  rw [PhpArray.remove]
  cases hfind : array.storage.findIndex key with
  | none =>
    simp only [ReferenceArray.remove, erase, R.indexOf_none hfind]
    exact ⟨array, rfl, R.leads⟩
  | some i =>
    obtain ⟨value, hi, hindex, hget⟩ := R.found hfind
    have hold : (ref.remove key).1 = some value := by
      simp only [ReferenceArray.remove, erase, hindex, hget]
    -- a converted storage has the same slots, so the slot is removed from mixed storage
    have hmixed : ∀ storage, Stored cache array.storage.slots array.storage.internalPointer
        array.storage.nextAppendKey (.mixed storage) cache →
        (array.storage.Exact env.classifyArrayKey → (ArrayStorage.mixed storage).Exact env.classifyArrayKey) →
        ∃ storage', (ArrayStorage.mixed storage).removeIndex env i = some ((key, value), storage') ∧
          Leads env.classifyArrayKey cache array cache ⟨afterRemove storage' i⟩
            (ref.remove key).2 := by
      intro storage S hexact
      rw [← S.slots_eq] at hi hindex
      obtain ⟨storage', hremove, L⟩ := (R.of_stored S).removeIndex_mixed hi hindex env
      exact ⟨storage', hremove, L.after hexact⟩
    obtain ⟨storage', hremove, L⟩ : ∃ storage', (if array.storage.isRecord then
          array.storage.makeRecordMixed
        else if array.storage.isPacked && i + 1 != array.storage.len then array.storage.makeMixed
        else array.storage).removeIndex env i = some ((key, value), storage') ∧
          Leads env.classifyArrayKey cache array cache ⟨afterRemove storage' i⟩
            (ref.remove key).2 := by
      obtain ⟨storage⟩ := array
      cases storage with
      | record storage => exact hmixed _ (makeRecordMixed_stored R.valid R.wf) Exact.makeRecordMixed
      | mixed storage => exact hmixed storage (.rfl R.valid R.wf) id
      | packed storage =>
        by_cases hlast : i + 1 = storage.values.length
        · have : (i + 1 != ArrayStorage.len (.packed storage)) = false := by
            simpa [ArrayStorage.len] using hlast
          simp only [isRecord, isPacked, this]
          exact R.removeIndex_packed hlast hi hindex env
        · have : (i + 1 != ArrayStorage.len (.packed storage)) = true := by
            simpa [ArrayStorage.len] using hlast
          simp only [isRecord, isPacked, this]
          exact hmixed _ (makeMixed_stored R.valid R.wf) Exact.makeMixed
    refine ⟨_, ?_, L⟩
    simp only [hremove, hold]
    rfl

omit [ValueKind V] in
theorem Refines.lastKey (R : Refines cache array ref) :
    array.storage.lastIndex.bind array.storage.keyAt = ref.map.entries.getLast?.map Prod.fst := by
  rw [lastIndex_eq R.wf.counted, ← R.represents.entries]
  cases h : last array.storage.slots with
  | none => rw [last_eq_none h]; rfl
  | some i =>
    obtain ⟨⟨e, he⟩, hrank⟩ := last_eq_some h
    have hlive : array.storage.slots[i]? = some (some e) := he
    have : array.storage.slots.reduceOption.length - 1 = rank array.storage.slots i := by omega
    rw [bind_some, keyAt_eq R.wf.counted, hlive, List.getLast?_eq_getElem?, this, rank_getElem? he]
    rfl

omit [ValueKind V] in
theorem Refines.setNextAppendKey (R : Refines cache array ref) {next : Option Int}
    (B : ReferenceArray.Bounded { ref with next }) :
    Refines cache ⟨array.storage.setNextAppendKey next⟩ { ref with next } := by
  rw [ArrayStorage.setNextAppendKey]
  refine ⟨R.valid, (wf_setHeader ..).mpr R.wf, ?_, ?_, B⟩
  · simp only [internalPointer, slots_setHeader, header_setHeader]
    exact R.represents
  · simp [nextAppendKey]

theorem pop_refines (R : Refines cache array ref) (env : Env) :
    ∃ array', array.pop env = some (ref.pop.1, array') ∧
      Leads env.classifyArrayKey cache array cache array' ref.pop.2 := by
  have B := R.bounded.pop
  rw [ReferenceArray.pop] at B ⊢
  rw [PhpArray.pop, R.lastKey]
  cases hl : ref.map.entries.getLast? with
  | none => exact ⟨array, rfl, R.leads⟩
  | some e =>
    obtain ⟨key, value⟩ := e
    obtain ⟨array', hremove, L⟩ := remove_refines R env key
    rw [hl] at B
    dsimp only [map_some] at B ⊢
    rw [hremove]
    cases key with
    | string name => exact ⟨array', rfl, L⟩
    | int k =>
      dsimp only [ReferenceArray.nextAfterPop] at B ⊢
      rw [R.next]
      by_cases hnext : ref.next = some (saturatingAdd k 1)
      · rw [if_pos hnext] at B ⊢
        exact ⟨_, if_pos (beq_iff_eq.mpr hnext), .rfl, L.refines.setNextAppendKey B,
          fun E => (L.exact E).setNextAppendKey _⟩
      · rw [if_neg hnext] at B ⊢
        exact ⟨_, if_neg (by rwa [beq_iff_eq]), L⟩

/-! ## Moving the pointer -/

end

section
variable {array : PhpArray V} {ref : ReferenceArray V}

/-- The pointer moved to `p`, and the value found there. -/
def seekTo (array : PhpArray V) (p : Option Nat) : Option V × PhpArray V :=
  (p.bind fun i => (array.storage.setInternalPointer p).getValue i, ⟨array.storage.setInternalPointer p⟩)

theorem Refines.seekTo (R : Refines cache array ref)
    (hentries : m.entries = ref.map.entries) (H : Represents array.storage.slots p m) :
    (array.seekTo p).1 = m.current.map Prod.snd ∧ Refines cache (array.seekTo p).2 { ref with map := m } := by
  have hwf : (array.storage.setInternalPointer p).WF cache := (wf_setHeader ..).mpr R.wf
  refine ⟨?_, R.valid, hwf, ?_, ?_, ⟨R.bounded.next_i64, ?_⟩⟩
  · rw [← H.current]
    cases p with
    | none => rfl
    | some i =>
      show (array.storage.setInternalPointer (some i)).getValue i = _
      rw [getValue_eq hwf.counted, setInternalPointer, slots_setHeader, bind_some]
  · simp only [PhpArray.seekTo, setInternalPointer, internalPointer, slots_setHeader, header_setHeader]
    exact H
  · simp only [PhpArray.seekTo, setInternalPointer, nextAppendKey, header_setHeader]
    exact R.next
  · rw [hentries]
    exact R.bounded.keys

theorem exact_seekTo [ValueKind V] {classify : PhpString → NumericStringArrayKey} (E : array.storage.Exact classify) (p : Option Nat) :
    (array.seekTo p).2.storage.Exact classify := E.setInternalPointer p

theorem seekTo_self (h : array.storage.internalPointer = none) : array.seekTo none = (none, array) := by
  have hself : array.storage.setInternalPointer none = array.storage := by
    rw [← h]
    exact setHeader_header array.storage
  rw [PhpArray.seekTo, hself]
  rfl

/-- The array has the entries of `m` in order and its pointer at the cursor. -/
structure Shows (array : PhpArray V) (m : OrderedMap ArrayKey V) : Prop where
  counted : array.storage.Counted
  represents : Represents array.storage.slots array.storage.internalPointer m

theorem Refines.shows (R : Refines cache array ref) : array.Shows ref.map :=
  ⟨R.wf.counted, R.represents⟩

namespace Shows
variable {m : OrderedMap ArrayKey V} (H : array.Shows m)
include H

theorem internalPointer_of_nil (h : array.storage.slots.reduceOption = []) :
    array.storage.internalPointer = none := by
  refine eq_none_iff_forall_ne_some.mpr fun i hi => ?_
  obtain ⟨e, he⟩ := H.represents.live i hi
  have := rank_lt he
  rw [h] at this
  exact Nat.not_lt_zero _ this

theorem resetPointer : array.resetPointer = array.seekTo (first array.storage.slots) := by
  have hlen := len_eq H.counted
  simp only [PhpArray.resetPointer, isEmpty, hlen, beq_iff_eq, firstIndex_eq H.counted]
  cases hf : first array.storage.slots with
  | none =>
    rw [first_eq_none hf]
    rfl
  | some i =>
    obtain ⟨⟨e, he⟩, -⟩ := first_eq_some hf
    rw [if_neg (Nat.ne_of_gt (Nat.lt_of_le_of_lt (Nat.zero_le _) (rank_lt he)))]
    rfl

theorem endPointer : array.endPointer = array.seekTo (last array.storage.slots) := by
  rw [PhpArray.endPointer, lastIndex_eq H.counted]
  cases hl : last array.storage.slots with
  | none => exact (seekTo_self (H.internalPointer_of_nil (last_eq_none hl))).symm
  | some i => rfl

theorem nextPointer : array.nextPointer =
    array.seekTo (array.storage.internalPointer.bind (Slots.next array.storage.slots)) := by
  rw [PhpArray.nextPointer]
  cases hp : array.storage.internalPointer with
  | none => exact (seekTo_self hp).symm
  | some i =>
    dsimp only [bind_some]
    rw [nextIndex_eq H.counted]
    cases Slots.next array.storage.slots i <;> rfl

theorem prevPointer : array.prevPointer =
    some (array.seekTo (array.storage.internalPointer.bind (prev array.storage.slots))) := by
  rw [PhpArray.prevPointer]
  cases hp : array.storage.internalPointer with
  | none => exact congrArg some (seekTo_self hp).symm
  | some i =>
    obtain ⟨e, he⟩ := H.represents.live i hp
    dsimp only [bind_some]
    rw [previousIndex_eq H.counted he]
    cases prev array.storage.slots i <;> rfl

end Shows
end
end PhpArray
end Phrust
