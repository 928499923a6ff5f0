import Mathlib.Data.Nat.Digits.Lemmas
import Phrust.Verify.ArrayRefinement

/-!
# Runs of PHP arrays

A run from a new or a packed array follows the reference as long as no record array outgrows the
`u32` slot numbers of its shape. A run that does outgrow them reads the first value under the last
key.
-/

namespace Phrust
open List Slots ArrayStorage

/-- The integer keys an operation names are `i64` values. -/
def ArrayOp.IsI64 : ArrayOp V → Prop
  | .insert key _ | .remove key | .getMutWrite key _ => key.IsI64
  | _ => True

instance : DecidablePred (ArrayOp.IsI64 (V := V))
  | .insert key _ | .remove key | .getMutWrite key _ => inferInstanceAs (Decidable key.IsI64)
  | .tryAppend _ | .append _ | .pop | .recordSetSymbol _ _ | .spreadExtend _ | .resetPointer
  | .endPointer | .nextPointer | .prevPointer => inferInstanceAs (Decidable True)

namespace PhpArray
variable {V : Type}

section
variable [ValueKind V]

/-- Every new record key of a spread finds a slot number. -/
def SpreadRoom (env : Env) (cache : ShapeCache) (array : PhpArray V) : List (ArrayKey × V) → Prop
  | [] => True
  | pair :: pairs => array.SlotRoom env pair.1 ∧ ∀ array' cache',
      array.spreadEntry env cache pair = some (array', cache') → SpreadRoom env cache' array' pairs

/-- The operation finds a slot number for every new record key. -/
def StepRoom (env : Env) (cache : ShapeCache) (array : PhpArray V) : ArrayOp V → Prop
  | .insert key _ => array.SlotRoom env key
  | .spreadExtend source => SpreadRoom env cache array source.iter
  | _ => True

def RunRoom (cache : ShapeCache) (array : PhpArray V) : List (Env × ArrayOp V) → Prop
  | [] => True
  | (env, op) :: steps => array.StepRoom env cache op ∧ ∀ out array' cache',
      array.step env cache op = some (out, array', cache') → RunRoom cache' array' steps

variable {array : PhpArray V} {ref : ReferenceArray V}

section
variable (R : Refines cache array ref)
include R

theorem spreadEntry_refines (hroom : array.SlotRoom env pair.1) :
    ∃ array' cache', array.spreadEntry env cache pair = some (array', cache') ∧
      Leads env.classifyArrayKey cache array cache' array' (ref.spreadEntry pair) := by
  obtain ⟨key, value⟩ := pair
  cases key with
  | int n =>
    obtain ⟨array', cache', happend, L⟩ := append_refines R env value
    exact ⟨array', cache', by rw [spreadEntry, happend]; rfl, L⟩
  | string name =>
    obtain ⟨array', cache', hinsert, L⟩ :=
      insert_refines R env (.string name) trivial hroom value
    exact ⟨array', cache', by rw [spreadEntry, hinsert]; rfl, L⟩

theorem spread_refines (hroom : SpreadRoom env cache array pairs) :
    ∃ array' cache', pairs.foldlM (fun (array, cache) pair => array.spreadEntry env cache pair)
        (array, cache) = some (array', cache') ∧
      Leads env.classifyArrayKey cache array cache' array' (pairs.foldl ReferenceArray.spreadEntry ref) := by
  induction pairs generalizing cache array ref with
  | nil => exact ⟨array, cache, rfl, R.leads⟩
  | cons pair pairs ih =>
    obtain ⟨array', cache', hentry, L⟩ := spreadEntry_refines R hroom.1
    obtain ⟨array'', cache'', hspread, L'⟩ := ih L.refines (hroom.2 _ _ hentry)
    refine ⟨array'', cache'', ?_, L.trans L'⟩
    rw [foldlM_cons]
    simp only [hentry]
    exact hspread

theorem step_refines (hop : op.IsI64) (hroom : array.StepRoom env cache op) :
    ∃ array' cache', array.step env cache op = some ((ref.step array.isRecordStorage op).1, array', cache') ∧
      Leads env.classifyArrayKey cache array cache' array' (ref.step array.isRecordStorage op).2 := by
  cases op with
  | insert key value =>
    obtain ⟨array', cache', hstep, L⟩ := insert_refines R env key hop hroom value
    exact ⟨array', cache', by rw [step, hstep]; rfl, L⟩
  | tryAppend value =>
    obtain ⟨array', cache', hstep, L⟩ := tryAppend_refines R env value
    exact ⟨array', cache', by rw [step, hstep]; rfl, L⟩
  | append value =>
    obtain ⟨array', cache', hstep, L⟩ := append_refines R env value
    exact ⟨array', cache', by rw [step, hstep]; rfl, L⟩
  | remove key =>
    obtain ⟨array', hstep, L⟩ := remove_refines R env key
    exact ⟨array', cache, by rw [step, hstep]; rfl, L⟩
  | pop =>
    obtain ⟨array', hstep, L⟩ := pop_refines R env
    exact ⟨array', cache, by rw [step, hstep]; rfl, L⟩
  | getMutWrite key value =>
    obtain ⟨array', hstep, L⟩ := getMutWrite_refines R key value
    exact ⟨array', cache, by rw [step, hstep]; rfl, L _⟩
  | recordSetSymbol key value =>
    cases hrecord : array.isRecordStorage with
    | true =>
      obtain ⟨array', hstep, L⟩ := recordSetSymbol_refines R hrecord key value
      exact ⟨array', cache, by rw [step, hstep]; rfl, L _⟩
    | false =>
      have hslot : array.recordSlotForSymbol key = none := by
        obtain ⟨storage⟩ := array
        cases storage with
        | record storage => cases hrecord
        | _ => rfl
      exact ⟨array, cache, by rw [step, recordSetSymbol, hslot]; rfl, R.leads⟩
  | spreadExtend source =>
    obtain ⟨array', cache', hstep, L⟩ := spread_refines R hroom
    exact ⟨array', cache', by rw [step, spreadExtend, hstep]; rfl, L⟩
  | resetPointer =>
    obtain ⟨hvalue, R'⟩ := R.seekTo (m := ref.map.toFirst) rfl R.represents.toFirst
    exact ⟨_, cache, by rw [step, R.shows.resetPointer, hvalue]; rfl, .rfl, R', (exact_seekTo · _)⟩
  | endPointer =>
    obtain ⟨hvalue, R'⟩ := R.seekTo (m := ref.map.toLast) rfl R.represents.toLast
    exact ⟨_, cache, by rw [step, R.shows.endPointer, hvalue]; rfl, .rfl, R', (exact_seekTo · _)⟩
  | nextPointer =>
    obtain ⟨hvalue, R'⟩ := R.seekTo (m := ref.map.toNext) rfl R.represents.toNext
    exact ⟨_, cache, by rw [step, R.shows.nextPointer, hvalue]; rfl, .rfl, R', (exact_seekTo · _)⟩
  | prevPointer =>
    obtain ⟨hvalue, R'⟩ := R.seekTo (m := ref.map.toPrev) rfl R.represents.toPrev
    refine ⟨_, cache, ?_, .rfl, R', (exact_seekTo · _)⟩
    rw [step, R.shows.prevPointer]
    show some (ArrayOut.value (array.seekTo _).1, _) = _
    rw [hvalue]
    rfl

theorem run_refines (hops : ∀ step ∈ steps, step.2.IsI64)
    (hroom : array.RunRoom cache steps) : array.Follows cache ref steps := by
  induction steps generalizing cache array ref with
  | nil => exact R.observes
  | cons step steps ih =>
    obtain ⟨array', cache', hstep, L⟩ := step_refines R (hops _ mem_cons_self) hroom.1
    exact ⟨R.observes, _, array', cache', hstep, rfl,
      ih L.refines (forall_mem_cons.mp hops).2 (hroom.2 _ _ _ hstep)⟩

end

omit [ValueKind V] in
theorem new_refines (hcache : cache.Valid) : Refines cache (new : PhpArray V) .new where
  valid := hcache
  wf := trivial
  represents := ⟨rfl, by simp [new, internalPointer, header], rfl⟩
  next := rfl
  bounded := ⟨by simp [ReferenceArray.new], by simp [ReferenceArray.new, OrderedMap.empty]⟩

theorem fromPacked_refines (hcache : cache.Valid) (elements : { l : List V // (l.length : Int) ≤ i64Max }) :
    Refines cache (fromPacked elements) (.ofList elements.val) := by
  obtain ⟨elements, hlen⟩ := elements
  have hslots : slots (fromPacked ⟨elements, hlen⟩).storage =
      (ReferenceArray.listEntries elements).map some := rfl
  refine ⟨hcache, trivial, ⟨?_, ?_, ?_⟩, ?_, ⟨?_, ?_⟩⟩
  · rw [hslots, live_map_some]
    rfl
  · intro i hi
    cases elements with
    | nil => cases hi
    | cons value elements =>
      cases hi
      exact ⟨_, rfl⟩
  · cases elements <;> rfl
  · cases elements <;> rfl
  · intro n hn
    cases elements with
    | nil => cases hn
    | cons value elements =>
      cases hn
      exact ⟨by simp only [i64Min]; omega, hlen⟩
  · intro n hn
    simp only [ReferenceArray.ofList, OrderedMap.ofList, ReferenceArray.listEntries, map_map, mem_map] at hn
    obtain ⟨⟨value, i⟩, hmem, hkey⟩ := hn
    cases hkey
    have hi := (mem_zipIdx' hmem).1
    have hne : elements.isEmpty = false := by cases elements <;> simp_all
    refine ⟨⟨by simp only [i64Min]; omega, by omega⟩, elements.length, ?_, .inl (by omega)⟩
    simp [ReferenceArray.ofList, hne]

/-- The array follows the reference through every run from a new or packed array in which a record
array never outgrows its slot numbers. -/
theorem php_array_follows_reference (hcache : cache.Valid) {steps : List (Env × ArrayOp V)}
    (hops : ∀ step ∈ steps, step.2.IsI64) :
    ((new : PhpArray V).RunRoom cache steps → (new : PhpArray V).Follows cache .new steps) ∧
      ∀ elements, (fromPacked elements).RunRoom cache steps →
        (fromPacked elements).Follows cache (.ofList elements.val) steps :=
  ⟨run_refines (new_refines hcache) hops,
    fun elements => run_refines (fromPacked_refines hcache elements) hops⟩

end

instance : ValueKind Nat := ⟨fun _ => false, fun _ => true⟩

/-- Fresh key bytes, an unshared shape and no numeric strings. -/
def plainEnv : Env := ⟨fun _ => .string, fun _ => false, true⟩

/-- Two record keys are written and one is popped again. -/
theorem php_array_follows_reference_example :
    PhpArray.Follows ShapeCache.empty (new : PhpArray Nat) .new
      [(plainEnv, .insert (.string [97]) 1), (plainEnv, .insert (.string [98]) 2), (plainEnv, .pop)] := by
  refine (php_array_follows_reference ShapeCache.Valid.empty (by decide)).1 ?_
  refine ⟨fun _ _ h => (by cases h), fun out array cache hstep => ?_⟩
  cases hstep
  refine ⟨fun _ _ _ _ _ => (by decide), fun out array cache hstep => ?_⟩
  exact ⟨trivial, fun _ _ _ _ => trivial⟩

/-! ## Running out of slot numbers -/

section
variable [ValueKind V]

theorem pushNew_record (storage : RecordArrayStorage V) (env : Env) (cache : ShapeCache)
    (name : PhpString) (value : V) :
    ∃ storage' cache', pushNew env cache (.record storage) (.string name) value =
        some (⟨.record storage'⟩, cache') ∧ storage'.values = storage.values ++ [value] ∧
      storage'.shape = (growShape env cache storage.shape storage.interned name).1 := by
  obtain ⟨⟨next, pointer, epoch, counters⟩, shape, interned, values⟩ := storage
  cases pointer <;> exact ⟨_, _, rfl, rfl, rfl⟩

/-- A new unambiguous key stays in the record layout and appends its value. -/
theorem insert_record {storage : RecordArrayStorage V} (env : Env) (cache : ShapeCache)
    (hnew : storage.shape.slotByKey.get name = none)
    (hambiguous : arrayKeyHasNumericStringAmbiguity env name = false) (value : V) :
    ∃ storage' cache', insert env cache ⟨.record storage⟩ (.string name) value =
        some (none, ⟨.record storage'⟩, cache') ∧ storage'.values = storage.values ++ [value] ∧
      storage'.shape = (growShape env cache storage.shape storage.interned name).1 := by
  obtain ⟨storage', cache', hpush, hstorage'⟩ := pushNew_record storage env cache name value
  refine ⟨storage', cache', ?_, hstorage'⟩
  have hlayout : storageForNewKey env cache (.record storage) (.string name) =
      (.record storage, cache) := by
    simp [storageForNewKey, isRecord, hambiguous]
  simp only [insert, bumpAppendKey, findIndex, hnew, hlayout, hpush]
  rfl

/-- The first unambiguous key turns an empty array into a record. -/
theorem insert_new (env : Env) (cache : ShapeCache) (name : PhpString)
    (hambiguous : arrayKeyHasNumericStringAmbiguity env name = false) (value : V) :
    ∃ storage' cache', insert env cache new (.string name) value =
        some (none, ⟨.record storage'⟩, cache') ∧ storage'.values = [value] := by
  obtain ⟨storage, cache₀, hpromote, hempty⟩ : ∃ storage cache₀,
      promoteEmptyToRecord (new : PhpArray V).storage cache = (.record storage, cache₀) ∧
        storage.values = [] := ⟨_, _, rfl, rfl⟩
  obtain ⟨storage', cache', hpush, hvalues, -⟩ := pushNew_record storage env cache₀ name value
  refine ⟨storage', cache', ?_, by rw [hvalues, hempty]; rfl⟩
  have hlayout : storageForNewKey env cache (new : PhpArray V).storage (.string name) =
      (.record storage, cache₀) := by
    simp [storageForNewKey, ← hpromote, new, isPacked, isRecord, ArrayStorage.len, hambiguous]
  have hfind : findIndex (new : PhpArray V).storage (.string name) = none := rfl
  simp only [insert, bumpAppendKey, hfind, hlayout, hpush]
  rfl

end

/-- A private shape gives a key past its `2 ^ 32` slots the number of the first one. -/
theorem growShape_wraps (hlen : shape.keys.length = 2 ^ 32) (env : Env)
    (cache : ShapeCache) (interned : Option Nat) (name : PhpString) :
    (growShape env cache shape interned name).1.keys = shape.keys ++ [name] ∧
      (growShape env cache shape interned name).1.slotByKey.get name = some 0 := by
  have hu32 : u32 shape.keys.length = 0 := by rw [hlen]; rfl
  rw [growShape]
  split
  · simp [RecordShape.extendInPlace, hu32]
  rw [if_pos]
  · simp [recordShapePrivateExtended, hu32]
  · rw [hlen, recordShapePrivateGrowthThreshold]
    decide

/-- The bytes `k` and then the little-endian digits of `i`. -/
def numberedKey (i : Nat) : PhpString := 107 :: (Nat.digits 256 i).map UInt8.ofNat

theorem numberedKey_injective : Function.Injective numberedKey := by
  have hread : ∀ i, ((numberedKey i).tail.map UInt8.toNat) = Nat.digits 256 i := by
    intro i
    rw [numberedKey, tail_cons, map_map]
    refine (map_congr_left fun d hd => ?_).trans (map_id _)
    exact Nat.mod_eq_of_lt (Nat.digits_lt_base (by omega) hd)
  intro i j h
  rw [← Nat.digits_inj_iff (b := 256), ← hread, ← hread, h]

/-- Insert `n` numbered keys from `k` on, and one more with the value one. -/
def overflowSteps (k : Nat) : Nat → List (Env × ArrayOp Nat)
  | 0 => [(plainEnv, .insert (.string (numberedKey k)) 1)]
  | n + 1 => (plainEnv, .insert (.string (numberedKey k)) 0) :: overflowSteps (k + 1) n

variable {ref : ReferenceArray Nat}

theorem fresh_insert (hfresh : ∀ j ≥ k, ref.map.indexOf (.string (numberedKey j)) = none) (value : Nat) :
    ∀ j ≥ k + 1, (ref.insert (.string (numberedKey k)) value).2.map.indexOf
      (.string (numberedKey j)) = none := by
  intro j hj
  rw [OrderedMap.indexOf_eq_none_iff]
  intro hmem
  rcases OrderedMap.mem_keys_insert hmem with heq | hmem
  · have := numberedKey_injective (ArrayKey.string.inj heq)
    omega
  · exact OrderedMap.indexOf_eq_none_iff.mp (hfresh j (by omega)) hmem

variable {storage : RecordArrayStorage Nat}

theorem Refines.slot_numberedKey (R : Refines cache ⟨.record storage⟩ ref)
    (hfresh : ∀ j ≥ k, ref.map.indexOf (.string (numberedKey j)) = none) :
    storage.shape.slotByKey.get (numberedKey k) = none := by
  have hnone := hfresh k (Nat.le_refl k)
  rw [R.indexOf] at hnone
  exact Option.map_eq_none_iff.mp hnone

theorem Refines.insert_numberedKey (R : Refines cache ⟨.record storage⟩ ref) (hk : k < 2 ^ 32)
    (hvalues : storage.values = List.replicate k 0)
    (hfresh : ∀ j ≥ k, ref.map.indexOf (.string (numberedKey j)) = none) :
    ∃ storage' cache', insert plainEnv cache ⟨.record storage⟩ (.string (numberedKey k)) 0 =
        some (none, ⟨.record storage'⟩, cache') ∧ storage'.values = List.replicate (k + 1) 0 ∧
      Refines cache' ⟨.record storage'⟩ (ref.insert (.string (numberedKey k)) 0).2 := by
  obtain ⟨storage', cache', hinsert, hvalues', -⟩ :=
    insert_record plainEnv cache (R.slot_numberedKey hfresh) rfl 0
  have hroom : SlotRoom plainEnv ⟨.record storage⟩ (.string (numberedKey k)) := by
    intro _ _ _ _ _
    show storage.values.length < _
    rwa [hvalues, length_replicate]
  obtain ⟨array₁, cache₁, hinsert', -, R', -⟩ :=
    insert_refines R plainEnv (.string (numberedKey k)) trivial hroom 0
  obtain ⟨rfl, rfl⟩ : ⟨.record storage'⟩ = array₁ ∧ cache' = cache₁ := by
    rw [hinsert] at hinsert'
    exact Prod.mk.inj (Prod.mk.inj (Option.some.inj hinsert')).2
  refine ⟨storage', cache', hinsert, ?_, R'⟩
  rw [hvalues', hvalues, replicate_succ']

/-- The first numbered key turns an empty array into a record array of one zero. -/
theorem insert_new_numberedKey : ∃ storage' cache',
    insert plainEnv .empty (new : PhpArray Nat) (.string (numberedKey 0)) 0 =
        some (none, ⟨.record storage'⟩, cache') ∧ storage'.values = List.replicate 1 0 ∧
      Refines cache' ⟨.record storage'⟩ (ReferenceArray.new.insert (.string (numberedKey 0)) 0).2 := by
  obtain ⟨storage', cache', hinsert, hvalues⟩ :=
    insert_new (V := Nat) plainEnv .empty (numberedKey 0) rfl 0
  obtain ⟨array₁, cache₁, hinsert', -, R', -⟩ := insert_refines (new_refines ShapeCache.Valid.empty)
    plainEnv (.string (numberedKey 0)) trivial (fun _ _ h => by cases h) 0
  obtain ⟨rfl, rfl⟩ : ⟨.record storage'⟩ = array₁ ∧ cache' = cache₁ := by
    rw [hinsert] at hinsert'
    exact Prod.mk.inj (Prod.mk.inj (Option.some.inj hinsert')).2
  exact ⟨storage', cache', hinsert, hvalues, R'⟩

/-- A record array of zeros that is filled up with numbered keys answers the last one wrongly. -/
theorem not_follows_overflowSteps (hn : k + n = 2 ^ 32) (hk : 0 < k) (R : Refines cache ⟨.record storage⟩ ref)
    (hvalues : storage.values = List.replicate k 0)
    (hfresh : ∀ j ≥ k, ref.map.indexOf (.string (numberedKey j)) = none) :
    ¬PhpArray.Follows cache ⟨.record storage⟩ ref (overflowSteps k n) := by
  induction n generalizing k cache storage ref with
  | zero =>
    rintro ⟨-, out, array', cache', hstep, -, hobserves⟩
    obtain ⟨storage', cache'', hinsert, hvalues', hshape⟩ :=
      insert_record plainEnv cache (R.slot_numberedKey hfresh) rfl 1
    rw [step, hinsert] at hstep
    cases hstep
    have hlen : storage.shape.keys.length = 2 ^ 32 := by
      rw [R.wf.1, hvalues, length_replicate]
      exact hn
    have hget : get ⟨.record storage'⟩ (.string (numberedKey k)) = some 0 := by
      show (storage'.shape.slotByKey.get _).bind (fun i => storage'.values[i]?) = some 0
      rw [hshape, (growShape_wraps hlen _ _ _ _).2, hvalues', hvalues, Option.bind_some,
        getElem?_append_left (by simpa using hk)]
      simp [hk]
    have hobs := PhpArray.Observes.get hobserves (.string (numberedKey k))
    have hnew := hfresh k (Nat.le_refl k)
    have hlast : (ref.map.push (.string (numberedKey k)) 1 hnew).get (.string (numberedKey k)) =
        some 1 := OrderedMap.get_of_getElem? getElem?_concat_length
    simp only [ReferenceArray.step, ReferenceArray.insert, OrderedMap.insert_of_none hnew] at hobs
    rw [hget, hlast] at hobs
    cases hobs
  | succ n ih =>
    rintro ⟨-, out, array', cache', hstep, -, hfollows⟩
    obtain ⟨storage', cache'', hinsert, hvalues', R'⟩ :=
      R.insert_numberedKey (by omega) hvalues hfresh
    rw [step, hinsert] at hstep
    cases hstep
    exact ih (by omega) (by omega) R' hvalues' (fresh_insert hfresh 0) hfollows

/-- Filling an array with more than `2 ^ 32` string keys leaves the reference: the slot number of
the last key wraps round to the first slot. -/
theorem not_follows_of_slot_overflow : ¬∀ steps : List (Env × ArrayOp Nat),
    (∀ step ∈ steps, step.2.IsI64) → PhpArray.Follows ShapeCache.empty new .new steps := by
  intro hall
  have hops : ∀ n k, ∀ step ∈ overflowSteps k n, step.2.IsI64 := by
    intro n
    induction n with
    | zero => intro k step hstep; cases mem_singleton.mp hstep; trivial
    | succ n ih =>
      intro k step hstep
      rcases mem_cons.mp hstep with rfl | hstep
      · trivial
      · exact ih _ _ hstep
  obtain ⟨n, hn⟩ : ∃ n, 1 + n = 2 ^ 32 := ⟨2 ^ 32 - 1, by decide⟩
  obtain ⟨-, out, array', cache', hstep, -, hfollows⟩ :=
    hall (overflowSteps 0 (n + 1)) (hops _ _)
  obtain ⟨storage', cache'', hinsert, hvalues, R⟩ := insert_new_numberedKey
  rw [step, hinsert] at hstep
  cases hstep
  exact not_follows_overflowSteps hn (by decide) R hvalues (fresh_insert (fun j _ => rfl) 0) hfollows

end PhpArray
end Phrust
