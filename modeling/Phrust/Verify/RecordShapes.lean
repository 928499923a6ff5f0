import Mathlib.Data.List.Induction
import Mathlib.Data.List.Nodup
import Phrust.Runtime.ArrayStorage

/-!
# Record shapes and their cache

A shape is `Indexed` when its slot table finds exactly its keys. Interned shapes are immutable, so
the cache only ever `Extends`: a shape stays where it is held. `ShapeCache.Valid` is the invariant of
the cache, and `Shaped` is what every way of growing a shape establishes. The slot number of a key is
a `u32`, so growing a shape keeps it indexed only while it has fewer than `2 ^ 32` keys.
-/

namespace Phrust
open List Option

/-- The slot table finds exactly the keys of the shape. -/
def RecordShape.Indexed (shape : RecordShape) : Prop :=
  ∀ key i, shape.slotByKey.get key = some i ↔ shape.keys[i]? = some key

namespace RecordShape.Indexed

theorem none_iff {shape : RecordShape} (h : shape.Indexed) :
    shape.slotByKey.get key = none ↔ key ∉ shape.keys := by
  rw [mem_iff_getElem?, not_exists]
  refine ⟨fun hk i hi => ?_, fun hk => eq_none_iff_forall_ne_some.mpr fun i hi => ?_⟩
  · rw [(h key i).mpr hi] at hk
    cases hk
  · exact hk i ((h key i).mp hi)

/-- Appending a new key at the next slot keeps the table exact, if the slot fits in a `u32`. -/
theorem extend {shape : RecordShape} (h : shape.Indexed) (hkey : key ∉ shape.keys)
    (hlen : shape.keys.length < 2 ^ 32) (id : UInt64) :
    Indexed ⟨id, shape.keys ++ [key], shape.slotByKey.insert key (u32 shape.keys.length)⟩ := by
  intro k i
  simp only [StableKeyMap.get_insert, u32, Nat.mod_eq_of_lt hlen]
  by_cases hk : k = key
  · subst hk
    rw [if_pos rfl, Option.some.injEq]
    constructor
    · rintro rfl
      simp
    intro hi
    rcases Nat.lt_trichotomy i shape.keys.length with hlt | heq | hgt
    · rw [getElem?_append_left hlt] at hi
      exact absurd (mem_of_getElem? hi) hkey
    · exact heq.symm
    · rw [getElem?_eq_none (by simp; omega)] at hi
      cases hi
  · rw [if_neg hk, h k i]
    by_cases hi : i < shape.keys.length
    · rw [getElem?_append_left hi]
    rw [getElem?_eq_none (by omega)]
    constructor
    · intro h
      cases h
    · intro hi'
      rw [getElem?_append_right (by omega)] at hi'
      exact absurd (mem_singleton.mp (mem_of_getElem? hi')) hk

end RecordShape.Indexed

theorem slotsOfKeys_concat (keys : List PhpString) (key : PhpString) :
    slotsOfKeys (keys ++ [key]) = (slotsOfKeys keys).insert key (u32 keys.length) := by
  simp [slotsOfKeys, zipIdx_append]

theorem indexed_slotsOfKeys {keys : List PhpString} (hnodup : keys.Nodup)
    (hlen : keys.length ≤ 2 ^ 32) (id : UInt64) : RecordShape.Indexed ⟨id, keys, slotsOfKeys keys⟩ := by
  induction keys using List.reverseRecOn with
  | nil =>
    intro key i
    simp [slotsOfKeys]
  | append_singleton keys key ih =>
    rw [nodup_append] at hnodup
    rw [length_append, length_singleton] at hlen
    have hkey : key ∉ keys := fun h => hnodup.2.2 key h key (mem_singleton_self _) rfl
    have := (ih hnodup.1 (by omega)).extend hkey (show keys.length < 2 ^ 32 by omega) id
    rwa [← slotsOfKeys_concat] at this

namespace ShapeCache

def Holds (cache : ShapeCache) (i : Nat) (shape : RecordShape) : Prop :=
  ∃ cached, cache.shapes[i]? = some cached ∧ cached.shape = shape

def Extends (cache cache' : ShapeCache) : Prop :=
  ∀ i shape, cache.Holds i shape → cache'.Holds i shape

variable {cache : ShapeCache}

theorem Extends.rfl : cache.Extends cache := fun _ _ h => h

theorem Extends.trans {c₁ c₂ c₃ : ShapeCache} (h : c₁.Extends c₂) (h' : c₂.Extends c₃) :
    c₁.Extends c₃ := fun i shape H => h' i shape (h i shape H)

/-- Every interned shape is indexed, and its transitions lead to the shapes they are named after. -/
structure Valid (cache : ShapeCache) : Prop where
  indexed : ∀ {i : Nat} {cached : CachedShape}, cache.shapes[i]? = some cached → cached.shape.Indexed
  transition : ∀ {i target : Nat} {key} {cached : CachedShape}, cache.shapes[i]? = some cached →
    cached.transitions.get key = some target →
      ∃ next, cache.Holds target next ∧ next.keys = cached.shape.keys ++ [key]

theorem Valid.empty : ShapeCache.empty.Valid :=
  ⟨fun h => by simp [ShapeCache.empty] at h, fun h => by simp [ShapeCache.empty] at h⟩

theorem holds_append (h : cache.Holds i shape) (cached : CachedShape)
    (id : UInt64) : Holds ⟨cache.shapes ++ [cached], id⟩ i shape := by
  obtain ⟨c, hc, rfl⟩ := h
  exact ⟨c, by rw [getElem?_append_left (List.getElem?_eq_some_iff.mp hc).1]; exact hc, rfl⟩

/-- Interning a new shape. -/
theorem Valid.append (H : cache.Valid) (hshape : shape.Indexed) (hash id : UInt64) :
    Valid ⟨cache.shapes ++ [⟨hash, shape, .empty⟩], id⟩ := by
  have hcases : ∀ {i : Nat} {cached : CachedShape},
      (cache.shapes ++ [⟨hash, shape, .empty⟩])[i]? = some cached →
      cache.shapes[i]? = some cached ∨ cached = ⟨hash, shape, .empty⟩ := by
    intro i cached hi
    by_cases hlt : i < cache.shapes.length
    · rw [getElem?_append_left hlt] at hi
      exact .inl hi
    · rw [getElem?_append_right (by omega)] at hi
      exact .inr (mem_singleton.mp (mem_of_getElem? hi))
  constructor
  · intro i cached hi
    rcases hcases hi with h | rfl
    · exact H.indexed h
    · exact hshape
  · intro i cached key target hi ht
    rcases hcases hi with h | rfl
    · obtain ⟨next, hn, hk⟩ := H.transition h ht
      exact ⟨next, holds_append hn _ _, hk⟩
    · simp at ht

theorem holds_addTransition (parent : Option Nat) :
    (cache.addTransition parent key target).Holds i shape ↔ cache.Holds i shape := by
  cases parent with
  | none => rfl
  | some parent =>
    simp only [Holds, addTransition, getElem?_modify, Option.map_eq_map, map_eq_some_iff]
    constructor
    · rintro ⟨_, ⟨c, hc, rfl⟩, rfl⟩
      exact ⟨c, hc, by split <;> rfl⟩
    · rintro ⟨c, hc, rfl⟩
      exact ⟨_, ⟨c, hc, rfl⟩, by split <;> rfl⟩

theorem Valid.addTransition (H : cache.Valid) {next : RecordShape}
    (hparent : ∀ i ∈ parent, cache.Holds i shape) (htarget : cache.Holds target next)
    (hkeys : next.keys = shape.keys ++ [key]) : (cache.addTransition parent key target).Valid := by
  cases parent with
  | none => exact H
  | some p =>
    obtain ⟨pc, hpc, hps⟩ := hparent p rfl
    have hcases : ∀ {i : Nat} {cached : CachedShape},
        ((cache.addTransition (some p) key target).shapes)[i]? = some cached →
        cache.shapes[i]? = some cached ∨
          (i = p ∧ cached = { pc with transitions := pc.transitions.insert key target }) := by
      intro i cached hi
      simp only [ShapeCache.addTransition, getElem?_modify, Option.map_eq_map, map_eq_some_iff] at hi
      obtain ⟨c, hc, hcached⟩ := hi
      by_cases hip : p = i
      · subst hip
        rw [hpc] at hc
        cases hc
        exact .inr ⟨rfl, by rw [← hcached, if_pos rfl]⟩
      · rw [if_neg hip] at hcached
        exact .inl (hcached ▸ hc)
    constructor
    · intro i cached hi
      rcases hcases hi with h | ⟨-, rfl⟩
      · exact H.indexed h
      · have hpc' := H.indexed hpc
        exact hpc'
    · intro i cached k t hi ht
      simp only [holds_addTransition]
      rcases hcases hi with h | ⟨-, rfl⟩
      · exact H.transition h ht
      simp only [StableKeyMap.get_insert] at ht
      split at ht
      · next hk =>
        cases ht
        exact ⟨next, htarget, by rw [hkeys, hk, hps]⟩
      · have hpc' := H.transition hpc ht
        exact hpc'

end ShapeCache

/-- What growing a shape to `keys` gives: an indexed shape with these keys, held by the new cache
if it is interned, and a valid cache that extends the old one. -/
structure Shaped (cache : ShapeCache) (keys : List PhpString) (interned : Option Nat)
    (shape : RecordShape) (cache' : ShapeCache) : Prop where
  keys_eq : shape.keys = keys
  indexed : shape.Indexed
  valid : cache'.Valid
  extends_cache : cache.Extends cache'
  holds : ∀ i ∈ interned, cache'.Holds i shape

theorem CachedShape.keys_of_hasKeys {cached : CachedShape} {keys : List PhpString}
    (h : cached.hasKeys keys appended) : cached.shape.keys = keys ++ appended.toList := by
  simp only [CachedShape.hasKeys, Bool.and_eq_true, beq_iff_eq, List.all_eq_true] at h
  obtain ⟨hlen, hall⟩ := h
  have hlen' : cached.shape.keys.length = (keys ++ appended.toList).length := by
    cases appended <;> simpa using hlen
  apply ext_getElem hlen'
  intro i h1 h2
  have hmem : (cached.shape.keys[i], (keys ++ appended.toList)[i]) ∈
      cached.shape.keys.zip (keys ++ appended.toList) := by
    rw [← getElem_zip (h := by rw [length_zip]; omega)]
    exact getElem_mem _
  exact hall _ hmem

variable {cache : ShapeCache}

theorem recordShapeFor_shaped (H : cache.Valid) (keys : List PhpString)
    (appended : Option PhpString) (hnodup : (keys ++ appended.toList).Nodup) (hlen : (keys ++ appended.toList).length ≤ 2 ^ 32) :
    Shaped cache (keys ++ appended.toList) (some (recordShapeFor cache keys appended).1)
      (recordShapeFor cache keys appended).2.1 (recordShapeFor cache keys appended).2.2 := by
  unfold recordShapeFor
  simp only
  split
  · next existing index hfind =>
    have hmem := mem_zipIdx_iff_getElem?.mp (mem_of_find?_eq_some hfind)
    have hkeys := find?_some hfind
    simp only [Bool.and_eq_true] at hkeys
    exact ⟨CachedShape.keys_of_hasKeys hkeys.2, H.indexed hmem, H, .rfl,
      by rintro i ⟨⟩; exact ⟨existing, hmem, rfl⟩⟩
  · have hshape := indexed_slotsOfKeys hnodup hlen cache.nextRecordShapeId
    exact ⟨rfl, hshape, H.append hshape _ _, fun _ _ h => ShapeCache.holds_append h _ _,
      by rintro i ⟨⟩; exact ⟨_, getElem?_concat_length, rfl⟩⟩

theorem recordShapeExtended_shaped (H : cache.Valid)
    (hparent : ∀ i ∈ parent, cache.Holds i shape) (hnodup : (shape.keys ++ [key]).Nodup)
    (hlen : shape.keys.length < 2 ^ 32) :
    Shaped cache (shape.keys ++ [key]) (some (recordShapeExtended cache parent shape key).1)
      (recordShapeExtended cache parent shape key).2.1 (recordShapeExtended cache parent shape key).2.2 := by
  unfold recordShapeExtended
  split
  · next target next htransition =>
    -- A memoized target carries the parent's keys, whatever its guard says.
    simp only [ShapeCache.transition, bind_eq_bind, bind_eq_some_iff] at htransition
    obtain ⟨p, hp, cached, hcached, target', htarget, c', hc', hguard⟩ := htransition
    split at hguard
    · cases hguard
      obtain ⟨next', ⟨c'', hc'', rfl⟩, hkeys⟩ := H.transition hcached htarget
      obtain ⟨pc, hpc, hps⟩ := hparent p hp
      rw [hcached] at hpc
      cases hpc
      rw [hc'] at hc''
      cases hc''
      exact ⟨by rw [hkeys, hps], H.indexed hc', H, .rfl, by rintro i ⟨⟩; exact ⟨c', hc', rfl⟩⟩
    · cases hguard
  · have S := recordShapeFor_shaped H shape.keys (some key) hnodup
      (by simp only [toList_some, length_append, length_singleton]; omega)
    obtain ⟨hkeys, hidx, hvalid, hext, hholds⟩ := S
    refine ⟨hkeys, hidx, hvalid.addTransition (fun i hi => hext _ _ (hparent i hi)) (hholds _ rfl)
      hkeys, fun i s h => (ShapeCache.holds_addTransition _).mpr (hext i s h), fun i hi => ?_⟩
    exact (ShapeCache.holds_addTransition _).mpr (hholds i hi)

theorem ShapeCache.Valid.withId (H : cache.Valid) (id : UInt64) :
    ShapeCache.Valid { cache with nextRecordShapeId := id } := ⟨H.indexed, H.transition⟩

/-- Every way of growing a record shape gives the grown shape, while its slots fit in a `u32`. -/
theorem growShape_shaped (H : cache.Valid) (hshape : shape.Indexed)
    (hinterned : ∀ i ∈ interned, cache.Holds i shape) (hkey : key ∉ shape.keys)
    (hnodup : shape.keys.Nodup) (hlen : shape.keys.length < 2 ^ 32) (env : Env) :
    Shaped cache (shape.keys ++ [key]) (ArrayStorage.growShape env cache shape interned key).2.1
      (ArrayStorage.growShape env cache shape interned key).1
      (ArrayStorage.growShape env cache shape interned key).2.2 := by
  unfold ArrayStorage.growShape
  split
  · exact ⟨rfl, hshape.extend hkey hlen _, H, .rfl, by simp⟩
  split
  · exact ⟨rfl, hshape.extend hkey hlen _, H.withId _, fun _ _ h => h, by simp⟩
  refine recordShapeExtended_shaped H hinterned ?_ hlen
  rw [nodup_append]
  refine ⟨hnodup, nodup_singleton _, ?_⟩
  rintro a ha b hb rfl
  exact hkey (mem_singleton.mp hb ▸ ha)

theorem RecordShape.Indexed.nodup {shape : RecordShape} (h : shape.Indexed) : shape.keys.Nodup := by
  rw [nodup_iff_getElem?_ne_getElem?]
  intro i j hij hj heq
  have hi := getElem?_eq_getElem (Nat.lt_trans hij hj)
  have h1 := (h _ i).mpr hi
  have h2 := (h _ j).mpr (heq ▸ hi)
  rw [h1] at h2
  cases h2
  exact Nat.lt_irrefl _ hij

end Phrust
