import Phrust.Runtime.RequestInput
import Phrust.Verify.ArrayRuns

/-!
# Nested input arrays

What one insertion along a path of segments does to a nested array: it adds at most one leaf, and
arrays only along the path. `Sound` is the invariant of nested arrays: every array in them stands for
an ordered map.
-/

namespace Phrust
open ArrayStorage

def Value.lookup : Value → List ArrayKey → Option Value
  | value, [] => some value
  | .array entries, key :: path =>
    match entries.get key with
    | some child => child.lookup path
    | none => none
  | _, _ :: _ => none

namespace PhpArray

/-- The paths to the values that are no arrays. -/
def leaves (array : PhpArray Value) : Set (List ArrayKey) :=
  { path | ∃ value, (Value.array array).lookup path = some value ∧ value.isArray = false }

/-- No array below this one is more than `depth` steps away. -/
def NestedWithin (array : PhpArray Value) (depth : Nat) : Prop :=
  ∀ path child, (Value.array array).lookup path = some (.array child) → path.length ≤ depth

theorem get_new (key : ArrayKey) : (new : PhpArray Value).get key = none :=
  (new_refines (ShapeCache.Valid.empty)).get key

theorem lookup_new (h : (Value.array .new).lookup path = some value) : path = [] ∧ value = .array .new := by
  cases path with
  | nil => exact ⟨rfl, (Option.some.inj h).symm⟩
  | cons key path =>
    rw [Value.lookup, get_new] at h
    cases h

/-- From `array` to `array'` only the leaves `added` are new, and new arrays are at most `depth`
steps away. -/
structure Grows (array array' : PhpArray Value) (depth : Nat) (added : List (List ArrayKey)) : Prop where
  leaves : ∀ path ∈ array'.leaves, path ∈ array.leaves ∨ path ∈ added
  arrays : ∀ path child, (Value.array array').lookup path = some (.array child) →
    (∃ child', (Value.array array).lookup path = some (.array child')) ∨ path.length ≤ depth

namespace Grows

theorem rfl : Grows array array depth [] :=
  ⟨fun _ h => .inl h, fun _ child h => .inl ⟨child, h⟩⟩

theorem trans (h : Grows a b depth added) (h' : Grows b c depth added') :
    Grows a c depth (added ++ added') where
  leaves path hpath := by
    rcases h'.leaves path hpath with hb | hnew
    · exact (h.leaves path hb).imp_right (List.mem_append_left _)
    · exact .inr (List.mem_append_right _ hnew)
  arrays path child hpath := by
    rcases h'.arrays path child hpath with ⟨child', hb⟩ | hnew
    · exact h.arrays path child' hb
    · exact .inr hnew

theorem mono (h : Grows a b depth added) (hle : depth ≤ depth') : Grows a b depth' added :=
  ⟨h.leaves, fun path child hpath => (h.arrays path child hpath).imp_right (Nat.le_trans · hle)⟩

theorem set_scalar (hvalue : value.isArray = false)
    (hget : ∀ k, array'.get k = if k = key then some value else array.get k) :
    Grows array array' 0 [[key]] where
  leaves path hpath := by
    obtain ⟨leaf, hlookup, hleaf⟩ := hpath
    cases path with
    | nil => cases hlookup; cases hleaf
    | cons k path =>
      rw [Value.lookup, hget] at hlookup
      by_cases hk : k = key
      · subst hk
        rw [if_pos (Eq.refl _)] at hlookup
        cases path with
        | nil => exact .inr List.mem_cons_self
        | cons => cases value <;> first | cases hlookup | cases hvalue
      · rw [if_neg hk] at hlookup
        exact .inl ⟨leaf, hlookup, hleaf⟩
  arrays path child hlookup := by
    cases path with
    | nil => exact .inr (Nat.le_refl 0)
    | cons k path =>
      rw [Value.lookup, hget] at hlookup
      by_cases hk : k = key
      · subst hk
        rw [if_pos (Eq.refl _)] at hlookup
        cases path with
        | nil => cases hlookup; cases hvalue
        | cons => cases value <;> first | cases hlookup | cases hvalue
      · rw [if_neg hk] at hlookup
        exact .inl ⟨child, hlookup⟩

/-- The array at a key grows. There may have been none; then it starts empty. -/
theorem set_child (hbase : array.get key = some (.array base) ∨ base = .new)
    (hget : ∀ k, array'.get k = if k = key then some (.array child) else array.get k)
    (h : Grows base child depth added) : Grows array array' (depth + 1) (added.map (key :: ·)) where
  leaves path hpath := by
    obtain ⟨leaf, hlookup, hleaf⟩ := hpath
    cases path with
    | nil => cases hlookup; cases hleaf
    | cons k path =>
      rw [Value.lookup, hget] at hlookup
      by_cases hk : k = key
      · subst hk
        rw [if_pos (Eq.refl _)] at hlookup
        rcases h.leaves path ⟨leaf, hlookup, hleaf⟩ with ⟨leaf', hold, hleaf'⟩ | hnew
        · rcases hbase with hbase | rfl
          · refine .inl ⟨leaf', ?_, hleaf'⟩
            rw [Value.lookup, hbase]
            exact hold
          · rw [(lookup_new hold).2] at hleaf'
            cases hleaf'
        · exact .inr (List.mem_map_of_mem hnew)
      · rw [if_neg hk] at hlookup
        exact .inl ⟨leaf, hlookup, hleaf⟩
  arrays path grandchild hlookup := by
    cases path with
    | nil => exact .inr (Nat.zero_le _)
    | cons k path =>
      rw [Value.lookup, hget] at hlookup
      by_cases hk : k = key
      · subst hk
        rw [if_pos (Eq.refl _)] at hlookup
        rcases h.arrays path grandchild hlookup with ⟨old, hold⟩ | hnew
        · rcases hbase with hbase | rfl
          · refine .inl ⟨old, ?_⟩
            rw [Value.lookup, hbase]
            exact hold
          · rw [(lookup_new hold).1]
            exact .inr (Nat.succ_le_succ (Nat.zero_le depth))
        · exact .inr (Nat.succ_le_succ hnew)
      · rw [if_neg hk] at hlookup
        exact .inl ⟨grandchild, hlookup⟩

end Grows
end PhpArray

/-! ## The invariant -/

/-- Every array of the nested array stands for an ordered map. -/
inductive Sound (cache : ShapeCache) : PhpArray Value → Prop
  | intro (R : PhpArray.Refines cache array ref)
    (children : ∀ key child, array.get key = some (.array child) → Sound cache child) :
    Sound cache array

namespace Sound

theorem valid (S : Sound cache array) : cache.Valid := by
  cases S with
  | intro R _ => exact R.valid

theorem child (S : Sound cache array) (h : array.get key = some (.array entries)) : Sound cache entries := by
  cases S with
  | intro _ children => exact children key entries h

theorem mono (S : Sound cache array) (hvalid : cache'.Valid) (hext : cache.Extends cache') :
    Sound cache' array := by
  induction S with
  | intro R _ ih =>
    exact ⟨⟨hvalid, R.wf.mono hext, R.represents, R.next, R.bounded⟩, ih⟩

theorem new (hvalid : cache.Valid) : Sound cache .new := by
  refine ⟨PhpArray.new_refines hvalid, fun key child h => ?_⟩
  rw [PhpArray.get_new] at h
  cases h

theorem of_set (S : Sound cache array) (hext : cache.Extends cache') (R : PhpArray.Refines cache' array' ref')
    (hget : ∀ k, array'.get k = if k = key then some value else array.get k)
    (hvalue : ∀ child, value = .array child → Sound cache' child) : Sound cache' array' := by
  refine ⟨R, fun k child hk => ?_⟩
  rw [hget] at hk
  by_cases h : k = key
  · rw [if_pos h] at hk
    exact hvalue child (Option.some.inj hk)
  · rw [if_neg h] at hk
    exact (S.child hk).mono R.valid hext

theorem insert (S : Sound cache array) (env : Env) (key : ArrayKey) (value : Value)
    (hkey : key.IsI64) (hroom : array.SlotRoom env key)
    (hvalue : ∀ child, value = .array child → Sound cache child) :
    ∃ old array' cache', array.insert env cache key value = some (old, array', cache') ∧
      cache.Extends cache' ∧ Sound cache' array' ∧ array'.len ≤ array.len + 1 ∧
      ∀ k, array'.get k = if k = key then some value else array.get k := by
  cases id S with
  | @intro _ ref R _ =>
    obtain ⟨array', cache', hinsert, hext, R', -⟩ :=
      PhpArray.insert_refines R env key hkey hroom value
    have hget : ∀ k, array'.get k = if k = key then some value else array.get k := by
      intro k
      rw [R'.get, R.get]
      exact OrderedMap.get_insert ref.map key value k
    refine ⟨_, array', cache', hinsert, hext, ?_, ?_, hget⟩
    · exact S.of_set hext R' hget fun child h => (hvalue child h).mono R'.valid hext
    · rw [R'.observes.len, R.observes.len]
      exact OrderedMap.length_insert_le ref.map key value

/-- An append with a free key; the array has nothing at that key. -/
theorem append (S : Sound cache array) (env : Env) (value : Value) (h : array.canAppend = true)
    (hvalue : ∀ child, value = .array child → Sound cache child) :
    ∃ next array' cache', array.append env cache value = some (.int next, array', cache') ∧
      cache.Extends cache' ∧ Sound cache' array' ∧
      ∀ k, array'.get k = if k = .int next then some value else array.get k := by
  cases id S with
  | @intro _ ref R _ =>
    obtain ⟨array', cache', happend, hext, R', -⟩ := PhpArray.append_refines R env value
    have hfree : ¬(ref.next.getD 0 = i64Max ∧ (ref.map.get (.int i64Max)).isSome) := by
      rintro ⟨hmax, hsome⟩
      rw [R.canAppend] at h
      simp [hmax, hsome] at h
    have href : ref.append value =
        (.int (ref.next.getD 0), (ref.insert (.int (ref.next.getD 0)) value).2) := by
      rw [ReferenceArray.append, ReferenceArray.tryAppend, if_neg hfree]
    rw [href] at happend R'
    have hget : ∀ k, array'.get k =
        if k = .int (ref.next.getD 0) then some value else array.get k := by
      intro k
      rw [R'.get, R.get]
      exact OrderedMap.get_insert ref.map _ value k
    exact ⟨_, array', cache', happend, hext,
      S.of_set hext R' hget fun child h => (hvalue child h).mono R'.valid hext, hget⟩

/-- With the integer keys used up nothing is appended, and the largest key is returned. -/
theorem append_full (env : Env) (cache : ShapeCache) {array : PhpArray Value}
    (h : array.canAppend = false) (value : Value) :
    array.append env cache value = some (.int i64Max, array, cache) := by
  rw [PhpArray.append, PhpArray.tryAppend, h]
  rfl

theorem withChild (insert : PhpArray Value → Option (PhpArray Value × ShapeCache)) (S : Sound cache array)
    (hget : array.get key = some (.array base)) (hinsert : insert base = some (child', cache')) (hext : cache.Extends cache')
    (S' : Sound cache' child') :
    ∃ array', withChildArray array key insert = some (array', cache') ∧ Sound cache' array' ∧
      ∀ k, array'.get k = if k = key then some (.array child') else array.get k := by
  cases id S with
  | @intro _ ref R _ =>
    have href : ref.map.get key = some (.array base) := (R.get key).symm.trans hget
    obtain ⟨slot, hslot, hderef, hwrite⟩ := PhpArray.getMut_refines R href
    obtain ⟨array', hdrop, L⟩ := hwrite (.array child')
    have R' := (L fun _ => .string).refines
    have hset : ∀ k, array'.get k = if k = key then some (.array child') else array.get k := by
      intro k
      rw [R'.get, R.get]
      exact OrderedMap.get_replace (by rw [href]; rfl) _ k
    have R'' : PhpArray.Refines cache' array' _ :=
      ⟨S'.valid, R'.wf.mono hext, R'.represents, R'.next, R'.bounded⟩
    refine ⟨array', ?_, S.of_set hext R'' hset fun _ h => Value.array.inj h ▸ S', hset⟩
    simp only [withChildArray, hslot, hderef, hinsert, hdrop, Option.bind_eq_bind, Option.bind_some,
      Option.pure_def]

end Sound

/-! ## Insertion along a path -/

section
variable (env : InputEnv)

/-- An insertion along `segments` can be carried out. A `[]` in front of more segments needs a free
integer key, or an array at the largest one; a new string key needs room in the record shape. -/
def InputRoom (array : PhpArray Value) : List InputKeySegment → Prop
  | [] | [.append] => True
  | [.key key] => array.SlotRoom env.toEnv key
  | .key key :: tail =>
    match array.get key with
    | some (.array child) => InputRoom child tail
    | _ => array.SlotRoom env.toEnv key
  | .append :: tail =>
    array.canAppend = true ∨
      match array.get (.int i64Max) with
      | some (.array child) => InputRoom child tail
      | _ => False

instance InputRoom.decidable (array : PhpArray Value) : ∀ segments, Decidable (InputRoom env array segments)
  | [] | [.append] => isTrue trivial
  | [.key key] => inferInstanceAs (Decidable (array.SlotRoom env.toEnv key))
  | .key key :: next :: tail => by
    have := fun child => decidable child (next :: tail)
    unfold InputRoom
    split <;> infer_instance
  | .append :: next :: tail => by
    have := fun child => decidable child (next :: tail)
    have : Decidable (match array.get (.int i64Max) with
      | some (.array child) => InputRoom env child (next :: tail)
      | _ => False) := by split <;> infer_instance
    exact inferInstanceAs (Decidable (_ ∨ _))

/-- The integer keys of a path are `i64` values. -/
def SegmentsI64 (segments : List InputKeySegment) : Prop := ∀ key, .key key ∈ segments → key.IsI64

theorem slotRoom_new (key : ArrayKey) : (PhpArray.new : PhpArray Value).SlotRoom env.toEnv key :=
  nofun

theorem inputRoom_new (segments : List InputKeySegment) : InputRoom env .new segments := by
  match segments with
  | [] | [.append] => trivial
  | [.key key] => exact slotRoom_new env key
  | .key key :: next :: tail =>
    rw [InputRoom, PhpArray.get_new]
    · exact slotRoom_new env key
    · simp
  | .append :: next :: tail => exact .inl rfl

/-- What an insertion along a path leaves behind. -/
structure Inserted (cache : ShapeCache) (array : PhpArray Value) (depth : Nat) (count : Nat)
    (array' : PhpArray Value) (cache' : ShapeCache) : Prop where
  extends_cache : cache.Extends cache'
  sound : Sound cache' array'
  grows : ∃ added, added.length ≤ count ∧ array.Grows array' depth added

theorem Inserted.trans (I : Inserted cache a depth m b cache₁)
    (I' : Inserted cache₁ b depth n c cache') : Inserted cache a depth (m + n) c cache' := by
  obtain ⟨added, hlen, G⟩ := I.grows
  obtain ⟨added', hlen', G'⟩ := I'.grows
  refine ⟨I.extends_cache.trans I'.extends_cache, I'.sound, _, ?_, G.trans G'⟩
  rw [List.length_append]
  exact Nat.add_le_add hlen hlen'

/-- Insertion into the child `current`. Seen from outside, the child has grown from `base`, which was
there before or is the empty array. -/
theorem Inserted.child
    (insert : PhpArray Value → Option (PhpArray Value × ShapeCache)) (S : Sound cache₁ array₁)
    (hext : cache.Extends cache₁) (hget₁ : array₁.get key = some (.array current))
    (hother : ∀ k, k ≠ key → array₁.get k = array.get k)
    (hbase : array.get key = some (.array base) ∨ base = .new)
    (hinsert : insert current = some (child', cache')) (I : Inserted cache₁ base depth count child' cache') :
    ∃ array', withChildArray array₁ key insert = some (array', cache') ∧
      Inserted cache array (depth + 1) count array' cache' := by
  obtain ⟨array', hchild, S', hset⟩ := S.withChild insert hget₁ hinsert I.extends_cache I.sound
  obtain ⟨added, hlen, G⟩ := I.grows
  refine ⟨array', hchild, hext.trans I.extends_cache, S', _, ?_, G.set_child hbase fun k => ?_⟩
  · rwa [List.length_map]
  rw [hset]
  by_cases hk : k = key
  · rw [if_pos hk, if_pos hk]
  · rw [if_neg hk, if_neg hk, hother k hk]

theorem ensureChildArray_sound (S : Sound cache array) (hkey : key.IsI64)
    (hroom : (∀ child, array.get key ≠ some (.array child)) → array.SlotRoom env.toEnv key)
    (hinitial : Sound cache initial) :
    ∃ array₁ cache₁ base, ensureChildArray env cache array key initial = some (array₁, cache₁) ∧
      cache.Extends cache₁ ∧ Sound cache₁ array₁ ∧ array₁.get key = some (.array base) ∧
      (∀ k, k ≠ key → array₁.get k = array.get k) ∧ (array.get key = some (.array base) ∨
        (∀ child, array.get key ≠ some (.array child)) ∧ base = initial) := by
  by_cases hchild : ∃ child, array.get key = some (.array child)
  · obtain ⟨child, hchild⟩ := hchild
    refine ⟨array, cache, child, ?_, .rfl, S, hchild, fun _ _ => rfl, .inl hchild⟩
    rw [ensureChildArray, hchild]
  rw [not_exists] at hchild
  obtain ⟨old, array₁, cache₁, hinsert, hext, S₁, -, hget⟩ :=
    S.insert env.toEnv key (.array initial) hkey (hroom hchild)
      fun child h => Value.array.inj h ▸ hinitial
  refine ⟨array₁, cache₁, initial, ?_, hext, S₁, ?_, ?_, .inr ⟨hchild, rfl⟩⟩
  · rw [ensureChildArray, hinsert]
    split
    · next child h => exact absurd h (hchild child)
    · rfl
  · rw [hget, if_pos rfl]
  · exact fun k hk => by rw [hget, if_neg hk]

/-- One field: the insertion succeeds, adds at most one leaf and no array deeper than the path. -/
theorem insertInputAt_inserted (value : Value) (S : Sound cache array) (hvalue : value.isArray = false)
    (hsegments : SegmentsI64 segments) (hroom : InputRoom env array segments) :
    ∃ array' cache', insertInputAt env cache array value segments = some (array', cache') ∧
      Inserted cache array (segments.length - 1) 1 array' cache' := by
  have hscalar : ∀ cache child, value = .array child → Sound cache child := by
    rintro cache child rfl
    cases hvalue
  induction segments generalizing cache array with
  | nil => exact ⟨array, cache, rfl, .rfl, S, [], Nat.zero_le 1, .rfl⟩
  | cons head tail ih =>
    have htail : SegmentsI64 tail := fun key h => hsegments key (List.mem_cons_of_mem _ h)
    cases tail with
    | nil =>
      cases head with
      | key key =>
        obtain ⟨old, array', cache', hinsert, hext, S', -, hget⟩ :=
          S.insert env.toEnv key value (hsegments key List.mem_cons_self) hroom (hscalar cache)
        refine ⟨array', cache', ?_, hext, S', [[key]], Nat.le_refl 1, .set_scalar hvalue hget⟩
        rw [insertInputAt, hinsert]
        rfl
      | append =>
        cases happend : array.canAppend with
        | true =>
          obtain ⟨next, array', cache', hinsert, hext, S', hget⟩ :=
            S.append env.toEnv value happend (hscalar cache)
          refine ⟨array', cache', ?_, hext, S', [[.int next]], Nat.le_refl 1, .set_scalar hvalue hget⟩
          rw [insertInputAt, hinsert]
          rfl
        | false =>
          refine ⟨array, cache, ?_, .rfl, S, [], Nat.zero_le 1, .rfl⟩
          rw [insertInputAt, Sound.append_full env.toEnv cache happend]
          rfl
    | cons next tail =>
      cases head with
      | key key =>
        obtain ⟨array₁, cache₁, base, hensure, hext, S₁, hget₁, hother, hbase⟩ :=
          ensureChildArray_sound env S (hsegments key List.mem_cons_self)
            (fun hnone => by
              rw [InputRoom] at hroom
              · split at hroom
                · next child h => exact absurd h (hnone child)
                · exact hroom
              · simp) (Sound.new S.valid)
        have hrest : InputRoom env base (next :: tail) := by
          rcases hbase with h | ⟨-, rfl⟩
          · rw [InputRoom, h] at hroom
            · exact hroom
            · simp
          · exact inputRoom_new env _
        obtain ⟨child', cache', hinsert, I⟩ := ih (S₁.child hget₁) htail hrest
        obtain ⟨array', hchild, I'⟩ :=
          I.child (fun child => insertInputAt env cache₁ child value (next :: tail)) S₁ hext hget₁
            hother (hbase.imp_right And.right) hinsert
        refine ⟨array', cache', ?_, I'⟩
        rw [insertInputAt, hensure]
        · exact hchild
        · simp
      | append =>
        obtain ⟨key, array₁, cache₁, base, happend, hext, S₁, hget₁, hother, hbase, hrest⟩ :
            ∃ key array₁ cache₁ base,
              array.append env.toEnv cache (.array .new) = some (key, array₁, cache₁) ∧
              cache.Extends cache₁ ∧ Sound cache₁ array₁ ∧ array₁.get key = some (.array base) ∧
              (∀ k, k ≠ key → array₁.get k = array.get k) ∧
              (array.get key = some (.array base) ∨ base = .new) ∧
              InputRoom env base (next :: tail) := by
          cases happend : array.canAppend with
          | true =>
            obtain ⟨free, array₁, cache₁, hinsert, hext, S₁, hget⟩ :=
              S.append env.toEnv (.array .new) happend
                fun child h => Value.array.inj h ▸ Sound.new S.valid
            exact ⟨.int free, array₁, cache₁, .new, hinsert, hext, S₁, by rw [hget, if_pos rfl],
              fun k hk => by rw [hget, if_neg hk], .inr rfl, inputRoom_new env _⟩
          | false =>
            rw [InputRoom, happend] at hroom
            · split at hroom
              · next child h =>
                exact ⟨.int i64Max, array, cache, child,
                  Sound.append_full env.toEnv cache happend _, .rfl, S, h, fun _ _ => rfl, .inl h,
                  hroom.resolve_left Bool.false_ne_true⟩
              · exact absurd hroom (by simp)
            · simp
        obtain ⟨child', cache', hinsert, I⟩ := ih (S₁.child hget₁) htail hrest
        obtain ⟨array', hchild, I'⟩ :=
          I.child (fun child => insertInputAt env cache₁ child value (next :: tail)) S₁ hext hget₁
            hother hbase hinsert
        refine ⟨array', cache', ?_, I'⟩
        rw [insertInputAt, happend]
        · exact hchild
        · simp

end
end Phrust
