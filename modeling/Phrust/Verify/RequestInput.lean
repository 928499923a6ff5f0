import Mathlib.Data.Set.Card
import Phrust.Verify.InputArrays

/-!
# Request input stays within its limits

Building the input superglobals succeeds as long as every insertion has room, and the result keeps
the nesting and variable limits. Uploaded files count once each but have five attributes, which are
one more level of nesting.
-/

namespace Phrust
open Option

section
variable (env : InputEnv)

/-! ## Field names -/

theorem inputKey_isI64 (name : PhpString) : (inputKey env name).IsI64 := by
  rw [inputKey]
  cases h : env.classifyArrayKey name with
  | integer value => exact env.classify_i64 name value h
  | string => trivial

theorem segmentsI64_root (name : PhpString) : SegmentsI64 [.key (inputRootKey env name)] := by
  rintro key hkey
  rw [List.mem_singleton, InputKeySegment.key.injEq] at hkey
  exact hkey ▸ inputKey_isI64 env _

theorem parseInputKeyLoop_segments (h : parseInputKeyLoop env name level segments rest = some result)
    (hsegments : SegmentsI64 segments) (hlen : segments.length ≤ level + 1) :
    SegmentsI64 result ∧ result.length ≤ level + 1 := by
  fun_induction parseInputKeyLoop env name level segments rest with
  | case1 | case2 =>
    cases h
    exact ⟨hsegments, hlen⟩
  | case3 =>
    cases h
    exact ⟨segmentsI64_root env name, Nat.succ_le_succ (Nat.zero_le level)⟩
  | case4 =>
    cases h
    exact ⟨hsegments, hlen⟩
  | case5 => cases h
  | case6 segments byte tail hbracket close hclose part segments' hlevel ih =>
    refine ih h (fun key hkey => ?_) (by omega)
    rcases List.mem_append.mp hkey with hkey | hkey
    · exact hsegments key hkey
    rw [List.mem_singleton] at hkey
    split at hkey
    · cases hkey
    · cases hkey
      exact inputKey_isI64 env part

theorem parseInputKeySegments_segments (h : parseInputKeySegments env name level = some segments) :
    SegmentsI64 segments ∧ segments.length ≤ level + 1 := by
  rw [parseInputKeySegments] at h
  split at h
  · cases h
  split at h
  · cases h
    exact ⟨segmentsI64_root env name, Nat.succ_le_succ (Nat.zero_le level)⟩
  split at h
  · cases h
  · exact parseInputKeyLoop_segments env h (segmentsI64_root env _)
      (Nat.succ_le_succ (Nat.zero_le level))

end

/-! ## Limits -/

/-- At most `count` leaves, and arrays at most `depth` steps away. -/
structure PhpArray.Limited (array : PhpArray Value) (depth count : Nat) : Prop where
  nested : array.NestedWithin depth
  paths : ∃ paths : List (List ArrayKey), paths.length ≤ count ∧ ∀ path ∈ array.leaves, path ∈ paths

namespace PhpArray.Limited

theorem new (depth : Nat) : (PhpArray.new : PhpArray Value).Limited depth 0 where
  nested path child h := by
    rw [(lookup_new h).1]
    exact Nat.zero_le depth
  paths := by
    refine ⟨[], Nat.le_refl 0, ?_⟩
    rintro path ⟨value, h, hvalue⟩
    rw [(lookup_new h).2] at hvalue
    cases hvalue

theorem inserted (L : array.Limited depth count) (I : Inserted cache array d n array' cache')
    (hd : d ≤ depth) : array'.Limited depth (count + n) where
  nested path child h := by
    obtain ⟨added, -, G⟩ := I.grows
    rcases G.arrays path child h with ⟨child', h'⟩ | h'
    · exact L.nested path child' h'
    · exact Nat.le_trans h' hd
  paths := by
    obtain ⟨added, hadded, G⟩ := I.grows
    obtain ⟨paths, hpaths, hall⟩ := L.paths
    refine ⟨paths ++ added, ?_, fun path h => ?_⟩
    · rw [List.length_append]
      exact Nat.add_le_add hpaths hadded
    · exact List.mem_append.mpr ((G.leaves path h).imp_left (hall path))

theorem encard_leaves_le {array : PhpArray Value} (L : array.Limited depth count) : array.leaves.encard ≤ count := by
  obtain ⟨paths, hpaths, hall⟩ := L.paths
  calc array.leaves.encard
    _ ≤ (paths.toFinset : Set (List ArrayKey)).encard :=
      Set.encard_le_encard fun path h => by simpa using hall path h
    _ = paths.toFinset.card := Set.encard_coe_eq_coe_finsetCard _
    _ ≤ count := by exact_mod_cast Nat.le_trans (List.toFinset_card_le paths) hpaths

end PhpArray.Limited

/-- The state of a build: of `total` leaves, `per` are still reserved for each remaining variable. -/
structure Within (level extra per total : Nat) (builder : InputArrayBuilder) (cache : ShapeCache)
    (array : PhpArray Value) : Prop where
  level_eq : builder.maxInputNestingLevel = level
  sound : Sound cache array
  limited : ∃ count, count + per * builder.remainingVars ≤ total ∧ array.Limited (level + extra) count

namespace Within

theorem new (extra per : Nat) (ini : RuntimeIniOptions) (hcache : cache.Valid) :
    Within ini.maxInputNestingLevel extra per (per * ini.maxInputVars) (.new ini) cache .new :=
  ⟨rfl, .new hcache, 0, Nat.le_of_eq (Nat.zero_add _), .new _⟩

section
variable (W : Within level extra per total builder cache array)
include W

/-- One variable is consumed and at most `per` leaves are added for it. -/
theorem step (hconsume : builder.consumeVar = some builder') (I : Inserted cache array d n array' cache')
    (hd : d ≤ level + extra) (hn : n ≤ per) : Within level extra per total builder' cache' array' := by
  obtain ⟨count, hcount, L⟩ := W.limited
  rw [InputArrayBuilder.consumeVar] at hconsume
  split at hconsume
  · cases hconsume
  · next hremaining =>
    cases hconsume
    refine ⟨W.level_eq, I.sound, count + n, ?_, L.inserted I hd⟩
    obtain ⟨remaining, hr⟩ := Nat.exists_eq_succ_of_ne_zero hremaining
    simp only [hr, Nat.succ_sub_one, Nat.mul_succ] at hcount ⊢
    omega

theorem skip
    (hconsume : builder.consumeVar = some builder') : Within level extra per total builder' cache array :=
  W.step hconsume ⟨.rfl, W.sound, [], Nat.le_refl 0, .rfl⟩ (Nat.zero_le _) (Nat.zero_le per)

theorem result : array.NestedWithin (level + extra) ∧ array.leaves.encard ≤ total := by
  obtain ⟨count, hcount, L⟩ := W.limited
  refine ⟨L.nested, Std.le_trans L.encard_leaves_le ?_⟩
  exact_mod_cast Nat.le_trans (Nat.le_add_right _ _) hcount

end
end Within

/-! ## Fields -/

/-- A condition on what an operation returns. -/
instance decidableReturned {P : α → β → Prop} [∀ a b, Decidable (P a b)] :
    (result : Option (α × β)) → Decidable (∀ a b, result = some (a, b) → P a b)
  | none => isTrue nofun
  | some (a, b) => decidable_of_iff (P a b) ⟨fun h _ _ heq => by cases heq; exact h, fun h => h a b rfl⟩

section
variable (env : InputEnv)

/-- Every field that is inserted has room when its turn comes. -/
def PairsRoom (builder : InputArrayBuilder) (cache : ShapeCache) (array : PhpArray Value) :
    List (PhpString × PhpString) → Prop
  | [] => True
  | (name, value) :: pairs =>
    match builder.consumeVar with
    | none => True
    | some builder =>
      match parseInputKeySegments env name builder.maxInputNestingLevel with
      | none => PairsRoom builder cache array pairs
      | some segments =>
        InputRoom env array segments ∧ ∀ array' cache',
          insertInputValue env cache array segments (builder.filterValue value) =
              some (array', cache') →
            PairsRoom builder cache' array' pairs

instance PairsRoom.decidable (builder : InputArrayBuilder) (cache : ShapeCache) (array : PhpArray Value) :
    ∀ pairs, Decidable (PairsRoom env builder cache array pairs)
  | [] => isTrue trivial
  | (name, value) :: pairs => by
    have := fun builder cache array => decidable builder cache array pairs
    unfold PairsRoom
    split
    · infer_instance
    · split <;> infer_instance

def FlatPairsRoom (seen : List PhpString) (builder : InputArrayBuilder) (cache : ShapeCache)
    (array : PhpArray Value) : List (PhpString × PhpString) → Prop
  | [] => True
  | (name, value) :: pairs =>
    match builder.consumeVar with
    | none => True
    | some builder =>
      if seen.contains name then FlatPairsRoom seen builder cache array pairs
      else array.SlotRoom env.toEnv (stringKey name) ∧ ∀ old array' cache',
        array.insert env.toEnv cache (stringKey name) (builder.filterValue value) =
            some (old, array', cache') →
          FlatPairsRoom (name :: seen) builder cache' array' pairs

theorem insertPairs_within (W : Within level 0 1 total builder cache array)
    (hroom : PairsRoom env builder cache array pairs) :
    ∃ builder' array' cache', builder.insertPairs env cache array pairs =
        some (builder', array', cache') ∧ Within level 0 1 total builder' cache' array' := by
  induction pairs generalizing builder cache array with
  | nil => exact ⟨builder, array, cache, rfl, W⟩
  | cons pair pairs ih =>
    obtain ⟨name, value⟩ := pair
    rw [InputArrayBuilder.insertPairs]
    rw [PairsRoom] at hroom
    cases hconsume : builder.consumeVar with
    | none => exact ⟨builder, array, cache, rfl, W⟩
    | some next =>
      rw [hconsume] at hroom
      dsimp only at hroom ⊢
      cases hparse : parseInputKeySegments env name next.maxInputNestingLevel with
      | none =>
        rw [hparse] at hroom
        exact ih (W.skip hconsume) hroom
      | some segments =>
        rw [hparse] at hroom
        obtain ⟨hi64, hlen⟩ := parseInputKeySegments_segments env hparse
        obtain ⟨array', cache', hinsert, I⟩ :=
          insertInputAt_inserted env (next.filterValue value) W.sound rfl hi64 hroom.1
        rw [(W.skip hconsume).level_eq] at hlen
        obtain ⟨builder'', array'', cache'', hpairs, W'⟩ :=
          ih (W.step hconsume I (by omega) (Nat.le_refl 1)) (hroom.2 array' cache' hinsert)
        refine ⟨builder'', array'', cache'', ?_, W'⟩
        show (insertInputAt env cache array (next.filterValue value) segments).bind _ = _
        rw [hinsert]
        exact hpairs

theorem insertFlatPairs_within (W : Within level 0 1 total builder cache array)
    (hroom : FlatPairsRoom env seen builder cache array pairs) :
    ∃ builder' array' cache', builder.insertFlatPairs env seen cache array pairs =
        some (builder', array', cache') ∧ Within level 0 1 total builder' cache' array' := by
  induction pairs generalizing seen builder cache array with
  | nil => exact ⟨builder, array, cache, rfl, W⟩
  | cons pair pairs ih =>
    obtain ⟨name, value⟩ := pair
    rw [InputArrayBuilder.insertFlatPairs]
    rw [FlatPairsRoom] at hroom
    cases hconsume : builder.consumeVar with
    | none => exact ⟨builder, array, cache, rfl, W⟩
    | some next =>
      rw [hconsume] at hroom
      dsimp only at hroom ⊢
      simp only [List.contains_iff_mem] at hroom
      by_cases hseen : name ∈ seen
      · rw [if_pos hseen] at hroom ⊢
        exact ih (W.skip hconsume) hroom
      rw [if_neg hseen] at hroom ⊢
      obtain ⟨old, array', cache', hinsert, hext, S', -, hget⟩ :=
        W.sound.insert env.toEnv (stringKey name) (next.filterValue value) trivial hroom.1
          nofun
      have I : Inserted cache array 0 1 array' cache' :=
        ⟨hext, S', [[stringKey name]], Nat.le_refl 1, .set_scalar rfl hget⟩
      obtain ⟨builder'', array'', cache'', hpairs, W'⟩ :=
        ih (W.step hconsume I (Nat.zero_le _) (Nat.le_refl 1)) (hroom.2 old array' cache' hinsert)
      refine ⟨builder'', array'', cache'', ?_, W'⟩
      rw [hinsert]
      exact hpairs

/-! ## Uploaded files -/

/-- Every attribute of an upload has room when its turn comes. -/
def AttributesRoom (cache : ShapeCache) (group : PhpArray Value) (tail : List InputKeySegment) :
    List (PhpString × Value) → Prop
  | [] => True
  | (name, value) :: attributes =>
    InputRoom env group (.key (stringKey name) :: tail) ∧ ∀ group' cache',
      insertUploadedFileAttribute env cache group name tail value = some (group', cache') →
        AttributesRoom cache' group' tail attributes

def FileRoom (cache : ShapeCache) (array : PhpArray Value) (file : RuntimeUploadedFile) :
    List InputKeySegment → Prop
  | [] | .append :: _ => True
  | [.key rootKey] => array.SlotRoom env.toEnv rootKey
  | .key rootKey :: tail =>
    match array.get rootKey with
    | some (.array group) => AttributesRoom env cache group tail (uploadedFileAttributes file)
    | _ => array.SlotRoom env.toEnv rootKey

/-- Every uploaded file has room when its turn comes. -/
def FilesRoom (builder : InputArrayBuilder) (cache : ShapeCache) (array : PhpArray Value) :
    List RuntimeUploadedFile → Prop
  | [] => True
  | file :: files =>
    match builder.consumeVar with
    | none => True
    | some builder =>
      match parseInputKeySegments env file.fieldName builder.maxInputNestingLevel with
      | none => FilesRoom builder cache array files
      | some segments =>
        FileRoom env cache array file segments ∧ ∀ array' cache',
          insertUploadedFile env cache array file segments = some (array', cache') →
            FilesRoom builder cache' array' files

instance AttributesRoom.decidable (cache : ShapeCache) (group : PhpArray Value) (tail : List InputKeySegment) :
    ∀ attributes, Decidable (AttributesRoom env cache group tail attributes)
  | [] => isTrue trivial
  | (name, value) :: attributes => by
    have := fun cache group => decidable cache group tail attributes
    exact inferInstanceAs (Decidable (_ ∧ _))

instance FileRoom.decidable (cache : ShapeCache) (array : PhpArray Value) (file : RuntimeUploadedFile) :
    ∀ segments, Decidable (FileRoom env cache array file segments)
  | [] | .append :: _ => isTrue trivial
  | [.key rootKey] => inferInstanceAs (Decidable (array.SlotRoom env.toEnv rootKey))
  | .key rootKey :: next :: tail =>
    show Decidable (match array.get rootKey with
      | some (.array group) => AttributesRoom env cache group (next :: tail) (uploadedFileAttributes file)
      | _ => array.SlotRoom env.toEnv rootKey) from
    match array.get rootKey with
    | some (.array group) => AttributesRoom.decidable env cache group (next :: tail) _
    | none | some (.string _) | some (.int _) => PhpArray.SlotRoom.decidable env.toEnv array rootKey

instance FilesRoom.decidable (builder : InputArrayBuilder) (cache : ShapeCache) (array : PhpArray Value) :
    ∀ files, Decidable (FilesRoom env builder cache array files)
  | [] => isTrue trivial
  | file :: files => by
    have := fun builder cache array => decidable builder cache array files
    unfold FilesRoom
    split
    · infer_instance
    · split <;> infer_instance

/-- Attributes that are scalars or empty arrays are put into a small array. A key has the value that
all its attributes have. -/
theorem attributeArray_inserted (depth : Nat) (attributes : List (PhpString × Value))
    (S : Sound cache array) (hlen : array.len + attributes.length ≤ 2 ^ 32)
    (hvalues : ∀ pair ∈ attributes, pair.2.isArray = false ∨ pair.2 = .array .new ∧ 1 ≤ depth) :
    ∃ array' cache', attributeArray env cache array attributes = some (array', cache') ∧
      Inserted cache array depth (attributes.countP fun pair => !pair.2.isArray) array' cache' ∧
      ∀ k value, (∀ pair ∈ attributes, stringKey pair.1 = k → pair.2 = value) →
        (array.get k = some value ∨ ∃ pair ∈ attributes, stringKey pair.1 = k) →
          array'.get k = some value := by
  induction attributes generalizing cache array with
  | nil =>
    refine ⟨array, cache, rfl, ⟨.rfl, S, [], Nat.le_refl 0, .rfl⟩, fun k value _ h => ?_⟩
    rcases h with h | ⟨pair, hpair, -⟩
    · exact h
    · cases hpair
  | cons pair attributes ih =>
    obtain ⟨name, value⟩ := pair
    rw [List.length_cons] at hlen
    have hvalue := hvalues (name, value) List.mem_cons_self
    obtain ⟨old, array₁, cache₁, hinsert, hext, S₁, hgrown, hget⟩ :=
      S.insert env.toEnv (stringKey name) value trivial (fun _ _ _ _ _ => by omega)
        (by
          rintro child rfl
          rcases hvalue with h | ⟨h, -⟩
          · cases h
          · exact Value.array.inj h ▸ .new S.valid)
    have I : Inserted cache array depth (if !value.isArray then 1 else 0) array₁ cache₁ := by
      rcases hvalue with h | ⟨rfl, hdepth⟩
      · exact ⟨hext, S₁, [[stringKey name]], by simp [h],
          (PhpArray.Grows.set_scalar h hget).mono (Nat.zero_le depth)⟩
      · exact ⟨hext, S₁, [], Nat.zero_le _, (PhpArray.Grows.set_child (.inr rfl) hget .rfl).mono hdepth⟩
    obtain ⟨array', cache', hrest, I', hvalueAt⟩ := ih S₁ (by omega)
      fun pair hpair => hvalues pair (List.mem_cons_of_mem _ hpair)
    refine ⟨array', cache', ?_, ?_, fun k v hall h => ?_⟩
    · rw [attributeArray, hinsert]
      exact hrest
    · rw [List.countP_cons, Nat.add_comm]
      exact I.trans I'
    · refine hvalueAt k v (fun pair hpair => hall pair (List.mem_cons_of_mem _ hpair)) ?_
      rw [hget]
      by_cases hk : k = stringKey name
      · exact .inl ((if_pos hk).trans (congrArg some (hall (name, value) List.mem_cons_self hk.symm)))
      rw [if_neg hk]
      refine h.imp_right ?_
      rintro ⟨pair, hpair, hname⟩
      rcases List.mem_cons.mp hpair with rfl | hpair
      · exact absurd hname.symm hk
      · exact ⟨pair, hpair, hname⟩

theorem insertUploadedFileAttribute_eq (cache : ShapeCache) (group : PhpArray Value)
    (name : PhpString) (value : Value) (htail : tail ≠ []) :
    insertUploadedFileAttribute env cache group name tail value =
      insertInputAt env cache group value (.key (stringKey name) :: tail) := by
  rw [insertInputAt]
  · rfl
  · exact htail

/-- All attributes of one upload: each adds at most one leaf. -/
theorem insertUploadedFileAttributes_inserted (S : Sound cache group) (hi64 : SegmentsI64 tail)
    (htail : tail ≠ []) (hvalues : ∀ pair ∈ attributes, pair.2.isArray = false)
    (hroom : AttributesRoom env cache group tail attributes) :
    ∃ group' cache', insertUploadedFileAttributes env cache group tail attributes = some (group', cache') ∧
      Inserted cache group tail.length attributes.length group' cache' := by
  induction attributes generalizing cache group with
  | nil => exact ⟨group, cache, rfl, .rfl, S, [], Nat.le_refl 0, .rfl⟩
  | cons pair attributes ih =>
    obtain ⟨name, value⟩ := pair
    have hpath : SegmentsI64 (.key (stringKey name) :: tail) := by
      intro key hkey
      rcases List.mem_cons.mp hkey with hkey | hkey
      · cases hkey
        trivial
      · exact hi64 key hkey
    obtain ⟨group₁, cache₁, hinsert, I⟩ := insertInputAt_inserted env value S
      (hvalues (name, value) List.mem_cons_self) hpath hroom.1
    rw [← insertUploadedFileAttribute_eq env cache group name value htail] at hinsert
    obtain ⟨group', cache', hrest, I'⟩ := ih I.sound
      (fun pair hpair => hvalues pair (List.mem_cons_of_mem _ hpair)) (hroom.2 group₁ cache₁ hinsert)
    refine ⟨group', cache', ?_, ?_⟩
    · rw [insertUploadedFileAttributes, hinsert]
      exact hrest
    · rw [List.length_cons, Nat.add_comm]
      exact I.trans I'

theorem attributesRoom_fresh (S : Sound cache group) (hi64 : SegmentsI64 tail) (htail : tail ≠ [])
    (hvalues : ∀ pair ∈ attributes, pair.2.isArray = false) (hnames : (attributes.map Prod.fst).Nodup)
    (hfresh : ∀ pair ∈ attributes, group.get (stringKey pair.1) = some (.array .new)) :
    AttributesRoom env cache group tail attributes := by
  induction attributes generalizing cache group with
  | nil => trivial
  | cons pair attributes ih =>
    obtain ⟨name, value⟩ := pair
    have hname : group.get (stringKey name) = some (.array .new) :=
      hfresh (name, value) List.mem_cons_self
    obtain ⟨child', cache₁, hinsert, I⟩ := insertInputAt_inserted env value (Sound.new S.valid)
      (hvalues (name, value) List.mem_cons_self) hi64 (inputRoom_new env tail)
    obtain ⟨group₁, hchild, S₁, hset⟩ := S.withChild
      (fun values => insertInputAt env cache values value tail) hname hinsert I.extends_cache I.sound
    refine ⟨?_, fun group' cache' hattribute => ?_⟩
    · rw [InputRoom, hname]
      · exact inputRoom_new env tail
      · exact htail
    have hstep : insertUploadedFileAttribute env cache group name tail value =
        some (group₁, cache₁) := by
      rw [insertUploadedFileAttribute, ensureChildArray, hname]
      exact hchild
    obtain ⟨rfl, rfl⟩ := Prod.mk.inj (Option.some.inj (hstep.symm.trans hattribute))
    rw [List.map_cons, List.nodup_cons] at hnames
    refine ih S₁ (fun pair hpair => hvalues pair (List.mem_cons_of_mem _ hpair)) hnames.2
      fun pair hpair => ?_
    have hnew : name ∉ attributes.map Prod.fst := hnames.1
    have hne : stringKey pair.1 ≠ stringKey name := fun h =>
      hnew (ArrayKey.string.inj h ▸ List.mem_map_of_mem hpair)
    rw [hset, if_neg hne]
    exact hfresh pair (List.mem_cons_of_mem _ hpair)

theorem uploadedFileAttributes_scalar (file : RuntimeUploadedFile) :
    ∀ pair ∈ uploadedFileAttributes file, pair.2.isArray = false := by
  simp [uploadedFileAttributes, Value.isArray]

/-- One upload adds at most five leaves, one level below those of a field of the same name. -/
theorem insertUploadedFile_inserted (file : RuntimeUploadedFile) (S : Sound cache array)
    (hi64 : SegmentsI64 segments) (hroom : FileRoom env cache array file segments) :
    ∃ array' cache', insertUploadedFile env cache array file segments = some (array', cache') ∧
      Inserted cache array segments.length 5 array' cache' := by
  have hkept : ∀ depth, Inserted cache array depth 5 array cache := fun _ =>
    ⟨.rfl, S, [], Nat.zero_le 5, .rfl⟩
  match segments with
  | [] => exact ⟨array, cache, rfl, hkept _⟩
  | .append :: tail => exact ⟨array, cache, rfl, hkept _⟩
  | [.key rootKey] =>
    obtain ⟨entry, cache₁, hentry, I, -⟩ := attributeArray_inserted env 0
      (uploadedFileAttributes file) (Sound.new S.valid) (show 0 + 5 ≤ 2 ^ 32 by decide)
      fun pair hpair => .inl (uploadedFileAttributes_scalar file pair hpair)
    obtain ⟨old, array', cache', hinsert, hext, S', -, hget⟩ :=
      (S.mono I.sound.valid I.extends_cache).insert env.toEnv rootKey (.array entry)
        (hi64 rootKey List.mem_cons_self) hroom fun child h => Value.array.inj h ▸ I.sound
    obtain ⟨added, hadded, G⟩ := I.grows
    refine ⟨array', cache', ?_, I.extends_cache.trans hext, S', _, ?_, G.set_child (.inr rfl) hget⟩
    · rw [insertUploadedFile, uploadedFileEntry, hentry]
      simp [hinsert]
    · rw [List.length_map]
      exact Nat.le_trans hadded List.countP_le_length
  | .key rootKey :: next :: tail =>
    have htail : SegmentsI64 (next :: tail) := fun key h => hi64 key (List.mem_cons_of_mem _ h)
    have hscalar := uploadedFileAttributes_scalar file
    by_cases hgroup : ∃ group, array.get rootKey = some (.array group)
    · obtain ⟨group, hgroup⟩ := hgroup
      have hattributes : AttributesRoom env cache group (next :: tail)
          (uploadedFileAttributes file) := by
        rw [FileRoom, hgroup] at hroom
        · exact hroom
        · simp
      obtain ⟨group', cache', hinsert, I⟩ := insertUploadedFileAttributes_inserted env
        (S.child hgroup) htail (by simp) hscalar hattributes
      obtain ⟨array', hchild, I'⟩ := I.child
        (fun group => insertUploadedFileAttributes env cache group (next :: tail)
          (uploadedFileAttributes file)) S .rfl hgroup (fun _ _ => rfl) (.inl hgroup) hinsert
      refine ⟨array', cache', ?_, I'⟩
      rw [insertUploadedFile, ensureUploadedFileGroup, hgroup]
      · exact hchild
      · simp
    · rw [not_exists] at hgroup
      obtain ⟨group, cache₁, hnew, I, hempty⟩ := attributeArray_inserted env 1
        [(asciiBytes "name", .array .new), (asciiBytes "type", .array .new),
          (asciiBytes "tmp_name", .array .new), (asciiBytes "error", .array .new),
          (asciiBytes "size", .array .new)] (Sound.new S.valid) (show 0 + 5 ≤ 2 ^ 32 by decide)
        (by simp)
      have hslot : array.SlotRoom env.toEnv rootKey := by
        rw [FileRoom] at hroom
        · split at hroom
          · next group h => exact absurd h (hgroup group)
          · exact hroom
        · simp
      obtain ⟨old, array₁, cache₂, hinsert, hext, S₁, -, hget⟩ :=
        (S.mono I.sound.valid I.extends_cache).insert env.toEnv rootKey (.array group)
          (hi64 rootKey List.mem_cons_self) hslot fun child h => Value.array.inj h ▸ I.sound
      have hroot : array₁.get rootKey = some (.array group) := by rw [hget, if_pos rfl]
      have hother : ∀ k, k ≠ rootKey → array₁.get k = array.get k := fun k hk => by
        rw [hget, if_neg hk]
      have hfresh : ∀ pair ∈ uploadedFileAttributes file,
          group.get (stringKey pair.1) = some (.array .new) := by
        intro pair hpair
        refine hempty _ _ (by simp) (.inr ?_)
        simp only [uploadedFileAttributes, List.mem_cons, List.not_mem_nil, or_false] at hpair
        rcases hpair with rfl | rfl | rfl | rfl | rfl <;> simp
      obtain ⟨group', cache', hattributes, I'⟩ := insertUploadedFileAttributes_inserted env
        (S₁.child hroot) htail (by simp) hscalar
        (attributesRoom_fresh env (S₁.child hroot) htail (by simp) hscalar
          (show ([asciiBytes "name", asciiBytes "type", asciiBytes "tmp_name", asciiBytes "error",
            asciiBytes "size"] : List PhpString).Nodup by decide) hfresh)
      -- the group has grown from the empty array: first the empty attributes, then the leaves
      have hgrown : Inserted cache₂ .new (next :: tail).length 5 group' cache' := by
        obtain ⟨none, hnone, G⟩ := I.grows
        obtain ⟨added, hadded, G'⟩ := I'.grows
        refine ⟨I'.extends_cache, I'.sound, _, ?_, (G.mono (Nat.succ_le_succ (Nat.zero_le _))).trans G'⟩
        rw [List.length_append]
        exact Nat.add_le_add hnone hadded
      obtain ⟨array', hchild, I''⟩ := hgrown.child
        (fun group => insertUploadedFileAttributes env cache₂ group (next :: tail)
          (uploadedFileAttributes file)) S₁ (I.extends_cache.trans hext) hroot
        hother (.inr rfl) hattributes
      have hensure : ensureUploadedFileGroup env cache array rootKey = some (array₁, cache₂) := by
        rw [ensureUploadedFileGroup, uploadedFileGroup, hnew]
        split
        · next group h => exact absurd h (hgroup group)
        · simp [hinsert]
      refine ⟨array', cache', ?_, I''⟩
      rw [insertUploadedFile, hensure]
      · exact hchild
      · simp

theorem insertUploadedFiles_within (W : Within level 1 5 total builder cache array)
    (hroom : FilesRoom env builder cache array files) :
    ∃ builder' array' cache', insertUploadedFiles env builder cache array files = some (array', cache') ∧
      Within level 1 5 total builder' cache' array' := by
  induction files generalizing builder cache array with
  | nil => exact ⟨builder, array, cache, rfl, W⟩
  | cons file files ih =>
    rw [insertUploadedFiles]
    rw [FilesRoom] at hroom
    cases hconsume : builder.consumeVar with
    | none => exact ⟨builder, array, cache, rfl, W⟩
    | some next =>
      rw [hconsume] at hroom
      dsimp only at hroom ⊢
      cases hparse : parseInputKeySegments env file.fieldName next.maxInputNestingLevel with
      | none =>
        rw [hparse] at hroom
        exact ih (W.skip hconsume) hroom
      | some segments =>
        rw [hparse] at hroom
        obtain ⟨hi64, hlen⟩ := parseInputKeySegments_segments env hparse
        obtain ⟨array', cache', hinsert, I⟩ :=
          insertUploadedFile_inserted env file W.sound hi64 hroom.1
        rw [(W.skip hconsume).level_eq] at hlen
        obtain ⟨builder'', array'', cache'', hfiles, W'⟩ :=
          ih (W.step hconsume I hlen (Nat.le_refl 5)) (hroom.2 array' cache' hinsert)
        refine ⟨builder'', array'', cache'', ?_, W'⟩
        dsimp only
        rw [hinsert]
        exact hfiles

end

/-! ## Superglobals -/

namespace InputSuperglobal
variable (env : InputEnv) (ini : RuntimeIniOptions)

/-- Every insertion of the build has room. -/
def Room (cache : ShapeCache) (request : RuntimeHttpRequest) : InputSuperglobal → Prop
  | .get => PairsRoom env (.new ini) cache .new request.parsedGet
  | .post => PairsRoom env (.new ini) cache .new request.parsedPost
  | .request =>
    PairsRoom env (.new ini) cache .new request.parsedGet ∧
      ∀ builder array cache', (InputArrayBuilder.new ini).insertPairs env cache .new
          request.parsedGet = some (builder, array, cache') →
        PairsRoom env builder cache' array request.parsedPost ∧
          ∀ builder' array' cache'', builder.insertPairs env cache' array request.parsedPost =
              some (builder', array', cache'') →
            FlatPairsRoom env [] builder' cache'' array' request.parsedCookie
  | .files => FilesRoom env (.new ini) cache .new request.uploadedFiles

/-- The levels that the attributes of uploads add. -/
def extraLevels : InputSuperglobal → Nat
  | .files => 1
  | _ => 0

/-- The leaves of one variable. -/
def leavesPerVar : InputSuperglobal → Nat
  | .files => 5
  | _ => 1

theorem build_get (hcache : cache.Valid) (hroom : PairsRoom env (.new ini) cache .new pairs) :
    ∃ array cache', inputPairsArray env ini cache pairs = some (array, cache') ∧
      array.NestedWithin (ini.maxInputNestingLevel + 0) ∧
      array.leaves.encard ≤ (1 * ini.maxInputVars : Nat) := by
  obtain ⟨builder, array, cache', hpairs, W⟩ := insertPairs_within env (.new 0 1 ini hcache) hroom
  refine ⟨array, cache', ?_, W.result⟩
  rw [inputPairsArray, hpairs]
  rfl

/-- Whenever every insertion has room, the build returns and keeps its limits. -/
theorem build_within_limits (superglobal : InputSuperglobal) (cache : ShapeCache)
    (request : RuntimeHttpRequest) (hcache : cache.Valid) (hroom : superglobal.Room env ini cache request) :
    ∃ array cache', superglobal.build env ini cache request = some (array, cache') ∧
      array.NestedWithin (ini.maxInputNestingLevel + superglobal.extraLevels) ∧
      array.leaves.encard ≤ (superglobal.leavesPerVar * ini.maxInputVars : Nat) := by
  cases superglobal with
  | get | post => exact build_get env ini hcache hroom
  | request =>
    obtain ⟨hget, hroom⟩ := hroom
    obtain ⟨builder₁, array₁, cache₁, hpairs₁, W₁⟩ :=
      insertPairs_within env (.new 0 1 ini hcache) hget
    obtain ⟨hpost, hroom⟩ := hroom builder₁ array₁ cache₁ hpairs₁
    obtain ⟨builder₂, array₂, cache₂, hpairs₂, W₂⟩ := insertPairs_within env W₁ hpost
    obtain ⟨builder₃, array₃, cache₃, hpairs₃, W₃⟩ :=
      insertFlatPairs_within env W₂ (hroom builder₂ array₂ cache₂ hpairs₂)
    refine ⟨array₃, cache₃, ?_, W₃.result⟩
    simp only [build, requestArray, hpairs₁, hpairs₂, hpairs₃, bind_eq_bind, bind_some, pure_def]
  | files =>
    obtain ⟨builder, array, cache', hfiles, W⟩ :=
      insertUploadedFiles_within env (.new 1 5 ini hcache) hroom
    exact ⟨array, cache', hfiles, W.result⟩

theorem mem_leaves_of_isArray {build : Option (PhpArray Value × ShapeCache)}
    (hbuild : build = some (array, cache))
    (h : (build.bind fun result => (Value.array result.1).lookup path).map Value.isArray =
      some false) : path ∈ array.leaves := by
  rw [hbuild, map_eq_some_iff] at h
  exact h

/-- A field `a` that becomes an array, and a file `f` beside files `f[]`. -/
def formRequest : RuntimeHttpRequest where
  parsedGet := [(asciiBytes "a", asciiBytes "x"), (asciiBytes "a[b]", asciiBytes "y"),
    (asciiBytes "a[][c]", asciiBytes "z")]
  parsedPost := []
  parsedCookie := []
  uploadedFiles := [⟨asciiBytes "f", [], [], [], 0, 0⟩, ⟨asciiBytes "f[]", [], [], [], 0, 7⟩]

theorem build_within_limits_form :
    (∃ array cache', get.build .plain ⟨3, 2, .unsafeRaw, 0⟩ .empty formRequest = some (array, cache') ∧
      array.NestedWithin 2 ∧ array.leaves.encard ≤ (3 : Nat) ∧
      [.string [97], .string [98]] ∈ array.leaves ∧ [.string [97], .int 0, .string [99]] ∈ array.leaves) ∧
    ∃ array cache', files.build .plain ⟨2, 1, .unsafeRaw, 0⟩ .empty formRequest = some (array, cache') ∧
      array.NestedWithin 2 ∧ array.leaves.encard ≤ (10 : Nat) ∧
      [.string [102], .string (asciiBytes "size"), .int 0] ∈ array.leaves := by
  have hget : get.Room .plain ⟨3, 2, .unsafeRaw, 0⟩ .empty formRequest := by
    unfold Room
    decide +kernel
  have hfiles : files.Room .plain ⟨2, 1, .unsafeRaw, 0⟩ .empty formRequest := by
    unfold Room
    decide +kernel
  obtain ⟨array, cache', hbuild, hnested, hleaves⟩ := build_within_limits _ _ get .empty _ .empty hget
  obtain ⟨array', cache'', hbuild', hnested', hleaves'⟩ := build_within_limits _ _ files .empty _ .empty hfiles
  exact ⟨⟨array, cache', hbuild, hnested, hleaves, mem_leaves_of_isArray hbuild (by decide +kernel),
    mem_leaves_of_isArray hbuild (by decide +kernel)⟩,
    array', cache'', hbuild', hnested', hleaves', mem_leaves_of_isArray hbuild' (by decide +kernel)⟩

/-- The fields `a[9223372036854775807]=x` and `a[][b]=y` panic: the second one finds the largest key
in use and no array there. One uploaded file, with room for one variable and no nesting, is an array
of five leaves. -/
theorem not_build_within_limits :
    get.build .plain ⟨1000, 64, .unsafeRaw, 0⟩ .empty ⟨[(asciiBytes "a[9223372036854775807]", asciiBytes "x"),
          (asciiBytes "a[][b]", asciiBytes "y")], [], [], []⟩ = none ∧
      ∃ array cache', files.build .plain ⟨1, 0, .unsafeRaw, 0⟩ .empty
          ⟨[], [], [], [⟨asciiBytes "f", [], [], [], 0, 0⟩]⟩ = some (array, cache') ∧
        ¬array.NestedWithin 0 ∧ ¬array.leaves.encard ≤ (1 : Nat) := by
  refine ⟨isNone_iff_eq_none.mp (by decide +kernel), ?_⟩
  cases hbuild : files.build .plain ⟨1, 0, .unsafeRaw, 0⟩ .empty
      ⟨[], [], [], [⟨asciiBytes "f", [], [], [], 0, 0⟩]⟩ with
  | none =>
    have hsome : (files.build .plain ⟨1, 0, .unsafeRaw, 0⟩ .empty
      ⟨[], [], [], [⟨asciiBytes "f", [], [], [], 0, 0⟩]⟩).isSome = true := by decide +kernel
    rw [hbuild] at hsome
    cases hsome
  | some result =>
    obtain ⟨array, cache'⟩ := result
    have hname : [.string [102], .string (asciiBytes "name")] ∈ array.leaves :=
      mem_leaves_of_isArray hbuild (by decide +kernel)
    have htype : [.string [102], .string (asciiBytes "type")] ∈ array.leaves :=
      mem_leaves_of_isArray hbuild (by decide +kernel)
    refine ⟨array, cache', rfl, fun hnested => ?_, ?_⟩
    · obtain ⟨value, hlookup, -⟩ := hname
      rw [Value.lookup] at hlookup
      cases hget : array.get (.string [102]) with
      | none => rw [hget] at hlookup; cases hlookup
      | some child =>
        rw [hget] at hlookup
        cases child with
        | array entry =>
          exact absurd (hnested [.string [102]] entry (by rw [Value.lookup, hget]; rfl)) (by decide)
        | _ => cases hlookup
    · rw [not_le, Nat.cast_one, Set.one_lt_encard_iff]
      exact ⟨_, _, hname, htype, by decide⟩

end InputSuperglobal
end Phrust
