import Phrust.Vm.ClassTables

/-!
# Class membership is ancestry

The two ancestry queries against reachability over the declarations a request sees, in every run of
declarations, unit switches and queries that leaves the cached ancestries valid.
-/

namespace Phrust
open List Option

/-! ## Normalized names -/

theorem toAsciiLowercase_idem (byte : UInt8) :
    toAsciiLowercase (toAsciiLowercase byte) = toAsciiLowercase byte := by
  grind [toAsciiLowercase]

theorem toAsciiLowercase_ne_backslash (h : byte ≠ 92) : toAsciiLowercase byte ≠ 92 := by
  grind [toAsciiLowercase]

theorem normalizeClassName_idem (name : PhpString) :
    normalizeClassName (normalizeClassName name) = normalizeClassName name := by
  have hdrop : ((name.dropWhile (· == 92)).map toAsciiLowercase).dropWhile (· == 92) =
      (name.dropWhile (· == 92)).map toAsciiLowercase := by
    cases hrest : name.dropWhile (· == 92) with
    | nil => rfl
    | cons byte rest =>
      have hbyte := head?_dropWhile_not (· == (92 : UInt8)) name
      rw [hrest] at hbyte
      refine dropWhile_cons_of_neg fun h => ?_
      exact toAsciiLowercase_ne_backslash (ne_of_beq_false (by simpa using hbyte)) (eq_of_beq h)
  rw [normalizeClassName, normalizeClassName, hdrop, List.map_map]
  exact map_congr_left fun byte _ => toAsciiLowercase_idem byte

/-! ## What the declarations say -/

namespace ClassTables
variable (internal : List ClassEntry)

section
variable (tables : ClassTables) (name : PhpString)

/-- The class or interface a written name denotes. -/
def denote : PhpString :=
  tables.resolveAlias (normalizeClassName name)

/-- The unit that has published a class. -/
def publishedUnit : Option Nat :=
  (tables.externalClassUnits.get name).or (if tables.deploymentClasses name then some 0 else none)

end

/-- The declarations that a request sees. Of the running unit a conditional class is seen once its declaration
has run. -/
inductive Visible (tables : ClassTables) : ClassEntry → Prop
  | active (hmem : entry ∈ tables.active.classes)
      (hdeclared : entry.isConditional = true → tables.classIsVisible entry.name = true) : Visible tables entry
  | published (hunit : tables.publishedUnit entry.name = some unit)
      (hclasses : tables.dynamicUnits[unit]? = some classes) (hmem : entry ∈ classes) : Visible tables entry
  | internal (hmem : entry ∈ internal) : Visible tables entry

/-- A name is that of the parent or of an interface of a class, aliases resolved. -/
def Supertype (tables : ClassTables) (name other : PhpString) : Prop :=
  ∃ entry, tables.Visible internal entry ∧ entry.name = name ∧ ∃ w ∈ entry.written, tables.denote w = other

/-- Ancestry: zero or more parent and interface steps. -/
def IsA (tables : ClassTables) : PhpString → PhpString → Prop := Relation.ReflTransGen (tables.Supertype internal)

def internalSupertypes (name : PhpString) : List PhpString :=
  match findClass internal name with
  | some entry => entry.written.map normalizeClassName
  | none => []

/-- The metadata of the internal classes gives `ArrayIterator` its interfaces. -/
def ArrayIteratorMetadata : Prop :=
  Reaches (internalSupertypes internal) arrayIteratorName iteratorName ∧
    Reaches (internalSupertypes internal) arrayIteratorName traversableName

/-- No alias takes part in a query, and under every name that the query meets there is one declaration at most and
no conditional class of the running unit whose declaration has not run. -/
structure Plain (tables : ClassTables) (className target : PhpString) : Prop where
  className_free : tables.classAliases.get (normalizeClassName className) = none
  target_free : tables.classAliases.get (normalizeClassName target) = none
  written_free {entry : ClassEntry} : tables.Visible internal entry →
    tables.IsA internal (normalizeClassName className) entry.name →
    ∀ other ∈ entry.written, tables.classAliases.get (normalizeClassName other) = none
  unique {entry other : ClassEntry} : tables.Visible internal entry → tables.Visible internal other →
    tables.IsA internal (normalizeClassName className) entry.name → entry.name = other.name → entry = other
  declared {entry : ClassEntry} : entry ∈ tables.active.classes →
    tables.IsA internal (normalizeClassName className) entry.name → entry.isConditional = true →
    tables.classIsVisible entry.name = true

variable {internal} {tables tables' : ClassTables} {className target name : PhpString}

theorem denote_eq (h : tables.classAliases.get (normalizeClassName name) = none) :
    tables.denote name = normalizeClassName name := by
  rw [denote, resolveAlias, h, getD_none]

theorem findClass_eq (h : findClass classes name = some entry) : entry ∈ classes ∧ entry.name = name :=
  ⟨mem_of_find?_eq_some h, by simpa using find?_some h⟩

theorem findClass_isSome (hmem : entry ∈ classes) (hname : entry.name = name) :
    (findClass classes name).isSome := find?_isSome.mpr ⟨entry, hmem, beq_iff_eq.mpr hname⟩

/-! ## What the queries look at -/

theorem externalClassHandle_le (h : tables.externalClassHandle name = some entry) :
    tables.nativeExternalClassRef name = some entry := by
  simp only [externalClassHandle, nativeExternalClassRef, bind_eq_bind] at h ⊢
  cases hunit : tables.externalClassUnits.get (tables.resolveAlias (normalizeClassName name)) with
  | none => rw [hunit] at h; cases h
  | some unit => rw [hunit] at h; exact h

section
variable (h : tables.Plain internal className target)
include h

section
variable (hname : tables.IsA internal (normalizeClassName className) name)
include hname

/-- Every name a plain query meets is normalized and no alias. -/
theorem Plain.isA_free : normalizeClassName name = name ∧ tables.classAliases.get name = none := by
  induction hname with
  | refl => exact ⟨normalizeClassName_idem className, h.className_free⟩
  | tail hb hc _ =>
    obtain ⟨entry, hvisible, rfl, written, hwritten, rfl⟩ := hc
    have hfree := h.written_free hvisible hb written hwritten
    rw [denote_eq hfree]
    exact ⟨normalizeClassName_idem written, hfree⟩

theorem Plain.active (hfind : findClass tables.active.classes name = some entry) :
    tables.Visible internal entry ∧ entry.name = name := by
  obtain ⟨hmem, rfl⟩ := findClass_eq hfind
  exact ⟨.active hmem (h.declared hmem hname), rfl⟩

theorem Plain.elsewhere (hfind : tables.nativeExternalClassRef name = some entry) :
    tables.Visible internal entry ∧ entry.name = name := by
  obtain ⟨hnorm, hfree⟩ := h.isA_free hname
  simp only [nativeExternalClassRef, hnorm, resolveAlias, hfree, getD_none, bind_eq_bind, bind_eq_some_iff] at hfind
  obtain ⟨unit, hunit, hfind⟩ := hfind
  split at hfind
  · cases hfind
  · obtain ⟨classes, hclasses, hfind⟩ := bind_eq_some_iff.mp hfind
    obtain ⟨hmem, rfl⟩ := findClass_eq hfind
    exact ⟨.published hunit hclasses hmem, rfl⟩

/-- The worklist finds the visible declaration. -/
theorem Plain.candidateClass_iff : tables.candidateClass internal name = some entry ↔
    tables.Visible internal entry ∧ entry.name = name := by
  have hfound {entry : ClassEntry} (hentry : tables.candidateClass internal name = some entry) :
      tables.Visible internal entry ∧ entry.name = name := by
    rcases or_eq_some_iff.mp hentry with hfind | ⟨-, hfind⟩
    · rcases or_eq_some_iff.mp hfind with hfind | ⟨-, hfind⟩
      · exact h.active hname hfind
      · exact h.elsewhere hname hfind
    · exact (findClass_eq hfind).imp_left .internal
  refine ⟨hfound, fun ⟨hvisible, heq⟩ => ?_⟩
  have hsome : (tables.candidateClass internal name).isSome := by
    obtain ⟨hnorm, hfree⟩ := h.isA_free hname
    rw [candidateClass, isSome_or, isSome_or, Bool.or_eq_true, Bool.or_eq_true]
    cases hvisible with
    | active hmem => exact .inl (.inl (findClass_isSome hmem heq))
    | internal hmem => exact .inr (findClass_isSome hmem heq)
    | @published unit classes _ hunit hclasses hmem =>
      refine .inl ?_
      by_cases hcurrent : tables.active.dynamicUnit = some unit
      · -- the running unit is skipped here, but its classes are looked up first
        cases hclasses.symm.trans (tables.consistent _ mem_cons_self unit hcurrent)
        exact .inl (findClass_isSome hmem heq)
      · subst heq
        simp only [nativeExternalClassRef, hnorm, resolveAlias, hfree, getD_none]
        rw [publishedUnit] at hunit
        simp only [hunit, bind_eq_bind, bind_some, hcurrent, if_false, hclasses]
        exact .inr (findClass_isSome hmem rfl)
  obtain ⟨other, hother⟩ := isSome_iff_exists.mp hsome
  obtain ⟨hvisible', heq'⟩ := hfound hother
  subst heq
  rw [hother, h.unique hvisible hvisible' hname heq'.symm]

theorem Plain.mem_ancestrySuccessors :
    other ∈ tables.ancestrySuccessors internal name ↔ tables.Supertype internal name other := by
  have hiff {entry : ClassEntry} : tables.candidateClass internal name = some entry ↔ _ := h.candidateClass_iff hname
  rw [ancestrySuccessors]
  cases hentry : tables.candidateClass internal name with
  | none =>
    refine iff_of_false not_mem_nil fun ⟨entry, hvisible, heq, _⟩ => ?_
    cases hentry.symm.trans (hiff.mpr ⟨hvisible, heq⟩)
  | some entry =>
    obtain ⟨hvisible, rfl⟩ := hiff.mp hentry
    have hdenote {w : PhpString} (hw : w ∈ entry.written) : tables.denote w = normalizeClassName w :=
      denote_eq (h.written_free hvisible hname w hw)
    simp only [mem_reverse, List.mem_map]
    constructor
    · rintro ⟨w, hw, rfl⟩
      exact ⟨entry, hvisible, rfl, w, hw, hdenote hw⟩
    · rintro ⟨entry', hvisible', heq, w, hw, rfl⟩
      cases h.unique hvisible hvisible' hname heq.symm
      exact ⟨w, hw, (hdenote hw).symm⟩

/-- The capability query sees the same declaration wherever it sees one. -/
theorem Plain.mem_handleSuccessors (hnodes : tables.handleSuccessors internal name = some nodes) :
    other ∈ nodes ↔ other ∈ tables.ancestrySuccessors internal name := by
  obtain ⟨entry, hentry, rfl⟩ := map_eq_some_iff.mp hnodes
  obtain ⟨hnorm, hfree⟩ := h.isA_free hname
  have hvisible : tables.Visible internal entry ∧ entry.name = name := by
    rw [classHandle, hnorm] at hentry
    rcases or_eq_some_iff.mp hentry with hfind | ⟨-, hfind⟩
    · rcases or_eq_some_iff.mp hfind with hfind | ⟨-, hfind⟩
      · exact h.active hname hfind
      · exact h.elsewhere hname (externalClassHandle_le hfind)
    · exact (findClass_eq hfind).imp_left .internal
  rw [ancestrySuccessors, (h.candidateClass_iff hname).mpr hvisible, mem_reverse]

/-- An ancestor by the metadata is an ancestor, since nothing replaces an internal class. -/
theorem Plain.isA_internal (hr : Reaches (internalSupertypes internal) name other) :
    tables.IsA internal (normalizeClassName className) other := by
  induction hr with
  | refl => exact hname
  | @tail b c _ hc ih =>
    rw [internalSupertypes] at hc
    cases hfound : findClass internal b with
    | none => rw [hfound] at hc; cases hc
    | some entry =>
      rw [hfound] at hc
      obtain ⟨hmem, rfl⟩ := findClass_eq hfound
      obtain ⟨w, hw, rfl⟩ := mem_map.mp hc
      exact ih.tail ⟨entry, .internal hmem, rfl, w, hw, denote_eq (h.written_free (.internal hmem) ih w hw)⟩

end

theorem Plain.reaches_iff :
    Reaches (tables.ancestrySuccessors internal) (normalizeClassName className) name ↔
      tables.IsA internal (normalizeClassName className) name :=
  Reaches.congr fun _ hb _ => h.mem_ancestrySuccessors hb

theorem Plain.isA_of_arrayIteratorQuery (hmeta : ArrayIteratorMetadata internal)
    (hname : tables.IsA internal (normalizeClassName className) name)
    (hquery : isArrayIteratorQuery name other = true) :
    tables.IsA internal (normalizeClassName className) other := by
  simp only [isArrayIteratorQuery, Bool.and_eq_true, Bool.or_eq_true, beq_iff_eq] at hquery
  obtain ⟨rfl, rfl | rfl⟩ := hquery
  · exact h.isA_internal hname hmeta.1
  · exact h.isA_internal hname hmeta.2

/-! ## The capability query -/

theorem Plain.classIsA_iff (hmeta : ArrayIteratorMetadata internal)
    (hanswer : tables.classIsA internal className target = some answer) :
    answer = true ↔ tables.IsA internal (tables.denote className) (tables.denote target) := by
  rw [denote_eq h.className_free, denote_eq h.target_free]
  have htarget : tables.resolveAlias (normalizeClassName target) = normalizeClassName target :=
    denote_eq h.target_free
  rw [classIsA, htarget] at hanswer
  cases answer with
  | true =>
    refine iff_of_true rfl ?_
    obtain ⟨x, hx, hhit⟩ := ask_true (tables.ancestrySuccessors internal)
      (fun a ha nodes hnodes b hb => (h.mem_handleSuccessors (h.reaches_iff.mp ha) hnodes).mp hb) hanswer
    have hx := h.reaches_iff.mp hx
    rcases (Bool.or_eq_true _ _).mp hhit with hhit | hhit
    · exact eq_of_beq hhit ▸ hx
    · exact h.isA_of_arrayIteratorQuery hmeta hx hhit
  | false =>
    refine iff_of_false Bool.false_ne_true fun hr => ?_
    have hmiss := ask_false (tables.ancestrySuccessors internal)
      (fun a ha nodes hnodes b hb => (h.mem_handleSuccessors (h.reaches_iff.mp ha) hnodes).mpr hb) hanswer
      (h.reaches_iff.mpr hr)
    rw [beq_self_eq_true, Bool.true_or] at hmiss
    cases hmiss

end

/-! ## The worklist always ends -/

theorem candidateClass_mem (h : tables.candidateClass internal name = some entry) :
    entry ∈ tables.active.classes ++ tables.dynamicUnits.flatten ++ internal := by
  rw [mem_append, mem_append]
  rcases or_eq_some_iff.mp h with h | ⟨-, h⟩
  · rcases or_eq_some_iff.mp h with h | ⟨-, h⟩
    · exact .inl (.inl (mem_of_find?_eq_some h))
    simp only [nativeExternalClassRef, bind_eq_bind, bind_eq_some_iff] at h
    obtain ⟨unit, -, h⟩ := h
    split at h
    · cases h
    · obtain ⟨classes, hclasses, h⟩ := bind_eq_some_iff.mp h
      refine .inl (.inr (mem_flatten.mpr ⟨classes, ?_, mem_of_find?_eq_some h⟩))
      exact mem_of_getElem? hclasses
  · exact .inr (mem_of_find?_eq_some h)

theorem ancestrySuccessors_subset :
    ∀ other ∈ tables.ancestrySuccessors internal name, other ∈ tables.mentionedNames internal := by
  intro other hother
  rw [ancestrySuccessors] at hother
  cases hentry : tables.candidateClass internal name with
  | none => rw [hentry] at hother; cases hother
  | some entry =>
    rw [hentry] at hother
    exact mem_flatMap.mpr ⟨entry, candidateClass_mem hentry, mem_reverse.mp hother⟩

theorem length_ancestrySuccessors_le :
    (tables.ancestrySuccessors internal name).length ≤ (tables.mentionedNames internal).length := by
  rw [ancestrySuccessors]
  cases hentry : tables.candidateClass internal name with
  | none => exact Nat.zero_le _
  | some entry =>
    rw [length_reverse, mentionedNames, flatMap_def]
    refine (sublist_flatten_of_mem ?_).length_le
    exact mem_map_of_mem (f := fun entry : ClassEntry => entry.written.map normalizeClassName)
      (candidateClass_mem hentry)

variable (internal tables className) in
theorem search_ancestry_isSome :
    (search (tables.ancestrySuccessors internal) (tables.ancestryFuel internal) [className] []).isSome := by
  refine search_isSome (className :: tables.mentionedNames internal)
    (tables.mentionedNames internal).length ?_ ?_ ?_ ?_
  · exact fun a b hb => mem_cons_of_mem _ (ancestrySuccessors_subset b hb)
  · exact fun a => length_ancestrySuccessors_le
  · exact fun a ha => mem_singleton.mp ha ▸ mem_cons_self
  · refine Nat.lt_of_le_of_lt (Nat.add_le_add_left (Nat.mul_le_mul_right _ countP_le_length) _) ?_
    rw [ancestryFuel, length_singleton, length_cons]
    omega

/-! ## The ancestry cache -/

variable (internal) in
/-- The ancestries cached for the current epoch are what the worklist would find now, and none is
cached for an epoch to come. -/
structure CacheSound (tables : ClassTables) : Prop where
  past : ∀ epoch name ancestry, tables.runtimeClassAncestryCache.get (epoch, name) = some ancestry →
    epoch ≤ tables.externalSignatureEpoch
  current : ∀ name ancestry,
    tables.runtimeClassAncestryCache.get (tables.externalSignatureEpoch, name) = some ancestry →
    ∀ x, x ∈ ancestry ↔ Reaches (tables.ancestrySuccessors internal) name x

theorem CacheSound.of_empty (h : ∀ key, tables.runtimeClassAncestryCache.get key = none) :
    tables.CacheSound internal where
  past _ _ _ hget := by rw [h] at hget; cases hget
  current _ _ hget := by rw [h] at hget; cases hget

theorem CacheSound.insert (h : tables.CacheSound internal)
    (hvisited : ∀ x, x ∈ visited ↔ Reaches (tables.ancestrySuccessors internal) name x) :
    CacheSound internal { tables with runtimeClassAncestryCache :=
        tables.runtimeClassAncestryCache.insert (tables.externalSignatureEpoch, name) visited } where
  past epoch other ancestry hget := by
    rw [StableKeyMap.get_insert] at hget
    split at hget
    · next hkey => exact Nat.le_of_eq (Prod.mk.inj hkey).1
    · exact h.past epoch other ancestry hget
  current other ancestry hget := by
    rw [StableKeyMap.get_insert] at hget
    split at hget
    · next hkey =>
      cases hget
      exact (Prod.mk.inj hkey).2 ▸ hvisited
    · exact h.current other ancestry hget

theorem CacheSound.nativeClassIsA (h : tables.CacheSound internal) (className target : PhpString) :
    ∃ answer tables', tables.nativeClassIsA internal className target = some (answer, tables') ∧
      tables'.CacheSound internal ∧ (answer = true ↔
        isArrayIteratorQuery (normalizeClassName className) (normalizeClassName target) = true ∨
        Reaches (tables.ancestrySuccessors internal) (normalizeClassName className)
          (normalizeClassName target)) := by
  rw [ClassTables.nativeClassIsA]
  cases hquery :
      isArrayIteratorQuery (normalizeClassName className) (normalizeClassName target) with
  | true => exact ⟨true, tables, rfl, h, by simp⟩
  | false =>
    cases hcached : tables.runtimeClassAncestryCache.get
        (tables.externalSignatureEpoch, normalizeClassName className) with
    | some ancestry =>
      refine ⟨ancestry.contains (normalizeClassName target), tables, ?_, h, ?_⟩
      · simp [hcached]
      · rw [contains_iff_mem, h.current _ ancestry hcached]
        simp
    | none =>
      obtain ⟨visited, hvisited⟩ := isSome_iff_exists.mp
        (search_ancestry_isSome internal tables (normalizeClassName className))
      refine ⟨visited.contains (normalizeClassName target), _, ?_,
        h.insert fun x => mem_search_iff hvisited, ?_⟩
      · simp only [hcached, hvisited, Bool.false_eq_true, if_false]
        rfl
      · rw [contains_iff_mem, mem_search_iff hvisited]
        simp

variable (internal) in
/-- Every name in a cached ancestry of the current epoch finds the same declaration afterwards. -/
def SameLookups (tables tables' : ClassTables) : Prop :=
  ∀ name ancestry,
    tables.runtimeClassAncestryCache.get (tables.externalSignatureEpoch, name) = some ancestry →
    ∀ x ∈ ancestry, tables'.candidateClass internal x = tables.candidateClass internal x

theorem CacheSound.of_step (h : tables.CacheSound internal)
    (hcache : tables'.runtimeClassAncestryCache = tables.runtimeClassAncestryCache)
    (hepoch : tables.externalSignatureEpoch < tables'.externalSignatureEpoch ∨
      tables.externalSignatureEpoch = tables'.externalSignatureEpoch ∧ tables.SameLookups internal tables') :
    tables'.CacheSound internal := by
  constructor
  · intro epoch name ancestry hget
    rw [hcache] at hget
    have hpast := h.past epoch name ancestry hget
    omega
  · intro name ancestry hget x
    rw [hcache] at hget
    rcases hepoch with hlt | ⟨heq, hsame⟩
    · have hpast := h.past _ name ancestry hget
      omega
    rw [← heq] at hget
    have hancestry := h.current name ancestry hget
    rw [hancestry x]
    refine (Reaches.congr fun b hb c => ?_).symm
    rw [ancestrySuccessors, ancestrySuccessors, hsame name ancestry hget b ((hancestry b).mpr hb)]

/-! ## Runs -/

theorem candidateClass_congr (hactive : tables'.active = tables.active)
    (href : tables'.nativeExternalClassRef name = tables.nativeExternalClassRef name) :
    tables'.candidateClass internal name = tables.candidateClass internal name := by
  rw [candidateClass, candidateClass, hactive, href]

/-- A unit sees its own classes before their declaration runs, so declaring one changes nothing for
that unit. -/
theorem declareClass_candidateClass (declared : PhpString) :
    (tables.declareClass declared).candidateClass internal name = tables.candidateClass internal name := by
  rw [declareClass]
  split
  · rfl
  · next entry _ =>
    dsimp only
    split
    · rfl
    · next hnew =>
      simp only [classIsVisible, Bool.or_eq_true, not_or, Bool.not_eq_true, isSome_eq_false_iff, isNone_iff_eq_none] at hnew
      refine candidateClass_congr rfl ?_
      simp only [nativeExternalClassRef, resolveAlias, get_declareExternal]
      split
      · next heq =>
        simp only [heq, hnew.2, hnew.1.1, or_none, Bool.false_eq_true, if_false]
        exact bind_eq_none_iff.mpr fun unit hunit => if_pos hunit
      · rfl

theorem declareClass_cache (tables : ClassTables) (declared : PhpString) :
    (tables.declareClass declared).runtimeClassAncestryCache = tables.runtimeClassAncestryCache ∧
      (tables.declareClass declared).externalSignatureEpoch = tables.externalSignatureEpoch := by
  rw [declareClass]
  split
  · exact ⟨rfl, rfl⟩
  · dsimp only
    split <;> exact ⟨rfl, rfl⟩

/-- A registered unit without classes changes no lookup: the tables name only older units. -/
theorem register_nil_candidateClass (compiled : List ClassEntry) (exportsFunctions : Bool) :
    (tables.register compiled exportsFunctions []).candidateClass internal name =
      tables.candidateClass internal name := by
  refine candidateClass_congr rfl ?_
  simp only [register, any_nil, Bool.false_eq_true, if_false, foldl_nil,
    nativeExternalClassRef, resolveAlias, bind_eq_bind]
  refine bind_congr fun unit hunit => ?_
  have hlt : unit < tables.dynamicUnits.length := by
    rcases or_eq_some_iff.mp hunit with h | ⟨-, h⟩
    · exact tables.external_lt _ unit h
    split at h
    · next hdeployed =>
      cases h
      exact tables.deployment_lt _ hdeployed
    · cases h
  rw [getElem?_append_left hlt]

variable (internal) in
/-- The condition on a step. A unit with classes is registered before the epoch counter is
exhausted, and a switch to another unit leaves the lookups of the cached ancestries as they are. -/
def FreshStep (tables : ClassTables) : ClassOp → Prop
  | .query _ _ | .declareClass _ => True
  | .register _ _ classes => classes = [] ∨ tables.externalSignatureEpoch < u64Max
  | .activate unit => tables.SameLookups internal (tables.activate unit)
  | .deactivate => tables.SameLookups internal tables.deactivate

variable (internal) in
/-- Every step of a run meets the condition. -/
def FreshRun (tables : ClassTables) : List ClassOp → Prop
  | [] => True
  | op :: ops => tables.FreshStep internal op ∧ FreshRun (tables.step internal op) ops

theorem le_bumpEpoch (epoch : Nat) : epoch ≤ bumpEpoch epoch := by
  rw [bumpEpoch]
  split <;> omega

section
variable (h : tables.CacheSound internal)
include h

theorem CacheSound.register (hfresh : classes = [] ∨ tables.externalSignatureEpoch < u64Max) :
    (tables.register compiled exportsFunctions classes).CacheSound internal := by
  cases classes with
  | nil =>
    have hle : tables.externalSignatureEpoch ≤
        (tables.register compiled exportsFunctions []).externalSignatureEpoch := by
      cases exportsFunctions with
      | false => exact Nat.le_refl _
      | true => exact le_bumpEpoch _
    refine h.of_step rfl ((Nat.lt_or_eq_of_le hle).imp_right fun heq => ⟨heq, ?_⟩)
    exact fun _ _ _ _ _ => register_nil_candidateClass compiled exportsFunctions
  | cons first classes =>
    have hlt := hfresh.resolve_left (cons_ne_nil first classes)
    rw [ClassTables.register]
    split
    · exact h
    · refine h.of_step rfl (.inl ?_)
      simp [bumpEpoch, hlt]

theorem CacheSound.activate (hfresh : tables.SameLookups internal (tables.activate unit)) :
    (tables.activate unit).CacheSound internal := by
  rw [ClassTables.activate] at hfresh ⊢
  split at hfresh
  · exact h
  · exact h.of_step rfl (.inr ⟨rfl, hfresh⟩)

theorem CacheSound.deactivate (hfresh : tables.SameLookups internal tables.deactivate) :
    tables.deactivate.CacheSound internal := by
  rw [ClassTables.deactivate] at hfresh ⊢
  split at hfresh
  · exact h
  · exact h.of_step rfl (.inr ⟨rfl, hfresh⟩)

theorem CacheSound.step (hfresh : tables.FreshStep internal op) :
    (tables.step internal op).CacheSound internal := by
  cases op with
  | query className target =>
    obtain ⟨answer, tables', hquery, hsound, -⟩ := h.nativeClassIsA className target
    rw [ClassTables.step, hquery]
    exact hsound
  | register compiled exportsFunctions classes => exact h.register hfresh
  | declareClass name =>
    obtain ⟨hcache, hepoch⟩ := declareClass_cache tables name
    refine h.of_step hcache (.inr ⟨hepoch.symm, ?_⟩)
    exact fun _ _ _ _ _ => declareClass_candidateClass name
  | activate unit => exact h.activate hfresh
  | deactivate => exact h.deactivate hfresh

theorem CacheSound.run (hfresh : tables.FreshRun internal ops) :
    (tables.run internal ops).CacheSound internal := by
  induction ops generalizing tables with
  | nil => exact h
  | cons op ops ih => exact ih (h.step hfresh.1) hfresh.2

end

/-- Enough of the internal classes for the metadata. -/
def iteratorClasses : List ClassEntry :=
  [⟨arrayIteratorName, none, [iteratorName], false, by decide⟩,
    ⟨iteratorName, none, [traversableName], false, by decide⟩]

theorem iteratorClasses_metadata : ArrayIteratorMetadata iteratorClasses := by
  have hiterator : Reaches (internalSupertypes iteratorClasses) arrayIteratorName iteratorName :=
    Reaches.step .refl (by decide)
  exact ⟨hiterator, hiterator.step (by decide)⟩

/-- `if (…) { class y extends b {} }` -/
def conditionalEntry : ClassEntry := ⟨[121], some [98], [], true, by decide⟩

/-- A main unit without classes, and an included unit whose class is declared when its code runs. -/
def conditionalClass : ClassTables where
  active := ⟨[], none⟩
  suspended := []
  dynamicUnits := [[conditionalEntry]]
  externalClassUnits := .empty
  deploymentClasses _ := false
  dynamicClasses _ := false
  classAliases := .empty
  externalSignatureEpoch := 0
  runtimeClassAncestryCache := .empty
  consistent unit hunit index hindex := by
    cases mem_singleton.mp hunit
    cases hindex
  external_lt _ _ h := nomatch h
  deployment_lt _ h := nomatch h

/-- The included unit runs and declares its class. -/
def declareConditional : List ClassOp := [.activate 0, .declareClass [121], .deactivate]

theorem conditionalClass_visible (h : (conditionalClass.run iteratorClasses declareConditional).Visible
    iteratorClasses entry) (hname : entry.name = [98] ∨ entry.name = [121]) : entry = conditionalEntry := by
  have hinternal : ∀ entry ∈ iteratorClasses, entry.name ≠ [98] ∧ entry.name ≠ [121] := by decide
  cases h with
  | active hmem => cases hmem
  | published _ hclasses hmem =>
    cases mem_singleton.mp (mem_of_getElem? hclasses)
    exact mem_singleton.mp hmem
  | internal hmem => exact absurd hname (not_or.mpr (hinternal entry hmem))

theorem conditionalClass_isA (h : (conditionalClass.run iteratorClasses declareConditional).IsA
    iteratorClasses [121] name) : name = [98] ∨ name = [121] := by
  induction h with
  | refl => exact .inr rfl
  | tail _ hc ih =>
    obtain ⟨entry, hvisible, rfl, w, hw, rfl⟩ := hc
    cases conditionalClass_visible hvisible ih
    cases mem_singleton.mp hw
    exact .inl rfl

end ClassTables
end Phrust
