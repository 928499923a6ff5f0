import Mathlib.Data.List.Flatten
import Phrust.Theory.IndexedEdits
import Phrust.Verify.NativeComparison
import Phrust.Vm.NativeSort

/-!
# Native sorting is stable and in place

A failed sort leaves the plane as it was. A sort that succeeds leaves every slot as it was except those
of the sorted arrays and of their keys: `Owned` says that each key of an array owns its slot, so that
keys can be released one after the other while the others are still read.
-/

namespace Phrust
open List SortPlan Option Nat

/-! ## Owners -/

/-- What the slots of array keys hold. -/
def DirectView.IsKey : DirectView F → Prop
  | .int _ | .string _ => True
  | _ => False

namespace DirectPlane
variable {plane plane' plane'' : DirectPlane F} {words words' : List Int} {indexes : List Nat}

/-- Each word is no runtime value, or a key in a slot that counts all words for it. -/
def Owned (plane : DirectPlane F) (words : List Int) : Prop :=
  ∀ word ∈ words, jitDecodeRuntimeValue word = none ∨
    ∃ index slot, directValueIndex word = some index ∧ plane.slots[index]? = some slot ∧ slot.view.IsKey ∧
      words.countP (directValueIndex · == some index) ≤ slot.refcount

theorem directValueIndex_of_not_runtime (h : jitDecodeRuntimeValue word = none) :
    directValueIndex word = none := by
  rw [directValueIndex, h]
  rfl

theorem ownedIndex_of_not_runtime (h : jitDecodeRuntimeValue word = none) : ownedIndex word = .ok none := by
  rw [ownedIndex, h]

theorem ownedIndex_eq (h : directValueIndex word = some index) : ownedIndex word = .ok (some index) := by
  obtain ⟨runtimeIndex, hdecode, hindex⟩ := bind_eq_some_iff.mp h
  split at hindex
  · next hbounds =>
    rw [ownedIndex, hdecode, ← Option.some.inj hindex]
    simp only
    rw [if_neg (not_lt.mpr hbounds.1), if_neg (not_le.mpr hbounds.2)]
  · cases hindex

theorem Owned.mono (h : plane.Owned words) (hsub : words'.Subperm words) : plane.Owned words' := by
  intro word hword
  rcases h word (hsub.subset hword) with hnone | ⟨index, slot, hindex, hslot, hkey, hcount⟩
  · exact .inl hnone
  · exact .inr ⟨index, slot, hindex, hslot, hkey, le_trans (hsub.countP_le _) hcount⟩

theorem Owned.tail (h : plane.Owned (word :: words)) : plane.Owned words :=
  h.mono (sublist_cons_self _ _).subperm

theorem refcount_pos_of_count (hword : word ∈ words) (hindex : directValueIndex word = some index)
    (hcount : words.countP (directValueIndex · == some index) ≤ refcount) : 0 < refcount := by
  refine lt_of_lt_of_le (countP_pos_iff.mpr ⟨word, hword, ?_⟩) hcount
  exact beq_iff_eq.mpr hindex

theorem Owned.index_ne (h : plane.Owned words) (hword : word ∈ words)
    (hslot : plane.slots[index]? = some slot) (hview : ¬slot.view.IsKey) :
    directValueIndex word ≠ some index := by
  intro hindex
  rcases h word hword with hnone | ⟨index', slot', hindex', hslot', hkey, -⟩
  · cases (directValueIndex_of_not_runtime hnone).symm.trans hindex
  · cases hindex.symm.trans hindex'
    cases hslot.symm.trans hslot'
    exact hview hkey

/-! ## Reading keys -/

theorem directSlot_eq (hindex : directValueIndex word = some index)
    (hslot : plane.slots[index]? = some slot) (hlive : 0 < slot.refcount) :
    plane.directSlot word = some (index, slot) := by
  rw [directSlot, hindex]
  simp only [bind_eq_bind, bind_some, hslot]
  exact if_neg (Nat.pos_iff_ne_zero.mp hlive)

theorem directSlot_of_not_runtime (plane : DirectPlane F) (hword : jitDecodeRuntimeValue word = none) :
    plane.directSlot word = none := by
  rw [directSlot, directValueIndex_of_not_runtime hword]
  rfl

theorem nativePrintfScalar_of_not_runtime
    (hword : jitDecodeRuntimeValue word = none) (hconstants : plane'.constants = plane.constants) :
    plane'.nativePrintfScalar word = plane.nativePrintfScalar word := by
  simp only [nativePrintfScalar, nativeByValueEncoding, byValueFrom, directSlot_of_not_runtime _ hword, bind_eq_bind,
    bind_some, hconstants]

/-- What a key slot reads as. -/
def keyScalar : DirectView F → Option (NativePrintfScalar F)
  | .int payload => some (.int payload)
  | .string bytes => some (.string bytes)
  | _ => none

theorem nativePrintfScalar_of_key (hindex : directValueIndex word = some index)
    (hslot : plane.slots[index]? = some slot) (hlive : 0 < slot.refcount) (hkey : slot.view.IsKey) :
    plane.nativePrintfScalar word = keyScalar slot.view := by
  have hdirect := directSlot_eq hindex hslot hlive
  obtain ⟨refcount, view⟩ := slot
  cases view with
  | int payload | string payload =>
    simp only [nativePrintfScalar, nativeByValueEncoding, byValueFrom, hdirect, bind_eq_bind,
      bind_some, keyScalar]
  | _ => exact absurd hkey id

/-- A plane that has kept what remains to be read. -/
structure Keeps (words : List Int) (plane plane' : DirectPlane F) : Prop where
  constants : plane'.constants = plane.constants
  owned : plane'.Owned words
  scalar {word : Int} : word ∈ words → plane'.nativePrintfScalar word = plane.nativePrintfScalar word

theorem Keeps.refl (h : plane.Owned words) : Keeps words plane plane :=
  ⟨rfl, h, fun _ => rfl⟩

theorem Keeps.trans (h : Keeps words plane plane')
    (h' : Keeps words' plane' plane'') (hsub : words' ⊆ words) : Keeps words' plane plane'' :=
  ⟨h'.constants.trans h.constants, h'.owned, fun hword => (h'.scalar hword).trans (h.scalar (hsub hword))⟩

theorem Keeps.mono (h : Keeps words plane plane') (hsub : words'.Subperm words) : Keeps words' plane plane' :=
  ⟨h.constants, h.owned.mono hsub, fun hword => h.scalar (hsub.subset hword)⟩

theorem Keeps.of_counts (h : plane.Owned words') (hsub : words ⊆ words')
    (hconstants : plane'.constants = plane.constants)
    (hslots : ∀ word ∈ words, ∀ (index : Nat) (slot : DirectSlot F), directValueIndex word = some index →
      plane.slots[index]? = some slot → slot.view.IsKey →
      words'.countP (directValueIndex · == some index) ≤ slot.refcount →
      ∃ slot', plane'.slots[index]? = some slot' ∧ slot'.view = slot.view ∧
        words.countP (directValueIndex · == some index) ≤ slot'.refcount) : Keeps words plane plane' := by
  refine ⟨hconstants, fun word hword => ?_, fun {word} hword => ?_⟩ <;>
    rcases h word (hsub hword) with hnone | ⟨index, slot, hindex, hslot, hkey, hcount⟩
  · exact .inl hnone
  · obtain ⟨slot', hslot', hview, hcount'⟩ := hslots word hword index slot hindex hslot hkey hcount
    exact .inr ⟨index, slot', hindex, hslot', hview ▸ hkey, hcount'⟩
  · exact nativePrintfScalar_of_not_runtime hnone hconstants
  · obtain ⟨slot', hslot', hview, hcount'⟩ := hslots word hword index slot hindex hslot hkey hcount
    rw [nativePrintfScalar_of_key hindex hslot (refcount_pos_of_count (hsub hword) hindex hcount) hkey, ← hview]
    exact nativePrintfScalar_of_key hindex hslot' (refcount_pos_of_count hword hindex hcount') (hview ▸ hkey)

theorem Keeps.of_slots (h : plane.Owned words) (hconstants : plane'.constants = plane.constants)
    {f : Nat → DirectSlot F → DirectSlot F} (hslots : ∀ i, plane'.slots[i]? = plane.slots[i]?.map (f i))
    (harrays : ∀ i slot, f i slot = slot ∨ ∃ entries cursor, slot.view = .array entries cursor) :
    Keeps words plane plane' := by
  refine .of_counts h (List.Subset.refl _) hconstants fun word _ index slot _ hslot hkey hcount => ?_
  rcases harrays index slot with heq | ⟨entries, cursor, hview⟩
  · exact ⟨slot, by rw [hslots, hslot, map_some, heq], rfl, hcount⟩
  · rw [hview] at hkey
    exact absurd hkey id

/-- Releasing a key leaves the other keys. -/
theorem Owned.discard (h : plane.Owned (word :: words)) :
    ∃ plane', plane.discardOwnedDirectValue word = (.ok (), plane') ∧ Keeps words plane plane' ∧
      ∀ index, directValueIndex word ≠ some index → plane'.slots[index]? = plane.slots[index]? := by
  rw [discardOwnedDirectValue]
  rcases h word mem_cons_self with hnone | ⟨index, slot, hindex, hslot, hkey, hcount⟩
  · refine ⟨plane, ?_, .refl h.tail, fun _ _ => rfl⟩
    rw [discardOwned, ownedIndex_of_not_runtime hnone]
    simp only
    rw [discardOwned]
  · have hlive := refcount_pos_of_count mem_cons_self hindex hcount
    rw [countP_cons_of_pos (p := (directValueIndex · == some index)) (beq_iff_eq.mpr hindex)] at hcount
    have hkept {slot' : DirectSlot F} (hview : 1 < slot.refcount → slot'.view = slot.view)
        (hrefcount : slot'.refcount = slot.refcount - 1) :
        Keeps words plane (plane.setSlot index slot') := by
      refine .of_counts h (subset_cons_self _ _) rfl fun other hother i slot₁ hi hslot₁ _ hcount₁ => ?_
      by_cases heq : index = i
      · -- A slot that other words name has been counted for them as well.
        subst heq
        cases hslot.symm.trans hslot₁
        have hpos := refcount_pos_of_count hother hi (le_refl _)
        exact ⟨slot', getElem?_set_self (List.getElem?_eq_some_iff.mp hslot).1, hview (by omega), by omega⟩
      · refine ⟨slot₁, (getElem?_set_ne heq).trans hslot₁, rfl, ?_⟩
        exact le_trans (List.Sublist.countP_le (sublist_cons_self _ _)) hcount₁
    have hframe (slot' : DirectSlot F) (i : Nat) (hne : directValueIndex word ≠ some i) :
        (plane.setSlot index slot').slots[i]? = plane.slots[i]? := by
      rw [setSlot, getElem?_set_ne]
      exact fun heq => hne (heq ▸ hindex)
    rw [discardOwned, ownedIndex_eq hindex]
    simp only
    split
    · next hnone => cases hslot.symm.trans hnone
    · next slot₁ hslot₁ =>
      cases hslot.symm.trans hslot₁
      rw [dif_neg (Nat.pos_iff_ne_zero.mp hlive)]
      by_cases hshared : 1 < slot.refcount
      · rw [if_pos hshared, discardOwned]
        exact ⟨_, rfl, hkept (fun _ => rfl) rfl, hframe _⟩
      have hchildren : slot.view.releasedChildren = some [] := by
        cases hview : slot.view with
        | int | string => rfl
        | _ =>
          rw [hview] at hkey
          exact absurd hkey id
      rw [if_neg hshared, hchildren]
      simp only [nil_append]
      rw [discardOwned]
      exact ⟨_, rfl, hkept (fun hlt => absurd hlt hshared) (by simp only; omega), hframe _⟩

/-! ## Placing -/

theorem getElem?_modifyEntries (plane : DirectPlane F) (index i : Nat)
    (f : List DirectArrayEntry → List DirectArrayEntry) :
    (plane.modifyEntries index f).slots[i]? =
      plane.slots[i]?.map fun slot => if index = i then slot.mapEntries f else slot :=
  getElem?_modify _ _ _ _

theorem mapEntries_cases (slot : DirectSlot F) (f : List DirectArrayEntry → List DirectArrayEntry) :
    slot.mapEntries f = slot ∨ ∃ entries cursor, slot.view = .array entries cursor := by
  obtain ⟨refcount, view⟩ := slot
  cases view with
  | array entries cursor => exact .inr ⟨entries, cursor, rfl⟩
  | _ => exact .inl rfl

theorem Keeps.modifyEntries (h : plane.Owned words) (index : Nat)
    (f : List DirectArrayEntry → List DirectArrayEntry) : Keeps words plane (plane.modifyEntries index f) := by
  refine .of_slots h rfl (getElem?_modifyEntries plane index · f) fun i slot => ?_
  split
  · exact mapEntries_cases slot f
  · exact .inl rfl

theorem Keeps.setCursor (h : plane.Owned words) (index : Nat) (cursor : Option Nat) :
    Keeps words plane (plane.setCursor index cursor) := by
  refine .of_slots h rfl (fun _ => getElem?_modify _ _ _ _) fun i slot => ?_
  split
  · obtain ⟨refcount, view⟩ := slot
    cases view with
    | array entries cursor => exact .inr ⟨entries, cursor, rfl⟩
    | _ => exact .inl rfl
  · exact .inl rfl

/-- The entries of some arrays have been rearranged. -/
structure Rearranged (base : DirectPlane F) (indexes : List Nat)
    (f : List DirectArrayEntry → List DirectArrayEntry) (plane : DirectPlane F) : Prop where
  constants : plane.constants = base.constants
  slots (i : Nat) : plane.slots[i]? =
    base.slots[i]?.map fun slot => if i ∈ indexes then slot.mapEntries f else slot

theorem mapEntries_mapEntries (slot : DirectSlot F) (f g : List DirectArrayEntry → List DirectArrayEntry) :
    (slot.mapEntries f).mapEntries g = slot.mapEntries (g ∘ f) := by
  obtain ⟨refcount, view⟩ := slot
  cases view <;> rfl

theorem mapEntries_id (slot : DirectSlot F) : slot.mapEntries id = slot := by
  obtain ⟨refcount, view⟩ := slot
  cases view <;> rfl

theorem Rearranged.refl (base : DirectPlane F) (indexes : List Nat) : Rearranged base indexes id base := by
  refine ⟨rfl, fun i => ?_⟩
  simp [mapEntries_id]

def swapIndexes (indexes : List Nat) (left right : Nat) (plane : DirectPlane F) : DirectPlane F :=
  indexes.foldl (fun plane index => plane.swapEntries index left right) plane

theorem swapIndexes_slots (hnodup : indexes.Nodup) (left right : Nat)
    (plane : DirectPlane F) : (swapIndexes indexes left right plane).constants = plane.constants ∧
      ∀ i, (swapIndexes indexes left right plane).slots[i]? =
        plane.slots[i]?.map fun slot => if i ∈ indexes then slot.mapEntries (exchange left right) else slot := by
  induction indexes generalizing plane with
  | nil => exact ⟨rfl, fun i => by simp [swapIndexes]⟩
  | cons index indexes ih =>
    obtain ⟨hindex, hnodup⟩ := nodup_cons.mp hnodup
    obtain ⟨hconstants, hslots⟩ := ih hnodup (plane.swapEntries index left right)
    refine ⟨hconstants, fun i => (hslots i).trans ?_⟩
    rw [swapEntries, getElem?_modifyEntries, Option.map_map]
    congr 1
    funext slot
    simp only [Function.comp_apply, mem_cons]
    by_cases heq : index = i
    · subst heq
      rw [if_neg hindex, if_pos rfl, if_pos (.inl rfl)]
    · rw [if_neg heq]
      simp [Ne.symm heq]

theorem Rearranged.swap (hnodup : indexes.Nodup) (h : Rearranged base indexes f plane) (left right : Nat) :
    Rearranged base indexes (exchange left right ∘ f) (swapIndexes indexes left right plane) := by
  obtain ⟨hconstants, hslots⟩ := swapIndexes_slots hnodup left right plane
  refine ⟨hconstants.trans h.constants, fun i => (hslots i).trans ?_⟩
  rw [h.slots, Option.map_map]
  congr 1
  funext slot
  simp only [Function.comp_apply]
  split
  · exact mapEntries_mapEntries _ _ _
  · rfl

theorem rearranged_place (base : DirectPlane F) (hnodup : indexes.Nodup)
    (order : List Nat) : Rearranged base indexes (place exchange order) (place (swapIndexes indexes) order base) := by
  have hplane : Rearranged base indexes (place (fun left right f => exchange left right ∘ f) order id)
      (place (swapIndexes indexes) order base) :=
    place_rel (R := Rearranged base indexes) (fun left right f plane h => Rearranged.swap hnodup h left right)
      order (.refl base indexes)
  have hfun : place (fun left right f => exchange left right ∘ f) order id =
      (place exchange order : List DirectArrayEntry → _) := by
    funext entries
    exact place_rel (R := fun (f : List DirectArrayEntry → List DirectArrayEntry) entries' => f entries = entries')
      (fun left right _ _ h => by rw [← h]; rfl) order rfl
  rwa [hfun] at hplane

variable {base plane : DirectPlane F}

section
variable (h : Rearranged base indexes f plane)
include h

theorem Rearranged.array
    (hindex : index ∈ indexes) (hslot : base.slots[index]? = some ⟨refcount, .array entries cursor⟩) :
    plane.slots[index]? = some ⟨refcount, .array (f entries) cursor⟩ := by
  rw [h.slots, hslot, map_some, if_pos hindex]
  rfl

theorem Rearranged.frame (hindex : index ∉ indexes) : plane.slots[index]? = base.slots[index]? := by
  rw [h.slots]
  simp [if_neg hindex]

theorem Rearranged.keeps (howned : base.Owned words) : Keeps words base plane := by
  refine .of_slots howned h.constants h.slots fun i slot => ?_
  split
  · exact mapEntries_cases slot f
  · exact .inl rfl

end

/-! ## Writing the keys -/

theorem entriesAt_eq
    (h : plane.slots[index]? = some ⟨refcount, .array entries cursor⟩) : plane.entriesAt index = entries := by
  rw [entriesAt, h]

theorem setKey_array (key : Int)
    (h : plane.slots[index]? = some ⟨refcount, .array (done ++ entry :: rest) cursor⟩) :
    (plane.setKey index done.length key).slots[index]? =
      some ⟨refcount, .array (done ++ [{ entry with key }] ++ rest) cursor⟩ := by
  rw [setKey, getElem?_modifyEntries, h, map_some, if_pos rfl, DirectSlot.mapEntries]
  simp [modify_append_cons]

theorem setKey_frame (plane : DirectPlane F) (hne : i ≠ index) :
    (plane.setKey index destination key).slots[i]? = plane.slots[i]? := by
  rw [setKey, getElem?_modifyEntries]
  simp [if_neg (Ne.symm hne)]

/-- The entries with some keys replaced by consecutive integers. -/
def renumbered (replaced : Int → Bool) : Nat → List DirectArrayEntry → List DirectArrayEntry
  | _, [] => []
  | next, entry :: entries =>
    if replaced entry.key then { entry with key := next } :: renumbered replaced (next + 1) entries
    else entry :: renumbered replaced next entries

theorem Keeps.renumbered_eq (h : Keeps words plane plane') (hkeys : ∀ entry ∈ entries, entry.key ∈ words)
    (next : Nat) : renumbered plane'.isIntegerKey next entries = renumbered plane.isIntegerKey next entries := by
  induction entries generalizing next with
  | nil => rfl
  | cons entry entries ih =>
    obtain ⟨hkey, hkeys⟩ := forall_mem_cons.mp hkeys
    rw [renumbered, renumbered, ih hkeys, ih hkeys, isIntegerKey, h.scalar hkey, isIntegerKey]

theorem renumber_fold (done rest : List DirectArrayEntry)
    (hslot : plane.slots[index]? = some ⟨refcount, .array (done ++ rest) cursor⟩)
    (howned : plane.Owned (rest.map DirectArrayEntry.key)) :
    ((List.range' done.length rest.length).foldl (renumberStep index) plane).slots[index]? =
        some ⟨refcount, .array (done ++ renumbered (fun _ => true) done.length rest) cursor⟩ ∧
      ∀ i, i ≠ index → (∀ entry ∈ rest, directValueIndex entry.key ≠ some i) →
        ((List.range' done.length rest.length).foldl (renumberStep index) plane).slots[i]? = plane.slots[i]? := by
  induction rest generalizing done plane with
  | nil => exact ⟨hslot, fun _ _ _ => rfl⟩
  | cons entry rest ih =>
    obtain ⟨released, hdiscard, hkeeps, hframe⟩ := howned.discard
    have hreleased := hframe index (howned.index_ne mem_cons_self hslot id)
    have hset := setKey_array (done.length : Int) (hreleased.trans hslot)
    have hkeeps' : Keeps (rest.map DirectArrayEntry.key) released (released.setKey index done.length done.length) :=
      .modifyEntries hkeeps.owned index _
    obtain ⟨hresult, hrest⟩ := ih _ hset hkeeps'.owned
    have hstep : renumberStep index plane done.length = released.setKey index done.length done.length := by
      rw [renumberStep, entriesAt_eq hslot, getElem?_append_right (Nat.le_refl _), Nat.sub_self]
      simp [hdiscard]
    rw [length_append, length_singleton] at hresult hrest
    rw [length_cons, List.range'_succ, foldl_cons, hstep]
    refine ⟨hresult.trans ?_, fun i hi hkeys => ?_⟩
    · rw [append_assoc]
      rfl
    · rw [hrest i hi (forall_mem_cons.mp hkeys).2, setKey_frame _ hi, hframe i (hkeys entry mem_cons_self)]

theorem multisortKeys_fold (done : List DirectArrayEntry) (next : Nat)
    (hslot : plane.slots[index]? = some ⟨refcount, .array (done ++ rest) cursor⟩)
    (howned : plane.Owned (rest.map DirectArrayEntry.key ++ words))
    (hkeys : ∀ entry ∈ rest, plane.isMultisortKey entry.key) (hbound : next + rest.length < 2 ^ 32) :
    ∃ next' plane', (List.range' done.length rest.length).foldl (multisortKeyStep index) (some next, plane) =
        (some next', plane') ∧
      plane'.slots[index]? =
        some ⟨refcount, .array (done ++ renumbered plane.isIntegerKey next rest) cursor⟩ ∧
      Keeps words plane plane' ∧ ∀ i, i ≠ index → (∀ entry ∈ rest, directValueIndex entry.key ≠ some i) →
        plane'.slots[i]? = plane.slots[i]? := by
  induction rest generalizing done plane next with
  | nil => exact ⟨next, plane, rfl, hslot, .refl howned, fun _ _ _ => rfl⟩
  | cons entry rest ih =>
    have hentry : (plane.entriesAt index)[done.length]? = some entry := by
      rw [entriesAt_eq hslot, getElem?_append_right (Nat.le_refl _), Nat.sub_self]
      rfl
    have hkey := hkeys entry mem_cons_self
    rw [isMultisortKey] at hkey
    rw [length_cons] at hbound
    rw [length_cons, List.range'_succ, foldl_cons]
    obtain ⟨middle, next', first, hstep, hmiddle, hkeeps, hframe, hnext, hfirst⟩ :
        ∃ middle next' first, multisortKeyStep index (some next, plane) done.length = (some next', middle) ∧
          middle.slots[index]? = some ⟨refcount, .array (done ++ [first] ++ rest) cursor⟩ ∧
          Keeps (rest.map DirectArrayEntry.key ++ words) plane middle ∧
          (∀ i, i ≠ index → directValueIndex entry.key ≠ some i → middle.slots[i]? = plane.slots[i]?) ∧
          next' ≤ next + 1 ∧ renumbered plane.isIntegerKey next (entry :: rest) =
            first :: renumbered plane.isIntegerKey next' rest := by
      cases hscalar : plane.nativePrintfScalar entry.key with
      | none => simp only [hscalar, Bool.false_eq_true] at hkey
      | some scalar =>
        cases scalar with
        | null | bool | float => simp only [hscalar, Bool.false_eq_true] at hkey
        | string bytes =>
          refine ⟨plane, next, entry, ?_, ?_, .refl howned.tail, fun _ _ _ => rfl, le_succ _, ?_⟩
          · simp [multisortKeyStep, hentry, hscalar]
          · rw [append_assoc]
            exact hslot
          · simp [renumbered, isIntegerKey, hscalar]
        | int payload =>
          have howned' := (Keeps.modifyEntries howned index
            (·.modify done.length fun entry => { entry with key := (next : Int) })).owned
          have hset := setKey_array (next : Int) hslot
          obtain ⟨released, hdiscard, hkeeps, hframe⟩ := howned'.discard
          have hreleased := hframe index (howned'.index_ne mem_cons_self hset id)
          refine ⟨released, next + 1, { entry with key := (next : Int) }, ?_, hreleased.trans hset, ?_,
            fun i hi hne => (hframe i hne).trans (setKey_frame _ hi), le_refl _, ?_⟩
          · simp only [multisortKeyStep, hentry, hscalar]
            rw [if_neg (by omega), setKey, hdiscard]
          · exact (Keeps.modifyEntries howned.tail index _).trans hkeeps (List.Subset.refl _)
          · simp [renumbered, isIntegerKey, hscalar]
    -- Whatever the step does, the remaining keys read as before.
    have hrest : ∀ other ∈ rest, other.key ∈ rest.map DirectArrayEntry.key ++ words :=
      fun other hother => mem_append_left _ (mem_map_of_mem hother)
    obtain ⟨next'', plane', hfold, hresult, hkeeps', hframe'⟩ := ih (done ++ [first]) next' hmiddle hkeeps.owned
      (fun other hother => by
        rw [isMultisortKey, hkeeps.scalar (hrest other hother)]
        exact hkeys other (mem_cons_of_mem _ hother))
      (by omega)
    rw [length_append, length_singleton] at hfold
    refine ⟨next'', plane', by rw [hstep]; exact hfold, hresult.trans ?_,
      hkeeps.trans hkeeps' (subset_append_right _ _), fun i hi hne => ?_⟩
    · rw [hfirst, hkeeps.renumbered_eq hrest, append_assoc]
      rfl
    · rw [hframe' i hi (forall_mem_cons.mp hne).2, hframe i hi (hne entry mem_cons_self)]

/-- An array that nobody shares. -/
def ArrayAt (plane : DirectPlane F) (index : Nat) (entries : List DirectArrayEntry) : Prop :=
  ∃ cursor, plane.slots[index]? = some ⟨1, .array entries cursor⟩

theorem ArrayAt.entriesAt_eq (h : plane.ArrayAt index entries) : plane.entriesAt index = entries :=
  let ⟨_, hslot⟩ := h
  DirectPlane.entriesAt_eq hslot

theorem ArrayAt.setCursor (h : plane.ArrayAt index entries) (cursor : Option Nat) :
    (plane.setCursor index cursor).slots[index]? = some ⟨1, .array entries cursor⟩ := by
  obtain ⟨cursor', hslot⟩ := h
  rw [DirectPlane.setCursor, getElem?_modify, hslot, Option.map_eq_map, map_some, if_pos rfl]
  rfl

theorem setCursor_frame (plane : DirectPlane F) (hne : i ≠ index) (cursor : Option Nat) :
    (plane.setCursor index cursor).slots[i]? = plane.slots[i]? := by
  rw [DirectPlane.setCursor, getElem?_modify]
  simp [if_neg (Ne.symm hne)]

def keysAt (plane : DirectPlane F) (index : Nat) : List Int :=
  (plane.entriesAt index).map DirectArrayEntry.key

/-- After the pass over the keys of one array the others stand as they did. -/
theorem multisortKeys_spec (harrays : ∀ array ∈ arrays, ∃ entries, plane.ArrayAt array.slotIndex entries ∧
      entries.length = array.length ∧ entries.length < 2 ^ 32 ∧
      ∀ entry ∈ entries, plane.isMultisortKey entry.key)
    (hnodup : (arrays.map NativeMultisortArray.slotIndex).Nodup)
    (howned : plane.Owned (arrays.flatMap fun array => plane.keysAt array.slotIndex)) :
    ∃ plane', multisortKeys arrays plane = (some (), plane') ∧
      (∀ array ∈ arrays, plane'.ArrayAt array.slotIndex
        (renumbered plane.isIntegerKey 0 (plane.entriesAt array.slotIndex))) ∧
      ∀ i, i ∉ arrays.map NativeMultisortArray.slotIndex →
        (∀ array ∈ arrays, ∀ key ∈ plane.keysAt array.slotIndex, directValueIndex key ≠ some i) →
        plane'.slots[i]? = plane.slots[i]? := by
  induction arrays generalizing plane with
  | nil => exact ⟨plane, rfl, nofun, fun _ _ _ => rfl⟩
  | cons array arrays ih =>
    obtain ⟨entries, harray, hlength, hbound, hkeys⟩ := harrays array mem_cons_self
    have hentries := harray.entriesAt_eq
    obtain ⟨cursor, hslot⟩ := harray
    obtain ⟨hfresh, hnodup⟩ := nodup_cons.mp hnodup
    rw [flatMap_cons, keysAt, hentries] at howned
    obtain ⟨next, middle, hfold, hmiddle, hkeeps, hframe⟩ := multisortKeys_fold [] 0 hslot
      howned hkeys (by rwa [Nat.zero_add])
    rw [length_nil] at hfold
    obtain ⟨after, hafter⟩ :
      ∃ after, after = middle.setCursor array.slotIndex (if next = 0 then none else some next) := ⟨_, rfl⟩
    have hkeeps' : Keeps _ plane after :=
      hafter ▸ hkeeps.trans (.setCursor hkeeps.owned _ _) (List.Subset.refl _)
    -- No key of this array is a slot of another array.
    have hother {other : NativeMultisortArray} (hmem : other ∈ arrays) :
        after.slots[other.slotIndex]? = plane.slots[other.slotIndex]? := by
      have hne : other.slotIndex ≠ array.slotIndex := fun heq => hfresh (heq ▸ mem_map_of_mem hmem)
      obtain ⟨_, ⟨_, hslot'⟩, -⟩ := harrays other (mem_cons_of_mem _ hmem)
      rw [hafter, setCursor_frame _ hne, hframe _ hne]
      intro entry hentry
      exact howned.index_ne (mem_append_left _ (mem_map_of_mem hentry)) hslot' id
    have hentriesAt {other : NativeMultisortArray} (hmem : other ∈ arrays) :
        after.entriesAt other.slotIndex = plane.entriesAt other.slotIndex := by
      rw [entriesAt, hother hmem, entriesAt]
    have hwords {other : NativeMultisortArray} (hmem : other ∈ arrays) :
        ∀ entry ∈ plane.entriesAt other.slotIndex, entry.key ∈ arrays.flatMap (plane.keysAt ·.slotIndex) :=
      fun entry hentry => mem_flatMap.mpr ⟨other, hmem, mem_map_of_mem hentry⟩
    obtain ⟨plane', hrest, hresult, hframe'⟩ := ih
      (fun other hmem => by
        obtain ⟨entries', ⟨cursor', hslot'⟩, hlength', hbound', hkeys'⟩ :=
          harrays other (mem_cons_of_mem _ hmem)
        refine ⟨entries', ⟨cursor', (hother hmem).trans hslot'⟩, hlength', hbound', fun entry hentry => ?_⟩
        rw [isMultisortKey, hkeeps'.scalar (hwords hmem entry (DirectPlane.entriesAt_eq hslot' ▸ hentry))]
        exact hkeys' entry hentry)
      hnodup (by
        rw [flatMap_congr fun other hmem => by rw [keysAt, hentriesAt hmem]]
        exact hkeeps'.owned)
    refine ⟨plane', ?_, fun other hmem => ?_, fun i hi hne => ?_⟩
    · rw [multisortKeys, ← hlength, range_eq_range', hfold, ← hrest, hafter]
    · rcases mem_cons.mp hmem with rfl | hmem
      · refine ⟨if next = 0 then none else some next, ?_⟩
        rw [hframe' _ hfresh fun other hmem key hkey => ?_, hafter, ArrayAt.setCursor ⟨cursor, hmiddle⟩, hentries]
        · rfl
        · rw [keysAt, hentriesAt hmem] at hkey
          exact howned.index_ne (mem_append_right _ (mem_flatMap.mpr ⟨other, hmem, hkey⟩)) hslot id
      · have h := hresult other hmem
        rwa [hentriesAt hmem, hkeeps'.renumbered_eq (hwords hmem)] at h
    · rw [map_cons, mem_cons, not_or] at hi
      rw [hframe' i hi.2 fun other hmem key hkey => ?_, hafter, setCursor_frame _ hi.1,
        hframe i hi.1 fun entry hentry => ?_]
      · refine hne array mem_cons_self entry.key (mem_map_of_mem ?_)
        rwa [hentries]
      · rw [keysAt, hentriesAt hmem] at hkey
        exact hne other (mem_cons_of_mem _ hmem) key hkey

/-! ## Arguments -/

/-- What flags do not change. -/
def shape (arrays : List NativeMultisortArray) : List (Nat × Nat) :=
  arrays.map fun array => (array.slotIndex, array.length)

/-- The arguments name different arrays of one length. -/
structure Arguments (plane : DirectPlane F) (arrays : List (Nat × Nat)) : Prop where
  array {index length : Nat} : (index, length) ∈ arrays →
    ∃ entries, plane.ArrayAt index entries ∧ entries.length = length
  nodup : (arrays.map Prod.fst).Nodup
  length {index length first count : Nat} : (index, length) ∈ arrays → arrays.head? = some (first, count) →
    length = count

theorem directSlot_getElem? (h : plane.directSlot word = some (index, slot)) :
    plane.slots[index]? = some slot := by
  obtain ⟨i, -, h⟩ := bind_eq_some_iff.mp h
  obtain ⟨found, hfound, h⟩ := bind_eq_some_iff.mp h
  split at h
  · cases h
  · cases h
    exact hfound

theorem NativeMultisortArray.setFlag_shape {array array' : NativeMultisortArray}
    (h : array.setFlag flag = some array') :
    array'.slotIndex = array.slotIndex ∧ array'.length = array.length := by
  rw [NativeMultisortArray.setFlag] at h
  split at h
  · cases h
    exact ⟨rfl, rfl⟩
  split at h
  · cases h
    exact ⟨rfl, rfl⟩
  · cases h

theorem Arguments.step {arrays arrays' : List NativeMultisortArray}
    (h : plane.Arguments (shape arrays)) (hstep : plane.multisortStep arrays argument = some arrays') :
    plane.Arguments (shape arrays') := by
  rw [multisortStep] at hstep
  simp only at hstep
  split at hstep
  · next slotIndex refcount entries cursor hslot =>
    split at hstep
    · cases hstep
    · next hguard =>
      split at hstep
      · cases hstep
      · next hhead =>
        cases hstep
        simp only [not_or, Decidable.not_not] at hguard
        obtain ⟨-, rfl, hfresh⟩ := hguard
        have hnew : plane.ArrayAt slotIndex entries := ⟨cursor, directSlot_getElem? hslot⟩
        rw [shape, map_append]
        refine ⟨fun hmem => ?_, ?_, fun hmem hfirst => ?_⟩
        · rcases mem_append.mp hmem with hmem | hmem
          · exact h.array hmem
          · cases mem_singleton.mp hmem
            exact ⟨entries, hnew, rfl⟩
        · rw [map_append, nodup_append]
          refine ⟨h.nodup, nodup_singleton _, fun a ha b hb heq => hfresh ?_⟩
          have hb : b = slotIndex := mem_singleton.mp hb
          rw [List.map_map] at ha
          rw [← hb, ← heq]
          exact ha
        · cases arrays with
          | nil =>
            cases hfirst
            cases mem_singleton.mp hmem
            rfl
          | cons first arrays =>
            cases hfirst
            rcases mem_append.mp hmem with hmem | hmem
            · exact h.length hmem rfl
            · cases mem_singleton.mp hmem
              have heq : first.length = entries.length := by simpa using hhead
              exact heq.symm
  · split at hstep
    · split at hstep
      · cases hstep
      · next current hlast =>
        obtain ⟨current', hflag, rfl⟩ := map_eq_some_iff.mp hstep
        obtain ⟨hindex, hlength⟩ := NativeMultisortArray.setFlag_shape hflag
        have hshape : shape (arrays.dropLast ++ [current']) = shape arrays := by
          rw [← dropLast_append_getLast? current hlast]
          simp [shape, hindex, hlength]
        rwa [hshape]
    · cases hstep

theorem arguments_nil (plane : DirectPlane F) : plane.Arguments (shape []) := ⟨nofun, .nil, nofun⟩

theorem Arguments.fold {start arrays : List NativeMultisortArray} {arguments : List Int}
    (h : plane.Arguments (shape start)) (hfold : arguments.foldlM plane.multisortStep start = some arrays) :
    plane.Arguments (shape arrays) := by
  induction arguments generalizing start with
  | nil =>
    cases hfold
    exact h
  | cons argument arguments ih =>
    obtain ⟨next, hnext, hrest⟩ := bind_eq_some_iff.mp hfold
    exact ih (h.step hnext) hrest

/-- An array that is passed by reference and the flags behind it. -/
inductive Passed (plane : DirectPlane F) : List Int → NativeMultisortArray → Prop
  | reference {total : Nat} (hreference : plane.directSlot word = some (index, ⟨refcount, .reference false payload⟩))
      (harray : plane.directSlot payload = some (slotIndex, ⟨1, .array entries cursor⟩))
      (hlength : entries.length = total) : Passed plane [word] { slotIndex, length := total }
  | direction (h : Passed plane arguments array) (hseen : array.directionSeen = false) (descending : Bool) :
    Passed plane (arguments ++ [if descending then 3 else 4])
      { array with reverse := descending, directionSeen := true }
  | mode (h : Passed plane arguments array) (hseen : array.modeSeen = false)
      (hmode : mode ∈ [0, 1, 2, 6, 8, 10, 14]) :
    Passed plane (arguments ++ [mode]) { array with flags := mode, modeSeen := true }

theorem multisortStep_flag (plane : DirectPlane F) (hword : jitDecodeRuntimeValue flag = none)
    (hconstant : jitDecodeConstant flag = none) (arrays : List NativeMultisortArray) (array : NativeMultisortArray) :
    plane.multisortStep (arrays ++ [array]) flag = (array.setFlag flag).map fun array => arrays ++ [array] := by
  have hslot := directSlot_of_not_runtime plane hword
  have hscalar : plane.nativePrintfScalar flag = some (.int flag) := by
    simp only [nativePrintfScalar, nativeByValueEncoding, byValueFrom, hslot, bind_eq_bind, bind_some, hconstant,
      hword, isNone_none, if_true]
  simp only [multisortStep, multisortArgument, hslot, hscalar, getLast?_concat, dropLast_concat]

section
variable (h : plane.Passed arguments array)
include h

theorem Passed.fold (hfresh : array.slotIndex ∉ arrays.map NativeMultisortArray.slotIndex)
    (hlength : ∀ other ∈ arrays, other.length = array.length) :
    arguments.foldlM plane.multisortStep arrays = some (arrays ++ [array]) := by
  induction h with
  | @reference word _ _ payload slotIndex entries _ total hreference harray htotal =>
    subst htotal
    have hhead : (arrays.head?.any fun array => array.length != entries.length) = false := by
      cases arrays with
      | nil => rfl
      | cons first arrays => simpa using hlength first mem_cons_self
    have hstep : plane.multisortStep arrays word = some (arrays ++ [{ slotIndex, length := entries.length }]) := by
      simp only [multisortStep, multisortArgument, hreference, harray, hhead]
      rw [if_neg (by simpa using hfresh), if_neg Bool.false_ne_true]
    rw [foldlM_cons, hstep]
    rfl
  | @direction arguments array h hseen descending ih =>
    rw [foldlM_append, ih hfresh hlength, bind_eq_bind, bind_some, foldlM_cons, multisortStep_flag]
    · cases descending <;> simp [NativeMultisortArray.setFlag, hseen]
    all_goals cases descending <;> decide
  | @mode arguments array mode h hseen hmode ih =>
    have hmodes : ∀ mode ∈ ([0, 1, 2, 6, 8, 10, 14] : List Int), jitDecodeRuntimeValue mode = none ∧
      jitDecodeConstant mode = none ∧ ¬(mode = 3 ∨ mode = 4) := by decide
    obtain ⟨hword, hconstant, hdirection⟩ := hmodes mode hmode
    have hflag : array.setFlag mode = some { array with flags := mode, modeSeen := true } := by
      rw [NativeMultisortArray.setFlag, if_neg fun h => hdirection h.1, if_pos ⟨hmode, by rw [hseen]; rfl⟩]
    rw [foldlM_append, ih hfresh hlength, bind_eq_bind, bind_some, foldlM_cons, multisortStep_flag plane hword hconstant,
      hflag]
    rfl

end

theorem multisortArrays_of_passed {length : Nat} (h : Forall₂ plane.Passed groups arrays)
    (hnodup : ((done ++ arrays).map NativeMultisortArray.slotIndex).Nodup)
    (hlength : ∀ array ∈ done ++ arrays, array.length = length) :
    groups.flatten.foldlM plane.multisortStep done = some (done ++ arrays) := by
  induction h generalizing done with
  | nil => rw [append_nil]; rfl
  | @cons arguments array groups arrays hpassed h ih =>
    have hfresh : array.slotIndex ∉ done.map NativeMultisortArray.slotIndex := by
      rw [map_append, map_cons] at hnodup
      exact fun hmem => (nodup_append.mp hnodup).2.2 _ hmem _ mem_cons_self rfl
    have hsame : ∀ other ∈ done, other.length = array.length := fun other hother => by
      rw [hlength other (mem_append_left _ hother), hlength array (mem_append_right _ mem_cons_self)]
    rw [flatten_cons, foldlM_append, hpassed.fold hfresh hsame, bind_eq_bind, bind_some]
    rw [append_cons done array arrays] at hnodup hlength ⊢
    exact ih hnodup hlength

/-! ## The sorts -/

/-- Every key of an array owns its slot, and every array fits the arena of entries. -/
structure WellFormed (plane : DirectPlane F) : Prop where
  owned : plane.Owned ((List.range plane.slots.length).flatMap plane.keysAt)
  capacity (index : Nat) : (plane.entriesAt index).length ≤ directArrayEntryCapacity

theorem WellFormed.owned_flatMap (h : plane.WellFormed)
    (hnodup : indexes.Nodup) (hbounds : ∀ index ∈ indexes, index < plane.slots.length) :
    plane.Owned (indexes.flatMap plane.keysAt) := by
  obtain ⟨indexes', hperm, hsub⟩ := subperm_of_subset hnodup
    fun index hindex => mem_range.mpr (hbounds index hindex)
  exact h.owned.mono ⟨_, hperm.flatMap fun _ _ => .refl _, hsub.flatMap _⟩

theorem ArrayAt.lt (h : plane.ArrayAt index entries) : index < plane.slots.length :=
  let ⟨_, hslot⟩ := h
  (List.getElem?_eq_some_iff.mp hslot).1

theorem nativeSortOrder_reverse (plane : DirectPlane F) (context : SortContext F) (options : SortOptions)
    (flags : Int) (left right : DirectArrayEntry) :
    plane.nativeSortOrder context options flags left right =
      (plane.nativeSortOrder context { options with reverse := false } flags left right).map
        fun ordering => if options.reverse then ordering.swap else ordering := by
  simp [nativeSortOrder]

theorem entriesOrder_preorders {length : Nat}
    (h : Preorders (plane.entriesOrder context { options with reverse := false } flags entries) length) :
    Preorders (plane.entriesOrder context options flags entries) length := by
  have heq : plane.entriesOrder context options flags entries = fun left right =>
      (plane.entriesOrder context { options with reverse := false } flags entries left right).map
        fun ordering => if options.reverse then ordering.swap else ordering := by
    funext left right
    rw [entriesOrder, entriesOrder]
    cases entries[left]? with
    | none => rfl
    | some first =>
      cases entries[right]? with
      | none => rfl
      | some second => exact nativeSortOrder_reverse plane context options flags first second
  rw [heq]
  cases options.reverse with
  | true => exact h.reverse
  | false =>
    simp only [Bool.false_eq_true, if_false, Option.map_id']
    exact h

/-- What a successful sort of one array leaves behind. -/
structure SortedAt (plane : DirectPlane F) (options : SortOptions) (index : Nat)
    (entries : List DirectArrayEntry) (order : List Nat) (plane' : DirectPlane F) : Prop where
  array : plane'.slots[index]? = some ⟨1, .array (if options.preserveKeys then arrange entries order
      else renumbered (fun _ => true) 0 (arrange entries order))
    (if entries = [] then none else some 0)⟩
  frame {i : Nat} : i ≠ index →
    (options.preserveKeys ∨ ∀ entry ∈ entries, directValueIndex entry.key ≠ some i) →
    plane'.slots[i]? = plane.slots[i]?

theorem nativeSort_none (h : (plane.nativeSort context options reference flags).1 = none) :
    (plane.nativeSort context options reference flags).2 = plane := by
  rw [nativeSort] at h ⊢
  split
  · next hreference =>
    simp only [hreference] at h
    split
    · next harray =>
      simp only [harray] at h
      split
      · rfl
      · next hlength =>
        rw [if_neg hlength] at h
        split
        · rfl
        · next horder =>
          rw [horder] at h
          cases h
    · rfl
  · rfl

theorem nativeSort_sorted (hplane : plane.WellFormed)
    (hreference : plane.directSlot reference = some (referenceIndex, ⟨refcount, .reference empty array⟩))
    (harray : plane.directSlot array = some (index, ⟨1, .array entries cursor⟩))
    (horder : sorted (plane.entriesOrder context options flags entries) entries.length = some order) :
    ∃ plane', plane.nativeSort context options reference flags = (some (), plane') ∧
      SortedAt plane options index entries order plane' := by
  have hslot := directSlot_getElem? harray
  have hat : plane.ArrayAt index entries := ⟨cursor, hslot⟩
  have hperm := sorted_perm horder
  have hplaced := place_exchange hperm
  have hlength : ¬2 ^ 32 < entries.length := by
    have := hplane.capacity index
    rw [hat.entriesAt_eq, directArrayEntryCapacity] at this
    omega
  have howned : plane.Owned (entries.map DirectArrayEntry.key) := by
    have h := hplane.owned_flatMap (nodup_singleton index) fun i hi => mem_singleton.mp hi ▸ hat.lt
    rwa [flatMap_singleton, keysAt, hat.entriesAt_eq] at h
  have hmoved : Rearranged plane [index] (place exchange order) (place (swapEntries index) order plane) :=
    rearranged_place plane (nodup_singleton index) order
  have hmovedArray := hmoved.array (mem_singleton_self index) hslot
  rw [hplaced] at hmovedArray
  rw [nativeSort, hreference]
  simp only [harray]
  rw [if_neg hlength, horder]
  refine ⟨_, rfl, ?_⟩
  cases hkeys : options.preserveKeys with
  | true =>
    refine ⟨?_, fun hi _ => ?_⟩
    · rw [if_pos rfl, hkeys, if_pos rfl]
      exact ArrayAt.setCursor ⟨cursor, hmovedArray⟩ _
    · rw [setCursor_frame _ hi, if_pos rfl]
      exact hmoved.frame fun hmem => hi (mem_singleton.mp hmem)
  | false =>
    have hlist : (arrange entries order).Perm entries := arrange_perm hperm
    have hkept : Keeps ((arrange entries order).map DirectArrayEntry.key) plane
        (place (swapEntries index) order plane) :=
      (hmoved.keeps howned).mono (hlist.map _).subperm
    obtain ⟨hfold, hframe⟩ := renumber_fold [] (arrange entries order) hmovedArray hkept.owned
    rw [length_nil, hlist.length_eq, ← range_eq_range'] at hfold hframe
    refine ⟨?_, fun {i} hi hother => ?_⟩
    · rw [if_neg Bool.false_ne_true, hkeys, if_neg Bool.false_ne_true]
      exact ArrayAt.setCursor ⟨cursor, hfold⟩ _
    rw [hkeys] at hother
    rw [setCursor_frame _ hi, if_neg Bool.false_ne_true, hframe i hi fun entry hentry => ?_]
    · exact hmoved.frame fun hmem => hi (mem_singleton.mp hmem)
    · exact (hother.resolve_left Bool.false_ne_true) entry (hlist.mem_iff.mp hentry)

/-- What a successful sort of several arrays leaves behind. -/
structure MultisortedAt (plane : DirectPlane F) (arrays : List NativeMultisortArray) (order : List Nat)
    (plane' : DirectPlane F) : Prop where
  array {array : NativeMultisortArray} : array ∈ arrays → ∃ entries, plane.ArrayAt array.slotIndex entries ∧
    order.Perm (List.range entries.length) ∧
    plane'.ArrayAt array.slotIndex (renumbered plane.isIntegerKey 0 (arrange entries order))
  frame {i : Nat} : i ∉ arrays.map NativeMultisortArray.slotIndex →
    (∀ array ∈ arrays, ∀ key ∈ plane.keysAt array.slotIndex, directValueIndex key ≠ some i) →
    plane'.slots[i]? = plane.slots[i]?

theorem multisortKeys_sorted (hplane : plane.WellFormed) (harguments : plane.Arguments (shape arrays))
    (hkeys : ∀ array ∈ arrays, ∀ entry ∈ plane.entriesAt array.slotIndex, plane.isMultisortKey entry.key)
    (order : List Nat) (horder : ∀ array ∈ arrays, order.Perm (List.range array.length)) :
    ∃ plane', multisortKeys arrays (place (swapAll arrays) order plane) = (some (), plane') ∧
      MultisortedAt plane arrays order plane' := by
  have hnodup : (arrays.map NativeMultisortArray.slotIndex).Nodup := by
    have := harguments.nodup
    rwa [shape, List.map_map] at this
  have hat {array : NativeMultisortArray} (hmem : array ∈ arrays) :
      ∃ entries, plane.ArrayAt array.slotIndex entries ∧ entries.length = array.length :=
    harguments.array (mem_map_of_mem hmem)
  have hswap : (swapAll arrays : Nat → Nat → DirectPlane F → DirectPlane F) =
      swapIndexes (arrays.map NativeMultisortArray.slotIndex) := by
    funext left right plane
    rw [swapAll, swapIndexes, foldl_map]
  rw [hswap]
  have hmoved := rearranged_place plane hnodup order
  generalize place (swapIndexes (arrays.map NativeMultisortArray.slotIndex)) order plane = moved at hmoved
  have howned : plane.Owned ((arrays.map NativeMultisortArray.slotIndex).flatMap plane.keysAt) := by
    refine hplane.owned_flatMap hnodup fun index hindex => ?_
    obtain ⟨array, hmem, rfl⟩ := mem_map.mp hindex
    obtain ⟨_, h, -⟩ := hat hmem
    exact h.lt
  rw [flatMap_map] at howned
  have hkept := hmoved.keeps howned
  -- Each array holds the same entries as before, in the order of the plan.
  have hentries {array : NativeMultisortArray} (hmem : array ∈ arrays) {entries : List DirectArrayEntry}
      (h : plane.ArrayAt array.slotIndex entries) (hlength : entries.length = array.length) :
      moved.ArrayAt array.slotIndex (arrange entries order) ∧ (arrange entries order).Perm entries := by
    have hperm : order.Perm (List.range entries.length) := hlength ▸ horder array hmem
    obtain ⟨cursor, hslot⟩ := h
    have hplaced := hmoved.array (mem_map_of_mem hmem) hslot
    rw [place_exchange hperm] at hplaced
    exact ⟨⟨cursor, hplaced⟩, arrange_perm hperm⟩
  have hkeysAt {array : NativeMultisortArray} (hmem : array ∈ arrays) :
      (moved.keysAt array.slotIndex).Perm (plane.keysAt array.slotIndex) := by
    obtain ⟨entries, h, hlength⟩ := hat hmem
    obtain ⟨h', hperm⟩ := hentries hmem h hlength
    rw [keysAt, keysAt, h.entriesAt_eq, h'.entriesAt_eq]
    exact hperm.map _
  obtain ⟨plane', hpass, hresult, hframe⟩ := multisortKeys_spec
    (fun array hmem => by
      obtain ⟨entries, h, hlength⟩ := hat hmem
      obtain ⟨h', hperm⟩ := hentries hmem h hlength
      have hcapacity := hplane.capacity array.slotIndex
      rw [h.entriesAt_eq, directArrayEntryCapacity] at hcapacity
      refine ⟨_, h', by rw [hperm.length_eq, hlength], by rw [hperm.length_eq]; omega, fun entry hentry => ?_⟩
      have hmem' : entry ∈ plane.entriesAt array.slotIndex := h.entriesAt_eq ▸ hperm.mem_iff.mp hentry
      rw [isMultisortKey, hkept.scalar (mem_flatMap.mpr ⟨array, hmem, mem_map_of_mem hmem'⟩)]
      exact hkeys array hmem entry hmem')
    hnodup (hkept.owned.mono (List.Perm.flatMap_left _ fun array hmem => hkeysAt hmem).subperm)
  refine ⟨plane', hpass, fun {array} hmem => ?_, fun {i} hi hne => ?_⟩
  · obtain ⟨entries, h, hlength⟩ := hat hmem
    obtain ⟨h', hperm⟩ := hentries hmem h hlength
    refine ⟨entries, h, hlength ▸ horder array hmem, ?_⟩
    have hfinal := hresult array hmem
    rwa [h'.entriesAt_eq, hkept.renumbered_eq fun entry hentry => mem_flatMap.mpr
      ⟨array, hmem, mem_map_of_mem (h.entriesAt_eq ▸ hperm.mem_iff.mp hentry)⟩] at hfinal
  · rw [hframe i hi fun array hmem key hkey => hne array hmem key ((hkeysAt hmem).mem_iff.mp hkey), hmoved.frame hi]

/-- Nothing fails once the plan is sorted. -/
theorem nativeArrayMultisort_cases (hplane : plane.WellFormed)
    (context : SortContext F) (arguments : List Int) :
    plane.nativeArrayMultisort context arguments = (none, plane) ∨
      ∃ first rest order plane', plane.multisortArrays arguments = some (first :: rest) ∧
        sorted (plane.multisortOrder context (first :: rest)) first.length = some order ∧
        plane.nativeArrayMultisort context arguments = (some (), plane') ∧
        MultisortedAt plane (first :: rest) order plane' := by
  rw [nativeArrayMultisort]
  split
  · exact .inl rfl
  · exact .inl rfl
  · next first rest harrays =>
    have harguments := plane.arguments_nil.fold harrays
    simp only
    split
    · next hkeys =>
      split
      · exact .inl rfl
      split
      · exact .inl rfl
      · next order horder =>
        have hkeys : ∀ array ∈ first :: rest, ∀ entry ∈ plane.entriesAt array.slotIndex,
            plane.isMultisortKey entry.key := fun array hmem entry hentry =>
          all_eq_true.mp (all_eq_true.mp hkeys array hmem) entry hentry
        obtain ⟨plane', hpass, hsorted⟩ := multisortKeys_sorted hplane harguments hkeys order
          fun array hmem => by
            rw [harguments.length (mem_map_of_mem hmem) rfl]
            exact sorted_perm horder
        exact .inr ⟨first, rest, order, plane', harrays, horder, hpass, hsorted⟩
    · exact .inl rfl

theorem multisortOrder_preorders {length : Nat} (h : ∀ array ∈ arrays, Preorders
      (plane.entriesOrder context {} array.flags (plane.entriesAt array.slotIndex)) length) :
    Preorders (plane.multisortOrder context arrays) length := by
  induction arrays with
  | nil => exact ⟨fun _ _ => ⟨.eq, rfl, rfl⟩, fun _ _ _ _ _ => nofun⟩
  | cons array arrays ih =>
    obtain ⟨hfirst, hrest⟩ := forall_mem_cons.mp h
    have hown : Preorders (plane.entriesOrder context { reverse := array.reverse } array.flags
        (plane.entriesAt array.slotIndex)) length := entriesOrder_preorders hfirst
    refine Eq.mp (congrArg (Preorders · length) ?_) (hown.lex (ih hrest))
    funext left right
    rw [multisortOrder]
    split
    · next heq => rw [heq]
    · next hne =>
      split
      · next heq => exact absurd heq hne
      · rfl

/-- Several arrays are sorted whenever their keys and all comparisons are supported. -/
theorem nativeArrayMultisort_sorted {length : Nat} (hplane : plane.WellFormed) (hpassed : Forall₂ plane.Passed groups arrays)
    (hne : arrays ≠ []) (hnodup : (arrays.map NativeMultisortArray.slotIndex).Nodup)
    (hlength : ∀ array ∈ arrays, array.length = length)
    (hkeys : ∀ array ∈ arrays, ∀ entry ∈ plane.entriesAt array.slotIndex, plane.isMultisortKey entry.key)
    (horder : sorted (plane.multisortOrder context arrays) length = some order) :
    (plane.nativeArrayMultisort context groups.flatten).1 = some () ∧
      MultisortedAt plane arrays order (plane.nativeArrayMultisort context groups.flatten).2 := by
  have harrays : plane.multisortArrays groups.flatten = some arrays := multisortArrays_of_passed hpassed hnodup hlength
  have harguments := plane.arguments_nil.fold harrays
  obtain ⟨plane', hpass, hsorted⟩ := multisortKeys_sorted hplane harguments hkeys order
    fun array hmem => hlength array hmem ▸ sorted_perm horder
  obtain _ | ⟨first, rest⟩ := arrays
  · exact absurd rfl hne
  have hall : (first :: rest).all (fun array =>
      (plane.entriesAt array.slotIndex).all fun entry => plane.isMultisortKey entry.key) :=
    all_eq_true.mpr fun array hmem => all_eq_true.mpr (hkeys array hmem)
  have hfits : ¬2 ^ 32 < first.length := by
    obtain ⟨entries, hat, heq⟩ := harguments.array (mem_map_of_mem mem_cons_self)
    have hcapacity := hplane.capacity first.slotIndex
    rw [hat.entriesAt_eq, heq, directArrayEntryCapacity] at hcapacity
    omega
  rw [← hlength first mem_cons_self] at horder
  have heq : plane.nativeArrayMultisort context groups.flatten = (some (), plane') := by
    rw [nativeArrayMultisort, harrays]
    simp only
    rw [if_pos hall, if_neg hfits, horder]
    exact hpass
  rw [heq]
  exact ⟨rfl, hsorted⟩

/-- A sort fails and changes nothing, or leaves the stable rearrangement; several arrays are rearranged by one
stable plan. -/
theorem nativeSorting_stable {plane : DirectPlane F} (hplane : plane.WellFormed) (context : SortContext F) :
    (∀ options reference flags, ((plane.nativeSort context options reference flags).1 = none →
        (plane.nativeSort context options reference flags).2 = plane) ∧
      ∀ referenceIndex refcount empty array index entries cursor,
        plane.directSlot reference = some (referenceIndex, ⟨refcount, .reference empty array⟩) →
        plane.directSlot array = some (index, ⟨1, .array entries cursor⟩) →
        Preorders (plane.entriesOrder context { options with reverse := false } flags entries) entries.length →
        ∃ order, Stable (plane.entriesOrder context options flags entries) entries.length order ∧
          (∀ other, Stable (plane.entriesOrder context options flags entries) entries.length other →
            other = order) ∧
          (plane.nativeSort context options reference flags).1 = some () ∧
          SortedAt plane options index entries order (plane.nativeSort context options reference flags).2) ∧
    (∀ arguments,
      ((plane.nativeArrayMultisort context arguments).1 = none →
        (plane.nativeArrayMultisort context arguments).2 = plane) ∧
      ((plane.nativeArrayMultisort context arguments).1 = some () →
        ∃ first rest order, plane.multisortArrays arguments = some (first :: rest) ∧
          sorted (plane.multisortOrder context (first :: rest)) first.length = some order ∧
          MultisortedAt plane (first :: rest) order (plane.nativeArrayMultisort context arguments).2)) ∧
    ∀ groups arrays length, Forall₂ plane.Passed groups arrays → arrays ≠ [] →
      (arrays.map NativeMultisortArray.slotIndex).Nodup → (∀ array ∈ arrays, array.length = length) →
      (∀ array ∈ arrays, ∀ entry ∈ plane.entriesAt array.slotIndex, plane.isMultisortKey entry.key) →
      (∀ array ∈ arrays,
        Preorders (plane.entriesOrder context {} array.flags (plane.entriesAt array.slotIndex)) length) →
      ∃ order, Stable (plane.multisortOrder context arrays) length order ∧
        (∀ other, Stable (plane.multisortOrder context arrays) length other → other = order) ∧
        (plane.nativeArrayMultisort context groups.flatten).1 = some () ∧
        MultisortedAt plane arrays order (plane.nativeArrayMultisort context groups.flatten).2 := by
  refine ⟨fun options reference flags => ⟨nativeSort_none, ?_⟩, fun arguments => ?_, ?_⟩
  · intro referenceIndex refcount empty array index entries cursor hreference harray hpreorders
    have hpreorders := entriesOrder_preorders hpreorders
    obtain ⟨order, horder, hstable⟩ := sorted_stable hpreorders
    obtain ⟨plane', hsort, hsorted⟩ := nativeSort_sorted hplane hreference harray horder
    rw [hsort]
    exact ⟨order, hstable, fun other hother => hother.unique hpreorders hstable, rfl, hsorted⟩
  · rcases nativeArrayMultisort_cases hplane context arguments with
      hnone | ⟨first, rest, order, plane', harrays, horder, hsort, hsorted⟩
    · rw [hnone]
      exact ⟨fun _ => rfl, nofun⟩
    · rw [hsort]
      exact ⟨nofun, fun _ => ⟨first, rest, order, harrays, horder, hsorted⟩⟩
  · intro groups arrays length hpassed hne hnodup hlength hkeys hpreorders
    have hpreorders := multisortOrder_preorders hpreorders
    obtain ⟨order, horder, hstable⟩ := sorted_stable hpreorders
    exact ⟨order, hstable, fun other hother => hother.unique hpreorders hstable,
      nativeArrayMultisort_sorted hplane hpassed hne hnodup hlength hkeys horder⟩

def sortedEntries : List DirectArrayEntry :=
  [⟨encodeDirectSlotIndex 2 jitValueRuntimeStringTag, 2⟩, ⟨7, 1⟩, ⟨8, 2⟩]

/-- References to the arrays `["b" => 2, 7 => 1, 8 => 2]` and `[5, 6, 9]`. -/
def sortedPlane : DirectPlane (Option Int) where
  constants := []
  slots := [ ⟨1, .reference false (encodeDirectSlotIndex 1 jitValueRuntimeArrayTag)⟩,
    ⟨1, .array sortedEntries none⟩,
    ⟨1, .string [98]⟩,
    ⟨1, .reference false (encodeDirectSlotIndex 4 jitValueRuntimeArrayTag)⟩,
    ⟨1, .array [⟨0, 5⟩, ⟨1, 6⟩, ⟨2, 9⟩] none⟩]

def sortedContext : SortContext (Option Int) := ⟨wholeFloats, noObjects, fun _ _ _ => .eq, fun _ => none⟩

/-- The second array is sorted in descending order. -/
def sortedArrays : List NativeMultisortArray :=
  [{ slotIndex := 1, length := 3 }, { slotIndex := 4, length := 3, reverse := true, directionSeen := true }]

theorem sortedPlane_wellFormed : sortedPlane.WellFormed := by
  refine ⟨fun word hword => ?_, fun index => ?_⟩
  · have hwords : (List.range sortedPlane.slots.length).flatMap sortedPlane.keysAt =
        [encodeDirectSlotIndex 2 jitValueRuntimeStringTag, 7, 8, 0, 1, 2] := rfl
    rcases mem_cons.mp (hwords ▸ hword) with rfl | hword
    · exact .inr ⟨2, ⟨1, .string [98]⟩, by decide, rfl, trivial, by decide⟩
    · have hnone : ∀ word ∈ ([7, 8, 0, 1, 2] : List Int), jitDecodeRuntimeValue word = none := by decide
      exact .inl (hnone word hword)
  · match index with
    | 0 | 1 | 2 | 3 | 4 => exact le_of_ble_eq_true rfl
    | _ + 5 => exact zero_le _

theorem preorders_of_ranks {cmp : Nat → Nat → Option Ordering} {length : Nat} (rank : Nat → Nat)
    (h : ∀ i < length, ∀ j < length, cmp i j = some (compare (rank i) (rank j))) : Preorders cmp length := by
  constructor
  · intro i j hi hj
    exact ⟨_, h i hi j hj, by rw [h j hj i hi, Nat.compare_swap]⟩
  · intro i j k hi hj hk hij hjk
    rw [h _ ‹_› _ ‹_›, ne_eq, some_inj, ← ne_eq, Nat.compare_ne_gt] at *
    exact le_trans hij hjk

/-- `sort` makes the first array `[1, 2, 2]`; `array_multisort` makes the two `[1, 2, "b" => 2]` and
`[6, 9, 5]`. -/
theorem nativeSort_sortedPlane :
    (sortedPlane.nativeSort sortedContext {} (encodeDirectSlotIndex 0 jitValueRuntimeTag) 0).2.slots[1]? =
      some ⟨1, .array [⟨0, 1⟩, ⟨1, 2⟩, ⟨2, 2⟩] (some 0)⟩ ∧
    (sortedPlane.nativeArrayMultisort sortedContext [encodeDirectSlotIndex 0 jitValueRuntimeTag,
        encodeDirectSlotIndex 3 jitValueRuntimeTag, 3]).1 = some () ∧
    (sortedPlane.nativeArrayMultisort sortedContext [encodeDirectSlotIndex 0 jitValueRuntimeTag,
        encodeDirectSlotIndex 3 jitValueRuntimeTag, 3]).2.ArrayAt 1
      [⟨0, 1⟩, ⟨1, 2⟩, ⟨encodeDirectSlotIndex 2 jitValueRuntimeStringTag, 2⟩] ∧
    (sortedPlane.nativeArrayMultisort sortedContext [encodeDirectSlotIndex 0 jitValueRuntimeTag,
        encodeDirectSlotIndex 3 jitValueRuntimeTag, 3]).2.ArrayAt 4 [⟨0, 6⟩, ⟨1, 9⟩, ⟨2, 5⟩] := by
  have hfirst : Preorders (sortedPlane.entriesOrder sortedContext {} 0 sortedEntries) 3 :=
    preorders_of_ranks (fun i => if i = 1 then 0 else 1) (by decide)
  have hsecond : Preorders (sortedPlane.entriesOrder sortedContext {} 0 [⟨0, 5⟩, ⟨1, 6⟩, ⟨2, 9⟩]) 3 :=
    preorders_of_ranks id (by decide)
  obtain ⟨hsort, -, hmultisort⟩ := nativeSorting_stable sortedPlane_wellFormed sortedContext
  constructor
  · obtain ⟨order, -, hunique, -, hsorted⟩ := (hsort {} (encodeDirectSlotIndex 0 jitValueRuntimeTag) 0).2 0 1 false
      (encodeDirectSlotIndex 1 jitValueRuntimeArrayTag) 1 sortedEntries none (by decide) (by decide) hfirst
    rw [hsorted.array, ← hunique [1, 0, 2] ⟨.swap _ _ _, by decide⟩]
    rfl
  · have hpassed : sortedPlane.Passed [encodeDirectSlotIndex 3 jitValueRuntimeTag] { slotIndex := 4, length := 3 } :=
      .reference rfl rfl rfl
    obtain ⟨order, -, hunique, hsome, hsorted⟩ := hmultisort
      [[encodeDirectSlotIndex 0 jitValueRuntimeTag], [encodeDirectSlotIndex 3 jitValueRuntimeTag, 3]] sortedArrays 3
      (.cons (.reference rfl rfl rfl) (.cons (hpassed.direction rfl true) .nil))
      (by decide) (by decide) (by decide) (by decide) (by
        intro array harray
        rcases mem_pair.mp harray with rfl | rfl
        · exact hfirst
        · exact hsecond)
    have horder := hunique [1, 2, 0] ⟨by decide, by decide⟩
    subst horder
    refine ⟨hsome, ?_, ?_⟩
    · obtain ⟨entries, ⟨cursor, hslot⟩, -, hresult⟩ := hsorted.array (mem_cons_self ..)
      cases hslot
      exact hresult
    · obtain ⟨entries, ⟨cursor, hslot⟩, -, hresult⟩ := hsorted.array (mem_cons_of_mem _ mem_cons_self)
      cases hslot
      exact hresult

end DirectPlane
end Phrust
