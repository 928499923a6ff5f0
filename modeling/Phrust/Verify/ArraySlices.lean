import Phrust.Runtime.ArraySlices
import Phrust.Verify.ArrayRuns

/-!
# Slice and splice partition an array

Both builtins select the range that the offset and the length describe, and the entries that go into a new
array come out of it in order, with their keys or with the integer keys renumbered. On the arrays of the
runtime the builtins do the same.
-/

namespace Phrust
open List ReferenceArray
variable {V : Type} {entries : List (ArrayKey × V)} {array : ReferenceArray V}

/-- String keys are kept and integer keys are renumbered in order. -/
def renumberKeys : Nat → List (ArrayKey × V) → List (ArrayKey × V)
  | _, [] => []
  | n, (.int _, value) :: entries => (.int n, value) :: renumberKeys (n + 1) entries
  | n, (.string name, value) :: entries => (.string name, value) :: renumberKeys n entries

def stringName : ArrayKey → Option PhpString
  | .int _ => none
  | .string name => some name

def stringNames (entries : List (ArrayKey × V)) : List PhpString :=
  (entries.map Prod.fst).filterMap stringName

theorem stringNames_append (entries entries' : List (ArrayKey × V)) :
    stringNames (entries ++ entries') = stringNames entries ++ stringNames entries' := by
  rw [stringNames, map_append, filterMap_append]
  rfl

/-- A new key goes to the end. -/
theorem entries_insert (h : key ∉ array.map.entries.map Prod.fst) (value : V) :
    (array.insert key value).2.map.entries = array.map.entries ++ [(key, value)] := by
  rw [ReferenceArray.insert, OrderedMap.insert_of_none (OrderedMap.indexOf_eq_none_iff.mpr h)]
  rfl

theorem next_insert {n : Nat} (h : array.next.getD 0 = n) (hlt : (n : Int) < i64Max) (value : V) :
    (array.insert (.int n) value).2.next.getD 0 = (n + 1 : Nat) := by
  have hadd : saturatingAdd n 1 = n + 1 := by
    simp only [saturatingAdd, i64Min]
    omega
  show (nextAfter array.next (.int n)).getD 0 = _
  rw [nextAfter, hadd, if_pos]
  · rfl
  · cases hnext : array.next with
    | none => rfl
    | some next =>
      obtain rfl : next = n := by rw [hnext] at h; exact h
      simp

theorem entries_foldl_spreadEntry {n : Nat} (hnext : array.next.getD 0 = n)
    (hlen : (n + entries.length : Int) ≤ i64Max)
    (hint : ∀ m : Int, .int m ∈ array.map.entries.map Prod.fst → m < n)
    (hnames : (stringNames array.map.entries ++ stringNames entries).Nodup) :
    (entries.foldl spreadEntry array).map.entries = array.map.entries ++ renumberKeys n entries := by
  induction entries generalizing n array with
  | nil => exact (append_nil _).symm
  | cons pair entries ih =>
    obtain ⟨key, value⟩ := pair
    rw [length_cons] at hlen
    cases key with
    | int k =>
      have hinsert := entries_insert (fun h => Int.lt_irrefl _ (hint n h)) value
      have happend : array.spreadEntry (.int k, value) = (array.insert (.int n) value).2 := by
        rw [spreadEntry, append, tryAppend, hnext, if_neg (by omega)]
      rw [foldl_cons, happend, ih (next_insert hnext (by omega) value), hinsert, append_assoc]
      · rfl
      · omega
      · simp only [hinsert, map_append, mem_append]
        rintro m (h | h)
        · have := hint m h
          omega
        · cases mem_singleton.mp h
          omega
      · rw [hinsert, stringNames_append, append_assoc]
        exact hnames
    | string name =>
      have hinsert : (array.insert (.string name) value).2.map.entries =
          array.map.entries ++ [(.string name, value)] := by
        refine entries_insert (fun h => ?_) value
        exact (nodup_append.mp hnames).2.2 name (mem_filterMap.mpr ⟨_, h, rfl⟩) name mem_cons_self rfl
      have hnext : (array.insert (.string name) value).2.next.getD 0 = n := hnext
      refine (ih hnext ?_ ?_ ?_).trans ?_
      · omega
      · simp only [hinsert, map_append, mem_append]
        rintro m (h | h)
        · exact hint m h
        · cases mem_singleton.mp h
      · rw [hinsert, stringNames_append, append_assoc]
        exact hnames
      · rw [hinsert, append_assoc]
        rfl

theorem entries_reindexInts (hlen : (entries.length : Int) ≤ i64Max) (hnames : (stringNames entries).Nodup) :
    (arrayFromEntriesReindexInts entries).map.entries = renumberKeys 0 entries :=
  entries_foldl_spreadEntry rfl (by simpa using hlen) nofun hnames

theorem entries_foldl_insert (h : (array.map.entries ++ entries).map Prod.fst |>.Nodup) :
    (entries.foldl (fun array (key, value) => (array.insert key value).2) array).map.entries =
      array.map.entries ++ entries := by
  induction entries generalizing array with
  | nil => exact (append_nil _).symm
  | cons pair entries ih =>
    obtain ⟨key, value⟩ := pair
    have hinsert : (array.insert key value).2.map.entries = array.map.entries ++ [(key, value)] := by
      rw [map_append, nodup_append] at h
      exact entries_insert (fun hmem => h.2.2 key hmem key mem_cons_self rfl) value
    rw [foldl_cons, ih (by rw [hinsert, append_assoc]; exact h), hinsert, append_assoc]
    rfl

/-! ## The range -/

/-- A negative offset counts from the end. -/
def phpSliceStart (len : Nat) (offset : Int) : Int := if offset < 0 then max 0 (len + offset) else min offset len

/-- With a negative length the range stops that far from the end. -/
def phpSliceCount (len start : Nat) : Option Int → Int
  | none => len - start
  | some length => if length < 0 then max 0 (len - start + length) else min length (len - start)

/-- Both builtins resolve the same range. -/
theorem sliceBounds_eq (len : Nat) (hlen : (len : Int) ≤ i64Max) (offset : Int) (length : Option Int) :
    ∃ start count : Nat, start + count ≤ len ∧ start = phpSliceStart len offset ∧
      count = phpSliceCount len start length ∧ normalizeSliceStart len offset = start ∧
      sliceBounds len offset length = (start, start + count) ∧
      (length.map (spliceLength len start)).getD (len - start) = count := by
  have hstart : normalizeSliceStart len offset ≤ len ∧
      (normalizeSliceStart len offset : Int) = phpSliceStart len offset := by
    rw [normalizeSliceStart, phpSliceStart]
    split <;> omega
  refine ⟨_, _, ?_, hstart.2, ?_, rfl, ?_, rfl⟩
  all_goals
    cases length with
    | none =>
      simp only [sliceBounds, phpSliceCount, Prod.mk.injEq, true_and, Option.map_none, Option.getD_none]
      omega
    | some length =>
      simp only [sliceBounds, phpSliceCount, Prod.mk.injEq, true_and, Option.map_some, Option.getD_some,
        spliceLength, usizeLimit]
      simp only [i64Max] at hlen
      split <;> omega

theorem slice_eq {count : Nat} (h : start + count ≤ l.length) :
    slice l start (start + count) = some ((l.drop start).take count) := by
  rw [slice, if_pos ⟨Nat.le_add_right _ _, h⟩, drop_take, Nat.add_sub_cancel_left]

theorem spliceEntries_eq (entries : List (ArrayKey × V)) (hlen : (entries.length : Int) ≤ i64Max) (offset : Int) (length : Option Int) :
    ∃ before removed after, entries = before ++ (removed ++ after) ∧
      before.length = phpSliceStart entries.length offset ∧
      removed.length = phpSliceCount entries.length before.length length ∧
      sliceEntries entries offset length = some removed ∧ ∀ replacement,
        spliceEntries entries offset length replacement =
          some (removed, before ++ replacement.map (.int 0, ·) ++ after) := by
  obtain ⟨start, count, hcount, hstart, hremoved, hnormalized, hbounds, hlength⟩ :=
    sliceBounds_eq entries.length hlen offset length
  have hbefore : slice entries 0 start = some (entries.take start) := by
    simp [slice, Nat.le_of_add_right_le hcount]
  have hafter : slice entries (start + count) entries.length = some (entries.drop (start + count)) := by
    simp [slice, hcount]
  have hrange : start + count < usizeLimit := by
    simp only [usizeLimit, i64Max] at *
    omega
  have htake : (entries.take start).length = start := by
    rw [length_take, Nat.min_eq_left (Nat.le_of_add_right_le hcount)]
  refine ⟨entries.take start, (entries.drop start).take count, entries.drop (start + count), ?_, ?_, ?_, ?_, ?_⟩
  · rw [← drop_drop, take_append_drop, take_append_drop]
  · rw [htake, hstart]
  · rw [htake, length_take, length_drop, Nat.min_eq_left (by omega), hremoved]
  · simp only [sliceEntries, hbounds, slice_eq hcount]
  · intro replacement
    simp only [spliceEntries, hnormalized, hlength, hrange, if_true, Option.bind_eq_bind, Option.bind_some,
      slice_eq hcount, hbefore, hafter]
    rfl

namespace PhpArray
variable [ValueKind V] {ref : ReferenceArray V} {cache : ShapeCache}

omit [ValueKind V] in
/-- A loop whose steps follow the reference and add at most one entry each. -/
theorem foldlM_refines {entry : PhpArray V × ShapeCache → α → Option (PhpArray V × ShapeCache)}
    {refEntry : ReferenceArray V → α → ReferenceArray V}
    (hgrow : ∀ ref pair, (refEntry ref pair).map.entries.length ≤ ref.map.entries.length + 1) {pairs : List α}
    (hentry : ∀ {cache array ref}, Refines cache array ref → array.len < 2 ^ 32 → ∀ pair ∈ pairs,
      ∃ array' cache', entry (array, cache) pair = some (array', cache') ∧ cache.Extends cache' ∧
        Refines cache' array' (refEntry ref pair))
    {array : PhpArray V} (R : Refines cache array ref) (hlen : ref.map.entries.length + pairs.length ≤ 2 ^ 32) :
    ∃ array' cache', pairs.foldlM entry (array, cache) = some (array', cache') ∧ cache.Extends cache' ∧
      Refines cache' array' (pairs.foldl refEntry ref) := by
  induction pairs generalizing cache array ref with
  | nil => exact ⟨array, cache, rfl, .rfl, R⟩
  | cons pair pairs ih =>
    rw [length_cons] at hlen
    obtain ⟨array', cache', hstep, hext, R'⟩ := hentry R (by rw [R.observes.len]; omega) pair mem_cons_self
    obtain ⟨array'', cache'', hfold, hext', R''⟩ := ih (fun R hroom pair hpair =>
      hentry R hroom pair (mem_cons_of_mem _ hpair)) R' (by have := hgrow ref pair; omega)
    refine ⟨array'', cache'', ?_, hext.trans hext', R''⟩
    rw [foldlM_cons, hstep]
    exact hfold

variable (hcache : cache.Valid) (env : Env) (hlen : entries.length ≤ 2 ^ 32)
include hcache hlen

theorem reindexInts_refines : ∃ array' cache', arrayFromEntriesReindexInts env cache entries = some (array', cache') ∧
      cache.Extends cache' ∧ Refines cache' array' (Phrust.arrayFromEntriesReindexInts entries) := by
  refine foldlM_refines (fun ref pair => ?_) (fun R hroom pair _ => ?_) (new_refines hcache)
    ((Nat.zero_add _).trans_le hlen)
  · obtain ⟨key, value⟩ := pair
    cases key with
    | string name => exact OrderedMap.length_insert_le ..
    | int n =>
      rw [ReferenceArray.spreadEntry, ReferenceArray.append, ReferenceArray.tryAppend]
      by_cases hfull : ref.next.getD 0 = i64Max ∧ (ref.map.get (.int i64Max)).isSome
      · rw [if_pos hfull]
        exact Nat.le_succ _
      · rw [if_neg hfull]
        exact OrderedMap.length_insert_le ..
  · obtain ⟨array', cache', hentry, L⟩ :=
      spreadEntry_refines R (show SlotRoom env _ pair.1 from fun _ _ _ _ _ => hroom)
    exact ⟨array', cache', hentry, L.extends_cache, L.refines⟩

theorem preserve_refines (hkeys : ∀ pair ∈ entries, pair.1.IsI64) :
    ∃ array' cache', arrayFromEntriesPreserve env cache entries = some (array', cache') ∧
      cache.Extends cache' ∧ Refines cache' array' (Phrust.arrayFromEntriesPreserve entries) := by
  refine foldlM_refines (fun ref pair => OrderedMap.length_insert_le ..) (fun R hroom pair hpair => ?_)
    (new_refines hcache) ((Nat.zero_add _).trans_le hlen)
  obtain ⟨array', cache', hentry, L⟩ := insert_refines R env pair.1 (hkeys pair hpair) (fun _ _ _ _ _ => hroom) pair.2
  exact ⟨array', cache', congrArg (Option.map Prod.snd) hentry, L.extends_cache, L.refines⟩

omit hcache hlen

/-- The builtins do on the arrays of the runtime what they do on the reference. -/
theorem arraySplice_refines {array : PhpArray V} (R : Refines cache array ref) (env : Env) (offset : Int)
    (length : Option Int) (replacement : List V)
    (hlen : ref.map.entries.length + replacement.length ≤ 2 ^ 32) :
    (∃ sliced refSliced cache', arraySlice env cache array offset length false = some (sliced, cache') ∧
      Phrust.arraySlice ref offset length false = some refSliced ∧ Refines cache' sliced refSliced) ∧
    (∃ kept refKept cache', arraySlice env cache array offset length true = some (kept, cache') ∧
      Phrust.arraySlice ref offset length true = some refKept ∧ Refines cache' kept refKept) ∧
    ∃ removed left refRemoved refLeft cache',
      arraySplice env cache array offset length replacement = some (removed, left, cache') ∧
      Phrust.arraySplice ref offset length replacement = some (refRemoved, refLeft) ∧
      Refines cache' removed refRemoved ∧ Refines cache' left refLeft := by
  have hiter : array.iter = ref.map.entries := R.observes.iter
  obtain ⟨before, removed, after, hsplit, -, -, hslice, hsplice⟩ :=
    spliceEntries_eq ref.map.entries (by simp only [i64Max]; omega) offset length
  have hlengths := congrArg List.length hsplit
  simp only [length_append] at hlengths
  simp only [arraySlice, arraySplice, Phrust.arraySlice, Phrust.arraySplice, hiter, hslice, hsplice]
  have hremoved : removed.length ≤ 2 ^ 32 := by omega
  have hleft : (before ++ replacement.map (ArrayKey.int 0, ·) ++ after).length ≤ 2 ^ 32 := by
    simp only [length_append, length_map]
    omega
  have hkeys : ∀ pair ∈ removed, pair.1.IsI64 := by
    rintro ⟨key, value⟩ hpair
    cases key with
    | string name => trivial
    | int n =>
      refine (R.bounded.keys n ?_).1
      rw [hsplit]
      exact mem_map.mpr ⟨_, mem_append_right _ (mem_append_left _ hpair), rfl⟩
  refine ⟨?_, ?_, ?_⟩
  · obtain ⟨sliced, cache', hsliced, -, R'⟩ := reindexInts_refines R.valid env hremoved
    exact ⟨sliced, _, cache', hsliced, rfl, R'⟩
  · obtain ⟨kept, cache', hkept, -, R'⟩ := preserve_refines R.valid env hremoved hkeys
    exact ⟨kept, _, cache', hkept, rfl, R'⟩
  · obtain ⟨left, cache', hleft, -, R'⟩ := reindexInts_refines R.valid env hleft
    obtain ⟨removed', cache'', hremoved, hext, R''⟩ := reindexInts_refines R'.valid env hremoved
    refine ⟨removed', left, _, _, cache'', ?_, rfl, R'', R'.mono R''.valid hext⟩
    simp only [Option.bind_eq_bind, Option.bind_some]
    rw [hleft, Option.bind_some, hremoved]
    rfl

end PhpArray
end Phrust
