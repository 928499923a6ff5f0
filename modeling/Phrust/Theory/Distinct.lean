import Mathlib.Data.List.Induction

/-!
# First entries

The entries of a list that equal no entry kept before them. The test is any Boolean one: it may fail on
an entry and itself, and it may hold of entries that are not the same.
-/

namespace Phrust
open List
variable {α : Type u} [BEq α]

def distinct (list : List α) : List α :=
  list.foldl (fun kept x => if kept.any (· == x) then kept else kept ++ [x]) []

/-- The kept entry that stands for an entry met behind a list, which may be the new entry itself. -/
def standIn (before : List α) (x : α) : α := ((distinct before).find? (· == x)).getD x

theorem distinct_concat (list : List α) (x : α) :
    distinct (list ++ [x]) =
      if (distinct list).any (· == x) then distinct list else distinct list ++ [x] := by
  rw [distinct, foldl_append]
  rfl

theorem findIdx?_any {list : List α} (h : list.findIdx? (· == x) = none) : list.any (· == x) = false := by
  rw [any_eq_false]
  intro entry hentry
  rw [findIdx?_eq_none_iff] at h
  simp [h entry hentry]

theorem getElem?_findIdx? {list : List α} (h : list.findIdx? (· == x) = some index) :
    ∃ entry, list[index]? = some entry ∧ list.find? (· == x) = some entry := by
  induction list generalizing index with
  | nil => cases h
  | cons first list ih =>
    rw [findIdx?_cons] at h
    rw [find?_cons]
    split at h
    · next htest =>
      cases h
      rw [htest]
      exact ⟨first, rfl, rfl⟩
    · next htest =>
      obtain ⟨rest, hrest, rfl⟩ := Option.map_eq_some_iff.mp h
      rw [Bool.eq_false_iff.mpr htest]
      exact ih hrest

section
variable {list : List α}

/-- An entry that equals a kept one adds nothing. -/
theorem distinct_of_findIdx? (h : (distinct list).findIdx? (· == x) = some index) :
    distinct (list ++ [x]) = distinct list ∧ (distinct list)[index]? = some (standIn list x) := by
  obtain ⟨entry, hentry, hfind⟩ := getElem?_findIdx? h
  have htest := find?_some hfind
  have hany : (distinct list).any (· == x) = true :=
    any_eq_true.mpr ⟨entry, mem_of_find?_eq_some hfind, htest⟩
  rw [distinct_concat, if_pos hany, standIn, hfind]
  exact ⟨rfl, hentry⟩

/-- An entry that equals no kept one is kept. -/
theorem distinct_of_findIdx?_none (h : (distinct list).findIdx? (· == x) = none) :
    distinct (list ++ [x]) = distinct list ++ [x] ∧ standIn list x = x := by
  have hany := findIdx?_any h
  have hfind : (distinct list).find? (· == x) = none := by
    rw [find?_eq_none]
    intro entry hentry
    simpa using any_eq_false.mp hany entry hentry
  rw [distinct_concat, hany, standIn, hfind]
  exact ⟨rfl, rfl⟩

theorem distinct_longer (list : List α) (x : α) : distinct list <+: distinct (list ++ [x]) := by
  rw [distinct_concat]
  split
  · exact prefix_rfl
  · exact prefix_append _ _

theorem length_distinct_le (list : List α) : (distinct list).length ≤ list.length := by
  induction list using List.reverseRecOn with
  | nil => exact Nat.le_refl 0
  | append_singleton list x ih =>
    rw [distinct_concat, length_append]
    split
    · exact Nat.le_succ_of_le ih
    · rw [length_append]
      exact Nat.succ_le_succ ih

theorem mem_of_mem_distinct (h : x ∈ distinct list) : x ∈ list := by
  induction list using List.reverseRecOn with
  | nil => exact h
  | append_singleton list y ih =>
    rw [distinct_concat] at h
    split at h
    · exact mem_append_left _ (ih h)
    · rcases mem_append.mp h with h | h
      · exact mem_append_left _ (ih h)
      · exact mem_append_right _ h

/-- No kept entry equals one that is kept before it. -/
theorem distinct_pairwise (list : List α) : (distinct list).Pairwise fun first second => ¬(first == second) = true := by
  induction list using List.reverseRecOn with
  | nil => exact .nil
  | append_singleton list x ih =>
    rw [distinct_concat]
    split
    · exact ih
    · next hany =>
      rw [any_eq_true, not_exists] at hany
      refine pairwise_append.mpr ⟨ih, pairwise_singleton _ _, fun first hfirst second hsecond => ?_⟩
      rw [mem_singleton.mp hsecond]
      exact fun htest => hany first ⟨hfirst, htest⟩

theorem standIn_cases (before : List α) (x : α) :
    standIn before x = x ∨ (standIn before x == x) = true ∧ standIn before x ∈ distinct before := by
  rw [standIn]
  cases hfind : (distinct before).find? (· == x) with
  | none => exact .inl rfl
  | some entry =>
    have htest := find?_some hfind
    exact .inr ⟨htest, mem_of_find?_eq_some hfind⟩

end

/-! ## Positions in a longer list -/

theorem getElem?_concat_cases {α : Type u} {list : List α} {x y : α} {index : Nat}
    (h : (list ++ [x])[index]? = some y) :
    list[index]? = some y ∧ (list ++ [x]).take index = list.take index ∨
      index = list.length ∧ x = y ∧ (list ++ [x]).take index = list := by
  rcases Nat.lt_or_ge index list.length with hlt | hge
  · rw [getElem?_append_left hlt] at h
    exact .inl ⟨h, take_append_of_le_length (Nat.le_of_lt hlt)⟩
  obtain ⟨hlt, -⟩ := List.getElem?_eq_some_iff.mp h
  rw [length_append] at hlt
  obtain rfl : index = list.length := Nat.le_antisymm (Nat.le_of_lt_succ hlt) hge
  rw [getElem?_concat_length] at h
  exact .inr ⟨rfl, Option.some.inj h, take_left⟩

theorem getElem?_longer {α : Type u} {list list' : List α} {x : α} {index : Nat} (h : list <+: list')
    (hx : list[index]? = some x) : list'[index]? = some x := by
  obtain ⟨rest, rfl⟩ := h
  rw [getElem?_append_left (List.getElem?_eq_some_iff.mp hx).1]
  exact hx

end Phrust
