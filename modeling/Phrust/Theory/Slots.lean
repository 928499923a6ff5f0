import Mathlib.Algebra.Order.Ring.Int
import Mathlib.Data.List.ReduceOption

/-!
# Slot vectors

A slot vector is a list of optional entries. Deleting an entry leaves a tombstone (`none`) in its
slot, so the positions of the other entries do not move. The *live* entries are
`List.reduceOption`, and `Slots.rank s i` is the position among the live entries that the physical
slot `i` stands for. The searches `first`, `last`, `next` and `prev` for live slots move the rank
by exactly one step, and deletion, extension and compaction act on the live entries as the list
operations of the same name do.
-/

namespace Phrust
open List Option
namespace Slots

/-- The position of the last element that satisfies `p`. -/
def rposition (p : α → Bool) : List α → Option Nat
  | [] => none
  | a :: l =>
    match rposition p l with
    | some i => some (i + 1)
    | none => if p a then some 0 else none

section
variable (s : List (Option α))

def first : Option Nat := s.findIdx? Option.isSome

def last : Option Nat := rposition Option.isSome s

/-- The first live slot after `i`. -/
def next (i : Nat) : Option Nat :=
  (first (s.drop (i + 1))).map (· + (i + 1))

def prev (i : Nat) : Option Nat := last (s.take i)

/-- The number of live slots before slot `i`. -/
def rank (i : Nat) : Nat := (s.take i).reduceOption.length

/-- Slot `i` holds the entry `a`. -/
def LiveAt (i : Nat) (a : α) : Prop := s[i]? = some (some a)

end

variable {s : List (Option α)}

/-! ## Live slots split the vector -/

theorem LiveAt.lt (h : LiveAt s i a) : i < s.length := (List.getElem?_eq_some_iff.mp h).1

theorem LiveAt.split (h : LiveAt s i a) : s = s.take i ++ some a :: s.drop (i + 1) := by
  obtain ⟨hi, ha⟩ := List.getElem?_eq_some_iff.mp h
  rw [← ha, getElem_cons_drop, take_append_drop]

theorem LiveAt.of_split : LiveAt (pre ++ some a :: post) pre.length a := by
  simp [LiveAt]

theorem LiveAt.inj (h : LiveAt s i a) (h' : LiveAt s i b) : a = b := by
  rw [LiveAt, h] at h'
  exact Option.some.inj (Option.some.inj h')

theorem live_eq_split (h : LiveAt s i a) :
    s.reduceOption = (s.take i).reduceOption ++ a :: (s.drop (i + 1)).reduceOption := by
  conv => lhs; rw [h.split]
  rw [reduceOption_append, reduceOption_cons_of_some]

/-! ## Rank -/

theorem rank_getElem? (h : LiveAt s i a) : s.reduceOption[rank s i]? = some a := by
  rw [live_eq_split h]
  simp [rank]

theorem rank_lt (h : LiveAt s i a) : rank s i < s.reduceOption.length :=
  (List.getElem?_eq_some_iff.mp (rank_getElem? h)).1

theorem rank_mono (h : i ≤ j) : rank s i ≤ rank s j := by
  have hsplit : s.take j = s.take i ++ (s.take j).drop i := by
    conv => lhs; rw [← take_append_drop i (s.take j)]
    rw [take_take, Nat.min_eq_left h]
  simp only [rank]
  rw [hsplit, reduceOption_append, length_append]
  omega

theorem rank_succ (h : LiveAt s i a) : rank s (i + 1) = rank s i + 1 := by
  rw [rank, take_add_one, h, reduceOption_append]
  simp [rank]

theorem rank_lt_rank (h : LiveAt s i a) (hij : i < j) : rank s i < rank s j := by
  have := rank_mono (s := s) (Nat.succ_le_of_lt hij)
  rw [rank_succ h] at this
  omega

/-- Every live entry sits in a slot of its rank. -/
theorem exists_liveAt_of_getElem? (h : s.reduceOption[n]? = some a) : ∃ i, LiveAt s i a ∧ rank s i = n := by
  induction s generalizing n with
  | nil => simp at h
  | cons x s ih =>
    cases x with
    | none =>
      obtain ⟨i, hi, hr⟩ := ih h
      exact ⟨i + 1, by simpa [LiveAt] using hi, by simpa [rank] using hr⟩
    | some b =>
      rw [reduceOption_cons_of_some] at h
      cases n with
      | zero =>
        simp only [getElem?_cons_zero, Option.some.injEq] at h
        exact ⟨0, by simp [LiveAt, h], by simp [rank]⟩
      | succ n =>
        obtain ⟨i, hi, hr⟩ := ih h
        exact ⟨i + 1, by simpa [LiveAt] using hi, by simpa [rank] using hr⟩

theorem mem_live_iff : a ∈ s.reduceOption ↔ ∃ i, LiveAt s i a := by
  rw [reduceOption_mem_iff, mem_iff_getElem?]
  rfl

/-! ## Searching for live slots -/

theorem first_eq_none (h : first s = none) : s.reduceOption = [] := by
  rw [first, findIdx?_eq_none_iff] at h
  refine eq_nil_iff_forall_not_mem.mpr fun a ha => ?_
  have := h _ (reduceOption_mem_iff.mp ha)
  simp at this

theorem first_eq_some (h : first s = some i) : (∃ a, LiveAt s i a) ∧ rank s i = 0 := by
  rw [first, findIdx?_eq_some_iff_getElem] at h
  obtain ⟨hi, hsome, hbefore⟩ := h
  obtain ⟨a, ha⟩ := isSome_iff_exists.mp hsome
  refine ⟨⟨a, List.getElem?_eq_some_iff.mpr ⟨hi, ha⟩⟩, ?_⟩
  rw [rank, length_eq_zero_iff, eq_nil_iff_forall_not_mem]
  intro b hb
  obtain ⟨j, hj, hjb⟩ := getElem_of_mem (reduceOption_mem_iff.mp hb)
  have hji : j < i := by simp at hj; omega
  rw [getElem_take] at hjb
  have := hbefore j hji
  simp [hjb] at this

theorem rposition_eq_none {p : α → Bool} {l : List α} (h : rposition p l = none) : ∀ a ∈ l, p a = false := by
  induction l with
  | nil => simp
  | cons b l ih =>
    rw [rposition] at h
    split at h
    · cases h
    · next hl =>
      split at h
      · cases h
      · next hb =>
        intro a ha
        rcases mem_cons.mp ha with rfl | ha
        · simpa using hb
        · exact ih hl a ha

theorem rposition_eq_some {l : List α} (h : rposition p l = some i) :
    ∃ pre a post, l = pre ++ a :: post ∧ pre.length = i ∧ p a = true ∧ ∀ b ∈ post, p b = false := by
  induction l generalizing i with
  | nil => simp [rposition] at h
  | cons b l ih =>
    rw [rposition] at h
    split at h
    · next j hj =>
      obtain ⟨pre, a, post, rfl, hlen, ha, hpost⟩ := ih hj
      refine ⟨b :: pre, a, post, rfl, ?_, ha, hpost⟩
      simp only [length_cons, hlen]
      exact Option.some.inj h
    · next hl =>
      split at h
      · next hb =>
        cases h
        exact ⟨[], b, l, rfl, rfl, hb, rposition_eq_none hl⟩
      · cases h

theorem live_eq_nil_of_forall_none {l : List (Option α)}
    (h : ∀ b ∈ l, Option.isSome b = false) : l.reduceOption = [] := by
  refine eq_nil_iff_forall_not_mem.mpr fun a ha => ?_
  have := h _ (reduceOption_mem_iff.mp ha)
  simp at this

theorem last_eq_none (h : last s = none) : s.reduceOption = [] :=
  live_eq_nil_of_forall_none (rposition_eq_none h)

theorem last_eq_some (h : last s = some i) : (∃ a, LiveAt s i a) ∧ rank s i + 1 = s.reduceOption.length := by
  obtain ⟨pre, x, post, rfl, rfl, hx, hpost⟩ := rposition_eq_some h
  obtain ⟨a, rfl⟩ := isSome_iff_exists.mp hx
  refine ⟨⟨a, .of_split⟩, ?_⟩
  rw [live_eq_split (a := a) .of_split]
  simp [rank, live_eq_nil_of_forall_none hpost]

theorem next_eq_none (hi : LiveAt s i a) (h : next s i = none) : rank s i + 1 = s.reduceOption.length := by
  rw [next, map_eq_none_iff] at h
  rw [live_eq_split hi, first_eq_none h]
  simp [rank]

theorem next_eq_some (hi : LiveAt s i a) (h : next s i = some j) :
    (∃ b, LiveAt s j b) ∧ rank s j = rank s i + 1 := by
  rw [next, map_eq_some_iff] at h
  obtain ⟨k, hk, rfl⟩ := h
  obtain ⟨⟨b, hb⟩, hrank⟩ := first_eq_some hk
  refine ⟨⟨b, ?_⟩, ?_⟩
  · rw [LiveAt, getElem?_drop] at hb
    rw [LiveAt, Nat.add_comm k]
    exact hb
  have hsplit : s.take (k + (i + 1)) = s.take (i + 1) ++ (s.drop (i + 1)).take k := by
    rw [Nat.add_comm k, take_add]
  rw [rank, hsplit, reduceOption_append, length_append]
  have h1 : (s.take (i + 1)).reduceOption.length = rank s i + 1 := rank_succ hi
  have h2 : ((s.drop (i + 1)).take k).reduceOption.length = 0 := hrank
  omega

theorem prev_eq_none (h : prev s i = none) : rank s i = 0 := by
  rw [rank, last_eq_none h]
  rfl

theorem prev_eq_some (h : prev s i = some j) : (∃ b, LiveAt s j b) ∧ rank s j + 1 = rank s i := by
  obtain ⟨⟨b, hb⟩, hrank⟩ := last_eq_some h
  have hji : j < i := by
    have := hb.lt
    simp at this
    omega
  refine ⟨⟨b, ?_⟩, ?_⟩
  · rw [LiveAt, getElem?_take_of_lt hji] at hb
    exact hb
  · rw [rank, take_take, Nat.min_eq_left (Nat.le_of_lt hji)] at hrank
    exact hrank

/-! ## Updates -/

theorem live_append (a : α) : (s ++ [some a]).reduceOption = s.reduceOption ++ [a] := by
  simp [reduceOption_append]

theorem rank_append (h : i ≤ s.length) (t : List (Option α)) : rank (s ++ t) i = rank s i := by
  rw [rank, take_append_of_le_length h]
  rfl

section
variable (h : LiveAt s i a)
include h

theorem LiveAt.append (t : List (Option α)) : LiveAt (s ++ t) i a := by
  rw [LiveAt, getElem?_append_left h.lt]
  exact h

theorem live_set_some (b : α) : (s.set i (some b)).reduceOption = s.reduceOption.set (rank s i) b := by
  have hlen : i = (s.take i).length := by simp [Nat.min_eq_left (Nat.le_of_lt h.lt)]
  conv => lhs; rw [h.split]
  rw [live_eq_split h, rank]
  conv => lhs; rw [set_append_right _ _ (by omega), ← hlen, Nat.sub_self, set_cons_zero]
  rw [reduceOption_append, reduceOption_cons_of_some]
  simp

theorem live_set_none : (s.set i none).reduceOption = s.reduceOption.eraseIdx (rank s i) := by
  have hlen : i = (s.take i).length := by simp [Nat.min_eq_left (Nat.le_of_lt h.lt)]
  conv => lhs; rw [h.split]
  rw [live_eq_split h, rank]
  conv => lhs; rw [set_append_right _ _ (by omega), ← hlen, Nat.sub_self, set_cons_zero]
  rw [reduceOption_append, reduceOption_cons_of_none, eraseIdx_append_of_length_le
    (Nat.le_refl _), Nat.sub_self, eraseIdx_cons_zero]

theorem rank_set_some (b : α) (j : Nat) : rank (s.set i (some b)) j = rank s j := by
  rw [rank, rank, take_set]
  by_cases hj : i < j
  · have h' : LiveAt (s.take j) i a := by rw [LiveAt, getElem?_take_of_lt hj]; exact h
    rw [live_set_some h', length_set]
  · rw [set_eq_of_length_le (by simp; omega)]

theorem rank_set_none (j : Nat) : rank (s.set i none) j = if i < j then rank s j - 1 else rank s j := by
  rw [rank, rank, take_set]
  split
  · next hj =>
    have h' : LiveAt (s.take j) i a := by rw [LiveAt, getElem?_take_of_lt hj]; exact h
    rw [live_set_none h', length_eraseIdx_of_lt (rank_lt h')]
  · rw [set_eq_of_length_le (by simp; omega)]

end

theorem LiveAt.set_none (h : LiveAt s j b) (hij : i ≠ j) : LiveAt (s.set i none) j b := by
  rw [LiveAt, getElem?_set_ne hij]
  exact h

theorem liveAt_set_none_iff : LiveAt (s.set i none) j b ↔ i ≠ j ∧ LiveAt s j b := by
  by_cases hij : i = j
  · subst hij
    simp only [LiveAt, ne_eq, not_true, false_and, iff_false]
    intro h
    rw [getElem?_set] at h
    split at h <;> simp_all
  · simp [LiveAt, hij]

/-- The next live slot after a deleted one is the next one before the deletion. -/
theorem next_set_none : next (s.set i none) i = next s i := by
  rw [next, next, drop_set_of_lt (by omega)]

/-! ## Renumbering -/

/-- The place of a pointer once the empty slots are squeezed out; a pointer that is not on a live
slot is cleared. -/
def renumber (s : List (Option α)) (p : Option Nat) : Option Nat :=
  p.bind fun i => s[i]?.join.map fun _ => rank s i

theorem renumber_live (hp : ∀ i ∈ p, ∃ a, LiveAt s i a) : renumber s p = p.map (rank s) := by
  cases p with
  | none => rfl
  | some i =>
    obtain ⟨a, ha⟩ := hp i rfl
    rw [renumber, bind_some, show s[i]? = some (some a) from ha]
    rfl

theorem renumber_append_none (s : List (Option α)) (p : Option Nat) :
    renumber (s ++ [none]) p = renumber s p := by
  cases p with
  | none => rfl
  | some i =>
    simp only [renumber, bind_some]
    rcases Nat.lt_or_ge i s.length with hi | hi
    · rw [getElem?_append_left hi, rank_append (Nat.le_of_lt hi)]
    · rw [getElem?_append_right hi, getElem?_eq_none hi]
      cases i - s.length <;> rfl

theorem renumber_append_some (s : List (Option α)) (a : α) (p : Option Nat) :
    renumber (s ++ [some a]) p = if p = some s.length then some s.reduceOption.length else renumber s p := by
  cases p with
  | none => rfl
  | some i =>
    simp only [renumber, bind_some, Option.some.injEq]
    rcases Nat.lt_trichotomy i s.length with hi | rfl | hi
    · rw [getElem?_append_left hi, rank_append (Nat.le_of_lt hi), if_neg (Nat.ne_of_lt hi)]
    · rw [getElem?_concat_length, if_pos rfl, rank_append (Nat.le_refl _), rank, take_length]
      rfl
    · rw [getElem?_eq_none (by simp; omega), getElem?_eq_none (Nat.le_of_lt hi), if_neg (Nat.ne_of_gt hi)]
      rfl

/-! ## Mapped and dense slot vectors -/

theorem rposition_map {p : β → Bool} {f : α → β} (l : List α) :
    rposition p (l.map f) = rposition (p ∘ f) l := by
  induction l with
  | nil => rfl
  | cons a l ih => rw [map_cons, rposition, rposition, ih]; rfl

section
variable (f : α → β)

theorem isSome_comp_map : Option.isSome ∘ Option.map f = Option.isSome := by
  funext x
  cases x <;> rfl

theorem first_map : first (s.map (Option.map f)) = first s := by
  rw [first, findIdx?_map, isSome_comp_map]
  rfl

theorem last_map : last (s.map (Option.map f)) = last s := by
  rw [last, rposition_map, isSome_comp_map]
  rfl

theorem next_map (i : Nat) : next (s.map (Option.map f)) i = next s i := by
  rw [next, ← map_drop, first_map]
  rfl

theorem prev_map (i : Nat) : prev (s.map (Option.map f)) i = prev s i := by
  rw [prev, ← map_take, last_map]
  rfl

theorem renumber_map (p : Option Nat) : renumber (s.map (Option.map f)) p = renumber s p := by
  cases p with
  | none => rfl
  | some i =>
    simp only [renumber, bind_some, rank, ← map_take, reduceOption_map, length_map, getElem?_map]
    rcases s[i]? with _ | _ | _ <;> rfl

end

variable (l : List α)

theorem live_map_some : (l.map some).reduceOption = l := by
  induction l with
  | nil => rfl
  | cons a l ih => rw [map_cons, reduceOption_cons_of_some, ih]

/-- In a slot vector without tombstones every slot is its own rank. -/
theorem rank_map_some (h : i ≤ l.length) : rank (l.map some) i = i := by
  rw [rank, ← map_take, live_map_some, length_take, Nat.min_eq_left h]

theorem liveAt_map_some {l : List α} : LiveAt (l.map some) i a ↔ l[i]? = some a := by
  simp [LiveAt]

theorem first_map_some : first (l.map some) = if l.isEmpty then none else some 0 := by
  cases l <;> simp [first, findIdx?_cons]

theorem last_map_some : last (l.map some) = if l.isEmpty then none else some (l.length - 1) := by
  induction l with
  | nil => rfl
  | cons a l ih =>
    rw [last, map_cons, rposition, ← last, ih]
    cases l <;> simp

theorem next_map_some (i : Nat) : next (l.map some) i = if i + 1 < l.length then some (i + 1) else none := by
  rw [next, ← map_drop, first_map_some]
  by_cases h : i + 1 < l.length
  · rw [if_pos h, if_neg (by simp; omega)]
    simp
  · rw [if_neg h, if_pos (by simp; omega)]
    rfl

theorem prev_map_some (h : i ≤ l.length) : prev (l.map some) i = if i = 0 then none else some (i - 1) := by
  rw [prev, ← map_take, last_map_some]
  by_cases hi : i = 0
  · simp [hi]
  rw [if_neg hi, if_neg]
  · simp [h]
  · intro h0
    rw [isEmpty_iff_length_eq_zero, length_take] at h0
    omega

end Slots
end Phrust
