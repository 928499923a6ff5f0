import Mathlib.Data.List.Basic

/-!
# Maps ordered by their keys

An association list that is kept in the order of its keys, which is the order in which the entries
are visited. Lookup finds the first entry of a key, so none of the facts about lookup needs the list
to be sorted.
-/

namespace Phrust
open List

/-- Entries in the order of the keys. -/
abbrev KeyMap (κ : Type u) (ν : Type v) := List (κ × ν)

namespace KeyMap
variable {κ : Type u} {ν : Type v} [DecidableEq κ]

section
variable (map : KeyMap κ ν)

def get (key : κ) : Option ν := (map.find? (·.1 = key)).map Prod.snd

def remove (key : κ) : KeyMap κ ν := map.filter (·.1 ≠ key)

def retain (keep : κ → ν → Bool) : KeyMap κ ν := map.filter fun e => keep e.1 e.2

theorem get_cons (entry : κ × ν) (map : KeyMap κ ν) (key : κ) :
    get (entry :: map) key = if entry.1 = key then some entry.2 else get map key := by
  rw [get, List.find?_cons]
  by_cases h : entry.1 = key <;> simp [h, get]

theorem mem_of_get {map : KeyMap κ ν} (h : map.get key = some value) : (key, value) ∈ map := by
  obtain ⟨entry, hentry, rfl⟩ := Option.map_eq_some_iff.mp h
  have hkey := List.find?_some hentry
  rw [decide_eq_true_eq] at hkey
  exact hkey ▸ mem_of_find?_eq_some hentry

theorem get_eq_none_iff {map : KeyMap κ ν} : map.get key = none ↔ ∀ entry ∈ map, entry.1 ≠ key := by
  rw [get, Option.map_eq_none_iff, List.find?_eq_none]
  simp

theorem get_remove_self (key : κ) : (map.remove key).get key = none := by
  rw [get, Option.map_eq_none_iff, List.find?_eq_none]
  intro entry hentry
  simpa using (mem_filter.mp hentry).2

theorem get_remove_ne (h : key ≠ other) : (map.remove key).get other = map.get other := by
  induction map with
  | nil => rfl
  | cons entry map ih =>
    rw [remove, filter_cons]
    split
    · rw [get_cons, get_cons, ← ih]
      rfl
    · next hentry =>
      have hkey : entry.1 = key := by simpa using hentry
      rw [get_cons, if_neg (hkey ▸ h)]
      exact ih

theorem get_remove (key other : κ) :
    (map.remove key).get other = if key = other then none else map.get other := by
  split
  · next h => exact h ▸ get_remove_self map key
  · next h => exact get_remove_ne map h

end

section
variable [LT κ] [DecidableLT κ]

/-- Put an entry before the first larger key. -/
def insert (key : κ) (value : ν) : KeyMap κ ν → KeyMap κ ν
  | [] => [(key, value)]
  | entry :: map =>
    if entry.1 = key then (key, value) :: map
    else if key < entry.1 then (key, value) :: entry :: map
    else entry :: insert key value map

theorem mem_insert {map : KeyMap κ ν} (h : entry ∈ insert key value map) :
    entry = (key, value) ∨ entry ∈ map := by
  induction map with
  | nil => exact .inl (mem_singleton.mp h)
  | cons first map ih =>
    rw [insert] at h
    split at h
    · exact (mem_cons.mp h).imp_right (mem_cons_of_mem _)
    split at h
    · exact mem_cons.mp h
    · rcases mem_cons.mp h with rfl | h
      · exact .inr mem_cons_self
      · exact (ih h).imp_right (mem_cons_of_mem _)

theorem get_insert (map : KeyMap κ ν) (key : κ) (value : ν) (other : κ) :
    get (insert key value map) other = if key = other then some value else map.get other := by
  induction map with
  | nil => rw [insert, get_cons]
  | cons entry map ih =>
    rw [insert]
    split
    · next h =>
      subst h
      simp only [get_cons]
      split <;> rfl
    · next h =>
      split
      · rw [get_cons]
      rw [get_cons, get_cons, ih]
      split
      · next hentry => rw [if_neg (hentry ▸ Ne.symm h)]
      · rfl

end
end KeyMap
end Phrust
