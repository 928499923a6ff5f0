import Mathlib.Data.List.Nodup
import Phrust.Theory.Slots

/-!
# Ordered maps with a cursor

`OrderedMap κ ν` is an association list with distinct keys, kept in the order of first insertion,
together with a cursor that either points at one of the entries or is cleared. Its operations are
the plain list operations. `Slots.Represents s p m` says that the slot vector `s` with the physical
pointer `p` stands for the ordered map `m`; each operation of the map has one lemma here which says
what has to happen to the slots and to the pointer.
-/

namespace Phrust
open List Option Nat

/-- An insertion-ordered association list with a cursor. -/
structure OrderedMap (κ : Type u) (ν : Type v) where
  entries : List (κ × ν)
  cursor : Option Nat
  nodup : (entries.map Prod.fst).Nodup
  cursor_lt : ∀ i ∈ cursor, i < entries.length

namespace OrderedMap
variable {κ : Type u} {ν : Type v}

def empty : OrderedMap κ ν := ⟨[], none, nodup_nil, by simp⟩

section
variable (m : OrderedMap κ ν)

/-- The entry under the cursor. -/
def current : Option (κ × ν) := m.cursor.bind (m.entries[·]?)

/-- Place the cursor. A position outside the map clears it. -/
def seek (i : Option Nat) : OrderedMap κ ν where
  entries := m.entries
  cursor := i.filter (· < m.entries.length)
  nodup := m.nodup
  cursor_lt := by simp

def toFirst : OrderedMap κ ν := m.seek (some 0)

def toLast : OrderedMap κ ν := m.seek (some (m.entries.length - 1))

def toNext : OrderedMap κ ν := m.seek (m.cursor.map (· + 1))

def toPrev : OrderedMap κ ν :=
  m.seek (m.cursor.bind fun c => if c = 0 then none else some (c - 1))

end

section
variable [DecidableEq κ]

/-- The position of a key. -/
def indexOf (m : OrderedMap κ ν) (k : κ) : Option Nat := m.entries.findIdx? (·.1 = k)

def get (m : OrderedMap κ ν) (k : κ) : Option ν := (m.entries.find? (·.1 = k)).map Prod.snd

variable {m : OrderedMap κ ν}

theorem indexOf_of_getElem? (h : m.entries[i]? = some (k, v)) : m.indexOf k = some i := by
  obtain ⟨hi, he⟩ := List.getElem?_eq_some_iff.mp h
  rw [indexOf, findIdx?_eq_some_iff_getElem]
  refine ⟨hi, by simp [he], fun j hj => ?_⟩
  have hnd := nodup_iff_getElem?_ne_getElem?.mp m.nodup j i hj (by simpa using hi)
  simpa [h, getElem?_eq_getElem (Nat.lt_trans hj hi)] using hnd

theorem indexOf_eq_some_iff : m.indexOf k = some i ↔ ∃ v, m.entries[i]? = some (k, v) := by
  refine ⟨fun h => ?_, fun ⟨_, h⟩ => indexOf_of_getElem? h⟩
  obtain ⟨hi, hk, -⟩ := findIdx?_eq_some_iff_getElem.mp h
  refine ⟨m.entries[i].2, List.getElem?_eq_some_iff.mpr ⟨hi, ?_⟩⟩
  exact Prod.ext (by simpa using hk) rfl

theorem indexOf_eq_none_iff : m.indexOf k = none ↔ k ∉ m.entries.map Prod.fst := by
  rw [indexOf, findIdx?_eq_none_iff, List.mem_map]
  simp only [decide_eq_false_iff_not, not_exists, not_and]

theorem get_of_getElem? {i : Nat} (h : m.entries[i]? = some (k, v)) : m.get k = some v := by
  obtain ⟨hi, -, hbefore⟩ := findIdx?_eq_some_iff_getElem.mp (indexOf_of_getElem? h)
  have hfind : m.entries.find? (·.1 = k) = some (k, v) := by
    rw [find?_eq_some_iff_getElem]
    exact ⟨by simp, i, hi, (List.getElem?_eq_some_iff.mp h).2, fun j hj => by simpa using hbefore j hj⟩
  rw [get, hfind]
  rfl

theorem get_eq_none_iff : m.get k = none ↔ m.indexOf k = none := by
  simp [get, indexOf]

variable (m : OrderedMap κ ν)

/-- The value at a key is replaced in place; the order, the keys and the cursor stay. -/
def setAt (i : Nat) (v : ν) : OrderedMap κ ν where
  entries := m.entries.modify i fun e => (e.1, v)
  cursor := m.cursor
  nodup := by
    have : (m.entries.modify i fun e => (e.1, v)).map Prod.fst = m.entries.map Prod.fst := by
      apply ext_getElem?
      intro n
      simp only [getElem?_map, getElem?_modify]
      cases m.entries[n]? <;> simp
      split <;> rfl
    rw [this]
    exact m.nodup
  cursor_lt := by simpa using m.cursor_lt

/-- A new key goes to the end. A cleared cursor moves to the first entry. -/
def push (k : κ) (v : ν) (h : m.indexOf k = none) : OrderedMap κ ν where
  entries := m.entries ++ [(k, v)]
  cursor := m.cursor.or (some 0)
  nodup := by
    rw [map_append, map_singleton, nodup_append]
    refine ⟨m.nodup, nodup_singleton _, ?_⟩
    rintro a ha b hb rfl
    rw [mem_singleton] at hb
    rw [hb] at ha
    exact indexOf_eq_none_iff.mp h ha
  cursor_lt := by
    intro i hi
    rw [length_append, length_singleton]
    cases hc : m.cursor with
    | none => simp [hc] at hi; omega
    | some c =>
      simp only [hc, some_or, mem_some] at hi
      have := m.cursor_lt c hc
      omega

/-- Insert or overwrite. The old value is returned. -/
def insert (k : κ) (v : ν) : Option ν × OrderedMap κ ν :=
  match h : m.indexOf k with
  | some i => (m.get k, m.setAt i v)
  | none => (none, m.push k v h)

/-- The cursor after the entry at `i` has gone: the entries behind it move up by one, and a cursor
at `i` itself now stands at what was the next entry. -/
def cursorAfterErase (c i : Nat) : Nat := if i < c then c - 1 else c

def eraseAt (i : Nat) : OrderedMap κ ν where
  entries := m.entries.eraseIdx i
  cursor := (m.cursor.map (cursorAfterErase · i)).filter (· < (m.entries.eraseIdx i).length)
  nodup := m.nodup.sublist ((eraseIdx_sublist _ _).map _)
  cursor_lt := by simp

/-- Remove a key. The removed value is returned. -/
def erase (k : κ) : Option ν × OrderedMap κ ν :=
  match m.indexOf k with
  | some i => (m.get k, m.eraseAt i)
  | none => (none, m)

/-- Overwrite a key that is present; nothing happens to a map without it. -/
def replace (k : κ) (v : ν) : Bool × OrderedMap κ ν :=
  match m.indexOf k with
  | some i => (true, m.setAt i v)
  | none => (false, m)

end

theorem keys_setAt (m : OrderedMap κ ν) (i : Nat) (v : ν) :
    (m.setAt i v).entries.map Prod.fst = m.entries.map Prod.fst := by
  apply ext_getElem?
  intro n
  simp only [setAt, getElem?_map, getElem?_modify]
  cases m.entries[n]? <;> simp
  split <;> rfl

section
variable [DecidableEq κ]
variable {m : OrderedMap κ ν}

theorem insert_of_some (h : m.indexOf k = some i) (v : ν) : m.insert k v = (m.get k, m.setAt i v) := by
  rw [insert]
  split
  · next j hj => rw [h] at hj; cases hj; rfl
  · next hn => rw [h] at hn; cases hn

theorem insert_of_none (h : m.indexOf k = none) (v : ν) : m.insert k v = (none, m.push k v h) := by
  rw [insert]
  split
  · next j hj => rw [h] at hj; cases hj
  · rfl

theorem mem_keys_insert (h : k' ∈ (m.insert k v).2.entries.map Prod.fst) :
    k' = k ∨ k' ∈ m.entries.map Prod.fst := by
  cases hk : m.indexOf k with
  | some i =>
    rw [insert_of_some hk, keys_setAt] at h
    exact .inr h
  | none =>
    rw [insert_of_none hk, push, map_append, mem_append] at h
    exact h.symm.imp_left mem_singleton.mp

theorem mem_keys_erase (h : k' ∈ (m.erase k).2.entries.map Prod.fst) :
    k' ≠ k ∧ k' ∈ m.entries.map Prod.fst := by
  rw [erase] at h
  split at h
  · next i hi =>
    obtain ⟨v, hv⟩ := indexOf_eq_some_iff.mp hi
    refine ⟨?_, ((eraseIdx_sublist _ _).map _).subset h⟩
    rintro rfl
    obtain ⟨hlt, he⟩ := List.getElem?_eq_some_iff.mp hv
    have hsplit : m.entries.map Prod.fst =
        (m.entries.take i).map Prod.fst ++ k' :: (m.entries.drop (i + 1)).map Prod.fst := by
      conv => lhs; rw [← take_append_drop i m.entries, drop_eq_getElem_cons hlt, he]
      simp
    have hnd := m.nodup
    rw [hsplit, nodup_middle, nodup_cons, ← map_append] at hnd
    replace h : k' ∈ (m.entries.eraseIdx i).map Prod.fst := h
    rw [eraseIdx_eq_take_drop_succ] at h
    exact hnd.1 h
  · next hi =>
    exact ⟨fun hk => indexOf_eq_none_iff.mp hi (hk ▸ h), h⟩

theorem get_setAt (h : m.indexOf k = some i) (v : ν) (k' : κ) :
    (m.setAt i v).get k' = if k' = k then some v else m.get k' := by
  obtain ⟨old, hold⟩ := indexOf_eq_some_iff.mp h
  have hentry : ∀ j, (m.setAt i v).entries[j]? =
      (m.entries[j]?).map fun e => if i = j then (e.1, v) else e := by
    intro j
    simp only [setAt, getElem?_modify]
    split <;> simp
  by_cases hk : k' = k
  · subst hk
    rw [if_pos rfl]
    exact get_of_getElem? (i := i) (by rw [hentry, hold]; simp)
  rw [if_neg hk]
  cases hj : m.indexOf k' with
  | none =>
    rw [get_eq_none_iff.mpr hj, get_eq_none_iff, indexOf_eq_none_iff, keys_setAt]
    exact indexOf_eq_none_iff.mp hj
  | some j =>
    obtain ⟨w, hw⟩ := indexOf_eq_some_iff.mp hj
    have hij : i ≠ j := by
      rintro rfl
      rw [hold] at hw
      cases hw
      exact hk rfl
    rw [get_of_getElem? hw]
    exact get_of_getElem? (i := j) (by rw [hentry, hw]; simp [hij])

theorem get_insert (m : OrderedMap κ ν) (k : κ) (v : ν) (k' : κ) :
    (m.insert k v).2.get k' = if k' = k then some v else m.get k' := by
  cases hk : m.indexOf k with
  | some i =>
    rw [insert_of_some hk]
    exact get_setAt hk v k'
  | none =>
    have hnone := get_eq_none_iff.mpr hk
    rw [insert_of_none hk]
    simp only [get, push, find?_append, find?_singleton] at hnone ⊢
    by_cases h : k' = k
    · subst h
      simp [map_eq_none_iff.mp hnone]
    · simp [h, Ne.symm h]

theorem length_insert_le (m : OrderedMap κ ν) (k : κ) (v : ν) :
    (m.insert k v).2.entries.length ≤ m.entries.length + 1 := by
  cases hk : m.indexOf k with
  | some i =>
    rw [insert_of_some hk]
    simp [setAt]
  | none =>
    rw [insert_of_none hk]
    simp [push]

theorem get_replace (h : (m.get k).isSome) (v : ν) (k' : κ) :
    (m.replace k v).2.get k' = if k' = k then some v else m.get k' := by
  cases hk : m.indexOf k with
  | some i =>
    rw [replace, hk]
    exact get_setAt hk v k'
  | none =>
    rw [get_eq_none_iff.mpr hk] at h
    cases h

theorem keys_replace (m : OrderedMap κ ν) (k : κ) (v : ν) :
    (m.replace k v).2.entries.map Prod.fst = m.entries.map Prod.fst := by
  rw [replace]
  split
  · exact keys_setAt ..
  · rfl

end

/-- The map of the entries `l`, with the cursor at the first of them. -/
def ofList (l : List (κ × ν)) (h : (l.map Prod.fst).Nodup) : OrderedMap κ ν where
  entries := l
  cursor := if l.isEmpty then none else some 0
  nodup := h
  cursor_lt := by cases l <;> simp

end OrderedMap

namespace Slots
variable {κ : Type u} {ν : Type v}

/-- The slot vector `s` with the pointer `p` stands for the ordered map `m`. -/
structure Represents (s : List (Option (κ × ν))) (p : Option Nat) (m : OrderedMap κ ν) : Prop where
  entries : s.reduceOption = m.entries
  live : ∀ i ∈ p, ∃ e, LiveAt s i e
  cursor : p.map (rank s) = m.cursor

/-- `index` finds exactly the live slots by their keys. -/
def Indexes (index : κ → Option Nat) (s : List (Option (κ × ν))) : Prop :=
  ∀ k i, index k = some i ↔ ∃ v, LiveAt s i (k, v)

variable {s : List (Option (κ × ν))}

theorem Indexes.none_iff (h : Indexes index s) : index k = none ↔ ∀ i v, ¬LiveAt s i (k, v) := by
  refine ⟨fun hk i v hv => ?_, fun hk => eq_none_iff_forall_ne_some.mpr fun i hi => ?_⟩
  · rw [(h k i).mpr ⟨v, hv⟩] at hk
    cases hk
  · obtain ⟨v, hv⟩ := (h k i).mp hi
    exact hk i v hv

/-- Indexed slots have distinct keys. -/
theorem Indexes.nodup (h : Indexes index s) : (s.reduceOption.map Prod.fst).Nodup := by
  rw [nodup_iff_getElem?_ne_getElem?]
  intro i j hij hj heq
  rw [length_map] at hj
  obtain ⟨⟨k, v⟩, hei⟩ : ∃ e, s.reduceOption[i]? = some e :=
    ⟨_, getElem?_eq_getElem (Nat.lt_trans hij hj)⟩
  obtain ⟨⟨k', w⟩, hej⟩ : ∃ e, s.reduceOption[j]? = some e := ⟨_, getElem?_eq_getElem hj⟩
  rw [getElem?_map, getElem?_map, hei, hej] at heq
  obtain rfl : k = k' := Option.some.inj heq
  obtain ⟨a, ha, hra⟩ := exists_liveAt_of_getElem? hei
  obtain ⟨b, hb, hrb⟩ := exists_liveAt_of_getElem? hej
  obtain rfl : a = b := Option.some.inj (((h k a).mpr ⟨v, ha⟩).symm.trans ((h k b).mpr ⟨w, hb⟩))
  omega

theorem Indexes.nil : Indexes (fun _ => none) ([] : List (Option (κ × ν))) := by
  intro k i
  simp [LiveAt]

section
variable [DecidableEq κ]

theorem Indexes.append (h : Indexes index s) (hk : index k = none)
    (v : ν) : Indexes (fun k' => if k' = k then some s.length else index k') (s ++ [some (k, v)]) := by
  intro k' i
  beta_reduce
  have hlast : LiveAt (s ++ [some (k, v)]) s.length (k, v) := .of_split
  rcases Nat.lt_trichotomy i s.length with hi | rfl | hi
  · have happ : ∀ w, LiveAt (s ++ [some (k, v)]) i (k', w) ↔ LiveAt s i (k', w) := by
      intro w
      rw [LiveAt, LiveAt, getElem?_append_left hi]
    simp only [happ]
    split
    · next hkk =>
      subst hkk
      simp only [Option.some.injEq, h.none_iff.mp hk, exists_false, iff_false]
      omega
    · exact h k' i
  · split
    · next hkk =>
      subst hkk
      exact ⟨fun _ => ⟨v, hlast⟩, fun _ => rfl⟩
    · next hkk =>
      constructor
      · intro hi
        obtain ⟨w, hw⟩ := (h k' s.length).mp hi
        exact absurd hw.lt (Nat.lt_irrefl _)
      · rintro ⟨w, hw⟩
        exact absurd (congrArg Prod.fst (hw.inj hlast)) hkk
  · constructor
    · intro hk'
      split at hk'
      · simp only [Option.some.injEq] at hk'
        omega
      · obtain ⟨w, hw⟩ := (h k' i).mp hk'
        have := hw.lt
        omega
    · rintro ⟨w, hw⟩
      have := hw.lt
      rw [length_append, length_singleton] at this
      omega

/-- Forget the key of a deleted slot. -/
theorem Indexes.delete (h : Indexes index s) (hi : LiveAt s i (k, v)) :
    Indexes (fun k' => if k' = k then none else index k') (s.set i none) := by
  intro k' j
  simp only [liveAt_set_none_iff, exists_and_left]
  split
  · next hkk =>
    subst hkk
    simp only [reduceCtorEq, false_iff, not_and]
    rintro hij ⟨w, hw⟩
    have h1 := (h k' i).mpr ⟨v, hi⟩
    rw [(h k' j).mpr ⟨w, hw⟩] at h1
    exact hij (Option.some.inj h1).symm
  · next hkk =>
    rw [h k' j]
    refine ⟨fun ⟨w, hw⟩ => ⟨?_, w, hw⟩, fun h => h.2⟩
    rintro rfl
    exact hkk (congrArg Prod.fst (hw.inj hi))

end

/-- Writing the value of a live slot does not concern the index. -/
theorem Indexes.overwrite (h : Indexes index s)
    (hi : LiveAt s i (k, v)) (w : ν) : Indexes index (s.set i (some (k, w))) := by
  intro k' j
  rw [h k' j]
  by_cases hij : i = j
  · subst hij
    simp only [LiveAt, getElem?_set_self hi.lt, Option.some.injEq, Prod.mk.injEq]
    constructor
    · rintro ⟨x, hx⟩
      exact ⟨w, congrArg Prod.fst (LiveAt.inj hi hx), rfl⟩
    · rintro ⟨_, rfl, -⟩
      exact ⟨v, hi⟩
  · simp [LiveAt, getElem?_set_ne hij]

variable {s : List (Option (κ × ν))} {m : OrderedMap κ ν}
namespace Represents

section
variable (H : Represents s p m)
include H

theorem length_eq : s.reduceOption.length = m.entries.length := by
  rw [H.entries]

theorem getElem?_rank (h : LiveAt s i e) : m.entries[rank s i]? = some e := by
  rw [← H.entries]
  exact rank_getElem? h

theorem current : p.bind (fun i => s[i]?.join) = m.current := by
  rw [OrderedMap.current, ← H.cursor]
  cases p with
  | none => rfl
  | some i =>
    obtain ⟨e, he⟩ := H.live i rfl
    have he' : s[i]? = some (some e) := he
    simp [he', H.getElem?_rank he]

/-- Writing a live slot in place is `setAt`. -/
theorem setAt (h : LiveAt s i (k, v)) (w : ν) :
    Represents (s.set i (some (k, w))) p (m.setAt (rank s i) w) := by
  refine ⟨?_, ?_, ?_⟩
  · rw [live_set_some h]
    show _ = m.entries.modify (rank s i) fun e => (e.1, w)
    rw [← H.entries, modify_eq_set_getElem?, rank_getElem? h]
    rfl
  · intro j hj
    obtain ⟨e, he⟩ := H.live j hj
    by_cases hij : i = j
    · subst hij
      exact ⟨(k, w), by simp [LiveAt, h.lt]⟩
    · exact ⟨e, by rw [LiveAt, getElem?_set_ne hij]; exact he⟩
  · show _ = m.cursor
    rw [← H.cursor]
    cases p with
    | none => rfl
    | some j => simp [rank_set_some h]

end

section
variable [DecidableEq κ]

theorem indexOf (H : Represents s p m) (h : Indexes index s) : m.indexOf k = (index k).map (rank s) := by
  cases hk : index k with
  | some i =>
    obtain ⟨v, hv⟩ := (h k i).mp hk
    exact OrderedMap.indexOf_of_getElem? (H.getElem?_rank hv)
  | none =>
    rw [map_none, OrderedMap.indexOf_eq_none_iff, ← H.entries]
    intro hmem
    obtain ⟨⟨k', v⟩, hkv, rfl⟩ := mem_map.mp hmem
    obtain ⟨i, hi⟩ := mem_live_iff.mp hkv
    exact h.none_iff.mp hk i v hi

theorem get (H : Represents s p m) (h : Indexes index s) :
    m.get k = (index k).bind fun i => (s[i]?.join).map Prod.snd := by
  cases hk : index k with
  | some i =>
    obtain ⟨v, hv⟩ := (h k i).mp hk
    have hv' : s[i]? = some (some (k, v)) := hv
    rw [OrderedMap.get_of_getElem? (H.getElem?_rank hv)]
    simp [hv']
  | none =>
    rw [bind_none, OrderedMap.get_eq_none_iff, H.indexOf h, hk]
    rfl

/-- Appending a slot is `push`, with the pointer set when it was cleared. -/
theorem push (H : Represents s p m) (hk : m.indexOf k = none) (hp : p' = p.or (first (s ++ [some (k, v)]))) :
    Represents (s ++ [some (k, v)]) p' (m.push k v hk) := by
  subst hp
  refine ⟨by rw [live_append, H.entries]; rfl, ?_, ?_⟩
  · intro i hi
    cases p with
    | none =>
      exact (first_eq_some hi).1
    | some j =>
      obtain rfl : j = i := Option.some.inj hi
      obtain ⟨e, he⟩ := H.live j rfl
      exact ⟨e, he.append _⟩
  · show _ = m.cursor.or (some 0)
    rw [← H.cursor]
    cases p with
    | none =>
      cases hf : first (s ++ [some (k, v)]) with
      | none =>
        have := first_eq_none hf
        rw [live_append] at this
        simp at this
      | some j => simp [(first_eq_some hf).2]
    | some j =>
      obtain ⟨e, he⟩ := H.live j rfl
      simp [rank_append (Nat.le_of_lt he.lt)]

end

section
variable (H : Represents s p m)
include H

/-- Moving the pointer to a live slot places the cursor at its rank. -/
theorem seek_some (h : LiveAt s i e) : Represents s (some i) (m.seek (some (rank s i))) := by
  have hlt : rank s i < m.entries.length := H.length_eq ▸ rank_lt h
  exact ⟨H.entries, by rintro j ⟨⟩; exact ⟨e, h⟩, by simp [OrderedMap.seek, hlt, Option.filter]⟩

/-- Clearing the pointer is seeking a position outside the map. -/
theorem seek_none (h : ∀ i ∈ c, m.entries.length ≤ i) : Represents s none (m.seek c) := by
  refine ⟨H.entries, by simp, ?_⟩
  show none = c.filter _
  cases c with
  | none => rfl
  | some i => simp [Option.filter, Nat.not_lt.mpr (h i rfl)]

theorem toFirst : Represents s (first s) m.toFirst := by
  cases hf : first s with
  | none =>
    refine H.seek_none fun i hi => ?_
    rw [← H.entries, first_eq_none hf]
    exact zero_le i
  | some i =>
    obtain ⟨⟨e, he⟩, hr⟩ := first_eq_some hf
    have := H.seek_some he
    rwa [hr] at this

theorem toLast : Represents s (last s) m.toLast := by
  cases hl : last s with
  | none =>
    refine H.seek_none fun i hi => ?_
    rw [← H.entries, last_eq_none hl]
    exact zero_le i
  | some i =>
    obtain ⟨⟨e, he⟩, hr⟩ := last_eq_some hl
    have := H.seek_some he
    rw [H.length_eq] at hr
    rwa [show rank s i = m.entries.length - 1 by omega] at this

theorem toNext : Represents s (p.bind (next s)) m.toNext := by
  rw [OrderedMap.toNext, ← H.cursor]
  cases p with
  | none => exact H.seek_none (by simp)
  | some i =>
    obtain ⟨e, he⟩ := H.live i rfl
    rw [bind_some]
    cases hn : next s i with
    | none =>
      refine H.seek_none ?_
      have := next_eq_none he hn
      rw [H.length_eq] at this
      simp [this]
    | some j =>
      obtain ⟨⟨e', he'⟩, hr⟩ := next_eq_some he hn
      have := H.seek_some he'
      rw [hr] at this
      exact this

theorem toPrev : Represents s (p.bind (prev s)) m.toPrev := by
  rw [OrderedMap.toPrev, ← H.cursor]
  cases p with
  | none => exact H.seek_none (by simp)
  | some i =>
    rw [bind_some]
    cases hp : prev s i with
    | none => exact H.seek_none (by simp [prev_eq_none hp])
    | some j =>
      obtain ⟨⟨e', he'⟩, hr⟩ := prev_eq_some hp
      have := H.seek_some he'
      rw [show rank s j = rank s i - 1 by omega] at this
      simpa [show rank s i ≠ 0 by omega] using this

/-- Leaving a tombstone is `eraseAt`, with a pointer at the deleted slot moved to the next one. -/
theorem eraseAt (h : LiveAt s i e) (hp : p' = p.bind fun j => if j = i then next s i else some j) :
    Represents (s.set i none) p' (m.eraseAt (rank s i)) := by
  subst hp
  have hlen : (m.entries.eraseIdx (rank s i)).length + 1 = m.entries.length := by
    have := rank_lt h
    rw [H.length_eq] at this
    rw [length_eraseIdx_of_lt this]
    omega
  refine ⟨by rw [live_set_none h, H.entries]; rfl, ?_, ?_⟩
  · intro j hj
    obtain ⟨c, rfl⟩ : ∃ c, p = some c := by
      cases p with
      | none => simp at hj
      | some c => exact ⟨c, rfl⟩
    simp only [bind_some, mem_def] at hj
    split at hj
    · obtain ⟨⟨e', he'⟩, hr⟩ := next_eq_some h hj
      exact ⟨e', he'.set_none (by rintro rfl; omega)⟩
    · next hne =>
      obtain rfl : c = j := Option.some.inj hj
      obtain ⟨e', he'⟩ := H.live c rfl
      exact ⟨e', he'.set_none (Ne.symm hne)⟩
  · show _ = (m.cursor.map _).filter _
    rw [← H.cursor]
    cases p with
    | none => rfl
    | some c =>
      obtain ⟨e', he'⟩ := H.live c rfl
      have hc := rank_lt he'
      rw [H.length_eq] at hc
      simp only [bind_some, map_some, Option.filter, OrderedMap.cursorAfterErase]
      split
      · next hci =>
        subst hci
        rw [if_neg (Nat.lt_irrefl _)]
        cases hn : next s c with
        | none =>
          have := next_eq_none h hn
          rw [H.length_eq] at this
          simp [show ¬rank s c < (m.entries.eraseIdx (rank s c)).length by omega]
        | some j =>
          obtain ⟨⟨e'', he''⟩, hr⟩ := next_eq_some h hn
          have hj := rank_lt he''
          rw [H.length_eq] at hj
          have hcj : c < j := by
            by_contra hle
            have := rank_mono (s := s) (Nat.le_of_not_lt hle)
            omega
          simp [rank_set_none h, hcj, hr, show rank s c < (m.entries.eraseIdx (rank s c)).length
            by omega]
      · next hci =>
        rw [map_some, rank_set_none h]
        by_cases hic : i < c
        · have := rank_lt_rank h hic
          simp [hic, this, show rank s c - 1 < (m.entries.eraseIdx (rank s i)).length by omega]
        have := rank_lt_rank he' (show c < i by omega)
        have hi := rank_lt h
        rw [H.length_eq] at hi
        simp [hic, show ¬rank s i < rank s c by omega,
          show rank s c < (m.entries.eraseIdx (rank s i)).length by omega]

end

/-- Dropping the last slot is `eraseAt` as well; a pointer there is cleared. -/
theorem dropLast (H : Represents (s ++ [some e]) p m)
    (hp : p' = p.filter (· < s.length)) : Represents s p' (m.eraseAt (rank s s.length)) := by
  have hat : LiveAt (s ++ [some e]) s.length e := .of_split
  have hrank : rank (s ++ [some e]) s.length = rank s s.length := rank_append (Nat.le_refl _) _
  have H' := H.eraseAt hat rfl
  rw [hrank] at H'
  have hset : (s ++ [some e]).set s.length none = s ++ [none] := by simp
  rw [hset] at H'
  have hnext : next (s ++ [some e]) s.length = none := by simp [next, first]
  have hlive : (s ++ [none]).reduceOption = s.reduceOption := by simp [reduceOption_append]
  refine ⟨hlive ▸ H'.entries, ?_, ?_⟩
  · intro j hj
    subst hp
    obtain ⟨hj, hlt⟩ := filter_eq_some_iff.mp hj
    obtain ⟨e', he'⟩ := H.live j hj
    exact ⟨e', by rwa [LiveAt, getElem?_append_left (by simpa using hlt)] at he'⟩
  · rw [← H'.cursor, hp]
    cases p with
    | none => rfl
    | some c =>
      obtain ⟨e', he'⟩ := H.live c rfl
      have hc := he'.lt
      rw [length_append, length_singleton] at hc
      by_cases hcs : c = s.length
      · simp [hcs, hnext]
      · simp [hcs, Option.filter, show c < s.length by omega, rank_append (show c ≤ s.length by omega)]

/-- Compaction drops the tombstones and moves the pointer to its rank. -/
theorem compact (H : Represents s p m) : Represents (s.reduceOption.map some) (p.map (rank s)) m := by
  refine ⟨by rw [live_map_some, H.entries], ?_, ?_⟩
  · intro i hi
    obtain ⟨c, hc, rfl⟩ := map_eq_some_iff.mp hi
    obtain ⟨e, he⟩ := H.live c hc
    exact ⟨e, liveAt_map_some.mpr (rank_getElem? he)⟩
  · rw [← H.cursor]
    cases p with
    | none => rfl
    | some c =>
      obtain ⟨e, he⟩ := H.live c rfl
      simp [rank_map_some _ (Nat.le_of_lt (rank_lt he))]

end Represents
end Slots
end Phrust
