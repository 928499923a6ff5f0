import Mathlib.Data.Option.Basic
import Phrust.Theory.KeyMap

/-!
# Counted cells with copy-on-write

Handles point to cells, a cell counts its handles, and a write through a handle that is not the only
one goes to a fresh copy. What every cell satisfies is kept by cloning, dropping and separating, so
an invariant of the values only has to be shown for the values that are written. Since no cell counts
fewer handles than it has, no handle sees what is done through another one.
-/

namespace Phrust
open Option

structure SharedCell (α : Type) where
  refcount : Nat
  value : α
  deriving DecidableEq, Repr

/-- Cells by address, and handles with the address each one points to. -/
structure SharedHeap (α : Type) where
  cells : KeyMap Nat (SharedCell α)
  handles : KeyMap Nat Nat
  deriving DecidableEq, Repr

namespace SharedHeap
variable {α : Type}

def empty : SharedHeap α := ⟨[], []⟩

section
variable (heap : SharedHeap α)
include heap

def locate (handle : Nat) : Option (Nat × SharedCell α) := do
  let address ← heap.handles.get handle
  let cell ← heap.cells.get address
  some (address, cell)

/-- The allocator hands out any address that is not in use. -/
def alloc (address : Nat) (value : α) : Option (SharedHeap α) :=
  if (heap.cells.get address).isSome then none
  else some { heap with cells := heap.cells.insert address ⟨1, value⟩ }

/-- The last owner frees the cell. -/
def release (address : Nat) : Option (SharedHeap α) := do
  let cell ← heap.cells.get address
  if 1 < cell.refcount then
    some { heap with
      cells := heap.cells.insert address { cell with refcount := cell.refcount - 1 } }
  else some { heap with cells := heap.cells.remove address }

def bind (handle address : Nat) : SharedHeap α :=
  { heap with handles := heap.handles.insert handle address }

/-- A new handle to a new cell. -/
def create (handle address : Nat) (value : α) : Option (SharedHeap α) := do
  guard (heap.handles.get handle).isNone
  let heap ← heap.alloc address value
  some (heap.bind handle address)

/-- A new handle to the cell of another one. -/
def clone (handle copy : Nat) : Option (SharedHeap α) := do
  guard (heap.handles.get copy).isNone
  let (address, cell) ← heap.locate handle
  let cells := heap.cells.insert address { cell with refcount := cell.refcount + 1 }
  some ({ heap with cells }.bind copy address)

def drop (handle : Nat) : Option (SharedHeap α) := do
  let address ← heap.handles.get handle
  { heap with handles := heap.handles.remove handle }.release address

/-- Write through a handle: in place if it is the only one, else to a copy at `address`. -/
def write (handle address : Nat) (value : α) : Option (SharedHeap α) := do
  let (old, cell) ← heap.locate handle
  if cell.refcount = 1 then some { heap with cells := heap.cells.insert old { cell with value } }
  else
    let heap ← heap.alloc address value
    let heap ← heap.release old
    some (heap.bind handle address)

/-- Every value satisfies `P`. -/
def Forall (P : α → Prop) : Prop :=
  ∀ address cell, heap.cells.get address = some cell → P cell.value

end

variable {heap heap' : SharedHeap α} {P Q : α → Prop}

theorem forall_empty : (empty : SharedHeap α).Forall P := by
  intro address cell h
  cases h

section
variable (H : heap.Forall P)
include H

theorem Forall.mono (h : ∀ value, P value → Q value) : heap.Forall Q :=
  fun address cell hcell => h _ (H address cell hcell)

theorem Forall.locate (h : heap.locate handle = some (address, cell)) : P cell.value := by
  obtain ⟨address', _, h⟩ := bind_eq_some_iff.mp h
  obtain ⟨cell', hcell, h⟩ := bind_eq_some_iff.mp h
  cases h
  exact H address cell hcell

theorem Forall.bind (handle address : Nat) : (heap.bind handle address).Forall P := H

theorem Forall.insert (cell : SharedCell α) (hcell : P cell.value)
    (address : Nat) (handles : KeyMap Nat Nat) : Forall ⟨heap.cells.insert address cell, handles⟩ P := by
  intro address' cell' h
  rw [KeyMap.get_insert] at h
  split at h
  · cases h
    exact hcell
  · exact H address' cell' h

theorem Forall.remove (address : Nat) (handles : KeyMap Nat Nat) :
    Forall ⟨heap.cells.remove address, handles⟩ P := by
  intro address' cell h
  by_cases haddress : address = address'
  · subst haddress
    rw [KeyMap.get_remove_self] at h
    cases h
  · rw [KeyMap.get_remove_ne _ haddress] at h
    exact H address' cell h

theorem Forall.alloc (hvalue : P value) (h : heap.alloc address value = some heap') : heap'.Forall P := by
  rw [SharedHeap.alloc] at h
  split at h
  · cases h
  · cases h
    exact H.insert ⟨1, value⟩ hvalue address heap.handles

theorem Forall.release (h : heap.release address = some heap') : heap'.Forall P := by
  obtain ⟨cell, hcell, h⟩ := bind_eq_some_iff.mp h
  split at h
  · cases h
    exact H.insert { cell with refcount := cell.refcount - 1 } (H address cell hcell) address
      heap.handles
  · cases h
    exact H.remove address heap.handles

theorem Forall.create (hvalue : P value)
    (h : heap.create handle address value = some heap') : heap'.Forall P := by
  obtain ⟨_, _, h⟩ := bind_eq_some_iff.mp h
  obtain ⟨heap₁, halloc, h⟩ := bind_eq_some_iff.mp h
  cases h
  exact (H.alloc hvalue halloc).bind handle address

theorem Forall.clone (h : heap.clone handle copy = some heap') : heap'.Forall P := by
  obtain ⟨_, _, h⟩ := bind_eq_some_iff.mp h
  obtain ⟨⟨address, cell⟩, hlocate, h⟩ := bind_eq_some_iff.mp h
  cases h
  have hvalue : P cell.value := H.locate hlocate
  exact (H.insert { cell with refcount := cell.refcount + 1 } hvalue address heap.handles).bind
    copy address

theorem Forall.drop (h : heap.drop handle = some heap') : heap'.Forall P := by
  obtain ⟨address, _, h⟩ := bind_eq_some_iff.mp h
  have H' : Forall { heap with handles := heap.handles.remove handle } P := H
  exact H'.release h

/-- Only the written value has to be shown to satisfy `P`: a separated copy is overwritten. -/
theorem Forall.write (hvalue : P value)
    (h : heap.write handle address value = some heap') : heap'.Forall P := by
  obtain ⟨⟨old, cell⟩, hlocate, h⟩ := bind_eq_some_iff.mp h
  dsimp only at h
  split at h
  · cases h
    exact H.insert { cell with value } hvalue old heap.handles
  obtain ⟨heap₁, halloc, h⟩ := bind_eq_some_iff.mp h
  obtain ⟨heap₂, hrelease, h⟩ := bind_eq_some_iff.mp h
  cases h
  exact ((H.alloc hvalue halloc).release hrelease).bind handle address

end

/-! ## Handles do not see each other -/

section
variable (heap heap' : SharedHeap α) (handle : Nat)

def read : Option α := (heap.handles.get handle).bind fun address => (heap.cells.get address).map (·.value)

def refs (address : Nat) : Nat := (heap.cells.get address).elim 0 (·.refcount)

/-- A cell counts the handles that point to it. -/
def Counted : Prop := ∀ address (owners : List Nat), owners.Nodup →
  (∀ owner ∈ owners, heap.handles.get owner = some address) → owners.length ≤ heap.refs address

/-- Only one handle moves. The counts follow it, and what other handles point to keeps its value. -/
structure Moves : Prop where
  handles : ∀ other ≠ handle, heap'.handles.get other = heap.handles.get other
  counts : ∀ address, heap.refs address + (if heap'.handles.get handle = some address then 1 else 0) ≤
    heap'.refs address + if heap.handles.get handle = some address then 1 else 0
  values : ∀ address cell, heap.cells.get address = some cell →
    (if heap.handles.get handle = some address then 1 else 0) < cell.refcount →
    (heap'.cells.get address).map (·.value) = some cell.value

end

theorem counted_empty : (empty : SharedHeap α).Counted := by
  intro address owners _ howners
  cases owners with
  | nil => exact Nat.zero_le _
  | cons owner => cases howners owner List.mem_cons_self

section
variable (H : heap.Counted) (M : Moves heap heap' handle)
include H M

theorem Counted.moves : heap'.Counted := by
  intro address owners hnodup howners
  have hcounts := M.counts address
  have hrest : ∀ owner ∈ owners.erase handle, heap.handles.get owner = some address := by
    intro owner h
    rw [hnodup.mem_erase_iff] at h
    rw [← M.handles owner h.1, howners owner h.2]
  -- If the handle was an owner too, the old cell counts it on top of the others.
  have hbound := H address (owners.erase handle) (hnodup.erase handle) hrest
  have hbound' := H address (handle :: owners.erase handle)
  grind [List.length_erase, List.Nodup.mem_erase_iff]

theorem Counted.read_other (hother : other ≠ handle) : heap'.read other = heap.read other := by
  rw [read, read, M.handles other hother]
  cases hget : heap.handles.get other with
  | none => rfl
  | some address =>
    have hone := H address [other]
    have htwo := H address [other, handle]
    have hvalues := M.values address
    rw [bind_some, bind_some]
    cases hcell : heap.cells.get address <;> grind [refs]

end

theorem create_moves (h : heap.create handle address value = some heap') : Moves heap heap' handle := by
  simp only [create, alloc, bind_eq_bind, bind_eq_some_iff, guard_eq_some', isNone_iff_eq_none,
    ite_none_left_eq_some, not_isSome_iff_eq_none] at h
  obtain ⟨_, hnone, _, ⟨hfree, ⟨⟩⟩, ⟨⟩⟩ := h
  constructor <;> grind [refs, SharedHeap.bind, KeyMap.get_insert]

theorem clone_moves (h : heap.clone handle copy = some heap') : Moves heap heap' copy := by
  simp only [clone, locate, bind_eq_bind, bind_eq_some_iff, guard_eq_some', isNone_iff_eq_none] at h
  obtain ⟨_, hnone, _, ⟨address, hget, cell, hcell, ⟨⟩⟩, ⟨⟩⟩ := h
  constructor <;> grind [refs, SharedHeap.bind, KeyMap.get_insert]

theorem drop_moves (H : heap.Counted) (h : heap.drop handle = some heap') : Moves heap heap' handle := by
  simp only [drop, release, bind_eq_bind, bind_eq_some_iff] at h
  obtain ⟨address, hget, cell, hcell, h⟩ := h
  have hone := H address [handle]
  split at h <;> cases h <;> constructor <;> grind [refs, KeyMap.get_insert, KeyMap.get_remove]

theorem write_moves (H : heap.Counted) (h : heap.write handle address value = some heap') :
    Moves heap heap' handle := by
  simp only [write, locate, alloc, release, bind_eq_bind, bind_eq_some_iff] at h
  obtain ⟨_, ⟨old, hget, cell, hcell, ⟨⟩⟩, h⟩ := h
  have hone := H old [handle]
  split at h
  · cases h
    constructor <;> grind [refs, KeyMap.get_insert]
  · simp only [bind_eq_some_iff, ite_none_left_eq_some, not_isSome_iff_eq_none] at h
    obtain ⟨_, ⟨hfree, ⟨⟩⟩, _, ⟨cell', hcell', hrelease⟩, ⟨⟩⟩ := h
    split at hrelease <;> cases hrelease <;> constructor <;>
      grind [refs, SharedHeap.bind, KeyMap.get_insert, KeyMap.get_remove]

end SharedHeap
end Phrust
