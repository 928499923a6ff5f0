import Phrust.Theory.SortPlan
import Phrust.Vm.NativeComparison

/-!
# Native sorting

`native_sort` and `native_array_multisort` sort the entries of direct arrays where they lie. Both sort a
plan of indices first, and write only when no comparison has failed. What they return stands beside the
plane they leave behind, also when they fail.
-/

namespace Phrust

/-! ## Releasing owners -/

/-- What a value owns, in the order in which it is released; `none` if it is not released natively. -/
def DirectView.releasedChildren : DirectView F → Option (List Int)
  | .string _ | .int _ | .float _ => some []
  | .array entries _ => some (entries.reverse.flatMap fun entry => [entry.value, entry.key])
  | .callable children => some children.reverse
  | .object _ | .resource _ | .fiber | .generator | .reference .. | .coldReference | .other => none

namespace DirectPlane

def setSlot (plane : DirectPlane F) (index : Nat) (slot : DirectSlot F) : DirectPlane F :=
  { plane with slots := plane.slots.set index slot }

def totalRefcount (plane : DirectPlane F) : Nat := (plane.slots.map DirectSlot.refcount).sum

theorem totalRefcount_setSlot_lt {plane : DirectPlane F} (hslot : plane.slots[index]? = some slot)
    (hlt : slot'.refcount < slot.refcount) : (plane.setSlot index slot').totalRefcount < plane.totalRefcount := by
  obtain ⟨constants, slots⟩ := plane
  simp only [totalRefcount, setSlot] at hslot ⊢
  induction slots generalizing index with
  | nil => cases hslot
  | cons head slots ih =>
    cases index with
    | zero =>
      cases hslot
      exact Nat.add_lt_add_right hlt _
    | succ index => exact Nat.add_lt_add_left (ih hslot) _

/-- The slot that a word owns; `none` for a word that owns nothing. -/
def ownedIndex (encoded : Int) : Except String (Option Nat) :=
  match jitDecodeRuntimeValue encoded with
  | none => .ok none
  | some runtimeIndex =>
    if runtimeIndex < directValueIndexBase then .error "transferred value belongs to the cold value plane"
    else if directValueCapacity ≤ runtimeIndex - directValueIndexBase then
      .error "transferred direct value index is outside its stable arena"
    else .ok (some (runtimeIndex - directValueIndexBase))

/-- `discard_owned_direct_value` for one word after the other: what a freed value owns comes first. -/
def discardOwned : List Int → DirectPlane F → Except String Unit × DirectPlane F
  | [], plane => (.ok (), plane)
  | encoded :: rest, plane =>
    match ownedIndex encoded with
    | .error message => (.error message, plane)
    | .ok none => discardOwned rest plane
    | .ok (some index) =>
      match _ : plane.slots[index]? with
      | none => (.error "transferred direct value owner is no longer live", plane)
      | some slot =>
        if _ : slot.refcount = 0 then (.error "transferred direct value owner is no longer live", plane)
        else if 1 < slot.refcount then
          discardOwned rest (plane.setSlot index { slot with refcount := slot.refcount - 1 })
        else
          match slot.view.releasedChildren with
          | none => (.error "exact owner discard requires a scalar, string, or acyclic direct array", plane)
          | some children => discardOwned (children ++ rest) (plane.setSlot index ⟨0, .other⟩)
termination_by words plane => (plane.totalRefcount, words.length)
decreasing_by
  · exact Prod.Lex.right _ (Nat.lt_succ_self _)
  · next hslot hzero _ =>
    exact Prod.Lex.left _ _ (totalRefcount_setSlot_lt hslot (Nat.sub_lt (Nat.pos_of_ne_zero hzero) Nat.one_pos))
  · next hslot hzero _ =>
    exact Prod.Lex.left _ _ (totalRefcount_setSlot_lt hslot (Nat.pos_of_ne_zero hzero))

def discardOwnedDirectValue (encoded : Int) (plane : DirectPlane F) : Except String Unit × DirectPlane F :=
  discardOwned [encoded] plane

end DirectPlane

/-! ## The order of two entries -/

/-- The constant parameters of `native_sort`. -/
structure SortOptions where
  compareKeys : Bool := false
  reverse : Bool := false
  fixedNatural : Bool := false
  forceCaseInsensitive : Bool := false
  preserveKeys : Bool := false
  deriving DecidableEq

/-- What the order of two entries rests on. -/
structure SortContext (F : Type) where
  floats : ComparedFloats F
  objects : ObjectComparison
  /-- `native_natural_compare(left, right, case_insensitive).cmp(&0)` -/
  naturalCompare : PhpString → PhpString → Bool → Ordering
  /-- `str::parse::<f64>` of bytes that are UTF-8 -/
  parseFloat : PhpString → Option F

/-- `flags & !8` -/
def sortMode (flags : Int) : BitVec 64 := BitVec.ofInt 64 flags &&& ~~~8#64

/-- `flags & 8 != 0` -/
def sortFoldsCase (flags : Int) : Bool := BitVec.ofInt 64 flags &&& 8#64 != 0#64

namespace DirectPlane

section Order
variable (plane : DirectPlane F) (context : SortContext F)

def nativeSortNumeric (encoded : Int) : Option F :=
  (plane.nativePrintfScalar encoded).map fun
    | .null | .bool false => context.floats.ofInt 0
    | .bool true => context.floats.ofInt 1
    | .int value => context.floats.ofInt value
    | .float value => value
    | .string bytes => (context.parseFloat bytes).getD (context.floats.ofInt 0)

def nativeSortOrder (options : SortOptions) (flags : Int) (left right : DirectArrayEntry) : Option Ordering :=
  let natural := options.fixedNatural || sortMode flags == 6#64
  let caseInsensitive := options.forceCaseInsensitive || sortFoldsCase flags
  let left := if options.compareKeys then left.key else left.value
  let right := if options.compareKeys then right.key else right.value
  let ordering : Option Ordering :=
    if natural then do
      let left ← plane.nativeScalarBytes context.floats left
      let right ← plane.nativeScalarBytes context.floats right
      some (context.naturalCompare left right caseInsensitive)
    else if sortMode flags == 1#64 then do
      let left ← plane.nativeSortNumeric context left
      let right ← plane.nativeSortNumeric context right
      context.floats.partialCmp left right
    else if sortMode flags == 2#64 || options.compareKeys then do
      let left ← plane.nativeScalarBytes context.floats left
      let right ← plane.nativeScalarBytes context.floats right
      if caseInsensitive then some (compare (left.map toAsciiLowercase) (right.map toAsciiLowercase))
      else some (compare left right)
    else if sortMode flags == 0#64 then (plane.nativeValuesCompare context.floats context.objects left right).1
    else none
  ordering.map fun ordering => if options.reverse then ordering.swap else ordering

/-- The order of two entries by their places. -/
def entriesOrder (options : SortOptions) (flags : Int) (entries : List DirectArrayEntry) (left right : Nat) :
    Option Ordering := do
  plane.nativeSortOrder context options flags (← entries[left]?) (← entries[right]?)

end Order

/-! ## Entries where they lie -/

def entriesAt (plane : DirectPlane F) (index : Nat) : List DirectArrayEntry :=
  match plane.slots[index]? with
  | some ⟨_, .array entries _⟩ => entries
  | _ => []

end DirectPlane

def DirectSlot.mapEntries (f : List DirectArrayEntry → List DirectArrayEntry) (slot : DirectSlot F) :
    DirectSlot F :=
  match slot.view with
  | .array entries cursor => { slot with view := .array (f entries) cursor }
  | _ => slot

def DirectSlot.setCursor (cursor : Option Nat) (slot : DirectSlot F) : DirectSlot F :=
  match slot.view with
  | .array entries _ => { slot with view := .array entries cursor }
  | _ => slot

namespace DirectPlane

def modifyEntries (index : Nat) (f : List DirectArrayEntry → List DirectArrayEntry) (plane : DirectPlane F) :
    DirectPlane F :=
  { plane with slots := plane.slots.modify index (DirectSlot.mapEntries f) }

def setCursor (index : Nat) (cursor : Option Nat) (plane : DirectPlane F) : DirectPlane F :=
  { plane with slots := plane.slots.modify index (DirectSlot.setCursor cursor) }

def swapEntries (index left right : Nat) (plane : DirectPlane F) : DirectPlane F :=
  plane.modifyEntries index (exchange left right)

def setKey (index place : Nat) (key : Int) (plane : DirectPlane F) : DirectPlane F :=
  plane.modifyEntries index (·.modify place fun entry => { entry with key })

/-! ## Sorting one array -/

/-- Number the entries; a key that cannot be released is given up. -/
def renumberStep (index : Nat) (plane : DirectPlane F) (place : Nat) : DirectPlane F :=
  match (plane.entriesAt index)[place]? with
  | none => plane
  | some entry => (plane.discardOwnedDirectValue entry.key).2.setKey index place place

/-- The indices of the plan are `u32`. -/
def nativeSort (context : SortContext F) (options : SortOptions) (reference flags : Int)
    (plane : DirectPlane F) : Option Unit × DirectPlane F :=
  match plane.directSlot reference with
  | some (_, ⟨_, .reference _ array⟩) =>
    match plane.directSlot array with
    | some (index, ⟨1, .array entries _⟩) =>
      if 2 ^ 32 < entries.length then (none, plane)
      else
        match SortPlan.sorted (plane.entriesOrder context options flags entries) entries.length with
        | none => (none, plane)
        | some order =>
          let plane := SortPlan.place (swapEntries index) order plane
          let plane :=
            if options.preserveKeys then plane
            else (List.range entries.length).foldl (renumberStep index) plane
          (some (), plane.setCursor index (if entries = [] then none else some 0))
    | _ => (none, plane)
  | _ => (none, plane)

/-! ## Sorting several arrays -/

end DirectPlane

/-- `NativeMultisortArray`; the entries lie in the slot. -/
structure NativeMultisortArray where
  slotIndex : Nat
  length : Nat
  flags : Int := 0
  reverse : Bool := false
  directionSeen : Bool := false
  modeSeen : Bool := false
  deriving DecidableEq

namespace NativeMultisortArray

def setFlag (flag : Int) (array : NativeMultisortArray) : Option NativeMultisortArray :=
  if (flag = 3 ∨ flag = 4) ∧ !array.directionSeen then
    some { array with reverse := flag = 3, directionSeen := true }
  else if flag ∈ [0, 1, 2, 6, 8, 10, 14] ∧ !array.modeSeen then
    some { array with flags := flag, modeSeen := true }
  else none

end NativeMultisortArray

namespace DirectPlane

section Multisort
variable (plane : DirectPlane F)

/-- The argument behind a reference, and whether there is one. -/
def multisortArgument (argument : Int) : Int × Bool :=
  match plane.directSlot argument with
  | some (_, ⟨_, .reference false payload⟩) => (payload, true)
  | _ => (argument, false)

def multisortStep (arrays : List NativeMultisortArray) (argument : Int) : Option (List NativeMultisortArray) :=
  let (value, passedByReference) := plane.multisortArgument argument
  match plane.directSlot value with
  | some (slotIndex, ⟨refcount, .array entries _⟩) =>
    if !passedByReference ∨ refcount ≠ 1 ∨ slotIndex ∈ arrays.map NativeMultisortArray.slotIndex then none
    else if arrays.head?.any fun array => array.length != entries.length then none
    else some (arrays ++ [{ slotIndex, length := entries.length }])
  | _ =>
    match plane.nativePrintfScalar value with
    | some (.int flag) =>
      match arrays.getLast? with
      | none => none
      | some current => (current.setFlag flag).map fun current => arrays.dropLast ++ [current]
    | _ => none

def multisortArrays (arguments : List Int) : Option (List NativeMultisortArray) :=
  arguments.foldlM plane.multisortStep []

/-- Keys of this shape can be written again. -/
def isMultisortKey (key : Int) : Bool :=
  match plane.nativePrintfScalar key with
  | some (.int _) | some (.string _) => true
  | _ => false

def isIntegerKey (key : Int) : Bool :=
  match plane.nativePrintfScalar key with
  | some (.int _) => true
  | _ => false

/-- The first array that decides. -/
def multisortOrder (context : SortContext F) : List NativeMultisortArray → Nat → Nat → Option Ordering
  | [], _, _ => some .eq
  | array :: arrays, left, right =>
    match plane.entriesOrder context { reverse := array.reverse } array.flags (plane.entriesAt array.slotIndex)
        left right with
    | some .eq => multisortOrder context arrays left right
    | ordering => ordering

end Multisort

def swapAll (arrays : List NativeMultisortArray) (left right : Nat) (plane : DirectPlane F) : DirectPlane F :=
  arrays.foldl (fun plane array => plane.swapEntries array.slotIndex left right) plane

/-- The next integer key is `none` once the loop has been left. -/
def multisortKeyStep (index : Nat) (state : Option Nat × DirectPlane F) (place : Nat) :
    Option Nat × DirectPlane F :=
  match state with
  | (none, plane) => (none, plane)
  | (some nextInteger, plane) =>
    match (plane.entriesAt index)[place]? with
    | none => (none, plane)
    | some entry =>
      match plane.nativePrintfScalar entry.key with
      | none => (none, plane)
      | some (.int _) =>
        let plane := plane.setKey index place nextInteger
        if 2 ^ 32 ≤ nextInteger + 1 then (none, plane)
        else
          match plane.discardOwnedDirectValue entry.key with
          | (.error _, plane) => (none, plane)
          | (.ok _, plane) => (some (nextInteger + 1), plane)
      | some _ => (some nextInteger, plane)

def multisortKeys : List NativeMultisortArray → DirectPlane F → Option Unit × DirectPlane F
  | [], plane => (some (), plane)
  | array :: arrays, plane =>
    match (List.range array.length).foldl (multisortKeyStep array.slotIndex) (some 0, plane) with
    | (none, plane) => (none, plane)
    | (some nextInteger, plane) =>
      multisortKeys arrays
        (plane.setCursor array.slotIndex (if nextInteger = 0 then none else some nextInteger))

def nativeArrayMultisort (context : SortContext F) (arguments : List Int) (plane : DirectPlane F) :
    Option Unit × DirectPlane F :=
  match plane.multisortArrays arguments with
  | none | some [] => (none, plane)
  | some (first :: rest) =>
    let arrays := first :: rest
    if arrays.all (fun array =>
        (plane.entriesAt array.slotIndex).all fun entry => plane.isMultisortKey entry.key) then
      if 2 ^ 32 < first.length then (none, plane)
      else
        match SortPlan.sorted (plane.multisortOrder context arrays) first.length with
        | none => (none, plane)
        | some order => multisortKeys arrays (SortPlan.place (swapAll arrays) order plane)
    else (none, plane)

end DirectPlane
end Phrust
