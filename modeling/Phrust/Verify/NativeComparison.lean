import Mathlib.Data.List.Perm.Basic
import Phrust.Verify.NumericPrefix
import Phrust.Vm.NativeComparison

/-!
# Native comparison agrees with runtime comparison

Words of the direct plane denote values. On values whose arrays hold no NaN the native comparisons
return what the runtime returns, with one exception: a NaN and a string that is no number.
-/

namespace Phrust
open List PlainValue NativeComparisonValue Option

/-! ## Denotation -/

inductive ConstantView.Denotes : ConstantView F → PlainValue F → Prop where
  | null : Denotes .null .null
  | bool : Denotes (.bool value) (.bool value)
  | int : Denotes (.int value) (.int value)
  | float : Denotes (.float value) (.float value)
  | string : Denotes (.string bytes) (.string bytes)

/-- A slot that is no array, and its value. -/
inductive DirectView.Denotes : DirectView F → PlainValue F → Prop where
  | string : Denotes (.string bytes) (.string bytes)
  | float : Denotes (.float payload) (.float payload)
  | int : Denotes (.int payload) (.int payload)
  | resource {id : Nat} : Denotes (.resource id) (.resource id)

namespace DirectPlane
variable (plane : DirectPlane F)

inductive DenotesScalar : Int → PlainValue F → Prop where
  | word : jitDecodeRuntimeValue encoded = none → jitDecodeConstant encoded = none →
    DenotesScalar encoded (.int encoded)
  | null : jitDecodeConstant encoded = some jitValueNull → DenotesScalar encoded .null
  | false : jitDecodeConstant encoded = some jitValueFalse → DenotesScalar encoded (.bool false)
  | true : jitDecodeConstant encoded = some jitValueTrue → DenotesScalar encoded (.bool true)
  | constant (id : Nat) : jitDecodeConstant encoded = some id → isReservedConstant id = false →
    plane.constants[id]? = some view → view.Denotes value → DenotesScalar encoded value
  | slot : plane.directSlot encoded = some (index, slot) → slot.view.Denotes value →
    DenotesScalar encoded value

def DenotesKey (encoded : Int) : ArrayKey → Prop
  | .int value => plane.DenotesScalar encoded (.int value)
  | .string bytes => plane.DenotesScalar encoded (.string bytes)

/-- A word and its value, which is finite, so the arrays under the word form no cycle. -/
inductive Denotes : Int → PlainValue F → Prop where
  | scalar : plane.DenotesScalar encoded value → Denotes encoded value
  | array : plane.directSlot encoded = some (index, slot) → slot.view = .array entries cursor →
    List.Forall₂ (fun entry pair => plane.DenotesKey entry.key pair.1) entries pairs →
    List.Forall₂ (fun entry pair => Denotes entry.value pair.2) entries pairs →
    Denotes encoded (.array pairs)

abbrev EntriesDenote (entries : List DirectArrayEntry) (pairs : List (ArrayKey × PlainValue F)) : Prop :=
  List.Forall₂ (fun entry pair => plane.DenotesKey entry.key pair.1 ∧ plane.Denotes entry.value pair.2)
    entries pairs

end DirectPlane

/-- No NaN anywhere, and every key of an array once. -/
inductive PlainValue.Regular (floats : ComparedFloats F) : PlainValue F → Prop where
  | null : Regular floats .null
  | bool : Regular floats (.bool value)
  | int : Regular floats (.int value)
  | float : floats.isNan value = false → Regular floats (.float value)
  | string : Regular floats (.string bytes)
  | array {entries : List (ArrayKey × PlainValue F)} : (entries.map Prod.fst).Nodup →
    (∀ entry ∈ entries, Regular floats entry.2) → Regular floats (.array entries)
  | resource {id : Nat} : Regular floats (.resource id)

/-- An operand may also be a NaN. -/
def PlainValue.Operand (floats : ComparedFloats F) (value : PlainValue F) : Prop :=
  value.Regular floats ∨ ∃ number, value = .float number

/-- What a comparison sees of a word. -/
inductive NativeComparisonValue.Shows (plane : DirectPlane F) :
    NativeComparisonValue F → PlainValue F → Prop where
  | null : Shows plane .null .null
  | bool : Shows plane (.bool value) (.bool value)
  | int : Shows plane (.int value) (.int value)
  | float : Shows plane (.float value) (.float value)
  | string : Shows plane (.string bytes) (.string bytes)
  | resource {id : Nat} : Shows plane (.resource id) (.resource id)
  | array {slot : DirectSlot F} : plane.slots[index]? = some slot → slot.view = .array entries cursor →
    plane.EntriesDenote entries pairs → Shows plane (.array index entries) (.array pairs)

namespace DirectPlane
variable {plane : DirectPlane F} {floats : ComparedFloats F}

theorem decodeConstant_of_directSlot (h : plane.directSlot encoded = some (index, slot)) :
    jitDecodeConstant encoded = none ∧ plane.slots[index]? = some slot := by
  obtain ⟨found, hindex, h⟩ := bind_eq_some_iff.mp h
  obtain ⟨runtime, hruntime, -⟩ := bind_eq_some_iff.mp hindex
  obtain ⟨alive, halive, h⟩ := bind_eq_some_iff.mp h
  rw [jitDecodeRuntimeValue, ite_none_right_eq_some] at hruntime
  split at h
  · cases h
  · cases h
    refine ⟨?_, halive⟩
    rw [jitDecodeConstant, if_neg]
    omega

theorem directSlot_of_decodeConstant (plane : DirectPlane F) (h : jitDecodeConstant encoded = some constant) :
    plane.directSlot encoded = none := by
  by_contra hsome
  obtain ⟨⟨index, slot⟩, hslot⟩ := ne_none_iff_exists'.mp hsome
  rw [(decodeConstant_of_directSlot hslot).1] at h
  cases h

theorem nativeByValueEncoding_of_none (h : plane.directSlot encoded = none) :
    plane.nativeByValueEncoding encoded = some encoded := by
  rw [nativeByValueEncoding, byValueFrom, h]

/-- A word that is read as a value is looked at as it is. -/
theorem shows_of_denotesScalar (h : plane.DenotesScalar encoded value) :
    ∃ shown, plane.nativeComparisonValue encoded = some shown ∧ shown.Shows plane value := by
  cases h with
  | word hruntime hconstant =>
    have hslot : plane.directSlot encoded = none := by rw [directSlot, directValueIndex, hruntime]; rfl
    refine ⟨.int encoded, ?_, .int⟩
    simp [nativeComparisonValue, nativeByValueEncoding_of_none hslot, hslot, hconstant, hruntime]
  | null hconstant =>
    have hslot := plane.directSlot_of_decodeConstant hconstant
    refine ⟨.null, ?_, .null⟩
    simp [nativeComparisonValue, nativeByValueEncoding_of_none hslot, hslot, hconstant]
  | false hconstant | true hconstant =>
    have hslot := plane.directSlot_of_decodeConstant hconstant
    refine ⟨.bool _, ?_, .bool⟩
    simp [nativeComparisonValue, nativeByValueEncoding_of_none hslot, hslot, hconstant, jitValueFalse,
      jitValueNull, jitValueTrue]
  | constant id hconstant hreserved hview hvalue =>
    have hslot := plane.directSlot_of_decodeConstant hconstant
    simp only [isReservedConstant, Bool.or_eq_false_iff, beq_eq_false_iff_ne] at hreserved
    simp only [nativeComparisonValue, nativeByValueEncoding_of_none hslot, hslot, hconstant, hreserved, hview,
      bind_eq_bind, bind_some, if_false]
    cases hvalue with
    | null => exact ⟨_, rfl, .null⟩
    | bool => exact ⟨_, rfl, .bool⟩
    | int => exact ⟨_, rfl, .int⟩
    | float => exact ⟨_, rfl, .float⟩
    | string => exact ⟨_, rfl, .string⟩
  | slot hslot hvalue =>
    rename_i index slot
    cases hview : slot.view <;> rw [hview] at hvalue <;> cases hvalue
    all_goals
      simp only [nativeComparisonValue, nativeByValueEncoding, byValueFrom, hslot, hview, bind_eq_bind,
        bind_some]
    · exact ⟨_, rfl, .string⟩
    · exact ⟨_, rfl, .float⟩
    · exact ⟨_, rfl, .int⟩
    · exact ⟨_, rfl, .resource⟩

theorem forall₂_and (hR : List.Forall₂ R as bs) (hS : List.Forall₂ S as bs) :
    List.Forall₂ (fun a b => R a b ∧ S a b) as bs := by
  induction hR with
  | nil => exact .nil
  | cons h _ ih =>
    cases hS with
    | cons h' hrest => exact .cons ⟨h, h'⟩ (ih hrest)

theorem shows_of_denotes (h : plane.Denotes encoded value) :
    ∃ shown, plane.nativeComparisonValue encoded = some shown ∧ shown.Shows plane value := by
  cases h with
  | scalar h => exact shows_of_denotesScalar h
  | array hslot hview hkeys hvalues =>
    simp only [nativeComparisonValue, nativeByValueEncoding, byValueFrom, hslot, hview, bind_eq_bind,
      bind_some]
    exact ⟨_, rfl, .array (decodeConstant_of_directSlot hslot).2 hview (forall₂_and hkeys hvalues)⟩

/-! ## Keys -/

theorem compareArrayKeys_eq_iff : compareArrayKeys left right = .eq ↔ left = right := by
  cases left <;> cases right <;> simp [compareArrayKeys]

theorem nativeCompareArrayKeys_eq (hleft : plane.DenotesKey left key) (hright : plane.DenotesKey right key') :
    plane.nativeCompareArrayKeys left right = some (compareArrayKeys key key') := by
  cases key <;> cases key'
  all_goals
    obtain ⟨shown, hshown, hshows⟩ := shows_of_denotesScalar hleft
    obtain ⟨shown', hshown', hshows'⟩ := shows_of_denotesScalar hright
    rw [nativeCompareArrayKeys, hshown, hshown']
    cases hshows
    cases hshows'
    rfl

theorem findEntry_denotes (h : plane.EntriesDenote entries pairs) (hkey : plane.DenotesKey encoded key) :
    (plane.findEntry entries encoded = none ∧ PlainValue.lookup pairs key = none) ∨
      ∃ entry pair, plane.findEntry entries encoded = some entry ∧
        PlainValue.lookup pairs key = some pair.2 ∧ pair ∈ pairs ∧ plane.Denotes entry.value pair.2 := by
  induction h with
  | nil => exact .inl ⟨rfl, rfl⟩
  | @cons entry pair entries pairs hentry hrest ih =>
    rw [findEntry, PlainValue.lookup, find?_cons, find?_cons, nativeCompareArrayKeys_eq hkey hentry.1]
    by_cases heq : pair.1 = key
    · subst heq
      have hcompare : compareArrayKeys pair.1 pair.1 = .eq := compareArrayKeys_eq_iff.mpr rfl
      simp only [hcompare, decide_true]
      exact .inr ⟨entry, pair, rfl, rfl, mem_cons_self, hentry.2⟩
    · have hcompare : compareArrayKeys key pair.1 ≠ .eq :=
        fun h => heq (compareArrayKeys_eq_iff.mp h).symm
      simp only [Option.some.injEq, heq, hcompare, decide_false]
      rcases ih with hnone | ⟨found, value, hfound, hlookup, hmem, hdenotes⟩
      · exact .inl hnone
      · exact .inr ⟨found, value, hfound, hlookup, mem_cons_of_mem _ hmem, hdenotes⟩

end DirectPlane

/-! ## Numbers -/

namespace PlainValue
variable {floats : ComparedFloats F}

/-- A number in a string is a decimal, and no decimal denotes NaN. -/
theorem isNan_of_comparisonNumericString (h : comparisonNumericString floats bytes = some (.float number)) :
    floats.isNan number = false := by
  obtain ⟨-, h⟩ := ite_none_right_eq_some.mp h
  rcases classify_cases floats.toParsedFloats bytes with ⟨-, hnone⟩ | ⟨length, -, hvalue, -⟩
  · rw [hnone] at h
    cases h
  rw [hvalue, Option.some.injEq, numberValue] at h
  split at h
  · cases h
  · cases h
    exact floats.ofDecimal_isNan _

theorem compareNumbers_eq (floats : ComparedFloats F) (left right : NumericValue F) :
    compareNumbers floats left right = .ok (numbersOrder floats left right) := by
  have hfloat (left right : F) : compareNumbers floats (.float left) (.float right) =
      .ok (numbersOrder floats (.float left) (.float right)) := by
    by_cases hnan : floats.isNan left ∨ floats.isNan right
    · exact (if_pos hnan).trans (congrArg Except.ok (if_pos hnan).symm)
    · refine (if_neg hnan).trans (.trans ?_ (congrArg Except.ok (if_neg hnan).symm))
      rw [not_or, Bool.not_eq_true, Bool.not_eq_true] at hnan
      obtain ⟨ordering, hordering⟩ := isSome_iff_exists.mp ((floats.partialCmp_isSome left right).mpr hnan)
      simp only [numberAsF64, asF64, hordering, getD_some]
  cases left <;> cases right
  · rfl
  · exact hfloat _ _
  · exact hfloat _ _
  · exact hfloat _ _

theorem numbersOrder_self (h : ∀ value, number = .float value → floats.isNan value = false) :
    numbersOrder floats number number = .eq := by
  cases number with
  | int value => exact Std.compare_self
  | float value =>
    have hnan := h value rfl
    simp [numbersOrder, asF64, hnan, floats.partialCmp_self value hnan]

theorem numbersOrder_nan (h : floats.isNan value = true) (number : NumericValue F) :
    numbersOrder floats (.float value) number = .gt ∧ numbersOrder floats number (.float value) = .gt := by
  cases number <;> simp [numbersOrder, asF64, h]

/-! ## Arrays and themselves -/

theorem lookup_self (h : (entries.map Prod.fst).Nodup)
    (hentry : entry ∈ entries) : lookup entries entry.1 = some entry.2 := by
  induction entries with
  | nil => cases hentry
  | cons first entries ih =>
    rw [map_cons, nodup_cons] at h
    rw [lookup, find?_cons]
    rcases mem_cons.mp hentry with rfl | hentry
    · simp
    · have hne : first.1 ≠ entry.1 := fun heq => h.1 (heq ▸ mem_map_of_mem hentry)
      simp only [hne, decide_false]
      exact ih h.2 hentry

theorem identical_self (h : Regular floats value) : identical floats value value = true := by
  induction h with
  | null | bool | int | string | resource => simp [identical]
  | float hnan =>
    rw [identical, floats.eq_iff]
    exact floats.partialCmp_self _ hnan
  | @array entries _ _ ih =>
    have hentries : entriesIdentical floats entries entries = true := by
      clear * - ih
      induction entries with
      | nil => rfl
      | cons entry entries ih' =>
        simp only [entriesIdentical, decide_true, Bool.true_and, Bool.and_eq_true]
        exact ⟨ih entry mem_cons_self, ih' (forall_mem_cons.mp ih).2⟩
    simp [identical, hentries]

theorem compare_self (h : Regular floats value) : compare_ floats value value = .ok .eq := by
  induction h with
  | null | bool | resource => simp [compare_, toBool]
  | int => simp [compare_, compareNumbers]
  | float hnan =>
    rw [compare_, compareNumbers_eq, numbersOrder_self]
    rintro _ ⟨⟩
    exact hnan
  | string =>
    rw [compare_]
    split
    · next number _ hnumber hnumber' =>
      cases hnumber.symm.trans hnumber'
      rw [compareNumbers_eq, numbersOrder_self]
      rintro value rfl
      exact isNan_of_comparisonNumericString hnumber
    · rw [Std.compare_self]
  | @array entries hnodup _ ih =>
    have hentries : ∀ lefts, (∀ entry ∈ lefts, entry ∈ entries) →
        entriesCompare floats lefts entries = .ok .eq := by
      intro lefts
      induction lefts with
      | nil => exact fun _ => rfl
      | cons entry lefts ih' =>
        intro hmem
        have hentry := hmem entry mem_cons_self
        have hlookup := lookup_self hnodup hentry
        obtain ⟨key, value⟩ := entry
        rw [entriesCompare, hlookup]
        simp only
        rw [ih (key, value) hentry]
        exact ih' (forall_mem_cons.mp hmem).2
    rw [compare_, if_pos rfl]
    exact hentries entries fun _ h => h

theorem equal_self (h : Regular floats value) : equal floats value value = .ok true := by
  have hcompare := compare_self h
  induction h with
  | null | bool | int | float | string =>
    rw [equal.eq_def]
    simp [hcompare, Except.map]
  | resource => simp [equal]
  | @array entries hnodup hregular ih =>
    have hentries : ∀ lefts, (∀ entry ∈ lefts, entry ∈ entries) →
        entriesEqual floats lefts entries = .ok true := by
      intro lefts
      induction lefts with
      | nil => exact fun _ => rfl
      | cons entry lefts ih' =>
        intro hmem
        have hentry := hmem entry mem_cons_self
        have hlookup := lookup_self hnodup hentry
        obtain ⟨key, value⟩ := entry
        rw [entriesEqual, hlookup]
        simp only
        rw [ih (key, value) hentry (compare_self (hregular (key, value) hentry))]
        exact ih' (forall_mem_cons.mp hmem).2
    rw [equal, if_pos rfl]
    exact hentries entries fun _ h => h

end PlainValue

/-! ## Denotation is a function -/

namespace DirectPlane
variable {plane : DirectPlane F} {floats : ComparedFloats F}

theorem DenotesKey.unique (h : plane.DenotesKey encoded key)
    (h' : plane.DenotesKey encoded key') : key = key' := by
  cases key <;> cases key'
  all_goals
    obtain ⟨shown, hshown, hshows⟩ := shows_of_denotesScalar h
    obtain ⟨shown', hshown', hshows'⟩ := shows_of_denotesScalar h'
    cases hshown.symm.trans hshown'
    cases hshows
    cases hshows' <;> rfl

theorem sizeOf_pair_lt {pairs : List (ArrayKey × PlainValue F)} (h : pair ∈ pairs) :
    sizeOf pair.2 < sizeOf (PlainValue.array pairs) := by
  have hlt := sizeOf_lt_of_mem h
  obtain ⟨key, value⟩ := pair
  simp only [PlainValue.array.sizeOf_spec, Prod.mk.sizeOf_spec] at hlt ⊢
  omega

theorem entriesDenote_unique (h : plane.EntriesDenote entries pairs) (h' : plane.EntriesDenote entries pairs')
    (hvalues : ∀ pair ∈ pairs, ∀ encoded value', plane.Denotes encoded pair.2 →
      plane.Denotes encoded value' → pair.2 = value') : pairs = pairs' := by
  induction h generalizing pairs' with
  | nil =>
    cases h'
    rfl
  | @cons entry pair entries pairs hentry hrest ih =>
    cases h' with
    | @cons _ pair' _ pairs' hentry' hrest' =>
      have hkey := hentry.1.unique hentry'.1
      have hvalue := hvalues pair mem_cons_self _ _ hentry.2 hentry'.2
      rw [Prod.ext hkey hvalue, ih hrest' fun other hother => hvalues other (mem_cons_of_mem _ hother)]

theorem shows_unique {shown : NativeComparisonValue F} (h : Shows plane shown value)
    (h' : Shows plane shown value') : value = value' := by
  induction hn : sizeOf value using Nat.strong_induction_on generalizing shown value value' with
  | h n ih =>
    cases h with
    | @array index entries cursor pairs slot hslot hview hentries =>
      cases h' with
      | @array _ _ _ pairs' _ _ _ hentries' =>
        rw [entriesDenote_unique hentries hentries']
        intro pair hpair encoded value' hdenotes hdenotes'
        obtain ⟨shown, hshown, hshows⟩ := shows_of_denotes hdenotes
        obtain ⟨shown', hshown', hshows'⟩ := shows_of_denotes hdenotes'
        cases hshown.symm.trans hshown'
        exact ih _ (hn ▸ sizeOf_pair_lt hpair) hshows hshows' rfl
    | _ =>
      cases h'
      rfl

/-! ## Guards -/

/-- The stack holds arrays in which the value lies, and leaves fuel for all others. -/
structure Guarded (plane : DirectPlane F) (fuel : Nat) (arrays : ArrayPairs) (value : PlainValue F) : Prop where
  fuel_le : plane.slots.length + 2 ≤ fuel + arrays.length
  nodup : (arrays.map Prod.fst).Nodup
  bounds {pair : Nat × Nat} : pair ∈ arrays → pair.1 < plane.slots.length
  larger {pair : Nat × Nat} {entries : List DirectArrayEntry} {pairs : List (ArrayKey × PlainValue F)} :
    pair ∈ arrays → Shows plane (.array pair.1 entries) (.array pairs) → sizeOf value < sizeOf (PlainValue.array pairs)

theorem Guarded.fuel_pos (h : Guarded plane fuel arrays value) : ∃ rest, fuel = rest + 1 := by
  have hlength : arrays.length ≤ plane.slots.length := by
    have hsubset : arrays.map Prod.fst ⊆ List.range plane.slots.length := by
      intro index hindex
      obtain ⟨pair, hpair, rfl⟩ := mem_map.mp hindex
      exact mem_range.mpr (h.bounds hpair)
    have hle := (subperm_of_subset h.nodup hsubset).length_le
    rwa [length_map, length_range] at hle
  have := h.fuel_le
  exact ⟨fuel - 1, by omega⟩

theorem Guarded.not_mem (h : Guarded plane fuel arrays (.array pairs))
    (hshows : Shows plane (.array index entries) (.array pairs)) : index ∉ arrays.map Prod.fst := by
  intro hindex
  obtain ⟨pair, hpair, rfl⟩ := mem_map.mp hindex
  exact Nat.lt_irrefl _ (h.larger hpair hshows)

theorem Guarded.push (h : Guarded plane (fuel + 1) arrays (.array pairs))
    (hshows : Shows plane (.array index entries) (.array pairs)) (hpair : pair ∈ pairs) (right : Nat) :
    Guarded plane fuel ((index, right) :: arrays) pair.2 := by
  have hsize := sizeOf_pair_lt hpair
  constructor
  · have := h.fuel_le
    rw [length_cons]
    omega
  · exact nodup_cons.mpr ⟨h.not_mem hshows, h.nodup⟩
  · intro other hother
    rcases mem_cons.mp hother with rfl | hother
    · cases hshows with
      | array hslot => exact (List.getElem?_eq_some_iff.mp hslot).1
    · exact h.bounds hother
  · intro other entries' pairs' hother hshows'
    rcases mem_cons.mp hother with rfl | hother
    · cases hshows with
      | array hslot hview hentries =>
        cases hshows' with
        | array hslot' hview' hentries' =>
          cases hslot.symm.trans hslot'
          cases hview.symm.trans hview'
          cases shows_unique (.array hslot hview hentries) (.array hslot hview hentries')
          exact hsize
    · exact Nat.lt_trans hsize (h.larger hother hshows')

end DirectPlane

/-! ## Scalars -/

/-- A NaN and a string that is no number, which native code compares with the text of the NaN. -/
def PlainValue.NanText (floats : ComparedFloats F) : PlainValue F → PlainValue F → Prop
  | .string bytes, .float number => floats.isNan number = true ∧
    comparisonNumericString floats bytes = none ∧ compare bytes [78, 65, 78] ≠ .gt
  | .float number, .string bytes => floats.isNan number = true ∧
    comparisonNumericString floats bytes = none ∧ compare [78, 65, 78] bytes ≠ .gt
  | _, _ => False

def PlainValue.IsArray (value : PlainValue F) : Prop := ∃ entries, value = .array entries

variable {floats : ComparedFloats F}

theorem PlainValue.Regular.entry (h : Regular floats (.array entries))
    (hpair : pair ∈ entries) : Regular floats pair.2 := by
  cases h with
  | array _ hvalues => exact hvalues pair hpair

theorem PlainValue.Regular.not_nanText (hx : Regular floats x)
    (hy : Regular floats y) : ¬NanText floats x y := by
  rw [NanText.eq_def]
  split
  · cases hy with
    | float hnan => exact fun h => Bool.false_ne_true (hnan.symm.trans h.1)
  · cases hx with
    | float hnan => exact fun h => Bool.false_ne_true (hnan.symm.trans h.1)
  · exact id

theorem PlainValue.Regular.not_unordered (hx : Regular floats x)
    (hy : Regular floats y) : x.numericComparisonIsUnordered floats y = false := by
  have hnan {number : F} (h : Regular floats (.float number)) : floats.isNan number = false := by
    cases h with
    | float hnan => exact hnan
  rw [numericComparisonIsUnordered.eq_def]
  split
  · rw [hnan hx, hnan hy]
    rfl
  · exact hnan hx
  · exact hnan hx
  · exact hnan hy
  · exact hnan hy
  · rfl

namespace NativeComparisonValue
variable {plane : DirectPlane F} {floats : ComparedFloats F}

theorem truthy_eq (floats : ComparedFloats F) (h : Shows plane shown value) :
    shown.truthy floats = value.toBool floats := by
  cases h with
  | @bool value => cases value <;> rfl
  | array _ _ hentries =>
    cases hentries <;> simp [truthy, PlainValue.toBool]
  | _ => rfl

/-- Both compare numbers or texts, but the runtime has a NaN come last. -/
theorem compareStringNumber_eq :
    compareStringNumber floats bytes number (numberBytes floats number) nan =
        .ok (stringNumberOrder floats bytes number) ↔
      (nan = true → comparisonNumericString floats bytes = none →
        compare bytes (numberBytes floats number) = .gt) := by
  have hnumeric : numericString floats bytes = comparisonNumericString floats bytes := rfl
  rw [compareStringNumber, stringNumberOrder, hnumeric]
  cases comparisonNumericString floats bytes with
  | some value => simp [compareNumbers_eq]
  | none => cases nan <;> simp [compareTexts, eq_comm]

theorem compareNumberString_eq :
    compareNumberString floats number (numberBytes floats number) nan bytes =
        .ok (numberStringOrder floats number bytes) ↔
      (nan = true → comparisonNumericString floats bytes = none →
        compare (numberBytes floats number) bytes = .gt) := by
  have hnumeric : numericString floats bytes = comparisonNumericString floats bytes := rfl
  rw [compareNumberString, numberStringOrder, hnumeric]
  cases comparisonNumericString floats bytes with
  | some value => simp [compareNumbers_eq]
  | none => cases nan <;> simp [compareTexts, eq_comm]

end NativeComparisonValue

namespace DirectPlane
variable {plane : DirectPlane F} {floats : ComparedFloats F} {objects : ObjectComparison}

section
variable {shown shown' : NativeComparisonValue F}
  (hleft : plane.nativeComparisonValue left = some shown)
  (hright : plane.nativeComparisonValue right = some shown')
  (hx : Shows plane shown x) (hy : Shows plane shown' y) (hscalar : ¬(x.IsArray ∧ y.IsArray))
include hleft hright hx hy hscalar

theorem valuesIdenticalFrom_scalar (fuel : Nat) (arrays : ArrayPairs) :
    plane.valuesIdenticalFrom floats (fuel + 1) arrays left right = some (x.identical floats y) := by
  rw [valuesIdenticalFrom, hleft, hright]
  cases hx <;> cases hy <;> first | rfl | exact absurd ⟨⟨_, rfl⟩, _, rfl⟩ hscalar

variable (objects : ObjectComparison) (fuel : Nat) (arrays : ArrayPairs) (hnan : ¬NanText floats x y)
include hnan

theorem valuesCompareFrom_scalar :
    ∃ ordering, plane.valuesCompareFrom floats objects (fuel + 1) arrays left right =
        (some ordering, x.numericComparisonIsUnordered floats y) ∧ x.compare_ floats y = .ok ordering := by
  rw [valuesCompareFrom, hleft, hright]
  have htruthy := truthy_eq floats hx
  have htruthy' := truthy_eq floats hy
  have hcompare := compareNumbers_eq floats
  cases hx <;> cases hy
  -- What does not depend on the text of numbers is the same on both sides.
  all_goals
    try first
    | exact absurd ⟨⟨_, rfl⟩, _, rfl⟩ hscalar
    | exact ⟨_, rfl, rfl⟩
    | refine ⟨_, rfl, ?_⟩; simp only [compare_, htruthy, htruthy']; done
  all_goals
    simp only [valuesOrder, isNan,
      numericComparisonIsUnordered, Bool.or_false, Bool.false_or, compare_, hcompare]
    try exact ⟨_, rfl, rfl⟩
  case string.string bytes bytes' =>
    have hnumeric (bytes : PhpString) :
        numericString floats bytes = comparisonNumericString floats bytes := rfl
    simp only [hnumeric]
    cases comparisonNumericString floats bytes <;>
      cases comparisonNumericString floats bytes' <;> exact ⟨_, rfl, rfl⟩
  case int.string =>
    exact ⟨_, rfl, compareNumberString_eq.mpr nofun⟩
  case string.int =>
    exact ⟨_, rfl, compareStringNumber_eq.mpr nofun⟩
  case float.string number bytes =>
    refine ⟨_, rfl, compareNumberString_eq.mpr fun h hbytes => ?_⟩
    by_contra hne
    exact hnan ⟨h, hbytes, floats.text_nan number h ▸ hne⟩
  case string.float bytes number =>
    refine ⟨_, rfl, compareStringNumber_eq.mpr fun h hbytes => ?_⟩
    by_contra hne
    exact hnan ⟨h, hbytes, floats.text_nan number h ▸ hne⟩

theorem valuesEqualFrom_scalar :
    ∃ result, plane.valuesEqualFrom floats objects (fuel + 1) arrays left right = some result ∧
      x.equal floats y = .ok result := by
  obtain ⟨ordering, hcompare, hruntime⟩ := valuesCompareFrom_scalar hleft hright hx hy hscalar objects
    fuel arrays hnan
  have hvalues := hcompare
  rw [valuesCompareFrom, hleft, hright] at hvalues
  have hnative := congrArg (fun result => result.1.map fun ordering => decide (ordering = .eq)) hcompare
  have hnative' := congrArg (fun result => result.1.map fun ordering => decide (ordering = .eq)) hvalues
  have hequal := congrArg (Except.map fun ordering => decide (ordering = .eq)) hruntime
  rw [valuesEqualFrom, hleft, hright]
  cases hx <;> cases hy
  -- Equality is answered at once, by the comparison or by the order of two scalars.
  all_goals
    first
    | exact absurd ⟨⟨_, rfl⟩, _, rfl⟩ hscalar
    | exact ⟨_, rfl, rfl⟩
    | exact ⟨_, hnative, hequal⟩
    | exact ⟨_, hnative', hequal⟩

end

/-! ## Arrays -/

variable {xs ys : List (ArrayKey × PlainValue F)}

theorem entriesIdentical_eq (hx : plane.EntriesDenote lefts xs) (hy : plane.EntriesDenote rights ys)
    (hf : ∀ x ∈ xs, ∀ y ∈ ys, ∀ left right, plane.Denotes left x.2 → plane.Denotes right y.2 →
      f left right = some (x.2.identical floats y.2)) :
    plane.entriesIdentical f lefts rights = some (PlainValue.entriesIdentical floats xs ys) := by
  induction hx generalizing rights ys with
  | nil =>
    rw [entriesIdentical.eq_def, PlainValue.entriesIdentical.eq_def]
  | @cons left x lefts xs hleft hlefts ih =>
    cases hy with
    | nil => rw [entriesIdentical.eq_def, PlainValue.entriesIdentical.eq_def]
    | @cons right y rights ys hright hrights =>
      have hrest := ih hrights fun x hx y hy => hf x (mem_cons_of_mem _ hx) y (mem_cons_of_mem _ hy)
      obtain ⟨key, value⟩ := x
      obtain ⟨key', value'⟩ := y
      rw [entriesIdentical, PlainValue.entriesIdentical, nativeCompareArrayKeys_eq hleft.1 hright.1,
        hf _ mem_cons_self _ mem_cons_self _ _ hleft.2 hright.2]
      by_cases hkey : key = key'
      · rw [if_neg (not_not.mpr (congrArg some (compareArrayKeys_eq_iff.mpr hkey))), decide_eq_true hkey,
          Bool.true_and]
        cases value.identical floats value' with
        | true => exact hrest
        | false => rfl
      · rw [if_pos fun h => hkey (compareArrayKeys_eq_iff.mp (Option.some.inj h)), decide_eq_false hkey]
        rfl

theorem entriesCompare_eq
    (hx : plane.EntriesDenote lefts xs) (hy : plane.EntriesDenote rights ys) (hne : xs ≠ [] → ys ≠ [])
    (hf : ∀ x ∈ xs, ∀ y ∈ ys, ∀ left right, plane.Denotes left x.2 → plane.Denotes right y.2 →
      ∃ ordering, f left right = (some ordering, false) ∧ x.2.compare_ floats y.2 = .ok ordering) :
    ∃ ordering, plane.entriesCompare f rights.head? rights lefts = (some ordering, false) ∧
      PlainValue.entriesCompare floats xs ys = .ok ordering := by
  induction hx with
  | nil => exact ⟨.eq, rfl, rfl⟩
  | @cons left x lefts xs hleft hlefts ih =>
    obtain ⟨ordering, hnative, hruntime⟩ := ih (fun _ => hne (cons_ne_nil _ _))
      (forall_mem_cons.mp hf).2
    obtain ⟨key, value⟩ := x
    rw [entriesCompare, PlainValue.entriesCompare]
    rcases findEntry_denotes hy hleft.1 with ⟨hfind, hlookup⟩ | ⟨right, y, hfind, hlookup, hmem, hright⟩
    · rw [hfind, hlookup]
      cases hy with
      | nil => exact absurd rfl (hne (cons_ne_nil _ _))
      | cons hfirst _ =>
        refine ⟨_, ?_, rfl⟩
        rw [head?_cons]
        simp [nativeCompareArrayKeys_eq hleft.1 hfirst.1]
    · obtain ⟨first, hfirst, hvalue⟩ := hf (key, value) mem_cons_self y hmem _ _ hleft.2 hright
      rw [hfind, hlookup]
      simp only
      rw [hfirst, hvalue]
      cases first with
      | eq =>
        refine ⟨ordering, ?_, hruntime⟩
        simp [hnative]
      | lt => exact ⟨.lt, rfl, rfl⟩
      | gt => exact ⟨.gt, rfl, rfl⟩

theorem entriesEqual_eq (hx : plane.EntriesDenote lefts xs) (hy : plane.EntriesDenote rights ys)
    (hf : ∀ x ∈ xs, ∀ y ∈ ys, ∀ left right, plane.Denotes left x.2 → plane.Denotes right y.2 →
      ∃ result, f left right = some result ∧ x.2.equal floats y.2 = .ok result) :
    ∃ result, plane.entriesEqual f rights lefts = some result ∧
      PlainValue.entriesEqual floats xs ys = .ok result := by
  induction hx with
  | nil => exact ⟨true, rfl, rfl⟩
  | @cons left x lefts xs hleft hlefts ih =>
    obtain ⟨result, hnative, hruntime⟩ := ih (forall_mem_cons.mp hf).2
    obtain ⟨key, value⟩ := x
    rw [entriesEqual, PlainValue.entriesEqual]
    rcases findEntry_denotes hy hleft.1 with ⟨hfind, hlookup⟩ | ⟨right, y, hfind, hlookup, hmem, hright⟩
    · rw [hfind, hlookup]
      exact ⟨false, rfl, rfl⟩
    obtain ⟨first, hfirst, hvalue⟩ := hf (key, value) mem_cons_self y hmem _ _ hleft.2 hright
    rw [hfind, hlookup]
    simp only
    rw [hfirst, hvalue]
    cases first with
    | true => exact ⟨result, hnative, hruntime⟩
    | false => exact ⟨false, rfl, rfl⟩

/-! ## Values -/

theorem Guarded.pair_not_mem (h : Guarded plane fuel arrays (.array pairs))
    (hshows : Shows plane (.array index entries) (.array pairs)) (right : Nat) : (index, right) ∉ arrays :=
  fun hmem => h.not_mem hshows (mem_map_of_mem hmem)

theorem arrays_of_denotes (hx : plane.Denotes left (.array xs)) (hy : plane.Denotes right (.array ys)) :
    ∃ index entries index' entries', plane.nativeComparisonValue left = some (.array index entries) ∧
      plane.nativeComparisonValue right = some (.array index' entries') ∧
      Shows plane (.array index entries) (.array xs) ∧ plane.EntriesDenote entries xs ∧
      plane.EntriesDenote entries' ys ∧ (index = index' → xs = ys) := by
  obtain ⟨shown, hleft, hshows⟩ := shows_of_denotes hx
  obtain ⟨shown', hright, hshows'⟩ := shows_of_denotes hy
  cases hshows with
  | @array index entries _ _ slot hslot hview hentries =>
    cases hshows' with
    | @array index' entries' _ _ slot' hslot' hview' hentries' =>
      refine ⟨index, entries, index', entries', hleft, hright, .array hslot hview hentries, hentries, hentries',
        fun heq => ?_⟩
      subst heq
      cases hslot.symm.trans hslot'
      cases hview.symm.trans hview'
      exact PlainValue.array.inj (shows_unique (.array hslot hview hentries) (.array hslot hview hentries'))

/-- The native comparisons, called with this stack, return what the runtime returns. -/
structure AgreesFrom (plane : DirectPlane F) (floats : ComparedFloats F) (objects : ObjectComparison)
    (fuel : Nat) (arrays : ArrayPairs) (left right : Int) (x y : PlainValue F) : Prop where
  identical : plane.valuesIdenticalFrom floats fuel arrays left right = some (x.identical floats y)
  equal : ∃ result, plane.valuesEqualFrom floats objects fuel arrays left right = some result ∧
    x.equal floats y = .ok result
  compare : ∃ ordering, plane.valuesCompareFrom floats objects fuel arrays left right =
      (some ordering, x.numericComparisonIsUnordered floats y) ∧ x.compare_ floats y = .ok ordering

theorem agreesFrom_scalar (hx : plane.Denotes left x) (hy : plane.Denotes right y)
    (hscalar : ¬(x.IsArray ∧ y.IsArray)) (hnan : ¬NanText floats x y) :
    plane.AgreesFrom floats objects (fuel + 1) arrays left right x y := by
  obtain ⟨shown, hleft, hshows⟩ := shows_of_denotes hx
  obtain ⟨shown', hright, hshows'⟩ := shows_of_denotes hy
  exact ⟨valuesIdenticalFrom_scalar hleft hright hshows hshows' hscalar fuel arrays,
    valuesEqualFrom_scalar hleft hright hshows hshows' hscalar objects fuel arrays hnan,
    valuesCompareFrom_scalar hleft hright hshows hshows' hscalar objects fuel arrays hnan⟩

/-- Two arrays are compared as the runtime compares them, if their entries are. -/
theorem agreesFrom_array (hregular : Regular floats (.array xs))
    (hregular' : Regular floats (.array ys)) (hx : plane.Denotes left (.array xs))
    (hy : plane.Denotes right (.array ys)) (hguard : Guarded plane (fuel + 1) arrays (.array xs))
    (ih : ∀ x ∈ xs, ∀ y ∈ ys, ∀ arrays left right, plane.Denotes left x.2 → plane.Denotes right y.2 →
      Guarded plane fuel arrays x.2 → plane.AgreesFrom floats objects fuel arrays left right x.2 y.2) :
    plane.AgreesFrom floats objects (fuel + 1) arrays left right (.array xs) (.array ys) := by
  obtain ⟨index, entries, index', entries', hleft, hright, hshows, hxs, hys, hsame⟩ := arrays_of_denotes hx hy
  have hnew := hguard.pair_not_mem hshows index'
  have hentries : ∀ x ∈ xs, ∀ y ∈ ys, ∀ left right, plane.Denotes left x.2 → plane.Denotes right y.2 →
      plane.AgreesFrom floats objects fuel ((index, index') :: arrays) left right x.2 y.2 :=
    fun x hx y hy left right hleft hright => ih x hx y hy _ left right hleft hright (hguard.push hshows hx index')
  by_cases hindex : index = index'
  · cases hsame hindex
    constructor
    · simp [valuesIdenticalFrom, hleft, hright, hindex, identical_self hregular]
    · simp [valuesEqualFrom, hleft, hright, hindex, equal_self hregular]
    · refine ⟨.eq, ?_, compare_self hregular⟩
      simp [valuesCompareFrom, hleft, hright, hindex, numericComparisonIsUnordered]
  · by_cases hlength : xs.length = ys.length
    · constructor
      · simp only [valuesIdenticalFrom, hleft, hright, bind_eq_bind, bind_some, if_neg hindex,
          hxs.length_eq, hys.length_eq, if_neg (not_not.mpr hlength), if_neg hnew, identical,
          decide_eq_true hlength, Bool.true_and]
        exact entriesIdentical_eq hxs hys fun x hx y hy left right hleft hright =>
          (hentries x hx y hy left right hleft hright).identical
      · simp only [valuesEqualFrom, hleft, hright, bind_eq_bind, bind_some, if_neg hindex,
          hxs.length_eq, hys.length_eq, if_neg (not_not.mpr hlength), if_neg hnew, equal, if_pos hlength]
        exact entriesEqual_eq hxs hys fun x hx y hy left right hleft hright =>
          (hentries x hx y hy left right hleft hright).equal
      · simp only [valuesCompareFrom, hleft, hright, if_neg hindex, hxs.length_eq, hys.length_eq,
          if_neg (not_not.mpr hlength), if_neg hnew, compare_, if_pos hlength]
        refine entriesCompare_eq hxs hys (fun hne => ?_) fun x hx y hy left right hleft hright => ?_
        · rw [← length_pos_iff, ← hlength]
          exact length_pos_iff.mpr hne
        · rw [← (hregular.entry hx).not_unordered (hregular'.entry hy)]
          exact (hentries x hx y hy left right hleft hright).compare
    · constructor
      · simp [valuesIdenticalFrom, hleft, hright, hindex, hxs.length_eq, hys.length_eq, hlength, identical]
      · simp [valuesEqualFrom, hleft, hright, hindex, hxs.length_eq, hys.length_eq, hlength, equal]
      · simp [valuesCompareFrom, hleft, hright, hindex, hxs.length_eq, hys.length_eq, hlength, compare_,
          numericComparisonIsUnordered]

theorem agreesFrom_regular (hregular : x.Regular floats) (hregular' : y.Regular floats)
    (hx : plane.Denotes left x) (hy : plane.Denotes right y) (hguard : Guarded plane fuel arrays x) :
    plane.AgreesFrom floats objects fuel arrays left right x y := by
  induction hn : sizeOf x using Nat.strong_induction_on generalizing fuel arrays left right x y with
  | h n ih =>
    obtain ⟨fuel, rfl⟩ := hguard.fuel_pos
    by_cases harrays : x.IsArray ∧ y.IsArray
    · obtain ⟨⟨xs, rfl⟩, ys, rfl⟩ := harrays
      refine agreesFrom_array hregular hregular' hx hy hguard fun x hx y hy arrays left right hleft hright hguard =>
        ih _ (hn ▸ sizeOf_pair_lt hx) (hregular.entry hx) (hregular'.entry hy) hleft hright hguard rfl
    · exact agreesFrom_scalar hx hy harrays (hregular.not_nanText hregular')

/-! ## Agreement -/

/-- The native comparisons and operators return what the runtime returns. -/
structure Agrees (plane : DirectPlane F) (floats : ComparedFloats F) (objects : ObjectComparison)
    (left right : Int) (x y : PlainValue F) : Prop where
  identical : plane.nativeValuesIdentical floats left right = some (x.identical floats y)
  equal : ∃ result, plane.nativeValuesEqual floats objects left right = some result ∧
    x.equal floats y = .ok result
  compare : ∃ ordering, plane.nativeValuesCompare floats objects left right =
      (some ordering, x.numericComparisonIsUnordered floats y) ∧ x.compare_ floats y = .ok ordering
  operator : ∀ operator, ∃ result, plane.nativeOperator floats objects left right operator = some result ∧
    x.baselineCompare floats y operator = .ok result

theorem guarded_nil (plane : DirectPlane F) (value : PlainValue F) :
    Guarded plane plane.comparisonDepth [] value where
  fuel_le := by
    have := Nat.le_mul_self plane.slots.length
    rw [comparisonDepth, length_nil]
    omega
  nodup := nodup_nil
  bounds h := nomatch h
  larger h := nomatch h

/-- An unordered comparison is answered as if the left operand were greater. -/
theorem compare_of_unordered {x y : PlainValue F} (h : x.numericComparisonIsUnordered floats y = true) :
    x.compare_ floats y = .ok .gt := by
  have hcompare := compareNumbers_eq floats
  rw [numericComparisonIsUnordered.eq_def] at h
  split at h
  · rw [compare_, hcompare]
    rcases Bool.or_eq_true_iff.mp h with h | h
    · rw [(numbersOrder_nan h _).1]
    · rw [(numbersOrder_nan h _).2]
  · rw [compare_, hcompare, (numbersOrder_nan h _).1]
  · rw [compare_, compareNumberString, h]
    split
    · rw [hcompare, (numbersOrder_nan h _).1]
    · rfl
  · rw [compare_, hcompare, (numbersOrder_nan h _).2]
  · rw [compare_, compareStringNumber, h]
    split
    · rw [hcompare, (numbersOrder_nan h _).2]
    · rfl
  · cases h

theorem AgreesFrom.agrees (h : plane.AgreesFrom floats objects plane.comparisonDepth [] left right x y) :
    plane.Agrees floats objects left right x y := by
  refine ⟨h.identical, h.equal, h.compare, fun operator => ?_⟩
  have hidentical : plane.nativeValuesIdentical floats left right = _ := h.identical
  obtain ⟨result, (hequal : plane.nativeValuesEqual floats objects left right = _), hequal'⟩ := h.equal
  obtain ⟨ordering, (hcompare : plane.nativeValuesCompare floats objects left right = _), hcompare'⟩ := h.compare
  cases operator with
  | identical => exact ⟨_, hidentical, rfl⟩
  | notIdentical => exact ⟨_, by rw [nativeOperator, hidentical]; rfl, rfl⟩
  | equal => exact ⟨_, hequal, hequal'⟩
  | notEqual =>
    refine ⟨!result, ?_, ?_⟩
    · rw [nativeOperator, hequal]; rfl
    · rw [baselineCompare, hequal']; rfl
  | less | lessEqual | greater | greaterEqual =>
    simp only [nativeOperator, nativeOperator.ordered, hcompare, baselineCompare, hcompare', Except.map,
      map_some]
    cases hflag : x.numericComparisonIsUnordered floats y with
    | false => exact ⟨_, rfl, rfl⟩
    | true =>
      cases hcompare'.symm.trans (compare_of_unordered hflag)
      exact ⟨_, rfl, rfl⟩

theorem agrees_of_not_nanText (hx : plane.Denotes left x) (hy : plane.Denotes right y)
    (hoperand : x.Operand floats) (hoperand' : y.Operand floats) (h : ¬NanText floats x y) :
    plane.Agrees floats objects left right x y := by
  refine AgreesFrom.agrees ?_
  by_cases harrays : x.IsArray ∧ y.IsArray
  · obtain ⟨⟨xs, rfl⟩, ys, rfl⟩ := harrays
    exact agreesFrom_regular (hoperand.resolve_right fun ⟨_, h⟩ => nomatch h)
      (hoperand'.resolve_right fun ⟨_, h⟩ => nomatch h) hx hy (plane.guarded_nil _)
  · exact agreesFrom_scalar hx hy harrays h

/-- Native code and the runtime give the same answers, except on a NaN and a string that is no number and
is not ordered against the text `NAN` as if the left operand were greater. -/
theorem nativeComparison_agrees_iff (plane : DirectPlane F) (floats : ComparedFloats F)
    (objects : ObjectComparison) {left right : Int} {x y : PlainValue F} (hx : plane.Denotes left x)
    (hy : plane.Denotes right y) (hoperand : x.Operand floats) (hoperand' : y.Operand floats) :
    plane.Agrees floats objects left right x y ↔ ¬NanText floats x y := by
  refine ⟨fun hagrees hnan => ?_, agrees_of_not_nanText hx hy hoperand hoperand'⟩
  obtain ⟨ordering, hnative, hruntime⟩ := hagrees.compare
  obtain ⟨shown, hleft, hshows⟩ := shows_of_denotes hx
  obtain ⟨shown', hright, hshows'⟩ := shows_of_denotes hy
  rw [nativeValuesCompare, comparisonDepth, valuesCompareFrom, hleft, hright] at hnative
  have hordering := congrArg Prod.fst hnative
  cases hshows <;> cases hshows' <;> try exact hnan.elim
  case string.float bytes number =>
    obtain ⟨hnumber, hbytes, hne⟩ := hnan
    rw [← Option.some.inj hordering] at hruntime
    exact hne (floats.text_nan number hnumber ▸ compareStringNumber_eq.mp hruntime hnumber hbytes)
  case float.string number bytes =>
    obtain ⟨hnumber, hbytes, hne⟩ := hnan
    rw [← Option.some.inj hordering] at hruntime
    exact hne (floats.text_nan number hnumber ▸ compareNumberString_eq.mp hruntime hnumber hbytes)

/-! ### Two runs -/

/-- Floats that know the 64-bit integers, a NaN and one more number for all other texts. -/
def wholeFloats : ComparedFloats (Option Int) where
  ofInt := some
  ofDecimal text := some (if isLong text && !isNegativeZero text then integerValue text else 2 ^ 70)
  ofWord _ := none
  toLong := id
  truncate number := number.getD 0
  display _ := []
  nonzero number := number != some 0
  ofDecimal_long text hlong hzero := by simp [hlong, hzero]
  isFinite := Option.isSome
  isNan := Option.isNone
  eq left right := left.isSome && left == right
  partialCmp left right := left.bind fun left => right.map fun right => Ord.compare left right
  text number := (number.map integerText).getD [78, 65, 78]
  eq_iff left right := by cases left <;> cases right <;> simp
  partialCmp_isSome left right := by cases left <;> cases right <;> simp
  partialCmp_self number h := by cases number <;> simp_all
  ofDecimal_isNan _ := rfl
  ofInt_isNan _ := rfl
  text_nan number h := by cases number <;> simp_all

/-- The arrays `[5]` and `["5"]`, and the constants `"5"`, `"NAN"` and NaN. -/
def comparedPlane : DirectPlane (Option Int) where
  constants := [.string [53], .string [78, 65, 78], .float none]
  slots := [⟨1, .array [⟨0, 5⟩] none⟩, ⟨1, .array [⟨0, jitEncodeConstant 0⟩] none⟩]

def noObjects : ObjectComparison := ⟨fun _ _ => none, fun _ _ => (none, false)⟩

theorem denotes_comparedPlane_left :
    comparedPlane.Denotes (encodeDirectSlotIndex 0 jitValueRuntimeArrayTag) (.array [(.int 0, .int 5)]) :=
  .array rfl rfl (.cons (.word rfl rfl) .nil) (.cons (.scalar (.word rfl rfl)) .nil)

theorem denotes_comparedPlane_right :
    comparedPlane.Denotes (encodeDirectSlotIndex 1 jitValueRuntimeArrayTag) (.array [(.int 0, .string [53])]) :=
  .array rfl rfl (.cons (.word rfl rfl) .nil)
    (.cons (.scalar (.constant 0 rfl rfl rfl .string)) .nil)

/-- The two arrays compare equal in native code and in the runtime. -/
theorem nativeComparison_arrays : comparedPlane.Agrees wholeFloats noObjects
    (encodeDirectSlotIndex 0 jitValueRuntimeArrayTag) (encodeDirectSlotIndex 1 jitValueRuntimeArrayTag)
    (.array [(.int 0, .int 5)]) (.array [(.int 0, .string [53])]) := by
  refine (nativeComparison_agrees_iff comparedPlane wholeFloats noObjects denotes_comparedPlane_left
    denotes_comparedPlane_right (.inl ?_) (.inl ?_)).mpr id
  · refine .array (by simp) fun entry hentry => ?_
    rw [mem_singleton.mp hentry]
    exact .int
  · refine .array (by simp) fun entry hentry => ?_
    rw [mem_singleton.mp hentry]
    exact .string

/-- `"NAN" == NAN` holds in native code only. -/
theorem nativeComparison_nanText : comparedPlane.Denotes (jitEncodeConstant 1) (.string [78, 65, 78]) ∧
      comparedPlane.Denotes (jitEncodeConstant 2) (.float none) ∧
      comparedPlane.nativeValuesEqual wholeFloats noObjects (jitEncodeConstant 1) (jitEncodeConstant 2) =
        some true ∧ equal wholeFloats (.string [78, 65, 78]) (.float none) = .ok false := by
  refine ⟨.scalar (.constant 1 rfl rfl rfl .string), .scalar (.constant 2 rfl rfl rfl .float), ?_, ?_⟩
  · decide
  · decide

end DirectPlane
end Phrust
