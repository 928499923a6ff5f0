import Mathlib.Data.List.Sublists
import Phrust.Vm.CallContract
import Phrust.Verify.NativeContext

/-!
# Declared types against PHP

When the contracts bind a scalar as PHP does.
-/

namespace Phrust
open List Option IrReturnType NativeContext
open ScalarType (exactlyMatchesKind matchesKind)
variable {F : Type} {ops : FloatOps F} {value : PhpScalar F}

/-! ## PHP's rules -/

/-- In the order in which they are written. -/
def IrReturnType.members : IrReturnType → List ScalarType
  | .scalar type_ => [type_]
  | .nullable inner => .null :: inner.members
  | .union members => members

/-- A string that reads as a float is an `int` only where `float` is no member. Strings that only begin with a
number are left out. -/
def phpConvert (ops : FloatOps F) (strict : Bool) (members : List ScalarType) (type_ : ScalarType)
    (value : PhpScalar F) : Option (PhpScalar F) :=
  match strict, type_, value with
  | _, .float, .int number => some (.float (ops.ofInt number))
  | false, .int, .bool value => some (.int (if value then 1 else 0))
  | false, .int, .string bytes => (numericText bytes).bind fun text =>
    if isLong text then some (.int (integerValue text))
    else if .float ∈ members then none
    else (ops.toLong (ops.ofDecimal text)).map .int
  | false, .float, .bool value => some (.float (ops.ofInt (if value then 1 else 0)))
  | false, .float, .string bytes => (numericText bytes).map fun text =>
    .float (if isLong text then ops.ofInt (integerValue text) else ops.ofDecimal text)
  | false, .string, .int number => some (.string (intText number))
  | false, .string, .bool value => some (.string (if value then [49] else []))
  | false, .bool, .int _ | false, .bool, .string _ => some (.bool (value.truthy ops))
  | _, _, _ => none

def phpOrder : List ScalarType := [.int, .float, .string, .bool]

/-- The value that PHP delivers, or `none` for a `TypeError`. -/
def phpBind (ops : FloatOps F) (type_ : IrReturnType) (strict : Bool) (value : PhpScalar F) : Option (PhpScalar F) :=
  if type_.admits exactlyMatchesKind value.kind then some value
  else (phpOrder.filter (· ∈ type_.members)).findSome? (phpConvert ops strict type_.members · value)

/-! ## Where the conversions are PHP's -/

/-- The word of the integer is no handle. -/
def IsPlain (number : Int) : Prop := jitDecodeConstant number = none ∧ jitDecodeRuntimeValue number = none

def IrReturnType.core : IrReturnType → IrReturnType
  | .nullable inner => inner.core
  | type_ => type_

/-- The members that accept the value stand in PHP's order, literals are converted to no union and no `bool`, and
Rust reads strings as PHP does. -/
structure ConvertsAsPhp (ops : FloatOps F) (type_ : IrReturnType) (literal : Bool) (value : PhpScalar F) : Prop where
  order : type_.members.filter (fun member => (phpConvert ops false type_.members member value).isSome) <+ phpOrder
  literal : literal = true → .bool ∉ type_.members ∧ ∀ members, type_.core ≠ .union members
  numeric : ∀ bytes text, value = .string bytes → numericText bytes = some text → trim bytes = text ∧
    (.int ∈ type_.members → isLong text = true ∨ .float ∈ type_.members ∨ ops.toLong (ops.ofDecimal text) = none) ∧
    (.float ∈ type_.members → isLong text = true → isNegativeZero text = false)
  other : ∀ bytes, value = .string bytes → numericText bytes = none →
    parseI64 (trim bytes) = none ∧ parseF64 ops (trim bytes) = none

/-- The value has the type, or is an integer for `float` or `?float`, or is converted as in PHP; an integer is no
member of a union with `float` and without `int`. -/
def BindsAsPhp (ops : FloatOps F) (type_ : IrReturnType) (strict literal : Bool) (value : PhpScalar F) : Prop :=
  type_.admits exactlyMatchesKind value.kind = true ∨ (type_.core = .scalar .float ∧ value.kind = .int) ∨
    ((value.kind = .int → .float ∉ type_.members) ∧
      (strict = true ∨ ConvertsAsPhp ops type_ literal value))

/-! ## Members -/

theorem exactlyMatchesKind_imp {type_ : ScalarType} (h : type_.exactlyMatchesKind kind = true) :
    type_.matchesKind kind = true := by
  cases type_ <;> simp_all [exactlyMatchesKind, matchesKind]

theorem matchesKind_imp {type_ : ScalarType} (h : type_.matchesKind kind = true) :
    type_.exactlyMatchesKind kind = true ∨ (type_ = .float ∧ kind = .int) := by
  cases type_ <;> cases kind <;> simp_all [exactlyMatchesKind, matchesKind]

theorem admits_eq {test : ScalarType → NativeEncodedValueKind → Bool}
    (htest : ∀ kind, test .null kind = (kind == .null)) (type_ : IrReturnType) (kind : NativeEncodedValueKind) :
    type_.admits test kind = type_.members.any (test · kind) := by
  induction type_ with
  | scalar | union => simp [admits, IrReturnType.members]
  | nullable inner ih => simp [admits, IrReturnType.members, htest, ih]

theorem matchesKind_null (kind : NativeEncodedValueKind) : ScalarType.null.matchesKind kind = (kind == .null) := by
  cases kind <;> rfl

theorem exactlyMatchesKind_null (kind : NativeEncodedValueKind) :
    ScalarType.null.exactlyMatchesKind kind = (kind == .null) := by
  cases kind <;> rfl

theorem admits_of_exactly {type_ : IrReturnType} (h : type_.admits exactlyMatchesKind kind = true) :
    type_.admits matchesKind kind = true := by
  rw [admits_eq exactlyMatchesKind_null, List.any_eq_true] at h
  obtain ⟨member, hmem, hmember⟩ := h
  rw [admits_eq matchesKind_null]
  exact List.any_eq_true.mpr ⟨member, hmem, exactlyMatchesKind_imp hmember⟩

/-! ## Conversions -/

section
variable {type_ : ScalarType}

theorem convert_exactly (h : type_.convert ops strict literal value = some result) :
    type_.exactlyMatchesKind result.kind = true := by
  cases type_ <;> cases value <;> simp only [ScalarType.convert, matchesKind, PhpScalar.kind] at h <;>
    grind [exactlyMatchesKind, matchesKind, PhpScalar.kind, map_eq_some_iff]

theorem convert_of_exactly (h : type_.exactlyMatchesKind value.kind = true) :
    type_.convert ops strict literal value = none := by
  cases type_ <;> cases value <;> simp_all [ScalarType.convert, exactlyMatchesKind, matchesKind, PhpScalar.kind]

theorem convert_strict (h : type_.matchesKind value.kind = false) : type_.convert ops true literal value = none := by
  cases type_ <;> cases value <;> simp_all [ScalarType.convert, matchesKind, PhpScalar.kind]

theorem convert_eq_phpConvert {type_ : IrReturnType} (h : ConvertsAsPhp ops type_ literal value)
    (hfloat : value.kind ≠ .float) (hmem : member ∈ type_.members) (hmatches : member.matchesKind value.kind = false) :
    member.convert ops false literal value = phpConvert ops false type_.members member value := by
  have hliteral (hbool : member = .bool) : literal = false :=
    Bool.eq_false_iff.mpr fun hl => (h.literal hl).1 (hbool ▸ hmem)
  cases member <;> cases value
  case int.string bytes | float.string bytes =>
    cases htext : numericText bytes with
    | none => simp [ScalarType.convert, phpConvert, htext, h.other bytes rfl htext, matchesKind, PhpScalar.kind]
    | some text =>
      obtain ⟨htrim, hint, hzero⟩ := h.numeric bytes text rfl htext
      have hdecimal : isDecimal text = true := by grind [numericText]
      simp only [ScalarType.convert, phpConvert, htext, htrim, matchesKind, PhpScalar.kind, parseI64, parseF64,
        hdecimal]
      grind [ops.ofDecimal_long text]
  all_goals simp_all [ScalarType.convert, phpConvert, matchesKind, PhpScalar.kind]

end

theorem findSome?_filter_isSome (f : α → Option β) (list : List α) :
    (list.filter fun entry => (f entry).isSome).findSome? f = list.findSome? f := by
  induction list with
  | nil => rfl
  | cons entry list ih => cases hentry : f entry <;> simp [hentry, ih]

theorem findSome?_phpOrder {members : List ScalarType} (f : ScalarType → Option β)
    (horder : members.filter (fun member => (f member).isSome) <+ phpOrder) :
    (phpOrder.filter (· ∈ members)).findSome? f = members.findSome? f := by
  have hall : ∀ list ∈ phpOrder.sublists, phpOrder.filter (· ∈ list) = list := by decide
  rw [← findSome?_filter_isSome f members, ← hall _ (mem_sublists.mpr horder), ← findSome?_filter_isSome f (filter _ _),
    List.filter_filter]
  simp only [mem_filter, Bool.decide_and, Bool.decide_eq_true, Bool.and_comm]

/-! ## Coercion -/

/-- The value that a coercion ends with. -/
def IrReturnType.coerced (ops : FloatOps F) (strict literal : Bool) (value : PhpScalar F) : IrReturnType → PhpScalar F
  | .scalar type_ => (type_.convert ops strict literal value).getD value
  | .nullable inner => if value.kind = .null then value else inner.coerced ops strict literal value
  | .union members =>
    if members.any (·.matchesKind value.kind) || strict then value
    else (members.findSome? (·.convert ops strict literal value)).getD value

section
variable {type_ : IrReturnType}

theorem coerced_of_exactly (h : admits exactlyMatchesKind value.kind type_ = true) :
    type_.coerced ops strict literal value = value := by
  induction type_ with
  | scalar type_ => rw [coerced, convert_of_exactly h, getD_none]
  | nullable inner ih =>
    rw [coerced]
    split
    · rfl
    · next hnull => exact ih (by simpa [admits, hnull] using h)
  | union members =>
    obtain ⟨member, hmem, hexact⟩ := List.any_eq_true.mp h
    rw [coerced, List.any_eq_true.mpr ⟨member, hmem, exactlyMatchesKind_imp hexact⟩, Bool.true_or, if_pos rfl]

theorem coerced_float (h : type_.core = .scalar .float) :
    type_.coerced ops strict literal (.int number) = .float (ops.ofInt number) := by
  induction type_ with
  | scalar type_ => cases h; rfl
  | nullable inner ih => exact (if_neg nofun).trans (ih h)
  | union => cases h

theorem coerced_of_not_matches (h : admits matchesKind value.kind type_ = false) :
    type_.coerced ops strict literal value =
      (type_.members.findSome? (·.convert ops strict literal value)).getD value := by
  induction type_ with
  | scalar => simp [coerced, IrReturnType.members]
  | nullable inner ih =>
    simp only [admits, Bool.or_eq_false_iff, beq_eq_false_iff_ne] at h
    have hnull : ScalarType.null.convert ops strict literal value = none := by cases value <;> cases strict <;> rfl
    rw [coerced, if_neg h.1, IrReturnType.members, findSome?_cons, hnull, ih h.2]
  | union members =>
    rw [admits] at h
    cases strict with
    | false => simp [coerced, h, IrReturnType.members]
    | true =>
      rw [coerced, Bool.or_true, if_pos rfl, IrReturnType.members, findSome?_eq_none_iff.mpr, getD_none]
      exact fun member hmem => convert_strict (by simpa using List.any_eq_false.mp h member hmem)

end

namespace NativeContext
variable {context : NativeContext F} {word : Int}

theorem withKind_eq (hscalar : context.scalar word = some value) :
    context.withKind word coerce = coerce word value.kind := by
  unfold withKind
  simp only [dereference_of_scalar hscalar, (Reads.of_scalar hscalar).kind]

section
variable (hready : context.Ready) (hscalar : context.scalar word = some value)
include hready hscalar

variable (hplain : ∀ number, ScalarType.int.convert ops strict (isLiteral word) value = some (.int number) →
  IsPlain number)
include hplain

theorem coerceMember_gives (type_ : ScalarType) :
    context.Gives (type_.convert ops strict (isLiteral word) value = none ∧ isLiteral word = false)
      ((type_.convert ops strict (isLiteral word) value).getD value) some (context.coerceMember ops word strict type_) := by
  rw [coerceMember, withKind_eq hscalar]
  refine .wrap ?_ id
  rw [coerceScalar, hscalar, bind_some]
  cases hconvert : type_.convert ops strict (isLiteral word) value with
  | none => simpa using duplicate_gives hready hscalar
  | some converted =>
    cases converted with
    | int number =>
      have hint : type_ = .int := by
        have := convert_exactly hconvert
        cases type_ <;> simp_all [exactlyMatchesKind, matchesKind, PhpScalar.kind]
      obtain ⟨hconstant, hruntime⟩ := hplain number (hint ▸ hconvert)
      exact gives_word hruntime (by simp [scalar, hconstant, hruntime])
    | null | bool | float | string => exact encodeScalar_gives hready (by simp)

/-- A member that does not convert gives the value itself, which is released again. -/
theorem coerceMembers_gives (hliteral : isLiteral word = false) {whole members : List ScalarType}
    (hwhole : whole.any (·.matchesKind value.kind) = false) (hmembers : members ⊆ whole) :
    context.Gives False ((members.findSome? (·.convert ops strict (isLiteral word) value)).getD value) some
      (context.coerceMembers ops word strict (.union whole) members) := by
  induction members with
  | nil => exact (duplicate_gives hready hscalar).wrap False.elim
  | cons member members ih =>
    obtain ⟨candidate, next, released, hcoerce, hcandidate, hrelease, hrestores⟩ :=
      coerceMember_gives hready hscalar hplain member
    have hmatches : next.nativeEncodedMatchesIrType candidate (.union whole) = _ :=
      congrArg (Option.map _) (Reads.of_scalar hcandidate).kind
    rw [coerceMembers, hcoerce, findSome?_cons]
    cases hconvert : member.convert ops strict (isLiteral word) value with
    | some converted =>
      rw [hconvert] at hcandidate hmatches
      have hadmits : whole.any (·.matchesKind converted.kind) = true :=
        List.any_eq_true.mpr ⟨member, hmembers mem_cons_self, exactlyMatchesKind_imp (convert_exactly hconvert)⟩
      exact ⟨candidate, next, released, by simp [hmatches, admits, hadmits], hcandidate, hrelease, nofun⟩
    | none =>
      rw [hconvert] at hcandidate hmatches
      simpa [hmatches, admits, hwhole, hrelease, hrestores ⟨hconvert, hliteral⟩]
        using ih (subset_of_cons_subset hmembers)

theorem coerce_gives (type_ : IrReturnType)
    (hliteral : ∀ members, type_.core = .union members →
      type_.admits matchesKind value.kind = true ∨ strict = true ∨ isLiteral word = false) :
    context.Gives False (type_.coerced ops strict (isLiteral word) value) some
      (context.coerceNativeCallArgumentEncoded ops word strict type_) := by
  induction type_ with
  | scalar type_ =>
    obtain ⟨checked, next, released, hcoerce, hchecked, hrelease, -⟩ := coerceMember_gives hready hscalar hplain type_
    exact ⟨checked, next, released, hcoerce, hchecked, hrelease, nofun⟩
  | nullable inner ih =>
    rw [coerceNativeCallArgumentEncoded, withKind_eq hscalar, coerced]
    split
    · exact (duplicate_gives hready hscalar).wrap False.elim
    · next hnull =>
      rw [admits, beq_false_of_ne hnull] at hliteral
      exact ih hliteral
  | union members =>
    rw [coerceNativeCallArgumentEncoded, withKind_eq hscalar, coerced, admits]
    split
    · exact (duplicate_gives hready hscalar).wrap False.elim
    · next h =>
      simp only [Bool.or_eq_true, not_or, Bool.not_eq_true] at h
      have hword := ((hliteral members rfl).resolve_left (by simp [admits, h.1])).resolve_left (by simp [h.2])
      exact coerceMembers_gives hready hscalar hplain hword h.1 (Subset.refl _)

end

theorem coerce_dereference (h : context.Reads encoded value) (type_ : IrReturnType) :
    context.coerceNativeCallArgumentEncoded ops encoded strict type_ =
      context.coerceNativeCallArgumentEncoded ops (context.dereferenceDirectEncoding encoded) strict type_ := by
  cases type_ <;> simp only [coerceNativeCallArgumentEncoded, coerceMember] <;> unfold withKind <;>
    simp only [dereference_of_scalar h]

end NativeContext

/-! ## Against PHP -/

section
variable {type_ : IrReturnType}

theorem float_mem_of_core (h : type_.core = .scalar .float) : .float ∈ type_.members := by
  induction type_ with
  | scalar type_ => cases h; exact mem_cons_self
  | nullable inner ih => exact mem_cons_of_mem _ (ih h)
  | union => cases h

variable (hbinds : BindsAsPhp ops type_ strict literal value) (hfloat : value.kind ≠ .float)
include hbinds hfloat

/-- A coercion ends with PHP's value, or PHP refuses the value and so does either test. -/
theorem phpBind_coerced (hresult : type_.coerced ops strict literal value = result) :
    (phpBind ops type_ strict value = some result ∧ type_.admits exactlyMatchesKind result.kind = true) ∨
      (phpBind ops type_ strict value = none ∧ type_.admits matchesKind result.kind = false) := by
  subst hresult
  have hadmits {member : ScalarType} {kind} (hmem : member ∈ type_.members)
      (hmember : member.exactlyMatchesKind kind = true) : type_.admits exactlyMatchesKind kind = true :=
    (admits_eq exactlyMatchesKind_null type_ kind).trans (List.any_eq_true.mpr ⟨member, hmem, hmember⟩)
  by_cases hexact : type_.admits exactlyMatchesKind value.kind = true
  · rw [phpBind, if_pos hexact, coerced_of_exactly hexact]
    exact .inl ⟨rfl, hexact⟩
  rw [phpBind, if_neg hexact]
  rcases hbinds.resolve_left hexact with ⟨hcore, hint⟩ | ⟨hint, hconverts⟩
  · cases value <;> cases hint
    have hmem := float_mem_of_core hcore
    have hintMem : .int ∉ type_.members := fun h => hexact (hadmits h rfl)
    rw [coerced_float hcore]
    exact .inl ⟨by simp [phpOrder, hmem, hintMem, phpConvert], hadmits hmem rfl⟩
  have hmatches {member} (hmem : member ∈ type_.members) : member.matchesKind value.kind = false :=
    Bool.eq_false_iff.mpr fun h =>
      (matchesKind_imp h).elim (fun h => hexact (hadmits hmem h)) fun h => hint h.2 (h.1 ▸ hmem)
  have hwhole : type_.admits matchesKind value.kind = false := by
    rw [admits_eq matchesKind_null, List.any_eq_false]
    exact fun member hmem => by simp [hmatches hmem]
  have hfind : (phpOrder.filter (· ∈ type_.members)).findSome? (phpConvert ops strict type_.members · value) =
      type_.members.findSome? (·.convert ops strict literal value) := by
    cases strict with
    | true =>
      rw [findSome?_eq_none_iff.mpr fun member hmem => convert_strict (hmatches hmem), findSome?_eq_none_iff]
      intro member hmem
      have hmember := hmatches (of_decide_eq_true (mem_filter.mp hmem).2)
      cases member <;> cases value <;> simp_all [phpConvert, matchesKind, PhpScalar.kind]
    | false =>
      have hconverts := hconverts.resolve_left (by simp)
      rw [findSome?_phpOrder _ hconverts.order, ← head?_filterMap, ← head?_filterMap,
        filterMap_congr fun member hmem => (convert_eq_phpConvert hconverts hfloat hmem (hmatches hmem)).symm]
  rw [coerced_of_not_matches hwhole, hfind]
  cases hfound : type_.members.findSome? (·.convert ops strict literal value) with
  | none => exact .inr ⟨rfl, hwhole⟩
  | some converted =>
    obtain ⟨member, hmem, hconvert⟩ := exists_of_findSome?_eq_some hfound
    exact .inl ⟨rfl, hadmits hmem (convert_exactly hconvert)⟩

end

/-! ## Contracts -/

/-- A word for PHP's value, or a `TypeError`. -/
def Delivers (result : ContractStatus × NativeContext F) : Option (PhpScalar F) → Prop
  | some value => ∃ word, result.1 = .ok word ∧ result.2.Reads word value
  | none => ∃ message, result.1 = .throw message

/-- A request that has made the string `5`. -/
def textContext : NativeContext (Option Int) := ⟨[], [⟨1, .string [53]⟩], []⟩

def textWord : Int := encodeDirectSlotIndex 0 jitValueRuntimeStringTag

theorem textContext_ready : textContext.Ready := by
  refine ⟨nofun, .inr (by decide), by decide, fun index slot h => ?_⟩
  cases index <;> cases h
  decide

end Phrust
