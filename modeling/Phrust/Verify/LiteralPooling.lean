import Phrust.Ir.Builder
import Phrust.Verify.LiteralCompaction

/-!
# Which literals are pooled

The comparison of the source holds of constants without NaN that are the same up to the signs of their
zeros. So the pool confuses two literals exactly if they differ in such a sign.
-/

namespace Phrust.Ir

/-! ## The comparison -/

/-- The float without the sign of a zero. -/
def F64.unsigned (value : F64) : F64 := if value.isZero then ⟨0⟩ else value

theorem F64.isNan_of_isZero {value : F64} (h : value.isZero = true) : value.isNan = false := by
  rw [isZero, beq_iff_eq] at h
  rw [isNan, h]
  rfl

theorem F64.unsigned_eq_iff {left right : F64} :
    left.unsigned = right.unsigned ↔ left = right ∨ left.isZero = true ∧ right.isZero = true := by
  have hzero : (⟨0⟩ : F64).isZero = true := rfl
  rw [unsigned, unsigned]
  grind

theorem F64.isNan_unsigned (value : F64) : value.unsigned.isNan = value.isNan := by
  rw [unsigned]
  split
  · next hzero => exact (isNan_of_isZero hzero).symm
  · rfl

theorem F64.beq_iff {left right : F64} :
    (left == right) = true ↔ left.unsigned = right.unsigned ∧ left.unsigned.isNan = false := by
  have hbeq : (left == right) =
      (!left.isNan && !right.isNan && (left.bits == right.bits || (left.isZero && right.isZero))) := rfl
  have hbits : left.bits = right.bits ↔ left = right :=
    ⟨fun h => by cases left; cases right; exact congrArg mk h, congrArg bits⟩
  rw [hbeq, unsigned_eq_iff, isNan_unsigned]
  simp only [Bool.and_eq_true, Bool.or_eq_true, Bool.not_eq_true', beq_iff_eq, hbits]
  constructor
  · exact fun h => ⟨h.2, h.1.1⟩
  · rintro ⟨rfl | hzero, hnan⟩
    · exact ⟨⟨hnan, hnan⟩, .inl rfl⟩
    · exact ⟨⟨hnan, isNan_of_isZero hzero.2⟩, .inr hzero⟩

mutual

/-- The constant without the signs of its zeros. -/
def IrConstant.unsigned : IrConstant → IrConstant
  | .float value => .float value.unsigned
  | .array entries => .array (unsignedEntries entries)
  | constant => constant

def IrConstant.unsignedKey : Option IrConstant → Option IrConstant
  | none => none
  | some key => some key.unsigned

def IrConstant.unsignedEntry : IrConstantArrayEntry → IrConstantArrayEntry
  | .mk key value => .mk (unsignedKey key) value.unsigned

def IrConstant.unsignedEntries : List IrConstantArrayEntry → List IrConstantArrayEntry
  | [] => []
  | entry :: entries => unsignedEntry entry :: unsignedEntries entries

end

mutual

def IrConstant.noNan : IrConstant → Bool
  | .float value => !value.isNan
  | .array entries => noNanEntries entries
  | _ => true

def IrConstant.noNanKey : Option IrConstant → Bool
  | none => true
  | some key => key.noNan

def IrConstant.noNanEntry : IrConstantArrayEntry → Bool
  | .mk key value => noNanKey key && value.noNan

def IrConstant.noNanEntries : List IrConstantArrayEntry → Bool
  | [] => true
  | entry :: entries => noNanEntry entry && noNanEntries entries

end

mutual

theorem IrConstant.beq_iff : ∀ left right : IrConstant,
    IrConstant.beq left right = true ↔ left.unsigned = right.unsigned ∧ left.unsigned.noNan = true
  | .float left, right => by
    cases right <;> simp [beq, unsigned, noNan, F64.beq_iff]
  | .array left, right => by
    cases right <;> simp [beq, unsigned, noNan, beqEntries_iff left]
  | .null, right | .bool _, right | .int _, right | .string _, right | .stringBytes _, right
  | .namedConstant _, right | .classConstant _ _ _, right => by
    cases right <;> simp [beq, unsigned, noNan, and_assoc]

theorem IrConstant.beqKey_iff : ∀ left right : Option IrConstant,
    beqKey left right = true ↔ unsignedKey left = unsignedKey right ∧ noNanKey (unsignedKey left) = true
  | none, right => by cases right <;> simp [beqKey, unsignedKey, noNanKey]
  | some left, right => by cases right <;> simp [beqKey, unsignedKey, noNanKey, beq_iff left]

theorem IrConstant.beqEntry_iff : ∀ left right : IrConstantArrayEntry, beqEntry left right = true ↔
      unsignedEntry left = unsignedEntry right ∧ noNanEntry (unsignedEntry left) = true
  | .mk key value, .mk key' value' => by
    simp only [beqEntry, unsignedEntry, noNanEntry, Bool.and_eq_true, beqKey_iff key, beq_iff value,
      IrConstantArrayEntry.mk.injEq]
    exact and_and_and_comm

theorem IrConstant.beqEntries_iff : ∀ left right : List IrConstantArrayEntry, beqEntries left right = true ↔
      unsignedEntries left = unsignedEntries right ∧ noNanEntries (unsignedEntries left) = true
  | [], right => by cases right <;> simp [beqEntries, unsignedEntries, noNanEntries]
  | left :: lefts, [] => by simp [beqEntries, unsignedEntries]
  | left :: lefts, right :: rights => by
    simp only [beqEntries, unsignedEntries, noNanEntries, Bool.and_eq_true, beqEntry_iff left,
      beqEntries_iff lefts, List.cons.injEq]
    exact and_and_and_comm

end

/-- Equal for the source: the same up to the signs of zeros, and without NaN. -/
def SameLiteral (left right : IrConstant) : Prop :=
  left.unsigned = right.unsigned ∧ left.unsigned.noNan = true

theorem beq_iff_sameLiteral : (left == right) = true ↔ SameLiteral left right :=
  IrConstant.beq_iff left right

theorem SameLiteral.symm (h : SameLiteral left right) : SameLiteral right left := ⟨h.1.symm, h.1 ▸ h.2⟩

theorem SameLiteral.trans (h : SameLiteral left middle) (h' : SameLiteral middle right) : SameLiteral left right :=
  ⟨h.1.trans h'.1, h.2⟩

/-- Two of the literals are equal for the source but not the same. -/
def Confused (constants : List IrConstant) : Prop :=
  ∃ left ∈ constants, ∃ right ∈ constants, SameLiteral left right ∧ left ≠ right

end Phrust.Ir

namespace Phrust.Optimizer
open Ir List Nat

/-! ## The pass -/

/-- The identifier that the pass gives to an entry of the pool. -/
def compactedId (constants : List IrConstant) (index : ConstId) : ConstId :=
  let result := compact constants
  if 0 < result.duplicatesRemoved ∧ result.skippedIndexOverflow = 0 then remappedConst result.remap index
  else index

section
variable {constants : List IrConstant} {state : Compaction}
variable (h : Compacted constants state)
include h

/-- The entry that is kept for a literal equals it, or is the literal, which then need not equal itself. -/
theorem Compacted.kept (hconstant : constants[index]? = some constant) :
    ∃ kept, (distinct constants)[remappedConst state.remap index]? = some kept ∧
      (kept = constant ∨ SameLiteral kept constant) := by
  obtain ⟨position, hposition, hentry⟩ := h.remapped index constant hconstant
  refine ⟨_, by rw [remappedConst, hposition]; exact hentry, ?_⟩
  exact (standIn_cases _ _).imp_right fun hkept => beq_iff_sameLiteral.mp hkept.1

/-- Literals that are equal for the source get one identifier. -/
theorem Compacted.same_id (hleft : constants[i]? = some left)
    (hright : constants[j]? = some right) (hsame : SameLiteral left right) :
    remappedConst state.remap i = remappedConst state.remap j := by
  obtain ⟨keptLeft, hkeptLeft, hl⟩ := h.kept hleft
  obtain ⟨keptRight, hkeptRight, hr⟩ := h.kept hright
  have hl : SameLiteral keptLeft left := hl.elim (fun heq => heq ▸ hsame.trans hsame.symm) id
  have hr : SameLiteral keptRight right := hr.elim (fun heq => heq ▸ hsame.symm.trans hsame) id
  have hkept : SameLiteral keptLeft keptRight := hl.trans (hsame.trans hr.symm)
  obtain ⟨hlti, rfl⟩ := List.getElem?_eq_some_iff.mp hkeptLeft
  obtain ⟨hltj, rfl⟩ := List.getElem?_eq_some_iff.mp hkeptRight
  have hpairwise := pairwise_iff_getElem.mp (distinct_pairwise constants)
  rcases Nat.lt_trichotomy (remappedConst state.remap i) (remappedConst state.remap j) with hlt | heq | hgt
  · exact absurd (beq_iff_sameLiteral.mpr hkept) (hpairwise _ _ hlti hltj hlt)
  · exact heq
  · exact absurd (beq_iff_sameLiteral.mpr hkept.symm) (hpairwise _ _ hltj hlti hgt)

/-- Without confused literals, literals with one identifier are the same. -/
theorem Compacted.eq_of_same_id (hclear : ¬Confused constants)
    (hleft : constants[i]? = some left) (hright : constants[j]? = some right)
    (hid : remappedConst state.remap i = remappedConst state.remap j) : left = right := by
  have hkept {index constant kept} (hconstant : constants[index]? = some constant)
      (hentry : (distinct constants)[remappedConst state.remap index]? = some kept)
      (hsame : kept = constant ∨ SameLiteral kept constant) : kept = constant := by
    by_contra hne
    exact hclear ⟨kept, mem_of_mem_distinct (mem_of_getElem? hentry), constant,
      mem_of_getElem? hconstant, hsame.resolve_left hne, hne⟩
  obtain ⟨keptLeft, hkeptLeft, hl⟩ := h.kept hleft
  obtain ⟨keptRight, hkeptRight, hr⟩ := h.kept hright
  have heq : keptLeft = keptRight := by
    rw [hid, hkeptRight] at hkeptLeft
    exact (Option.some.inj hkeptLeft).symm
  rw [← hkept hleft hkeptLeft hl, heq, hkept hright hkeptRight hr]

end

theorem compactedId_identical_iff (constants : List IrConstant) :
    (∀ i j left right, constants[i]? = some left → constants[j]? = some right →
        compactedId constants i = compactedId constants j → left = right) ↔
      2 ^ 32 < (distinct constants).length ∨ ¬Confused constants := by
  have hunmoved (hid : ∀ index, compactedId constants index = index) : ∀ i j left right,
      constants[i]? = some left → constants[j]? = some right →
        compactedId constants i = compactedId constants j → left = right := by
    intro i j left right hleft hright heq
    rw [hid, hid] at heq
    subst heq
    exact Option.some.inj (hleft.symm.trans hright)
  rcases compact_spec constants with ⟨hskipped, h⟩ | ⟨hskipped, hlength⟩
  · rw [or_iff_right (Nat.not_lt.mpr h.length_le)]
    rcases Nat.eq_zero_or_pos (compact constants).duplicatesRemoved with hzero | hpos
    · -- No literal equals one before it.
      refine iff_of_true (hunmoved fun index => if_neg fun hboth => Nat.ne_of_gt hboth.1 hzero) ?_
      rintro ⟨left, hleft, right, hright, hsame, hne⟩
      obtain ⟨i, hi⟩ := mem_iff_getElem?.mp hleft
      obtain ⟨j, hj⟩ := mem_iff_getElem?.mp hright
      have hpairwise := distinct_pairwise constants
      rw [(h.unchanged hzero).1] at hpairwise
      obtain ⟨hlti, rfl⟩ := List.getElem?_eq_some_iff.mp hi
      obtain ⟨hltj, rfl⟩ := List.getElem?_eq_some_iff.mp hj
      rcases Nat.lt_trichotomy i j with hlt | rfl | hgt
      · exact pairwise_iff_getElem.mp hpairwise _ _ hlti hltj hlt (beq_iff_sameLiteral.mpr hsame)
      · exact hne rfl
      · exact pairwise_iff_getElem.mp hpairwise _ _ hltj hlti hgt (beq_iff_sameLiteral.mpr hsame.symm)
    · have hid (index : ConstId) :
          compactedId constants index = remappedConst (compact constants).remap index := if_pos ⟨hpos, hskipped⟩
      simp only [hid]
      constructor
      · rintro hidentical ⟨left, hleft, right, hright, hsame, hne⟩
        obtain ⟨i, hi⟩ := mem_iff_getElem?.mp hleft
        obtain ⟨j, hj⟩ := mem_iff_getElem?.mp hright
        exact hne (hidentical i j left right hi hj (h.same_id hi hj hsame))
      · exact fun hclear i j left right hleft hright => h.eq_of_same_id hclear hleft hright
  · exact iff_of_true (hunmoved fun index => if_neg fun hboth => Nat.ne_of_gt hskipped hboth.2) (.inl hlength)

/-! ## The builder -/

/-- The first entry that is equal for the source, if there is one, is the literal itself. -/
def FirstIsLiteral (constants : List IrConstant) (constant : IrConstant) : Prop :=
  ∀ before entry after, constants = before ++ entry :: after → (∀ other ∈ before, ¬SameLiteral other constant) →
    SameLiteral entry constant → entry = constant

theorem firstIsLiteral_iff : FirstIsLiteral constants constant ↔
    ∀ entry, constants.find? (· == constant) = some entry → entry = constant := by
  simp only [find?_eq_some_iff_append, beq_iff_sameLiteral, Bool.not_eq_true', Bool.eq_false_iff, ne_eq]
  constructor
  · rintro h entry ⟨hsame, before, after, hsplit, hbefore⟩
    exact h before entry after hsplit hbefore hsame
  · exact fun h before entry after hsplit hbefore hsame => h entry ⟨hsame, before, after, hsplit, hbefore⟩

theorem internConstant_identical_iff (constant : IrConstant) (hlength : constants.length < 2 ^ 32) :
    (∀ index entry, constants[index]? = some entry → index = (internConstant constants constant).1 →
        entry = constant) ↔ FirstIsLiteral constants constant := by
  rw [firstIsLiteral_iff, internConstant]
  cases hfind : constants.findIdx? (· == constant) with
  | none =>
    have hnone : constants.find? (· == constant) = none := by
      rw [List.find?_eq_none]
      intro entry hentry
      simpa using any_eq_false.mp (findIdx?_any hfind) entry hentry
    simp only [hnone, addConstant, mod_eq_of_lt hlength]
    refine iff_of_true ?_ nofun
    rintro index entry hentry rfl
    exact absurd (List.getElem?_eq_some_iff.mp hentry).1 (Nat.lt_irrefl _)
  | some position =>
    obtain ⟨entry, hentry, hfirst⟩ := getElem?_findIdx? hfind
    have hlt := Nat.lt_trans (List.getElem?_eq_some_iff.mp hentry).1 hlength
    simp only [hfirst, mod_eq_of_lt hlt]
    constructor
    · rintro h other hother
      cases hother
      exact h position entry hentry rfl
    · rintro h index other hother rfl
      exact h other (hother ▸ hentry ▸ rfl)

/-- The pass, and the builder in front of a pool that identifiers can address. -/
theorem literalPooling_identical_iff (constants : List IrConstant) :
    ((∀ i j left right, constants[i]? = some left → constants[j]? = some right →
        compactedId constants i = compactedId constants j → left = right) ↔
      2 ^ 32 < (distinct constants).length ∨ ¬Confused constants) ∧ ∀ constant, constants.length < 2 ^ 32 →
      ((∀ index entry, constants[index]? = some entry → index = (internConstant constants constant).1 →
          entry = constant) ↔ FirstIsLiteral constants constant) :=
  ⟨compactedId_identical_iff constants, fun constant => internConstant_identical_iff constant⟩

/-- The literal `1` behind a float finds its own entry. -/
theorem literalPooling_one : (internConstant [.float ⟨0⟩, .int 1] (.int 1)).1 = 1 ∧
    ∀ index entry, [IrConstant.float ⟨0⟩, .int 1][index]? = some entry →
      index = (internConstant [.float ⟨0⟩, .int 1] (.int 1)).1 → entry = .int 1 := by
  refine ⟨by decide +kernel, ((literalPooling_identical_iff [.float ⟨0⟩, .int 1]).2 (.int 1) (by decide)).mpr ?_⟩
  rintro before entry after hsplit - hsame
  have hmem : entry ∈ [IrConstant.float ⟨0⟩, .int 1] := by simp [hsplit]
  rcases mem_pair.mp hmem with rfl | rfl
  · cases hsame.1
  · rfl

def positiveZero : F64 := ⟨0⟩

def negativeZero : F64 := ⟨0x8000000000000000⟩

/-- The two zeros get one identifier, also inside arrays. -/
theorem literalPooling_zeros : positiveZero ≠ negativeZero ∧
      compactedId [.float positiveZero, .float negativeZero] 0 =
        compactedId [.float positiveZero, .float negativeZero] 1 ∧
      (internConstant [.array [.mk none (.float positiveZero)]] (.array [.mk none (.float negativeZero)])).1 = 0 :=
  ⟨by decide, by decide +kernel, by decide +kernel⟩

end Phrust.Optimizer
