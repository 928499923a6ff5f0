import Phrust.Vm.NativeContext

/-!
# Owners of native values

What a word stands for, and the operations that make an owner of a value.
-/

namespace Phrust
open List Option

theorem directValueIndex_encode (htag : tag / 2 ^ 48 = 0x7ff2 ∧ tag % 2 ^ 32 = 0)
    (hindex : index < directValueCapacity) : directValueIndex (encodeDirectSlotIndex index tag) = some index := by
  have hword : encodeDirectSlotIndex index tag / 2 ^ 48 = 0x7ff2 ∧
      encodeDirectSlotIndex index tag % 2 ^ 32 = (index + directValueIndexBase : Nat) := by
    simp only [directValueCapacity] at hindex
    simp only [encodeDirectSlotIndex, jitEncodeTypedRuntimeValue, directValueIndexBase]
    omega
  have hdecode : jitDecodeRuntimeValue (encodeDirectSlotIndex index tag) =
      some (index + directValueIndexBase) := by
    rw [jitDecodeRuntimeValue, if_pos hword.1, hword.2, Int.toNat_natCast]
  have hrange : index + directValueIndexBase - directValueIndexBase < directValueCapacity := by
    rwa [Nat.add_sub_cancel]
  rw [directValueIndex, hdecode, bind_eq_bind, bind_some, if_pos ⟨Nat.le_add_left _ _, hrange⟩,
    Nat.add_sub_cancel]

theorem jitDecodeRuntimeValue_of_constant (h : jitDecodeConstant encoded = some constant) :
    jitDecodeRuntimeValue encoded = none := by
  simp only [jitDecodeConstant, ite_eq_iff, reduceCtorEq, and_false, or_false] at h
  exact if_neg (by omega)

theorem decode_of_directValueIndex (h : directValueIndex encoded = some index) :
    jitDecodeConstant encoded = none ∧ (jitDecodeRuntimeValue encoded).isNone = false := by
  cases hconstant : jitDecodeConstant encoded with
  | some constant => simp [directValueIndex, jitDecodeRuntimeValue_of_constant hconstant] at h
  | none => cases hruntime : jitDecodeRuntimeValue encoded <;> simp_all [directValueIndex]

namespace NativeContext
variable {F : Type} {context : NativeContext F} {encoded word : Int} {value : PhpScalar F}

/-! ## What a word stands for -/

theorem liveSlot_eq_some_iff :
    context.liveSlot index = some slot ↔ context.slots[index]? = some slot ∧ slot.refcount ≠ 0 := by
  simp [liveSlot, filter_eq_some_iff]

theorem liveView_eq (h : directValueIndex encoded = some index) :
    context.liveView encoded = (context.liveSlot index).map (·.view) := by
  rw [liveView, h]
  rfl

theorem scalar_eq (h : directValueIndex encoded = some index) :
    context.scalar encoded = (context.liveSlot index).bind (·.view.scalar) := by
  obtain ⟨hconstant, hruntime⟩ := decode_of_directValueIndex h
  simp only [scalar, hconstant, hruntime, liveView_eq h]
  cases context.liveSlot index <;> rfl

theorem directReferencePayload_of_scalar (h : context.scalar word = some value) :
    context.directReferencePayload word = none := by
  cases hindex : directValueIndex word with
  | none => simp [directReferencePayload, liveView, hindex]
  | some index =>
    rw [scalar_eq hindex] at h
    obtain ⟨slot, hslot, hscalar⟩ := bind_eq_some_iff.mp h
    rw [directReferencePayload, liveView_eq hindex, hslot]
    cases hview : slot.view <;> simp_all [DirectView.scalar]

theorem dereference_of_scalar (h : context.scalar word = some value) :
    context.dereferenceDirectEncoding word = word := by
  simp [dereferenceDirectEncoding, dereferenceFrom, directReferencePayload_of_scalar h]

/-- Also through references. -/
def Reads (context : NativeContext F) (encoded : Int) (value : PhpScalar F) : Prop :=
  context.scalar (context.dereferenceDirectEncoding encoded) = some value

theorem Reads.of_scalar (h : context.scalar word = some value) : context.Reads word value := by
  rwa [Reads, dereference_of_scalar h]

theorem Reads.kind (h : context.Reads encoded value) : context.nativeEncodedValueKind encoded = some value.kind := by
  rw [Reads] at h
  simp [nativeEncodedValueKind, h]

/-! ## Owners -/

/-- One more slot can be made, and no owner count is at its limit. -/
structure Ready (context : NativeContext F) : Prop where
  free : ∀ index ∈ context.free, index < context.slots.length
  room : context.free ≠ [] ∨ context.slots.length < directValueCapacity
  bounded : context.slots.length ≤ directValueCapacity
  counts : ∀ index slot, context.liveSlot index = some slot → slot.refcount + 1 < 2 ^ 32

/-- The result is an owner of the value. Releasing it may lead back. -/
def Gives (context : NativeContext F) (restores : Prop) (value : PhpScalar F) (wrap : Int → α)
    (result : Option (α × NativeContext F)) : Prop :=
  ∃ word next released, result = some (wrap word, next) ∧ next.scalar word = some value ∧
    next.release word = some released ∧ (restores → released = context)

theorem Gives.wrap (h : context.Gives restores value id result) (hrestores : restores' → restores) :
    context.Gives restores' value some (result.map (Prod.map some id)) := by
  obtain ⟨word, next, released, rfl, hword, hrelease, hback⟩ := h
  exact ⟨word, next, released, rfl, hword, hrelease, hback ∘ hrestores⟩

/-- A word without a slot. -/
theorem gives_word (hword : jitDecodeRuntimeValue word = none) (hscalar : context.scalar word = some value) :
    context.Gives restores value id (some (word, context)) :=
  ⟨word, context, context, rfl, hscalar, by simp [release, directValueIndex, hword], fun _ => rfl⟩

section
variable (hready : context.Ready)
include hready

theorem encodeOwner_gives (hno : ¬restores) (hscalar : view.scalar = some value)
    (htag : tag / 2 ^ 48 = 0x7ff2 ∧ tag % 2 ^ 32 = 0) : context.Gives restores value id (context.encodeOwner view tag) := by
  obtain ⟨index, next, hpublish, hlt, hlive⟩ : ∃ index next, context.publish view = some (index, next) ∧
      index < directValueCapacity ∧ next.liveSlot index = some ⟨1, view⟩ := by
    cases hfree : context.free with
    | cons index free =>
      have hlt := hready.free index (hfree ▸ mem_cons_self)
      exact ⟨index, _, by rw [publish, hfree], hlt.trans_le hready.bounded, by simp [liveSlot, hlt]⟩
    | nil =>
      have hroom := hready.room.resolve_left (not_not.mpr hfree)
      exact ⟨_, _, by rw [publish, hfree]; exact if_pos hroom, hroom, by simp [liveSlot]⟩
  have hindex := directValueIndex_encode htag hlt
  have hsome : (next.release (encodeDirectSlotIndex index tag)).isSome := by
    simp [release, hindex, releaseDirectValueIndex, hlive]
  obtain ⟨released, hrelease⟩ := isSome_iff_exists.mp hsome
  refine ⟨_, next, released, by rw [encodeOwner, hpublish]; rfl, ?_, hrelease, hno.elim⟩
  rw [scalar_eq hindex, hlive]
  exact hscalar

theorem encodeScalar_gives (hno : ¬restores) : context.Gives restores value id (context.encodeScalar value) := by
  cases value with
  | null => exact gives_word (by decide) rfl
  | bool value => cases value <;> exact gives_word (by decide) rfl
  | int value =>
    rw [encodeScalar, encodeNativeInt]
    split
    · next h =>
      simp only [Bool.and_eq_true, isNone_iff_eq_none] at h
      exact gives_word h.1 (by simp [scalar, h])
    · exact encodeOwner_gives hready hno rfl (by decide)
  | float | string => exact encodeOwner_gives hready hno rfl (by decide)

/-- One owner more, and then one less, changes nothing. -/
theorem retain_gives (hindex : directValueIndex word = some index) (hscalar : context.scalar word = some value) :
    context.Gives restores value id ((context.retain index).map (word, ·)) := by
  have hread := hscalar
  rw [scalar_eq hindex] at hread
  obtain ⟨slot, hslot, hview⟩ := bind_eq_some_iff.mp hread
  obtain ⟨hget, hne⟩ := liveSlot_eq_some_iff.mp hslot
  obtain ⟨hlt, hself⟩ := List.getElem?_eq_some_iff.mp hget
  have hlive : (context.setSlot index ⟨slot.refcount + 1, slot.view⟩).liveSlot index =
      some ⟨slot.refcount + 1, slot.view⟩ := by
    simp [liveSlot, setSlot, hlt]
  refine ⟨word, context.setSlot index ⟨slot.refcount + 1, slot.view⟩, context, ?_, ?_, ?_, fun _ => rfl⟩
  · rw [retain, hget, bind_eq_bind, bind_some, if_pos (hready.counts index slot hslot), map_some, id]
  · rw [scalar_eq hindex, hlive]
    exact hview
  · have hset : context.slots.set index slot = context.slots := by rw [← hself, set_getElem_self]
    simp only [release, hindex, releaseDirectValueIndex, hlive, bind_eq_bind, bind_some, Nat.add_eq_right, hne]
    simp [setSlot, hset]

theorem duplicate_gives (hscalar : context.scalar word = some value) :
    context.Gives (isLiteral word = false) value id (context.duplicateAuthoritativeNativeValue word) := by
  rw [duplicateAuthoritativeNativeValue]
  cases hindex : directValueIndex word with
  | some index => exact retain_gives hready hindex hscalar
  | none =>
    cases hconstant : jitDecodeConstant word with
    | none =>
      obtain ⟨hruntime, -⟩ : jitDecodeRuntimeValue word = none ∧ PhpScalar.int word = value := by
        simpa [scalar, hconstant, liveView, hindex] using hscalar
      simpa [hruntime] using gives_word hruntime hscalar
    | some constant =>
      have hruntime := jitDecodeRuntimeValue_of_constant hconstant
      cases hreserved : isReservedConstant constant with
      | true => simpa [hruntime, hreserved] using gives_word hruntime hscalar
      | false =>
        have hentry : context.constants[constant]? = some (.scalar value) := by
          simp only [isReservedConstant, Bool.or_eq_false_iff, beq_eq_false_iff_ne] at hreserved
          simp only [scalar, hconstant, hreserved, if_false] at hscalar
          split at hscalar <;> simp_all
        simpa [hruntime, hreserved, stabilizeActiveUnitConstant, hentry]
          using encodeScalar_gives hready (by simp [isLiteral, hconstant, hreserved])

end
end NativeContext
end Phrust
