import Mathlib.Algebra.Order.BigOperators.Group.List
import Mathlib.Algebra.Order.Ring.Nat
import Phrust.Ir.Verify
import Phrust.Theory.Sweeps

/-!
# The analysis of register definitions reaches a fixpoint

The facts only shrink, so the loop ends; the facts it ends with satisfy the equations of the analysis.
-/

namespace Phrust.Ir
open List
open List (Forall₂)

/-! ## The equations -/

section
variable (function : IrFunction) (reachable : List BlockId) (facts : RegisterFacts) (index : BlockId)

def nextIn : List Bool :=
  if index = 0 ∨ blockPredecessors function index = [] then
    List.replicate function.registerCount false
  else intersectPredecessorDefs function reachable facts index

def nextOut : List Bool :=
  (function.blocks[index]?.map (applyRegisterDefs · (nextIn function reachable facts index))).getD
      (nextIn function reachable facts index)

theorem sweepBlock_eq (flag : Bool) :
    sweepBlock function reachable (facts, flag) index =
      if index ∈ reachable then if facts.inDefs[index]? = some (nextIn function reachable facts index) ∧
            facts.outDefs[index]? = some (nextOut function reachable facts index) then (facts, flag)
        else (⟨facts.inDefs.set index (nextIn function reachable facts index),
          facts.outDefs.set index (nextOut function reachable facts index)⟩, true)
      else (facts, flag) := rfl

end

/-! ## Transfer functions are monotone and keep the number of registers -/

/-- Fewer registers are defined. -/
abbrev Fewer : List Bool → List Bool → Prop := Forall₂ fun a b : Bool => a ≤ b

theorem Fewer.refl (defs : List Bool) : Fewer defs defs := forall₂_same.mpr fun _ _ => le_rfl

theorem Fewer.trans (h : Fewer a b) (h' : Fewer b c) : Fewer a c := by
  induction h generalizing c with
  | nil => exact h'
  | cons hab _ ih =>
    cases h' with
    | cons hbc htail => exact .cons (hab.trans hbc) (ih htail)

theorem fewer_replicate (h : defs.length = n) : Fewer defs (List.replicate n true) := by
  induction defs generalizing n with
  | nil =>
    cases h
    exact .nil
  | cons value defs ih =>
    cases h
    exact .cons (Bool.le_true value) (ih rfl)

theorem markInstructionDefs_mono (kind : InstructionKind) (h : Fewer a b) :
    Fewer (markInstructionDefs kind a) (markInstructionDefs kind b) := by
  rw [markInstructionDefs, markInstructionDefs]
  exact foldl_rel h fun register _ _ _ h => forall₂_set h le_rfl register

theorem applyRegisterDefs_mono (block : BasicBlock) (h : Fewer a b) :
    Fewer (applyRegisterDefs block a) (applyRegisterDefs block b) := by
  rw [applyRegisterDefs, applyRegisterDefs]
  exact foldl_rel h fun instruction _ _ _ h => markInstructionDefs_mono instruction.kind h

theorem applyEdgeRegisterDefs_mono (block : BasicBlock) (target : BlockId) (h : Fewer a b) :
    Fewer (applyEdgeRegisterDefs block target a) (applyEdgeRegisterDefs block target b) := by
  have hkill (registers : List RegId) :
      Fewer (registers.foldl (·.set · false) a) (registers.foldl (·.set · false) b) :=
    foldl_rel h fun register _ _ _ h => forall₂_set h le_rfl register
  simp only [applyEdgeRegisterDefs]
  split
  · split
    · split
      · exact hkill _
      · exact hkill _
      · exact h
    · exact h
  · exact h

theorem zipWith_and_mono (h : Fewer a b) (h' : Fewer c d) :
    Fewer (List.zipWith and a c) (List.zipWith and b d) := by
  induction h generalizing c d with
  | nil => exact .nil
  | cons hab _ ih =>
    cases h' with
    | nil => exact .nil
    | cons hcd htail => exact .cons (inf_le_inf hab hcd) (ih htail)

section
variable {function : IrFunction} {reachable : List BlockId} {facts facts' : RegisterFacts}
variable (h : Forall₂ Fewer facts.outDefs facts'.outDefs)
include h

theorem edgeDefs_mono (target source : BlockId) :
    Fewer (edgeDefs function facts target source) (edgeDefs function facts' target source) := by
  rw [edgeDefs, edgeDefs]
  split
  · next block _ =>
    refine applyEdgeRegisterDefs_mono block target ?_
    rcases forall₂_getElem? h source with ⟨hnone, hnone'⟩ | ⟨old, new, hold, hnew, hfewer⟩
    · rw [hnone, hnone']
      exact .nil
    · rw [hold, hnew]
      exact hfewer
  · exact .nil

theorem nextIn_mono (index : BlockId) :
    Fewer (nextIn function reachable facts index) (nextIn function reachable facts' index) := by
  rw [nextIn, nextIn]
  split
  · exact .refl _
  rw [intersectPredecessorDefs, intersectPredecessorDefs]
  split
  · exact .refl _
  · exact foldl_rel (edgeDefs_mono h index _) fun source _ _ _ h' =>
      zipWith_and_mono h' (edgeDefs_mono h index source)

theorem nextOut_mono (index : BlockId) :
    Fewer (nextOut function reachable facts index) (nextOut function reachable facts' index) := by
  have hin : Fewer (nextIn function reachable facts index) (nextIn function reachable facts' index) :=
    nextIn_mono h index
  rw [nextOut, nextOut]
  cases function.blocks[index]? with
  | none => exact hin
  | some block => exact applyRegisterDefs_mono block hin

end

section
variable {function : IrFunction} {reachable : List BlockId} {facts : RegisterFacts}

/-- Every fact has one bit for each register. -/
structure Sized (function : IrFunction) (facts : RegisterFacts) : Prop where
  inLength : facts.inDefs.length = function.blocks.length
  outLength : facts.outDefs.length = function.blocks.length
  ins : ∀ defs ∈ facts.inDefs, defs.length = function.registerCount
  outs : ∀ defs ∈ facts.outDefs, defs.length = function.registerCount

theorem length_foldl_set (registers : List RegId) (value : Bool) (defs : List Bool) :
    (registers.foldl (·.set · value) defs).length = defs.length := by
  induction registers generalizing defs with
  | nil => rfl
  | cons register registers ih => rw [foldl_cons, ih, length_set]

theorem length_applyRegisterDefs (block : BasicBlock) (defs : List Bool) :
    (applyRegisterDefs block defs).length = defs.length := by
  rw [applyRegisterDefs]
  generalize block.instructions = instructions
  induction instructions generalizing defs with
  | nil => rfl
  | cons instruction instructions ih =>
    rw [foldl_cons, ih, markInstructionDefs, length_foldl_set]

theorem length_applyEdgeRegisterDefs (block : BasicBlock) (target : BlockId) (defs : List Bool) :
    (applyEdgeRegisterDefs block target defs).length = defs.length := by
  simp only [applyEdgeRegisterDefs]
  split
  · split
    · split <;> first | exact length_foldl_set _ _ _ | rfl
    · rfl
  · rfl

theorem mem_blockPredecessors : source ∈ blockPredecessors function target ↔
    source < function.blocks.length ∧ target ∈ blockTargets function source := by
  simp only [blockPredecessors, mem_flatMap, mem_range, mem_map, mem_filter, beq_iff_eq]
  constructor
  · rintro ⟨source, hlt, _, ⟨htarget, rfl⟩, rfl⟩
    exact ⟨hlt, htarget⟩
  · rintro ⟨hlt, htarget⟩
    exact ⟨source, hlt, target, ⟨htarget, rfl⟩, rfl⟩

theorem Sized.length_edgeDefs (h : Sized function facts) (hlt : source < function.blocks.length) :
    (edgeDefs function facts target source).length = function.registerCount := by
  rw [edgeDefs, getElem?_eq_getElem hlt, getElem?_eq_getElem (h.outLength ▸ hlt)]
  exact (length_applyEdgeRegisterDefs _ _ _).trans (h.outs _ (getElem_mem _))

theorem Sized.length_nextIn (h : Sized function facts) (index : BlockId) :
    (nextIn function reachable facts index).length = function.registerCount := by
  rw [nextIn]
  split
  · exact length_replicate
  rw [intersectPredecessorDefs]
  split
  · exact length_replicate
  · next first rest hsources =>
    have hlength : ∀ source ∈ first :: rest,
        (edgeDefs function facts index source).length = function.registerCount := by
      intro source hsource
      rw [← hsources] at hsource
      exact h.length_edgeDefs (mem_blockPredecessors.mp (mem_of_mem_filter hsource)).1
    have hfirst := hlength first mem_cons_self
    have hrest : ∀ source ∈ rest, (edgeDefs function facts index source).length =
        function.registerCount := (forall_mem_cons.mp hlength).2
    clear hsources hlength
    generalize edgeDefs function facts index first = result at hfirst ⊢
    induction rest generalizing result with
    | nil => exact hfirst
    | cons source rest ih =>
      refine ih (forall_mem_cons.mp hrest).2 _ ?_
      rw [length_zipWith, hfirst, hrest source mem_cons_self, Nat.min_self]

theorem Sized.length_nextOut (h : Sized function facts) (index : BlockId) :
    (nextOut function reachable facts index).length = function.registerCount := by
  rw [nextOut]
  cases function.blocks[index]? with
  | none => exact h.length_nextIn index
  | some block => exact (length_applyRegisterDefs block _).trans (h.length_nextIn index)

/-! ## The loop -/

/-- The equations make no fact larger. -/
structure Shrinking (function : IrFunction) (reachable : List BlockId) (facts : RegisterFacts) : Prop where
  sized : Sized function facts
  ins : ∀ index ∈ reachable, ∀ old, facts.inDefs[index]? = some old →
    Fewer (nextIn function reachable facts index) old
  outs : ∀ index ∈ reachable, ∀ old, facts.outDefs[index]? = some old →
    Fewer (nextOut function reachable facts index) old

def factsWeight (facts : RegisterFacts) : Nat :=
  (facts.inDefs.map fun defs => (defs.map Bool.toNat).sum).sum +
    (facts.outDefs.map fun defs => (defs.map Bool.toNat).sum).sum

theorem Shrinking.update (h : Shrinking function reachable facts) (hindex : index ∈ reachable) :
    Shrinking function reachable ⟨facts.inDefs.set index (nextIn function reachable facts index),
        facts.outDefs.set index (nextOut function reachable facts index)⟩ := by
  have houts : Forall₂ Fewer (facts.outDefs.set index (nextOut function reachable facts index))
      facts.outDefs := forall₂_set_self Fewer.refl (h.outs index hindex)
  refine ⟨⟨?_, ?_, fun defs hdefs => ?_, fun defs hdefs => ?_⟩, fun other hother old hold => ?_,
    fun other hother old hold => ?_⟩
  · rw [length_set, h.sized.inLength]
  · rw [length_set, h.sized.outLength]
  · rcases mem_or_eq_of_mem_set hdefs with hdefs | rfl
    · exact h.sized.ins defs hdefs
    · exact h.sized.length_nextIn index
  · rcases mem_or_eq_of_mem_set hdefs with hdefs | rfl
    · exact h.sized.outs defs hdefs
    · exact h.sized.length_nextOut index
  · refine (nextIn_mono houts other).trans ?_
    rcases getElem?_set_cases hold with ⟨rfl, rfl⟩ | ⟨-, hold⟩
    · exact .refl _
    · exact h.ins other hother old hold
  · refine (nextOut_mono houts other).trans ?_
    rcases getElem?_set_cases hold with ⟨rfl, rfl⟩ | ⟨-, hold⟩
    · exact .refl _
    · exact h.outs other hother old hold

/-- A change makes the facts lighter. -/
theorem sweepBlock_shrinks (hreachable : ∀ index ∈ reachable, index < function.blocks.length) :
    Shrinks (sweepBlock function reachable) (Shrinking function reachable) factsWeight := by
  intro facts flag index h
  rw [sweepBlock_eq]
  by_cases hindex : index ∈ reachable
  · rw [if_pos hindex]
    split
    · exact .inl rfl
    · next hchanged =>
      refine .inr ⟨_, rfl, h.update hindex, ?_⟩
      have hlt := hreachable index hindex
      have hweighs := weighs_bool.forall₂.forall₂
      obtain ⟨hin, hin'⟩ := hweighs _ _ (forall₂_set_self Fewer.refl (h.ins index hindex))
      obtain ⟨hout, hout'⟩ := hweighs _ _ (forall₂_set_self Fewer.refl (h.outs index hindex))
      dsimp only [factsWeight] at hin hin' hout hout' ⊢
      refine lt_of_le_of_ne (Nat.add_le_add hin hout) fun heq => hchanged ⟨?_, ?_⟩
      · rw [← getElem?_set_self (h.sized.inLength ▸ hlt), hin' (by omega)]
      · rw [← getElem?_set_self (h.sized.outLength ▸ hlt), hout' (by omega)]
  · rw [if_neg hindex]
    exact .inl rfl

theorem sweeps_stable (hreachable : ∀ index ∈ reachable, index < function.blocks.length)
    (h : Shrinking function reachable facts) (hfuel : factsWeight facts < fuel) :
    ∃ final, sweeps function reachable fuel facts = some final ∧ Sized function final ∧ ∀ index ∈ reachable,
        final.inDefs[index]? = some (nextIn function reachable final index) ∧
        final.outDefs[index]? = some (nextOut function reachable final index) := by
  induction fuel generalizing facts with
  | zero => cases hfuel
  | succ fuel ih =>
    rw [sweeps, sweep]
    rcases (sweepBlock_shrinks hreachable).sweep (List.range function.blocks.length) facts false h with
      ⟨hsame, hsteps⟩ | ⟨next, hnext, hshrinking, hlt⟩
    · rw [hsame]
      refine ⟨facts, rfl, h.sized, fun index hindex => ?_⟩
      have hstep := hsteps index (mem_range.mpr (hreachable index hindex))
      rw [sweepBlock_eq, if_pos hindex] at hstep
      split at hstep
      · assumption
      · exact nomatch (congrArg Prod.snd hstep : true = false)
    · rw [hnext]
      exact ih hshrinking (by omega)

variable (function : IrFunction)

theorem initialFacts_sized : Sized function (initialFacts function) := by
  refine ⟨by simp [initialFacts], by simp [initialFacts], fun defs hdefs => ?_, fun defs hdefs => ?_⟩
  · rcases mem_or_eq_of_mem_set hdefs with hdefs | rfl
    · rw [eq_of_mem_replicate hdefs, length_replicate]
    · exact length_replicate
  rcases mem_or_eq_of_mem_set hdefs with hdefs | rfl
  · rw [eq_of_mem_replicate hdefs, length_replicate]
  · cases function.blocks[0]? with
    | none => exact length_replicate
    | some block => exact (length_applyRegisterDefs block _).trans length_replicate

theorem initialFacts_shrinking (reachable : List BlockId) :
    Shrinking function reachable (initialFacts function) := by
  have hsized := initialFacts_sized function
  have hstart : nextIn function reachable (initialFacts function) 0 =
      List.replicate function.registerCount false := if_pos (.inl rfl)
  refine ⟨hsized, fun index hindex old hold => ?_, fun index hindex old hold => ?_⟩
  · rcases getElem?_set_cases hold with ⟨rfl, rfl⟩ | ⟨-, hold⟩
    · rw [hstart]
      exact .refl _
    · rw [eq_of_mem_replicate (mem_of_getElem? hold)]
      exact fewer_replicate (hsized.length_nextIn index)
  · rcases getElem?_set_cases hold with ⟨rfl, rfl⟩ | ⟨-, hold⟩
    · rw [nextOut, hstart]
      exact .refl _
    · rw [eq_of_mem_replicate (mem_of_getElem? hold)]
      exact fewer_replicate (hsized.length_nextOut index)

theorem sum_weights_le {defs : List (List Bool)} (h : ∀ bits ∈ defs, bits.length = n) :
    (defs.map fun bits => (bits.map Bool.toNat).sum).sum ≤ defs.length * n := by
  rw [← length_map fun bits : List Bool => (bits.map Bool.toNat).sum]
  refine sum_le_card_nsmul _ n (forall_mem_map.mpr fun bits hbits => ?_)
  rw [← h bits hbits, ← Nat.mul_one bits.length, ← length_map Bool.toNat]
  exact sum_le_card_nsmul _ 1 (forall_mem_map.mpr fun bit _ => Bool.toNat_le bit)

/-- The facts that the verifier uses solve the equations. -/
theorem registerFacts_stable (hreachable : ∀ index ∈ reachableBlocks function, index < function.blocks.length) :
    Sized function (registerFacts function) ∧ ∀ index ∈ reachableBlocks function,
      (registerFacts function).inDefs[index]? =
        some (nextIn function (reachableBlocks function) (registerFacts function) index) ∧
      (registerFacts function).outDefs[index]? =
        some (nextOut function (reachableBlocks function) (registerFacts function) index) := by
  have hweight : factsWeight (initialFacts function) <
      2 * (function.blocks.length * function.registerCount) + 1 := by
    have hsized := initialFacts_sized function
    have hin := sum_weights_le hsized.ins
    have hout := sum_weights_le hsized.outs
    rw [hsized.inLength] at hin
    rw [hsized.outLength] at hout
    rw [factsWeight]
    omega
  obtain ⟨final, hfinal, hsized, hstable⟩ := sweeps_stable hreachable
    (initialFacts_shrinking function (reachableBlocks function)) hweight
  rw [registerFacts, hfinal]
  exact ⟨hsized, hstable⟩

end
end Phrust.Ir
