import Phrust.Ir.BlockRuns
import Phrust.Optimizer.CopyPropagation

/-!
# Runs of blocks with propagated copies

A copy and its source hold the same value until one of them is written, and then the pass drops the
alias. It does not see that `ForeachCleanup` writes its iterator. So reads are right as long as no alias
is used whose copy or source has been cleaned up since the copy was made.
-/

namespace Phrust.Optimizer
open List Ir Interpretation

/-! ## Rewritten instructions -/

/-- The operands that the walk visits. -/
def walkedOperands : InstructionKind → List Operand
  | .dynamicNewObject _ className _ => [className]
  | kind => kind.operands

section
variable (f : Operand → Operand) (kind : InstructionKind)

theorem mutatedRegisters_walkOperands : mutatedRegisters (walkOperands f kind) = mutatedRegisters kind := by
  cases kind <;> rfl

theorem writtenRegisters_walkOperands : writtenRegisters (walkOperands f kind) = writtenRegisters kind := by
  cases kind <;> rfl

theorem operands_walkOperands (value : Operand → V) :
    (walkOperands f kind).operands.map value = kind.operands.map value ↔
      ∀ operand ∈ walkedOperands kind, value (f operand) = value operand := by
  have hmap : (kind.mapOperands f).operands.map value = kind.operands.map value ↔
      ∀ operand ∈ kind.operands, value (f operand) = value operand := by
    rw [InstructionKind.operands_mapOperands, map_map, map_inj_left]
    rfl
  cases kind with
  | dynamicNewObject dst className args =>
    refine cons_eq_cons.trans ?_
    simp [walkedOperands]
  | _ => exact hmap

theorem erase_walkOperands (h : ∀ operand, (f operand).eraseRegister = operand.eraseRegister) :
    (walkOperands f kind).erase = kind.erase := by
  have hmap : (kind.mapOperands f).erase = kind.erase := by
    rw [InstructionKind.erase, InstructionKind.mapOperands_mapOperands]
    exact congrArg kind.mapOperands (funext h)
  cases kind with
  | dynamicNewObject dst className args =>
    exact congrArg (InstructionKind.dynamicNewObject dst · _) (h className)
  | _ => exact hmap

variable {f kind} {I : Interpretation V W} {constants : List IrConstant} {machine next : Machine V W}

theorem reads_walkOperands :
    I.reads constants (walkOperands f kind) machine = I.reads constants kind machine ↔
      ∀ operand ∈ walkedOperands kind, I.operandValue constants machine (f operand) =
        I.operandValue constants machine operand := by
  rw [reads, reads, mutatedRegisters_walkOperands, append_right_inj]
  exact operands_walkOperands f kind _

/-- An instruction that reads the same values does the same. -/
theorem copyStep_walkOperands (herase : ∀ operand, (f operand).eraseRegister = operand.eraseRegister)
    (h : ∀ operand ∈ walkedOperands kind, I.operandValue constants machine (f operand) =
      I.operandValue constants machine operand) :
    I.copyStep constants (walkOperands f kind) machine = I.copyStep constants kind machine := by
  have hperform : I.perform constants (writtenRegisters (walkOperands f kind)) (walkOperands f kind)
      machine = I.perform constants (writtenRegisters kind) kind machine := by
    rw [perform, perform, erase_walkOperands f kind herase,
      reads_walkOperands.mpr h, writtenRegisters_walkOperands]
  cases kind with
  | move dst src =>
    exact congrArg (fun value => (machine.set dst value, true)) (h src mem_cons_self)
  | _ => exact hperform

theorem copyStep_registers (h : I.copyStep constants kind machine = (next, stays))
    (hregister : register ∉ writtenRegisters kind) :
    next.registers register = machine.registers register := by
  have hperform : I.perform constants (writtenRegisters kind) kind machine = (next, stays) →
      next.registers register = machine.registers register := by
    intro hperform
    obtain rfl := congrArg Prod.fst hperform
    exact if_neg hregister
  cases kind with
  | move dst src =>
    cases h
    exact if_neg fun heq : register = dst => hregister (heq ▸ mem_cons_self)
  | _ => exact hperform h

end

/-! ## Aliases -/

theorem mem_foldl_invalidate {registers : List RegId} :
    entry ∈ registers.foldl invalidateAliasesTouching aliases ↔
      entry ∈ aliases ∧ entry.1 ∉ registers ∧ entry.2 ∉ registers := by
  induction registers generalizing aliases with
  | nil => simp
  | cons register registers ih =>
    rw [foldl_cons, ih, invalidateAliasesTouching, KeyMap.retain, mem_filter]
    simp only [Bool.and_eq_true, bne_iff_ne, mem_cons, not_or]
    tauto

/-- No source is itself a copy. -/
def Flat (aliases : Aliases) : Prop := ∀ entry ∈ aliases, ∀ other ∈ aliases, entry.2 ≠ other.1

namespace Flat
variable {aliases : Aliases}
variable (h : Flat aliases)
include h

theorem ne (hentry : entry ∈ aliases) : entry.1 ≠ entry.2 :=
  (h entry hentry entry hentry).symm

theorem resolve (register : RegId) :
    resolveRegisterAlias register aliases = (aliases.get register).getD register := by
  rw [resolveRegisterAlias]
  cases hget : aliases.get register with
  | none =>
    cases aliases.length with
    | zero => rfl
    | succ fuel => rw [followAliases, hget]; rfl
  | some source =>
    have hentry := KeyMap.mem_of_get hget
    have hsource : aliases.get source = none :=
      KeyMap.get_eq_none_iff.mpr fun other hother heq => h _ hentry other hother heq.symm
    have hne : source ≠ register := (h.ne hentry).symm
    obtain ⟨fuel, hfuel⟩ := Nat.exists_eq_add_one.mpr (length_pos_of_mem hentry)
    rw [hfuel, followAliases, hget]
    refine (if_neg hne).trans ?_
    cases fuel with
    | zero => rfl
    | succ fuel => rw [followAliases, hsource]; rfl

theorem resolve_not_copy (register : RegId) (hentry : entry ∈ aliases) :
    resolveRegisterAlias register aliases ≠ entry.1 := by
  rw [h.resolve]
  cases hget : aliases.get register with
  | none => exact (KeyMap.get_eq_none_iff.mp hget entry hentry).symm
  | some source => exact h _ (KeyMap.mem_of_get hget) entry hentry

theorem resolve_eq_self (hregister : ∀ entry ∈ aliases, entry.1 ≠ register) :
    resolveRegisterAlias register aliases = register := by
  rw [h.resolve, KeyMap.get_eq_none_iff.mpr hregister]
  rfl

theorem invalidate (registers : List RegId) :
    Flat (registers.foldl invalidateAliasesTouching aliases) := fun entry hentry other hother =>
  h entry (mem_foldl_invalidate.mp hentry).1 other (mem_foldl_invalidate.mp hother).1

end Flat

/-- The aliases behind a rewritten instruction: those that it does not touch, and a new copy. -/
theorem mem_aliasesAfter {aliases : Aliases} (hflat : Flat aliases)
    (h : entry ∈ aliasesAfter aliases (rewriteInstructionRegisterOperands aliases kind)) :
    entry ∈ aliases ∧ entry.1 ∉ definedRegisters kind ∧ entry.2 ∉ definedRegisters kind ∨
      ∃ dst src, kind = .move dst (.register src) ∧ entry = (dst, resolveRegisterAlias src aliases) ∧
        dst ≠ resolveRegisterAlias src aliases := by
  have hrest : entry ∈ (definedRegisters kind).foldl invalidateAliasesTouching aliases →
      entry ∈ aliases ∧ entry.1 ∉ definedRegisters kind ∧ entry.2 ∉ definedRegisters kind :=
    mem_foldl_invalidate.mp
  cases kind with
  | move dst src =>
    cases src with
    | register src =>
      change entry ∈ recordMove _ (.move dst (.register (resolveRegisterAlias src aliases))) at h
      rw [recordMove] at h
      split at h
      · exact .inl (hrest h)
      · next hne =>
        rcases KeyMap.mem_insert h with rfl | h
        · refine .inr ⟨dst, src, rfl, ?_, hne⟩
          rw [(hflat.invalidate _).resolve_eq_self]
          exact fun other hother =>
            (hflat.resolve_not_copy src (mem_foldl_invalidate.mp hother).1).symm
        · exact .inl (hrest h)
    | local_ | constant => exact .inl (hrest h)
  | _ => exact .inl (hrest h)

theorem Flat.aliasesAfter (h : Flat aliases) (kind : InstructionKind) :
    Flat (aliasesAfter aliases (rewriteInstructionRegisterOperands aliases kind)) := by
  intro entry hentry other hother
  rcases mem_aliasesAfter h hentry with ⟨hentry, -, hsource⟩ | ⟨dst, src, rfl, rfl, hne⟩
  · rcases mem_aliasesAfter h hother with ⟨hother, -, -⟩ | ⟨dst, src, rfl, rfl, -⟩
    · exact h entry hentry other hother
    · exact fun heq => hsource (heq ▸ mem_cons_self)
  rcases mem_aliasesAfter h hother with ⟨hother, -, -⟩ | ⟨dst', src', heq, rfl, -⟩
  · exact h.resolve_not_copy src hother
  · cases heq
    exact hne.symm

/-! ## Stale aliases -/

/-- The aliases, and those of them whose copy or source has been cleaned up since. -/
structure CopyState where
  aliases : Aliases
  stale : List (RegId × RegId)

section
variable (state : CopyState)

def CopyState.after (kind : InstructionKind) : CopyState where
  aliases := aliasesAfter state.aliases kind
  stale :=
    match kind with
    | .foreachCleanup iterator =>
      state.aliases.filter (fun entry => entry.1 = iterator ∨ entry.2 = iterator) ++ state.stale
    | .move dst _ => state.stale.filter (·.1 ≠ dst)
    | _ => state.stale

/-- No operand is read through a stale alias. -/
def FreshOperands (operands : List Operand) : Prop :=
  ∀ register source, Operand.register register ∈ operands →
    state.aliases.get register = some source → (register, source) ∉ state.stale

def FreshReads (instruction : Instruction) : Prop :=
  FreshOperands state (walkedOperands instruction.kind)

/-- The state behind an instruction of the block. -/
def CopyState.next (kind : InstructionKind) : CopyState :=
  state.after (rewriteInstructionRegisterOperands state.aliases kind)

def trackInstruction (instruction : Instruction) : Instruction × CopyState :=
  ({ instruction with kind := rewriteInstructionRegisterOperands state.aliases instruction.kind },
    state.next instruction.kind)

end

/-- How an alias behind an instruction comes about. -/
inductive Origin (state : CopyState) (kind : InstructionKind) (entry : RegId × RegId) : Prop where
  | copied (dst src : RegId) (hkind : kind = .move dst (.register src))
      (hentry : entry = (dst, resolveRegisterAlias src state.aliases))
      (hne : dst ≠ resolveRegisterAlias src state.aliases) (hfresh : entry ∉ (state.next kind).stale)
  | cleaned (iterator : RegId) (hkind : kind = .foreachCleanup iterator) (hold : entry ∈ state.aliases)
      (htouched : entry.1 = iterator ∨ entry.2 = iterator) (hstale : entry ∈ (state.next kind).stale)
  | kept (hold : entry ∈ state.aliases) (hcopy : entry.1 ∉ writtenRegisters kind)
      (hsource : entry.2 ∉ writtenRegisters kind)
      (hstale : entry ∈ (state.next kind).stale ↔ entry ∈ state.stale)

theorem CopyState.origin {state : CopyState} (hflat : Flat state.aliases)
    (h : entry ∈ (state.next kind).aliases) : Origin state kind entry := by
  rcases mem_aliasesAfter hflat h with ⟨hold, hcopy, hsource⟩ | ⟨dst, src, rfl, rfl, hne⟩
  · have hkept : (∀ iterator, kind ≠ .foreachCleanup iterator) →
        (entry ∈ (state.next kind).stale ↔ entry ∈ state.stale) → Origin state kind entry :=
      fun hcleanup => .kept hold (fun hwritten => hcopy ((mem_definedRegisters_iff (hcleanup _)).mp hwritten))
        fun hwritten => hsource ((mem_definedRegisters_iff (hcleanup _)).mp hwritten)
    cases kind with
    | foreachCleanup iterator =>
      by_cases htouched : entry.1 = iterator ∨ entry.2 = iterator
      · exact .cleaned iterator rfl hold htouched
          (mem_append_left _ (mem_filter.mpr ⟨hold, decide_eq_true htouched⟩))
      refine .kept hold ?_ ?_ ?_
      · exact fun hwritten => htouched (.inl (mem_singleton.mp hwritten))
      · exact fun hwritten => htouched (.inr (mem_singleton.mp hwritten))
      · refine mem_append.trans (or_iff_right fun hmem => htouched ?_)
        exact of_decide_eq_true (mem_filter.mp hmem).2
    | move dst src =>
      refine hkept (fun _ heq => by cases heq) (mem_filter.trans (and_iff_left ?_))
      exact decide_eq_true fun heq => hcopy (heq ▸ mem_cons_self)
    | _ => exact hkept (fun _ heq => by cases heq) Iff.rfl
  · refine .copied dst src rfl rfl hne fun hstale => ?_
    exact absurd rfl (of_decide_eq_true (mem_filter.mp hstale).2)

/-! ## Copies and their sources -/

/-- Every alias that is not stale is right. -/
structure Copies (state : CopyState) (machine : Machine V W) : Prop where
  flat : Flat state.aliases
  fresh : ∀ entry ∈ state.aliases, entry ∉ state.stale →
    machine.registers entry.1 = machine.registers entry.2

theorem eraseRegister_rewriteOperandRegisters (aliases : Aliases) (operand : Operand) :
    (rewriteOperandRegisters aliases operand).eraseRegister = operand.eraseRegister := by
  cases operand <;> rfl

namespace Copies
variable {state : CopyState} {machine : Machine V W}

theorem resolve (h : Copies state machine)
    (hfresh : ∀ source, state.aliases.get register = some source → (register, source) ∉ state.stale) :
    machine.registers (resolveRegisterAlias register state.aliases) = machine.registers register := by
  rw [h.flat.resolve]
  cases hget : state.aliases.get register with
  | none => rfl
  | some source => exact (h.fresh _ (KeyMap.mem_of_get hget) (hfresh source hget)).symm

theorem operandValue (h : Copies state machine)
    (hfresh : FreshOperands state operands) (I : Interpretation V W) (constants : List IrConstant) :
    ∀ operand ∈ operands, I.operandValue constants machine
        (rewriteOperandRegisters state.aliases operand) = I.operandValue constants machine operand := by
  intro operand hoperand
  cases operand with
  | register register => exact h.resolve fun source => hfresh register source hoperand
  | local_ | constant => rfl

theorem next {I : Interpretation V W} (h : Copies state machine) (hfresh : FreshOperands state (walkedOperands kind))
    (hstep : I.copyStep constants kind machine = (machine', stays)) : Copies (state.next kind) machine' := by
  refine ⟨h.flat.aliasesAfter kind, fun entry hentry hnot => ?_⟩
  cases CopyState.origin h.flat hentry with
  | copied dst src hkind heq hne =>
    subst hkind heq
    have hsource : machine'.registers (resolveRegisterAlias src state.aliases) =
        machine.registers (resolveRegisterAlias src state.aliases) := by
      refine copyStep_registers hstep fun hwritten => hne ?_
      exact (mem_singleton.mp hwritten).symm
    cases hstep
    rw [hsource, h.resolve fun source => hfresh src source mem_cons_self]
    exact if_pos rfl
  | cleaned _ _ _ _ hstale => exact absurd hstale hnot
  | kept hold hcopy hsource hstale =>
    rw [copyStep_registers hstep hcopy, copyStep_registers hstep hsource]
    exact h.fresh entry hold fun hmem => hnot (hstale.mpr hmem)

end Copies

/-! ## A run that shows a stale read -/

/-- Every clean-up writes a value that no register has held before, and nothing leaves the block. -/
def counting : Interpretation Nat Nat where
  literal _ := 0
  missing := 0
  run
    | .foreachCleanup _, _, locals, world => ⟨fun _ => world + 1, locals, world + 1, true⟩
    | _, _, locals, world => ⟨fun _ => 0, locals, world, true⟩

/-- Every stale alias is wrong. -/
structure Diverges (state : CopyState) (machine : Machine Nat Nat) : Prop where
  bounded : ∀ register, machine.registers register ≤ machine.world
  locals : ∀ local_, machine.locals local_ ≤ machine.world
  stale : ∀ entry ∈ state.aliases, entry ∈ state.stale →
    machine.registers entry.1 ≠ machine.registers entry.2

theorem copyStep_cases (I : Interpretation V W) (constants : List IrConstant) (kind : InstructionKind)
    (machine : Machine V W) : (∃ dst src, kind = .move dst src) ∨
      I.copyStep constants kind machine = I.perform constants (writtenRegisters kind) kind machine := by
  cases kind with
  | move dst src => exact .inl ⟨dst, src, rfl⟩
  | _ => exact .inr rfl

theorem counting_run (kind : InstructionKind) (values : List Nat) (locals : LocalId → Nat) (world : Nat) :
    (counting.run kind values locals world).locals = locals ∧
      (counting.run kind values locals world).stays = true ∧
      world ≤ (counting.run kind values locals world).world ∧
      ∀ register, (counting.run kind values locals world).written register ≤
        (counting.run kind values locals world).world := by
  simp only [counting]
  split
  · exact ⟨rfl, rfl, Nat.le_succ _, fun _ => Nat.le_refl _⟩
  · exact ⟨rfl, rfl, Nat.le_refl _, fun _ => Nat.zero_le _⟩

theorem counting_stays (constants : List IrConstant) (kind : InstructionKind)
    (machine : Machine Nat Nat) : ∃ next, counting.copyStep constants kind machine = (next, true) := by
  rcases copyStep_cases counting constants kind machine with ⟨dst, src, rfl⟩ | hperform
  · exact ⟨_, rfl⟩
  · rw [hperform]
    exact ⟨_, congrArg (Prod.mk _) (counting_run _ _ _ _).2.1⟩

namespace Diverges
variable {state : CopyState} {constants : List IrConstant} {machine machine' : Machine Nat Nat}
variable (h : Diverges state machine)
include h

theorem operandValue_le (operand : Operand) :
    counting.operandValue constants machine operand ≤ machine.world := by
  cases operand with
  | register register => exact h.bounded register
  | local_ local_ => exact h.locals local_
  | constant id =>
    refine Nat.le_trans (Nat.le_of_eq ?_) (Nat.zero_le _)
    rw [operandValue, constantValue]
    cases constants[id]? <;> rfl

theorem next (hflat : Flat state.aliases)
    (hstep : counting.copyStep constants kind machine = (machine', stays)) :
    Diverges (state.next kind) machine' := by
  have hentries : ∀ entry ∈ (state.next kind).aliases, entry ∈ (state.next kind).stale →
      machine'.registers entry.1 ≠ machine'.registers entry.2 := by
    intro entry hentry hstale
    cases CopyState.origin hflat hentry with
    | copied _ _ _ _ _ hfresh => exact absurd hstale hfresh
    | cleaned iterator hkind hold htouched =>
      subst hkind
      have hne := hflat.ne hold
      have hiterator : machine'.registers iterator = machine.world + 1 := by
        cases hstep
        exact if_pos mem_cons_self
      have hother : ∀ register, register ≠ iterator → machine'.registers register ≤ machine.world := by
        intro register hother
        rw [copyStep_registers hstep fun hwritten => hother (mem_singleton.mp hwritten)]
        exact h.bounded register
      rcases htouched with heq | heq
      · have hsource := hother entry.2 (heq ▸ hne.symm)
        rw [heq, hiterator]
        omega
      · have hcopy := hother entry.1 (heq ▸ hne)
        rw [heq, hiterator]
        omega
    | kept hold hcopy hsource hiff =>
      rw [copyStep_registers hstep hcopy, copyStep_registers hstep hsource]
      exact h.stale entry hold (hiff.mp hstale)
  rcases copyStep_cases counting constants kind machine with ⟨dst, src, rfl⟩ | hperform
  · refine ⟨fun register => ?_, ?_, hentries⟩
    · cases hstep
      rw [Machine.set]
      dsimp only
      split
      · exact h.operandValue_le src
      · exact h.bounded register
    · cases hstep
      exact h.locals
  · obtain ⟨hlocals, -, hworld, hwritten⟩ := counting_run kind.erase
      (counting.reads constants kind machine) machine.locals machine.world
    rw [hperform] at hstep
    obtain rfl := congrArg Prod.fst hstep
    refine ⟨fun register => ?_, fun local_ => ?_, hentries⟩
    · rw [perform]
      dsimp only
      split
      · exact hwritten register
      · exact Nat.le_trans (h.bounded register) hworld
    · rw [perform]
      rw [hlocals]
      exact Nat.le_trans (h.locals local_) hworld

/-- An operand that is read through a stale alias gets another value. -/
theorem operandValue_ne (hflat : Flat state.aliases)
    (constants : List IrConstant) (hstale : ¬ FreshOperands state operands) :
    ¬ ∀ operand ∈ operands, counting.operandValue constants machine
        (rewriteOperandRegisters state.aliases operand) =
      counting.operandValue constants machine operand := by
  intro hsame
  refine hstale fun register source hregister hget hmem => ?_
  have hvalue := hsame _ hregister
  rw [rewriteOperandRegisters, hflat.resolve, hget] at hvalue
  exact h.stale _ (KeyMap.mem_of_get hget) hmem hvalue.symm

end Diverges

/-! ## Runs of a block -/

def rewriteTerminator (aliases : Aliases) (terminator : Terminator) : Terminator :=
  { terminator with kind := rewriteTerminatorRegisterOperands aliases terminator.kind }

theorem operands_rewriteTerminator (aliases : Aliases) (terminator : Terminator) (value : Operand → V) :
    (rewriteTerminator aliases terminator).kind.operands.map value = terminator.kind.operands.map value ↔
      ∀ operand ∈ terminator.kind.operands,
        value (rewriteOperandRegisters aliases operand) = value operand := by
  rw [rewriteTerminator, rewriteTerminatorRegisterOperands, TerminatorKind.operands_mapOperands,
    map_map, map_inj_left]
  rfl

def FreshTerminator (state : CopyState) (terminator : Option Terminator) : Prop :=
  ∀ last, terminator = some last → FreshOperands state last.kind.operands

variable {terminator : Option Terminator}

theorem observe_track {state : CopyState} {I : Interpretation V W} {constants : List IrConstant}
    {machine : Machine V W} {instructions : List Instruction} (hcopies : Copies state machine)
    (hfresh : ForallWith trackInstruction FreshReads state instructions)
    (hlast : FreshTerminator (mapWith trackInstruction state instructions).2 terminator) :
    I.observe constants
        (terminator.map (rewriteTerminator (mapWith trackInstruction state instructions).2.aliases))
        (mapWith trackInstruction state instructions).1 machine =
      I.observe constants terminator instructions machine := by
  induction instructions generalizing state machine with
  | nil =>
    cases terminator with
    | none => rfl
    | some last =>
      have hvalues := (operands_rewriteTerminator state.aliases last _).mpr
        (hcopies.operandValue (hlast last rfl) I constants)
      exact congrArg (fun values => (⟨[values ++ []], machine, true⟩ : Observation V W)) hvalues
  | cons instruction instructions ih =>
    have hvalues := hcopies.operandValue hfresh.1 I constants
    have hstep : I.copyStep constants (trackInstruction state instruction).1.kind machine =
        I.copyStep constants instruction.kind machine :=
      copyStep_walkOperands (eraseRegister_rewriteOperandRegisters _) hvalues
    have hreads : I.reads constants (trackInstruction state instruction).1.kind machine =
        I.reads constants instruction.kind machine := reads_walkOperands.mpr hvalues
    rw [mapWith, observe, observe, hstep, hreads]
    cases houtcome : I.copyStep constants instruction.kind machine with
    | mk next stays =>
      cases stays with
      | true =>
        exact congrArg (Observation.prepend _)
          (ih (hcopies.next hfresh.1 houtcome) hfresh.2 hlast)
      | false => rfl

theorem observe_of_stays {I : Interpretation V W} {next : Machine V W}
    (instruction : Instruction) (instructions : List Instruction)
    (h : I.copyStep constants instruction.kind machine = (next, true)) :
    I.observe constants terminator (instruction :: instructions) machine =
      (I.observe constants terminator instructions next).prepend
        (I.reads constants instruction.kind machine) := by
  rw [observe, h]

theorem prepend_inj {rest rest' : Observation V W}
    (h : rest.prepend values = rest'.prepend values') : values = values' ∧ rest = rest' := by
  cases rest
  cases rest'
  cases h
  exact ⟨rfl, rfl⟩

/-- If some alias is stale when it is used, the counting run shows it. -/
theorem observe_track_ne {state : CopyState}
    (hcopies : Copies state machine) (hdiverges : Diverges state machine)
    (hobserve : counting.observe constants
        (terminator.map (rewriteTerminator (mapWith trackInstruction state instructions).2.aliases))
        (mapWith trackInstruction state instructions).1 machine =
      counting.observe constants terminator instructions machine) :
    ForallWith trackInstruction FreshReads state instructions ∧
      FreshTerminator (mapWith trackInstruction state instructions).2 terminator := by
  induction instructions generalizing state machine with
  | nil =>
    refine ⟨trivial, ?_⟩
    rintro last rfl
    by_contra hstale
    refine hdiverges.operandValue_ne hcopies.flat constants hstale ?_
    have hvalues := append_cancel_right
      (List.cons.inj (congrArg Observation.reads hobserve)).1
    exact (operands_rewriteTerminator state.aliases last _).mp hvalues
  | cons instruction instructions ih =>
    obtain ⟨next, hnext⟩ := counting_stays constants (trackInstruction state instruction).1.kind machine
    obtain ⟨old, hold⟩ := counting_stays constants instruction.kind machine
    rw [mapWith, observe_of_stays _ _ hnext, observe_of_stays _ _ hold] at hobserve
    obtain ⟨hreads, hrest⟩ := prepend_inj hobserve
    have hvalues := reads_walkOperands.mp hreads
    have hfresh : FreshReads state instruction := by
      by_contra hstale
      exact hdiverges.operandValue_ne hcopies.flat constants hstale hvalues
    have hstep : counting.copyStep constants (trackInstruction state instruction).1.kind machine =
        counting.copyStep constants instruction.kind machine :=
      copyStep_walkOperands (eraseRegister_rewriteOperandRegisters _) hvalues
    obtain rfl : next = old := congrArg Prod.fst (hnext.symm.trans (hstep.trans hold))
    obtain ⟨htail, hlast⟩ := ih (hcopies.next hfresh hold) (hdiverges.next hcopies.flat hold) hrest
    exact ⟨⟨hfresh, htail⟩, hlast⟩

/-! ## Units -/

/-- The two blocks show the same in every run. -/
structure BlockCopied (constants : List IrConstant) (block block' : BasicBlock) : Prop where
  terminators : block'.terminator.map (fun terminator =>
      terminator.kind.mapOperands Operand.eraseRegister) =
    block.terminator.map fun terminator => terminator.kind.mapOperands Operand.eraseRegister
  runs : ∀ {V W : Type} (I : Interpretation V W) (machine : Machine V W),
    I.observe constants block'.terminator block'.instructions machine =
      I.observe constants block.terminator block.instructions machine

/-- In the block no alias is used that is stale. -/
structure FreshBlock (block : BasicBlock) : Prop where
  instructions : ForallWith trackInstruction FreshReads ⟨[], []⟩ block.instructions
  terminator : FreshTerminator (mapWith trackInstruction ⟨[], []⟩ block.instructions).2 block.terminator

theorem mapWith_propagateInstruction (instructions : List Instruction) :
    mapWith propagateInstruction [] instructions = ((mapWith trackInstruction ⟨[], []⟩ instructions).1,
        (mapWith trackInstruction ⟨[], []⟩ instructions).2.aliases) :=
  mapWith_project CopyState.aliases (fun _ _ => rfl) ⟨[], []⟩ instructions

theorem propagateBlock_copied_iff (constants : List IrConstant) (block : BasicBlock) :
    BlockCopied constants block (propagateBlock block) ↔ FreshBlock block := by
  have hinstructions : (propagateBlock block).instructions =
      (mapWith trackInstruction ⟨[], []⟩ block.instructions).1 := by
    rw [propagateBlock, mapWith_propagateInstruction]
  have hterminator : (propagateBlock block).terminator = block.terminator.map
      (rewriteTerminator (mapWith trackInstruction ⟨[], []⟩ block.instructions).2.aliases) := by
    rw [propagateBlock, mapWith_propagateInstruction]
    rfl
  have hempty : ∀ {V W : Type} (machine : Machine V W), Copies ⟨[], []⟩ machine :=
    fun _ => ⟨nofun, nofun⟩
  constructor
  · intro hcopied
    have hobserve := hcopied.runs counting ⟨fun _ => 0, fun _ => 0, 0⟩
    rw [hinstructions, hterminator] at hobserve
    obtain ⟨hreads, hlast⟩ := observe_track_ne (hempty _)
      ⟨fun _ => Nat.le_refl 0, fun _ => Nat.le_refl 0, nofun⟩ hobserve
    exact ⟨hreads, hlast⟩
  · intro hfresh
    refine ⟨?_, fun I machine => ?_⟩
    · rw [hterminator, Option.map_map]
      refine congrArg (Option.map · block.terminator) (funext fun terminator => ?_)
      refine (TerminatorKind.mapOperands_mapOperands _ _ _).trans ?_
      exact congrArg terminator.kind.mapOperands
        (funext (eraseRegister_rewriteOperandRegisters _))
    · rw [hinstructions, hterminator]
      exact observe_track (hempty machine) hfresh.instructions hfresh.terminator

/-- The blocks of the functions show the same in every run. -/
def UnitCopied (unit unit' : IrUnit) : Prop :=
  unit'.constants = unit.constants ∧ List.Forall₂ (fun function function' =>
    List.Forall₂ (BlockCopied unit.constants) function.blocks function'.blocks)
    unit.functions unit'.functions

/-- Copy propagation preserves what every run shows, unless a copy or its source is cleaned up between
the move and a read of the copy. -/
theorem copyPropagation_copied_iff (unit : IrUnit) :
    UnitCopied unit (copyPropagation unit) ↔ ∀ function ∈ unit.functions,
      functionMayPropagateCopies function = true → ∀ block ∈ function.blocks, FreshBlock block := by
  rw [UnitCopied, copyPropagation, and_iff_right rfl, forall₂_map_right_iff, forall₂_same]
  refine forall₂_congr fun function _ => ?_
  rw [propagateFunction]
  split
  · next hmay =>
    refine Iff.trans ?_ (forall_prop_of_true hmay).symm
    rw [forall₂_map_right_iff, forall₂_same]
    exact forall₂_congr fun block _ => propagateBlock_copied_iff unit.constants block
  · next hmay =>
    refine iff_of_true (forall₂_same.mpr fun block _ => ⟨rfl, fun _ _ => rfl⟩) ?_
    exact fun hfold => absurd hfold hmay

/-- A copy of an iterator is read behind the clean-up of the iterator. -/
def copiedIterator : IrUnit :=
  unitOf [.null] 2
    [⟨0, [⟨0, ⟨0, 0, 0⟩, .foreachInit 0 (.constant 0)⟩, ⟨1, ⟨0, 0, 0⟩, .move 1 (.register 0)⟩,
      ⟨2, ⟨0, 0, 0⟩, .foreachCleanup 0⟩,
      ⟨3, ⟨0, 0, 0⟩, .echo (.register 1)⟩],
      some ⟨⟨0, 0, 0⟩, .return_ none none⟩⟩]

theorem not_copyPropagation_copied :
    Verified copiedIterator ∧ ¬ UnitCopied copiedIterator (copyPropagation copiedIterator) := by
  refine ⟨by decide +kernel, fun hcopied => ?_⟩
  obtain ⟨-, hfunctions⟩ := hcopied
  obtain ⟨hblocks, -⟩ := forall₂_cons.mp hfunctions
  obtain ⟨hblock, -⟩ := forall₂_cons.mp hblocks
  obtain ⟨⟨-, -, -, hecho, -⟩, -⟩ := (propagateBlock_copied_iff _ _).mp hblock
  exact hecho 1 0 mem_cons_self rfl (by decide)

end Phrust.Optimizer
