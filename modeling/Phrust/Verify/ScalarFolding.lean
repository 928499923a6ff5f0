import Phrust.Jit.NativeRuns

/-!
# Runs of rewritten blocks

Folding is right on every value. A repeated expression that is replaced by the register of its first
evaluation loses the diagnostics of the second one; the class facts are meant to exclude them, but they
call a division and an overflowing operation an integer.
-/

namespace Phrust.Jit
open List Ir ScalarExpression BlockFacts Option

/-! ## Folding -/

namespace ScalarExpression

@[simp]
theorem map_map (f : α → β) (g : β → γ) (expression : ScalarExpression α) :
    (expression.map f).map g = expression.map (g ∘ f) := by
  cases expression <;> rfl

theorem map_congr {expression : ScalarExpression α}
    (h : ∀ operand ∈ expression.operands, f operand = g operand) : expression.map f = expression.map g := by
  cases expression with
  | binary op lhs rhs | compare op lhs rhs =>
    rw [map, map, h lhs mem_cons_self, h rhs (mem_cons_of_mem _ mem_cons_self)]
  | unary op src | cast op src => rw [map, map, h src mem_cons_self]

theorem operands_map (f : α → β) (expression : ScalarExpression α) :
    (expression.map f).operands = expression.operands.map f := by
  cases expression <;> rfl

end ScalarExpression

theorem foldedImmediateInteger_eq_some : foldedImmediateInteger value = some operand ↔
      (jitDecodeRuntimeValue value = none ∧ jitDecodeConstant value = none) ∧ .i64 value = operand := by
  rw [foldedImmediateInteger, ite_none_right_eq_some, Option.some.injEq]

section
variable (R : NativeRuntime O W D) (machine : Machine (RuntimeValue O) W)

@[simp]
theorem operandValue_encodedBool (value : Bool) :
    R.operandValue machine (encodedBool value) = .bool value := by
  cases value <;> rfl

theorem foldBinary_result (h : foldBinary op lhs rhs = some value) :
    (binary op (R.operandValue machine lhs) (R.operandValue machine rhs)).result? =
      some (R.operandValue machine value) := by
  rw [foldBinary.eq_def] at h
  split at h
  · next left right =>
    obtain ⟨result, hresult, hfolded⟩ := bind_eq_some_iff.mp h
    obtain ⟨-, rfl⟩ := foldedImmediateInteger_eq_some.mp hfolded
    have hinteger : integerBinary op left right = some result := by
      cases op with
      | shiftLeft | shiftRight =>
        obtain ⟨hrange, hshift⟩ := ite_none_right_eq_some.mp hresult
        rw [integerBinary, if_neg (by omega), if_neg (by omega)]
        exact hshift
      | div | mod | concat | pow => cases hresult
      | _ => exact hresult
    exact congrArg (Option.map RuntimeValue.int) hinteger
  · cases h

theorem foldUnary_result (h : foldUnary op src = some value) :
    (unary op (R.operandValue machine src)).result? = some (R.operandValue machine value) := by
  rw [foldUnary.eq_def] at h
  split at h
  · next source =>
    cases op with
    | plus => cases h; rfl
    | minus =>
      obtain ⟨result, hresult, hfolded⟩ := bind_eq_some_iff.mp h
      obtain ⟨-, rfl⟩ := foldedImmediateInteger_eq_some.mp hfolded
      exact congrArg (Option.map RuntimeValue.int) hresult
    | bitNot =>
      obtain ⟨-, rfl⟩ := foldedImmediateInteger_eq_some.mp h
      rfl
    | not =>
      cases h
      have htruth : truth? (.int source : RuntimeValue O) = some !source == 0 := rfl
      rw [operandValue_encodedBool, NativeRuntime.operandValue, result?, htruth, map_some, Bool.not_not]
  · cases h

theorem foldCompare_result (h : foldCompare op lhs rhs = some value) :
    (compare op (R.operandValue machine lhs) (R.operandValue machine rhs)).result? =
      some (R.operandValue machine value) := by
  rw [foldCompare.eq_def] at h
  split at h
  · next left right =>
    rw [NativeRuntime.operandValue, NativeRuntime.operandValue, result?, integerCompare]
    split at h
    · next hop => cases h; rw [if_pos hop]; rfl
    · next hop => cases h; rw [if_neg hop, operandValue_encodedBool]
  · cases h

theorem foldCast_result (h : foldCast op src = some value) :
    (cast op (R.operandValue machine src)).result? = some (R.operandValue machine value) := by
  rw [foldCast.eq_def] at h
  split at h
  · cases h
    rw [operandValue_encodedBool]
    rfl
  · cases h; rfl
  · cases h; rfl
  · cases h

theorem fold_result {expression : ScalarExpression RegionOperand} (h : expression.fold = some value) :
    (expression.map (R.operandValue machine)).result? = some (R.operandValue machine value) := by
  cases expression with
  | binary op lhs rhs => exact foldBinary_result R machine h
  | unary op src => exact foldUnary_result R machine h
  | compare op lhs rhs => exact foldCompare_result R machine h
  | cast op src => exact foldCast_result R machine h

theorem truth_of_immediateTruthy (h : immediateTruthy operand = some truthy) :
    R.truth (R.operandValue machine operand) = ⟨[], some fun _ => truthy⟩ := by
  rw [immediateTruthy.eq_def] at h
  split at h
  · cases h; rfl
  · next index =>
    have hvalue : truth? (R.constantValue index) = some truthy := by
      split at h
      · next hfalse =>
        cases h
        rcases hfalse with rfl | rfl <;> rfl
      split at h
      · next htrue =>
        cases h
        subst htrue
        rfl
      · cases h
    rw [NativeRuntime.operandValue, NativeRuntime.truth, hvalue]
  · cases h

end

/-! ## What a rewriting does -/

namespace BlockFacts
variable {facts : BlockFacts}

/-- The register whose value takes the place of a repeated expression. -/
def reused? (facts : BlockFacts) (kind : RegionInstructionKind) : Option (RegId × RegId) :=
  match facts.folded? kind with
  | some _ => none
  | none => (facts.numbered? kind).bind fun (dst, key) => (facts.expressions.get key).map (dst, ·)

theorem noteMove_of_scalar (h : kind.scalar? = some (dst, expression)) : facts.noteMove kind = facts := by
  rw [noteMove.eq_def]
  split
  · cases h
  · rfl

theorem scalar_of_numbered (h : facts.numbered? kind = some (dst, key)) :
    ∃ expression, kind.scalar? = some (dst, expression) ∧ key = expression.map (resolve facts.constants) ∧
      (expression.map (operandClass facts.classes)).pureClasses = true := by
  rw [numbered?, ite_none_right_eq_some, map_eq_some_iff] at h
  obtain ⟨hpure, ⟨dst, expression⟩, hscalar, heq⟩ := h
  cases heq
  rw [instructionIsPureScalar, hscalar] at hpure
  exact ⟨expression, hscalar, rfl, hpure⟩

/-- An operation becomes an immediate, or the register of an equal expression, or it stays and may be
recorded; a move stays and may be remembered; all else stays. -/
inductive Rewrites (facts : BlockFacts) (kind : RegionInstructionKind) : RegionInstructionKind →
    BlockFacts → Prop where
  | fold {dst : RegId} {expression : ScalarExpression RegionOperand} {value : RegionOperand}
    {class_ : Option (RegId × SsaValueClass)} :
    kind.scalar? = some (dst, expression) → facts.reused? kind = none →
    (expression.map (resolve facts.constants)).fold = some value →
    (∀ entry ∈ class_, entry.1 = dst) →
    Rewrites facts kind (.move dst value)
      ({ facts with constants := facts.constants.insert dst value }.noteClass class_)
  | reuse {dst existing : RegId} {expression : ScalarExpression RegionOperand}
    {class_ : Option (RegId × SsaValueClass)} :
    kind.scalar? = some (dst, expression) → facts.reused? kind = some (dst, existing) →
    (expression.map (operandClass facts.classes)).pureClasses = true →
    facts.expressions.get (expression.map (resolve facts.constants)) = some existing →
    class_ = instructionResultClass facts.classes (.move dst (.register existing)) →
    Rewrites facts kind (.move dst (.register existing)) (facts.noteClass class_)
  | record {dst : RegId} {expression : ScalarExpression RegionOperand}
    {class_ : Option (RegId × SsaValueClass)} :
    kind.scalar? = some (dst, expression) → facts.reused? kind = none →
    (expression.map (operandClass facts.classes)).pureClasses = true →
    class_ = instructionResultClass facts.classes kind →
    Rewrites facts kind kind ({ facts with
      expressions := (expression.map (resolve facts.constants), dst) :: facts.expressions }.noteClass
        class_)
  | move {dst : RegId} {src : RegionOperand} {class_ : Option (RegId × SsaValueClass)} :
    kind = .move dst src → facts.reused? kind = none → isImmediate (resolve facts.constants src) = true →
    class_ = instructionResultClass facts.classes kind →
    Rewrites facts kind kind ({ facts with
      constants := facts.constants.insert dst (resolve facts.constants src) }.noteClass class_)
  | keep {class_ : Option (RegId × SsaValueClass)} : facts.reused? kind = none →
    class_ = instructionResultClass facts.classes kind → Rewrites facts kind kind (facts.noteClass class_)

theorem rewrites (facts : BlockFacts) (kind : RegionInstructionKind) :
    facts.Rewrites kind (facts.rewriteKind kind).1 (facts.rewriteKind kind).2 := by
  cases hscalar : kind.scalar? with
  | some scalar =>
    obtain ⟨dst, expression⟩ := scalar
    have hfolded? : facts.folded? kind =
        (expression.map (resolve facts.constants)).fold.map (dst, ·) := by
      rw [folded?, hscalar]
      rfl
    rw [rewriteKind, noteMove_of_scalar hscalar]
    cases hfold : (expression.map (resolve facts.constants)).fold with
    | some value =>
      rw [hfold] at hfolded?
      have hreused : facts.reused? kind = none := by rw [reused?, hfolded?]; rfl
      simp only [hfolded?, map_some]
      refine .fold hscalar hreused hfold fun entry hentry => ?_
      obtain ⟨class_, -, rfl⟩ := map_eq_some_iff.mp hentry
      rfl
    | none =>
      rw [hfold] at hfolded?
      simp only [hfolded?, map_none, number]
      cases hnumbered : facts.numbered? kind with
      | none =>
        have hreused : facts.reused? kind = none := by rw [reused?, hfolded?, hnumbered]; rfl
        exact .keep hreused rfl
      | some entry =>
        obtain ⟨dst', key⟩ := entry
        obtain ⟨expression', hscalar', rfl, hpure⟩ := scalar_of_numbered hnumbered
        cases hscalar.symm.trans hscalar'
        cases hget : facts.expressions.get (expression.map (resolve facts.constants)) with
        | none =>
          have hreused : facts.reused? kind = none := by
            rw [reused?, hfolded?, hnumbered]
            simp [hget]
          simp only [hget]
          exact .record hscalar hreused hpure rfl
        | some existing =>
          have hreused : facts.reused? kind = some (dst, existing) := by
            rw [reused?, hfolded?, hnumbered]
            simp [hget]
          simp only [hget]
          exact .reuse hscalar hreused hpure hget rfl
  | none =>
    have hfolded (facts : BlockFacts) : facts.folded? kind = none := by rw [folded?, hscalar]; rfl
    have hnumbered (facts : BlockFacts) : facts.numbered? kind = none := by simp [numbered?, hscalar]
    have hreused : facts.reused? kind = none := by rw [reused?, hfolded, hnumbered]; rfl
    simp only [rewriteKind, hfolded, number, hnumbered]
    rw [noteMove.eq_def]
    split
    · split
      · next himmediate => exact .move rfl hreused himmediate rfl
      · exact .keep hreused rfl
    · exact .keep hreused rfl

theorem rewriteKind_eq (facts : BlockFacts) (kind : RegionInstructionKind) :
    ∃ kind' facts', facts.rewriteKind kind = (kind', facts') ∧ facts.Rewrites kind kind' facts' :=
  ⟨_, _, rfl, facts.rewrites kind⟩

/-- The registers about which something is known. -/
def Names (facts : BlockFacts) (register : RegId) : Prop :=
  (facts.constants.get register).isSome ∨ (facts.classes.get register).isSome ∨
    ∃ key, facts.expressions.get key = some register

theorem names_noteClass (h : (facts.noteClass class_).Names register) :
    facts.Names register ∨ ∃ entry ∈ class_, entry.1 = register := by
  cases class_ with
  | none => exact .inl h
  | some entry =>
    rcases h with hconstant | hclass | hexpression
    · exact .inl (.inl hconstant)
    · rw [noteClass, KeyMap.get_insert] at hclass
      split at hclass
      · next heq => exact .inr ⟨entry, rfl, heq⟩
      · exact .inl (.inr (.inl hclass))
    · exact .inl (.inr (.inr hexpression))

theorem names_insertConstant
    (h : { facts with constants := facts.constants.insert dst value }.Names register) :
    facts.Names register ∨ dst = register := by
  rcases h with hconstant | hclass | hexpression
  · rw [KeyMap.get_insert] at hconstant
    split at hconstant
    · next heq => exact .inr heq
    · exact .inl (.inl hconstant)
  · exact .inl (.inr (.inl hclass))
  · exact .inl (.inr (.inr hexpression))

theorem names_record (h : { facts with expressions := (key, dst) :: facts.expressions }.Names register) :
    facts.Names register ∨ dst = register := by
  rcases h with hconstant | hclass | ⟨other, hexpression⟩
  · exact .inl (.inl hconstant)
  · exact .inl (.inr (.inl hclass))
  rw [KeyMap.get_cons] at hexpression
  split at hexpression
  · exact .inr (Option.some.inj hexpression)
  · exact .inl (.inr (.inr ⟨other, hexpression⟩))

theorem instructionResultClass_dst {classes : KeyMap RegId SsaValueClass}
    (h : instructionResultClass classes kind = some (register, class_)) :
    kind.scalarResult? = some register := by
  rw [instructionResultClass.eq_def] at h
  split at h
  · obtain ⟨_, -, heq⟩ := map_eq_some_iff.mp h
    cases heq
    rfl
  · split at h <;> cases h
    rfl
  · repeat' split at h
    all_goals cases h
    all_goals rfl
  · cases h; rfl
  · obtain ⟨_, -, heq⟩ := map_eq_some_iff.mp h
    cases heq
    rfl
  · cases h

theorem scalarResult_of_scalar {kind : RegionInstructionKind} (h : kind.scalar? = some (dst, expression)) :
    kind.scalarResult? = some dst := by
  cases kind <;> cases h <;> rfl

/-- A rewriting adds facts about the register that the instruction assigns only. -/
theorem Rewrites.names (h : facts.Rewrites kind kind' facts') (hname : facts'.Names register) :
    facts.Names register ∨ kind.scalarResult? = some register := by
  have hnoted {facts₁ : BlockFacts} {kind₁ : RegionInstructionKind}
      (hname : (facts₁.noteClass (instructionResultClass facts.classes kind₁)).Names register) :
      facts₁.Names register ∨ kind₁.scalarResult? = some register := by
    refine (names_noteClass hname).imp_right ?_
    rintro ⟨entry, hentry, rfl⟩
    exact instructionResultClass_dst hentry
  cases h with
  | fold hscalar _ _ hclass =>
    rcases names_noteClass hname with hname | ⟨entry, hentry, rfl⟩
    · exact (names_insertConstant hname).imp_right fun heq =>
        (scalarResult_of_scalar hscalar).trans (congrArg some heq)
    · exact .inr (hclass entry hentry ▸ scalarResult_of_scalar hscalar)
  | reuse hscalar _ _ _ hclass =>
    subst hclass
    exact (hnoted hname).imp_right (scalarResult_of_scalar hscalar).trans
  | record hscalar _ _ hclass =>
    subst hclass
    refine (hnoted hname).elim (fun hname => ?_) .inr
    exact (names_record hname).imp_right fun heq =>
      (scalarResult_of_scalar hscalar).trans (congrArg some heq)
  | move hkind _ _ hclass =>
    subst hclass hkind
    refine (hnoted hname).elim (fun hname => ?_) .inr
    exact (names_insertConstant hname).imp_right (congrArg some)
  | keep _ hclass =>
    subst hclass
    exact hnoted hname

/-- The value of the operand stays as long as no known register is written. -/
def Settled (facts : BlockFacts) : RegionOperand → Prop
  | .register register => (facts.classes.get register).isSome
  | .local_ _ => False
  | _ => True

theorem Settled.noteClass (h : facts.Settled operand) : (facts.noteClass class_).Settled operand := by
  cases class_ with
  | none => exact h
  | some entry =>
    cases operand with
    | register register =>
      rw [Settled, BlockFacts.noteClass, KeyMap.get_insert]
      split
      · rfl
      · exact h
    | _ => exact h

end BlockFacts

theorem isSome_of_pureClasses {expression : ScalarExpression (Option SsaValueClass)}
    (h : expression.pureClasses = true) : ∀ class_ ∈ expression.operands, class_.isSome := by
  have hany {p : SsaValueClass → Bool} {class_ : Option SsaValueClass} (h : class_.any p = true) :
      class_.isSome := by
    cases class_ with
    | none => cases h
    | some => rfl
  cases expression with
  | binary op lhs rhs =>
    simp only [pureClasses, Bool.and_eq_true, decide_eq_true_eq] at h
    simp [operands, h.1, h.2]
  | unary op src =>
    simp only [operands, mem_singleton, forall_eq]
    cases op <;> simp only [pureClasses, Bool.or_eq_true, decide_eq_true_eq] at h
    · rw [h]; rfl
    · rw [h]; rfl
    · exact hany h
    · rcases h with h | h <;> rw [h] <;> rfl
  | compare op lhs rhs =>
    simp only [pureClasses, Bool.or_eq_true, Bool.and_eq_true, decide_eq_true_eq] at h
    simp only [operands, mem_cons, not_mem_nil, or_false, forall_eq_or_imp, forall_eq]
    rcases h with ⟨hlhs, hrhs⟩ | ⟨hlhs, hrhs⟩
    · exact ⟨hany hlhs, hany hrhs⟩
    · rw [hlhs, hrhs]
      exact ⟨rfl, rfl⟩
  | cast op src =>
    simp only [operands, mem_singleton, forall_eq]
    cases op <;> first | exact hany h | cases h

/-! ## What the facts say about the machine -/

namespace NativeRuntime
variable (R : NativeRuntime O W D)

/-- A remembered immediate is the value of its register. A recorded expression did not throw, and its
register holds a value that it had in some world. -/
structure Tracks (facts : BlockFacts) (machine : Machine (RuntimeValue O) W) : Prop where
  constants {register : RegId} {operand : RegionOperand} : facts.constants.get register = some operand →
    isImmediate operand = true ∧ machine.registers register = R.operandValue machine operand
  expressions {key : ScalarExpression RegionOperand} {register : RegId} :
    facts.expressions.get key = some register →
    (∀ operand ∈ key.operands, facts.Settled operand) ∧
      ∃ value world, (R.outcome (key.map (R.operandValue machine))).value = some value ∧
        machine.registers register = value world

variable {R} {facts : BlockFacts} {machine machine' : Machine (RuntimeValue O) W}

theorem operandValue_immediate (h : isImmediate operand = true) :
    R.operandValue machine operand = R.operandValue machine' operand := by
  cases operand <;> first | rfl | cases h

theorem Tracks.empty : R.Tracks ⟨[], [], []⟩ machine := ⟨nofun, nofun⟩

/-- Settled operands have the same values as long as the known registers have. -/
theorem map_settled {key : ScalarExpression RegionOperand}
    (hsettled : ∀ operand ∈ key.operands, facts.Settled operand)
    (hsame : ∀ register, facts.Names register → machine'.registers register = machine.registers register) :
    key.map (R.operandValue machine') = key.map (R.operandValue machine) := by
  refine map_congr fun operand hoperand => ?_
  have hoperand := hsettled operand hoperand
  cases operand with
  | register id => exact hsame id (.inr (.inl hoperand))
  | local_ => exact hoperand.elim
  | _ => rfl

namespace Tracks
variable (h : R.Tracks facts machine)
include h

theorem frame
    (hsame : ∀ register, facts.Names register → machine'.registers register = machine.registers register) :
    R.Tracks facts machine' where
  constants {register operand} hget := by
    obtain ⟨himmediate, hvalue⟩ := h.constants hget
    refine ⟨himmediate, ?_⟩
    rw [hsame register (.inl (hget ▸ rfl)), hvalue]
    exact operandValue_immediate himmediate
  expressions {key register} hget := by
    obtain ⟨hsettled, value, world, houtcome, hvalue⟩ := h.expressions hget
    refine ⟨hsettled, value, world, map_settled hsettled hsame ▸ houtcome, ?_⟩
    rw [hsame register (.inr (.inr ⟨key, hget⟩)), hvalue]

theorem noteClass (class_ : Option (RegId × SsaValueClass)) : R.Tracks (facts.noteClass class_) machine where
  constants hget := h.constants (by cases class_ <;> exact hget)
  expressions hget := by
    obtain ⟨hsettled, hvalue⟩ := h.expressions (by cases class_ <;> exact hget)
    exact ⟨fun operand hoperand => (hsettled operand hoperand).noteClass, hvalue⟩

theorem insertConstant (himmediate : isImmediate value = true)
    (hvalue : machine.registers dst = R.operandValue machine value) :
    R.Tracks { facts with constants := facts.constants.insert dst value } machine where
  constants hget := by
    rw [KeyMap.get_insert] at hget
    split at hget
    · next heq =>
      cases hget
      exact heq ▸ ⟨himmediate, hvalue⟩
    · exact h.constants hget
  expressions hget := h.expressions hget

theorem record (world : W) (hsettled : ∀ operand ∈ key.operands, facts.Settled operand)
    (houtcome : (R.outcome (key.map (R.operandValue machine))).value = some value)
    (hvalue : machine.registers dst = value world) :
    R.Tracks { facts with expressions := (key, dst) :: facts.expressions } machine where
  constants hget := h.constants hget
  expressions hget := by
    rw [KeyMap.get_cons] at hget
    split at hget
    · next heq =>
      cases hget
      exact heq ▸ ⟨hsettled, value, world, houtcome, hvalue⟩
    · exact h.expressions hget

theorem operandValue_resolve (operand : RegionOperand) :
    R.operandValue machine (resolve facts.constants operand) = R.operandValue machine operand := by
  rw [resolve.eq_def]
  split
  · next register =>
    cases hget : facts.constants.get register with
    | none => rfl
    | some immediate => exact (h.constants hget).2.symm
  · rfl

theorem map_resolve (expression : ScalarExpression RegionOperand) :
    (expression.map (resolve facts.constants)).map (R.operandValue machine) =
      expression.map (R.operandValue machine) := by
  rw [ScalarExpression.map_map]
  exact map_congr fun operand _ => h.operandValue_resolve operand

theorem settled_resolve (hclass : (operandClass facts.classes operand).isSome) :
    facts.Settled (resolve facts.constants operand) := by
  cases operand with
  | register register =>
    rw [resolve]
    cases hget : facts.constants.get register with
    | none => exact hclass
    | some immediate =>
      have himmediate := (h.constants hget).1
      cases immediate <;> trivial
  | local_ => cases hclass
  | _ => trivial

theorem settled_of_pure {expression : ScalarExpression RegionOperand}
    (hpure : (expression.map (operandClass facts.classes)).pureClasses = true) :
    ∀ operand ∈ (expression.map (resolve facts.constants)).operands, facts.Settled operand := by
  intro operand hoperand
  rw [operands_map] at hoperand
  obtain ⟨source, hsource, rfl⟩ := mem_map.mp hoperand
  refine h.settled_resolve (isSome_of_pureClasses hpure _ ?_)
  rw [operands_map]
  exact mem_map_of_mem hsource

end Tracks

/-! ## Steps -/

theorem step_scalar (h : instruction.kind.scalar? = some (dst, expression)) :
    R.step instruction machine = assign machine dst (R.outcome (expression.map (R.operandValue machine))) := by
  rw [step]
  split
  · next hkind => rw [hkind] at h; cases h
  · rw [h]

theorem step_move (h : instruction.kind = .move dst src) :
    R.step instruction machine = ⟨machine.set dst (R.operandValue machine src), [], true⟩ := by
  rw [step, h]

theorem set_of_ne (h : register ≠ dst) : (machine.set dst value).registers register = machine.registers register :=
  if_neg h

theorem set_self : (machine.set dst value).registers dst = value := if_pos rfl

theorem step_registers (h : register ∉ instruction.writes) :
    (R.step instruction machine).machine.registers register = machine.registers register := by
  rw [RegionInstruction.writes] at h
  split at h
  · next dst hresult =>
    have hne : register ≠ dst := fun heq => h (heq ▸ mem_singleton_self _)
    rw [step]
    split
    · next hkind =>
      rw [hkind] at hresult
      cases hresult
      exact set_of_ne hne
    · next hmove =>
      have hscalar : instruction.kind.scalarResult? = instruction.kind.scalar?.map Prod.fst := by
        rw [RegionInstructionKind.scalarResult?.eq_def]
        split
        · next hkind => exact absurd hkind (hmove _ _)
        · rfl
      obtain ⟨⟨dst, expression⟩, hscalar, rfl⟩ := map_eq_some_iff.mp (hscalar ▸ hresult)
      rw [hscalar]
      simp only [assign]
      split
      · exact set_of_ne hne
      · rfl
  · next hresult =>
    rw [step]
    split
    · next hkind => rw [hkind] at hresult; cases hresult
    · next hmove =>
      split
      · next hscalar => rw [scalarResult_of_scalar hscalar] at hresult; cases hresult
      · exact if_neg h

theorem outcome_of_fold {expression : ScalarExpression RegionOperand} (h : R.Tracks facts machine)
    (hfold : (expression.map (resolve facts.constants)).fold = some value) :
    R.outcome (expression.map (R.operandValue machine)) =
      ⟨[], some fun _ => R.operandValue machine value⟩ := by
  rw [outcome, ← h.map_resolve, fold_result R machine hfold]

/-- What is not replaced by the register of an equal expression does the same as before. -/
theorem Tracks.step_rewritten (h : R.Tracks facts machine) (hreused : facts.reused? instruction.kind = none) :
    R.step (facts.rewriteInstruction instruction).1 machine = R.step instruction machine := by
  obtain ⟨kind', facts', heq, hrewrites⟩ := facts.rewriteKind_eq instruction.kind
  rw [rewriteInstruction, heq]
  cases hrewrites with
  | fold hscalar _ hfold _ =>
    rw [step_move rfl, step_scalar hscalar, outcome_of_fold h hfold]
    rfl
  | reuse _ hsome => rw [hreused] at hsome; cases hsome
  | record | move | keep => rfl

/-- An integer operand that a native slot does not take for a handle. -/
def FitsImmediate : RegionOperand → Prop
  | .i64 value => jitDecodeRuntimeValue value = none ∧ jitDecodeConstant value = none
  | _ => True

/-- Folding gives an immediate, and no handle unless there was one before. -/
theorem immediate_of_fold {expression : ScalarExpression RegionOperand} (h : expression.fold = some value) :
    isImmediate value = true ∧
      ((∀ operand ∈ expression.operands, FitsImmediate operand) → FitsImmediate value) := by
  have hinteger {result : Int} (h : foldedImmediateInteger result = some value) :
      isImmediate value = true ∧ FitsImmediate value := by
    obtain ⟨hfits, rfl⟩ := foldedImmediateInteger_eq_some.mp h
    exact ⟨rfl, hfits⟩
  cases expression with
  | binary op lhs rhs =>
    rw [fold, foldBinary.eq_def] at h
    split at h
    · obtain ⟨_, -, hfolded⟩ := bind_eq_some_iff.mp h
      exact (hinteger hfolded).imp_right fun hfits _ => hfits
    · cases h
  | unary op src =>
    rw [fold, foldUnary.eq_def] at h
    split at h
    · cases op with
      | plus => cases h; exact ⟨rfl, fun hfits => hfits _ mem_cons_self⟩
      | not => cases h; exact ⟨rfl, fun _ => trivial⟩
      | minus =>
        obtain ⟨_, -, hfolded⟩ := bind_eq_some_iff.mp h
        exact (hinteger hfolded).imp_right fun hfits _ => hfits
      | bitNot => exact (hinteger h).imp_right fun hfits _ => hfits
    · cases h
  | compare op lhs rhs =>
    rw [fold, foldCompare.eq_def] at h
    split at h
    · next left right =>
      split at h <;> cases h
      · refine ⟨rfl, fun _ => ?_⟩
        show FitsImmediate (.i64 (OpenOperators.orderingInt (compare left right)))
        cases compare left right <;> exact ⟨by decide, by decide⟩
      · exact ⟨rfl, fun _ => trivial⟩
    · cases h
  | cast op src =>
    rw [fold, foldCast.eq_def] at h
    split at h <;> cases h
    · exact ⟨rfl, fun _ => trivial⟩
    · exact ⟨rfl, fun hfits => hfits _ mem_cons_self⟩
    · exact ⟨rfl, fun _ => trivial⟩

/-- A step keeps the facts true: it writes no register about which something is known, and the facts
that it adds are about its own result. -/
theorem Tracks.step (h : R.Tracks facts machine)
    (hfresh : ∀ register, facts.Names register → register ∉ instruction.writes)
    (hstays : (R.step instruction machine).stays = true) :
    R.Tracks (facts.rewriteInstruction instruction).2 (R.step instruction machine).machine := by
  have hsame (register : RegId) (hname : facts.Names register) :
      (R.step instruction machine).machine.registers register = machine.registers register :=
    step_registers (hfresh register hname)
  have hframe := h.frame hsame
  obtain ⟨kind', facts', heq, hrewrites⟩ := facts.rewriteKind_eq instruction.kind
  rw [rewriteInstruction, heq]
  cases hrewrites with
  | @fold dst expression value class_ hscalar _ hfold _ =>
    have himmediate := (immediate_of_fold hfold).1
    refine (hframe.insertConstant himmediate ?_).noteClass _
    rw [step_scalar hscalar, outcome_of_fold h hfold]
    exact set_self.trans (operandValue_immediate himmediate)
  | reuse => exact hframe.noteClass _
  | @record dst expression class_ hscalar _ hpure _ =>
    have hsettled := h.settled_of_pure hpure
    cases hvalue : (R.outcome (expression.map (R.operandValue machine))).value with
    | none =>
      rw [step_scalar hscalar, assign, hvalue] at hstays
      cases hstays
    | some value =>
      have hkey := (h.map_resolve expression).symm ▸ hvalue
      rw [← map_settled hsettled hsame] at hkey
      refine (hframe.record machine.world hsettled hkey ?_).noteClass _
      rw [step_scalar hscalar, assign, hvalue]
      exact set_self
  | @move dst src class_ hkind _ himmediate _ =>
    refine (hframe.insertConstant himmediate ?_).noteClass _
    rw [step_move hkind]
    refine set_self.trans ?_
    rw [← h.operandValue_resolve]
    exact operandValue_immediate himmediate
  | keep => exact hframe.noteClass _

/-! ## Runs -/

/-- No instruction writes a register that an earlier move or scalar operation assigns. -/
def AssignsOnce (instructions : List RegionInstruction) : Prop :=
  instructions.Pairwise fun earlier later =>
    ∀ register, earlier.kind.scalarResult? = some register → register ∉ later.writes

/-- Along the run of the original instructions, every operation that is replaced by the register of an
equal expression is silent and has the value of that register. -/
def RepeatsSilent (R : NativeRuntime O W D) : BlockFacts → List RegionInstruction →
    Machine (RuntimeValue O) W → Prop
  | _, [], _ => True
  | facts, instruction :: instructions, machine =>
    (∀ dst existing, facts.reused? instruction.kind = some (dst, existing) →
      (R.step instruction machine).events = [] ∧
        (R.step instruction machine).machine.registers dst = machine.registers existing) ∧
    ((R.step instruction machine).stays = true →
      RepeatsSilent R (facts.rewriteInstruction instruction).2 instructions
        (R.step instruction machine).machine)

theorem run_registers (h : ∀ instruction ∈ instructions, register ∉ instruction.writes) :
    (R.run terminator instructions machine).machine.registers register = machine.registers register := by
  induction instructions generalizing machine with
  | nil =>
    have hbranch (condition : RegionOperand) (ifTrue ifFalse : BlockId) :
        (R.branch machine condition ifTrue ifFalse).machine = machine := by
      rw [branch]
      split <;> rfl
    cases terminator <;> first | rfl | rw [run, terminate, hbranch]
  | cons instruction instructions ih =>
    have hstep : (R.step instruction machine).machine.registers register = machine.registers register :=
      step_registers (h instruction mem_cons_self)
    rw [run]
    split
    · exact (ih (forall_mem_cons.mp h).2).trans hstep
    · exact hstep

section
variable (h : R.Tracks facts machine)
include h

theorem Tracks.terminate_rewritten (terminator : RegionTerminator) :
    R.terminate machine (facts.rewriteTerminator terminator) = R.terminate machine terminator := by
  have hbranch {condition : RegionOperand} {truthy : Bool} (ifTrue ifFalse : BlockId)
      (htruthy : immediateTruthy (resolve facts.constants condition) = some truthy) :
      R.terminate machine (.jump (if truthy then ifTrue else ifFalse)) =
        R.branch machine condition ifTrue ifFalse := by
    rw [branch, ← h.operandValue_resolve, truth_of_immediateTruthy R machine htruthy]
    rfl
  cases terminator with
  | jumpIfFalse condition | jumpIfTrue condition | jumpIf condition =>
    rw [rewriteTerminator]
    split
    · next htruthy => exact hbranch _ _ htruthy
    · rfl
  | _ => rfl

/-- The expression of a replaced operation has been evaluated before, and the register that takes its
place has a value that it had. -/
theorem Tracks.outcome_reused (hreused : facts.reused? kind = some (dst, existing)) :
    (facts.rewriteKind kind).1 = .move dst (.register existing) ∧
      ∃ expression value world, kind.scalar? = some (dst, expression) ∧
        (expression.map (operandClass facts.classes)).pureClasses = true ∧
        (R.outcome (expression.map (R.operandValue machine))).value = some value ∧
        machine.registers existing = value world := by
  obtain ⟨kind', facts', heq, hrewrites⟩ := facts.rewriteKind_eq kind
  rw [heq]
  cases hrewrites with
  | fold _ hnone | record _ hnone | move _ hnone | keep hnone => rw [hreused] at hnone; cases hnone
  | @reuse _ _ expression class_ hscalar hsome hpure hget =>
    cases hreused.symm.trans hsome
    obtain ⟨-, value, world, houtcome, hvalue⟩ := h.expressions hget
    rw [h.map_resolve] at houtcome
    exact ⟨rfl, expression, value, world, hscalar, hpure, houtcome, hvalue⟩

/-- So a replaced operation does not throw. -/
theorem Tracks.step_reused (hreused : facts.reused? instruction.kind = some (dst, existing)) :
    ∃ value events, R.step instruction machine = ⟨machine.set dst value, events, true⟩ ∧
      R.step (facts.rewriteInstruction instruction).1 machine =
        ⟨machine.set dst (machine.registers existing), [], true⟩ ∧
      instruction.kind.scalarResult? = some dst := by
  obtain ⟨hkind, expression, value, world, hscalar, -, houtcome, -⟩ := h.outcome_reused hreused
  refine ⟨value machine.world, (R.outcome (expression.map (R.operandValue machine))).events, ?_, ?_,
    scalarResult_of_scalar hscalar⟩
  · rw [step_scalar hscalar, assign, houtcome]
  · have hrewritten : (facts.rewriteInstruction instruction).1.kind = .move dst (.register existing) := hkind
    exact step_move hrewritten

end

section
variable {terminator : RegionTerminator} {instructions : List RegionInstruction}

/-- The rewritten run of the rest of a block. -/
def rewrittenRun (R : NativeRuntime O W D) (terminator : RegionTerminator) (facts : BlockFacts)
    (instructions : List RegionInstruction) (machine : Machine (RuntimeValue O) W) :
    BlockRun (RuntimeValue O) W D :=
  let rewritten := mapWith rewriteInstruction facts instructions
  R.run (rewritten.2.rewriteTerminator terminator) rewritten.1 machine

theorem rewrittenRun_cons : R.rewrittenRun terminator facts (instruction :: instructions) machine =
    if (R.step (facts.rewriteInstruction instruction).1 machine).stays then
      (R.rewrittenRun terminator (facts.rewriteInstruction instruction).2 instructions
        (R.step (facts.rewriteInstruction instruction).1 machine).machine).prepend
          (R.step (facts.rewriteInstruction instruction).1 machine).events
    else ⟨(R.step (facts.rewriteInstruction instruction).1 machine).machine,
      (R.step (facts.rewriteInstruction instruction).1 machine).events, .left⟩ := rfl

/-- The registers about which something is known are not written any more. -/
def Fresh (facts : BlockFacts) (instructions : List RegionInstruction) : Prop :=
  ∀ register, facts.Names register → ∀ instruction ∈ instructions, register ∉ instruction.writes

theorem Fresh.rewrite (h : Fresh facts (instruction :: instructions))
    (honce : AssignsOnce (instruction :: instructions)) :
    Fresh (facts.rewriteInstruction instruction).2 instructions := by
  intro register hname later hlater
  rcases (facts.rewrites instruction.kind).names hname with hname | hresult
  · exact h register hname later (mem_cons_of_mem _ hlater)
  · exact (pairwise_cons.mp honce).1 later hlater register hresult

theorem rewrittenRun_of_repeatsSilent (h : R.Tracks facts machine) (hfresh : Fresh facts instructions)
    (honce : AssignsOnce instructions) (hsilent : R.RepeatsSilent facts instructions machine) :
    R.rewrittenRun terminator facts instructions machine = R.run terminator instructions machine := by
  induction instructions generalizing facts machine with
  | nil => exact h.terminate_rewritten terminator
  | cons instruction instructions ih =>
    obtain ⟨hrepeat, hrest⟩ := hsilent
    have hstep : R.step (facts.rewriteInstruction instruction).1 machine = R.step instruction machine := by
      cases hreused : facts.reused? instruction.kind with
      | none => exact h.step_rewritten hreused
      | some entry =>
        obtain ⟨dst, existing⟩ := entry
        obtain ⟨value, events, horiginal, hrewritten, -⟩ := h.step_reused hreused
        obtain ⟨hevents, hvalue⟩ := hrepeat dst existing hreused
        rw [horiginal] at hevents hvalue
        rw [horiginal, hrewritten, ← hvalue, set_self]
        exact congrArg (Progress.mk _ · _) hevents.symm
    rw [rewrittenRun_cons, run, hstep]
    split
    · next hstays =>
      have hnext := h.step (fun register hname => hfresh register hname instruction mem_cons_self) hstays
      exact congrArg (BlockRun.prepend _) (ih hnext (hfresh.rewrite honce)
        (pairwise_cons.mp honce).2 (hrest hstays))
    · rfl

theorem writes_rewriteInstruction (instruction : RegionInstruction) :
    (facts.rewriteInstruction instruction).1.writes = instruction.writes := by
  obtain ⟨kind', facts', heq, hrewrites⟩ := facts.rewriteKind_eq instruction.kind
  rw [rewriteInstruction, heq]
  cases hrewrites with
  | fold hscalar | reuse hscalar =>
    rw [RegionInstruction.writes, RegionInstruction.writes, scalarResult_of_scalar hscalar]
    rfl
  | record | move | keep => rfl

theorem forall_writes_rewritten (h : ∀ later ∈ instructions, dst ∉ later.writes) :
    ∀ later ∈ (mapWith rewriteInstruction facts instructions).1, dst ∉ later.writes := by
  induction instructions generalizing facts with
  | nil => exact fun later hlater => nomatch hlater
  | cons instruction instructions ih =>
    intro later hlater
    rcases mem_cons.mp hlater with rfl | hlater
    · rw [writes_rewriteInstruction]
      exact h instruction mem_cons_self
    · exact ih (forall_mem_cons.mp h).2 later hlater

/-- If both runs end in the same registers, the rewritten one shows no more events, and as many only if
the repeats are silent. -/
theorem length_events_rewrittenRun (h : R.Tracks facts machine) (hfresh : Fresh facts instructions)
    (honce : AssignsOnce instructions)
    (hsame : (R.rewrittenRun terminator facts instructions machine).machine =
      (R.run terminator instructions machine).machine) :
    (R.rewrittenRun terminator facts instructions machine).events.length ≤
        (R.run terminator instructions machine).events.length ∧
      ((R.rewrittenRun terminator facts instructions machine).events.length =
        (R.run terminator instructions machine).events.length →
          R.RepeatsSilent facts instructions machine) := by
  induction instructions generalizing facts machine with
  | nil =>
    rw [rewrittenRun, mapWith, run, run, h.terminate_rewritten]
    exact ⟨Nat.le_refl _, fun _ => trivial⟩
  | cons instruction instructions ih =>
    have hnext := h.step fun register hname => hfresh register hname instruction mem_cons_self
    have hfresh' := hfresh.rewrite honce
    obtain ⟨hhead, honce'⟩ := pairwise_cons.mp honce
    cases hreused : facts.reused? instruction.kind with
    | none =>
      rw [rewrittenRun_cons, run, h.step_rewritten hreused] at hsame ⊢
      rw [RepeatsSilent, hreused]
      split at hsame
      · next hstays =>
        simp only [hstays, if_true, BlockRun.prepend, length_append] at hsame ⊢
        obtain ⟨hle, hsilent⟩ := ih (hnext hstays) hfresh' honce' hsame
        exact ⟨Nat.add_le_add_left hle _, fun heq => ⟨by simp, fun _ => hsilent (Nat.add_left_cancel heq)⟩⟩
      · next hleft =>
        simp only [hleft, if_false, Bool.false_eq_true]
        exact ⟨Nat.le_refl _, fun _ => by simp⟩
    | some entry =>
      obtain ⟨dst, existing⟩ := entry
      obtain ⟨value, events, horiginal, hrewritten, hresult⟩ := h.step_reused hreused
      have hkept : ∀ later ∈ instructions, dst ∉ later.writes :=
        fun later hlater => hhead later hlater dst hresult
      have hnext : R.Tracks (facts.rewriteInstruction instruction).2 (machine.set dst value) := by
        rw [horiginal] at hnext
        exact hnext rfl
      rw [rewrittenRun_cons, run, hrewritten, horiginal] at hsame ⊢
      simp only [if_true, BlockRun.prepend, nil_append, length_append] at hsame ⊢
      -- The result is not written again, so both runs end with their own value in it.
      have hvalue : machine.registers existing = value := by
        have hdst := congrArg (·.registers dst) hsame
        rw [rewrittenRun, run_registers (forall_writes_rewritten hkept), run_registers hkept] at hdst
        exact set_self.symm.trans (hdst.trans set_self)
      subst hvalue
      obtain ⟨hle, hsilent⟩ := ih hnext hfresh' honce' hsame
      refine ⟨Nat.le_trans hle (Nat.le_add_left _ _), fun heq => ?_⟩
      rw [RepeatsSilent, hreused, horiginal]
      refine ⟨?_, fun _ => hsilent ?_⟩
      · rintro _ _ ⟨⟩
        exact ⟨eq_nil_of_length_eq_zero (show events.length = 0 by omega), set_self⟩
      · omega

/-! ## True classes -/

def classOf (R : NativeRuntime O W D) : RuntimeValue O → SsaValueClass
  | .null => .null
  | .bool _ => .bool
  | .int _ => .int
  | .string _ => .stringHandle
  | .other value => R.otherClass value

/-- The table of effect-free operations is right about values of the given classes: an operation that
does not throw is silent and does not depend on the world. -/
def Lawful (R : NativeRuntime O W D) : Prop :=
  ∀ (expression : ScalarExpression (RuntimeValue O)) (value : W → RuntimeValue O),
    (expression.map fun value => some (R.classOf value)).pureClasses = true →
    (R.outcome expression).value = some value →
    (R.outcome expression).events = [] ∧ ∀ world world', value world = value world'

def ClassesTrue (R : NativeRuntime O W D) (facts : BlockFacts) (machine : Machine (RuntimeValue O) W) :
    Prop :=
  ∀ register class_, facts.classes.get register = some class_ →
    R.classOf (machine.registers register) = class_

/-- Along the run of the original instructions, the recorded classes are those of the values. -/
def ClassesHold (R : NativeRuntime O W D) : BlockFacts → List RegionInstruction →
    Machine (RuntimeValue O) W → Prop
  | _, [], _ => True
  | facts, instruction :: instructions, machine =>
    (R.step instruction machine).stays = true →
      R.ClassesTrue (facts.rewriteInstruction instruction).2 (R.step instruction machine).machine ∧
        ClassesHold R (facts.rewriteInstruction instruction).2 instructions
          (R.step instruction machine).machine

theorem ClassesTrue.operand {operand : RegionOperand} (h : R.ClassesTrue facts machine)
    (hclass : operandClass facts.classes operand = some class_) :
    R.classOf (R.operandValue machine operand) = class_ := by
  cases operand with
  | register register => exact h register class_ hclass
  | i64 value => exact Option.some.inj hclass
  | constant index =>
    rw [operandClass] at hclass
    rw [operandValue, constantValue]
    split at hclass
    · next hnull =>
      cases hclass
      rw [if_pos hnull]
      rfl
    · next hnull =>
      rw [if_neg hnull]
      obtain ⟨hbool, hclass⟩ := ite_none_right_eq_some.mp hclass
      cases hclass
      rcases hbool with rfl | rfl <;> rfl
  | local_ | linkedConstant => cases hclass

theorem ClassesTrue.pure {expression : ScalarExpression RegionOperand} (h : R.ClassesTrue facts machine)
    (hpure : (expression.map (operandClass facts.classes)).pureClasses = true) :
    ((expression.map (R.operandValue machine)).map fun value => some (R.classOf value)).pureClasses =
      true := by
  rw [ScalarExpression.map_map]
  rw [← hpure]
  refine congrArg _ (map_congr fun operand hoperand => ?_)
  have hsome := isSome_of_pureClasses hpure (operandClass facts.classes operand)
    (operands_map _ expression ▸ mem_map_of_mem hoperand)
  obtain ⟨class_, hclass⟩ := isSome_iff_exists.mp hsome
  rw [hclass]
  exact congrArg some (h.operand hclass)

theorem repeatsSilent_of_classesHold (hlawful : R.Lawful) (h : R.Tracks facts machine)
    (hfresh : Fresh facts instructions) (honce : AssignsOnce instructions)
    (htrue : R.ClassesTrue facts machine) (hclasses : R.ClassesHold facts instructions machine) :
    R.RepeatsSilent facts instructions machine := by
  induction instructions generalizing facts machine with
  | nil => trivial
  | cons instruction instructions ih =>
    refine ⟨fun dst existing hreused => ?_, fun hstays => ?_⟩
    · obtain ⟨-, expression, value, world, hscalar, hpure, houtcome, hvalue⟩ := h.outcome_reused hreused
      obtain ⟨hevents, hconstant⟩ := hlawful _ value (htrue.pure hpure) houtcome
      rw [step_scalar hscalar, assign, houtcome]
      refine ⟨hevents, set_self.trans ?_⟩
      rw [hvalue]
      exact hconstant _ _
    · obtain ⟨htrue', hclasses'⟩ := hclasses hstays
      have hnext := h.step (fun register hname => hfresh register hname instruction mem_cons_self) hstays
      exact ih hnext (hfresh.rewrite honce) (pairwise_cons.mp honce).2 htrue' hclasses'

end

/-! ## Immediates -/

def scalarOperands : RegionInstructionKind → List RegionOperand
  | .move _ src => [src]
  | kind => kind.scalar?.toList.flatMap (·.2.operands)

def ImmediatesFit (instructions : List RegionInstruction) : Prop :=
  ∀ instruction ∈ instructions, ∀ operand ∈ scalarOperands instruction.kind, FitsImmediate operand

theorem fitsImmediate_resolve {constants : KeyMap RegId RegionOperand}
    (hconstants : ∀ register operand, constants.get register = some operand → FitsImmediate operand)
    (h : FitsImmediate operand) : FitsImmediate (resolve constants operand) := by
  rw [resolve.eq_def]
  split
  · next register =>
    cases hget : constants.get register with
    | none => exact h
    | some immediate => exact hconstants register immediate hget
  · exact h

theorem scalarOperands_of_scalar
    (h : kind.scalar? = some (dst, expression)) : scalarOperands kind = expression.operands := by
  rw [scalarOperands.eq_def]
  split
  · cases h
  · rw [h]
    exact append_nil _

theorem immediatesFit_rewrite {instructions : List RegionInstruction}
    (hconstants : ∀ register operand, facts.constants.get register = some operand → FitsImmediate operand)
    (h : ImmediatesFit instructions) : ImmediatesFit (mapWith rewriteInstruction facts instructions).1 := by
  induction instructions generalizing facts with
  | nil => exact fun later hlater => nomatch hlater
  | cons instruction instructions ih =>
    have hhead := h instruction mem_cons_self
    have htail : ImmediatesFit instructions := (forall_mem_cons.mp h).2
    have hinsert {dst : RegId} {value : RegionOperand} (hvalue : FitsImmediate value) :
        ∀ register operand, (facts.constants.insert dst value).get register = some operand →
          FitsImmediate operand := by
      intro register operand hget
      rw [KeyMap.get_insert] at hget
      split at hget
      · cases hget
        exact hvalue
      · exact hconstants register operand hget
    obtain ⟨kind', facts', heq, hrewrites⟩ := facts.rewriteKind_eq instruction.kind
    rw [mapWith, rewriteInstruction, heq]
    suffices (∀ operand ∈ scalarOperands kind', FitsImmediate operand) ∧
        ∀ register operand, facts'.constants.get register = some operand → FitsImmediate operand by
      intro later hlater
      rcases mem_cons.mp hlater with rfl | hlater
      · exact this.1
      · exact ih this.2 htail later hlater
    cases hrewrites with
    | @fold _ _ value class_ hscalar _ hfold _ =>
      have hvalue : FitsImmediate value := by
        refine (immediate_of_fold hfold).2 fun operand hoperand => ?_
        rw [operands_map] at hoperand
        obtain ⟨source, hsource, rfl⟩ := mem_map.mp hoperand
        exact fitsImmediate_resolve hconstants
          (hhead source (scalarOperands_of_scalar hscalar ▸ hsource))
      refine ⟨fun operand hoperand => mem_singleton.mp hoperand ▸ hvalue, ?_⟩
      cases class_ <;> exact hinsert hvalue
    | @reuse _ _ _ class_ =>
      refine ⟨fun operand hoperand => mem_singleton.mp hoperand ▸ trivial, ?_⟩
      cases class_ <;> exact hconstants
    | @record _ _ class_ | @keep class_ =>
      refine ⟨hhead, ?_⟩
      cases class_ <;> exact hconstants
    | @move _ src class_ hkind =>
      have hvalue := fitsImmediate_resolve hconstants (hhead src (hkind ▸ mem_singleton_self src))
      refine ⟨hhead, ?_⟩
      cases class_ <;> exact hinsert hvalue

/-! ## Blocks -/

/-- A rewritten block runs as the original one does exactly if the repeated expressions are silent, which
they are if the recorded classes are true. Folded integers are not taken for handles. -/
theorem runBlock_optimizeScalars_iff (R : NativeRuntime O W D) (block : RegionBlock)
    (honce : AssignsOnce block.instructions) (machine : Machine (RuntimeValue O) W) :
    (R.runBlock block.optimizeScalars machine = R.runBlock block machine ↔
        R.RepeatsSilent ⟨[], [], []⟩ block.instructions machine) ∧
      (R.Lawful → R.ClassesHold ⟨[], [], []⟩ block.instructions machine →
        R.runBlock block.optimizeScalars machine = R.runBlock block machine) ∧
      (ImmediatesFit block.instructions → ImmediatesFit block.optimizeScalars.instructions) := by
  have hfresh : Fresh ⟨[], [], []⟩ block.instructions := by
    rintro register (hconstant | hclass | ⟨key, hexpression⟩)
    · cases hconstant
    · cases hclass
    · cases hexpression
  have hmpr (hsilent : R.RepeatsSilent ⟨[], [], []⟩ block.instructions machine) :
      R.runBlock block.optimizeScalars machine = R.runBlock block machine :=
    rewrittenRun_of_repeatsSilent .empty hfresh honce hsilent
  refine ⟨⟨fun hsame => ?_, hmpr⟩, fun hlawful hclasses => hmpr ?_, fun h => ?_⟩
  · exact (length_events_rewrittenRun .empty hfresh honce (congrArg BlockRun.machine hsame)).2
      (congrArg (·.events.length) hsame)
  · exact repeatsSilent_of_classesHold hlawful .empty hfresh honce nofun hclasses
  · exact immediatesFit_rewrite nofun h

/-! ### A repeated operation -/

/-- Floats are halves of integers here, and `&` on one that is not an integer is deprecated. -/
def halves : NativeRuntime Int Unit String where
  constant _ := .null
  linkedConstant _ _ _ := .null
  otherClass _ := .float
  otherOutcome
    | .binary .div (.int lhs) (.int 2) => ⟨[], some fun _ => .other lhs⟩
    | .binary .bitAnd (.other lhs) (.int rhs) =>
      ⟨if lhs.tmod 2 = 0 then [] else ["Implicit conversion from float to int loses precision"],
        some fun _ => .int (wordBinary (· &&& ·) (lhs.tdiv 2) rhs)⟩
    | _ => ⟨["Unsupported operand types"], none⟩
  otherTruth _ := ⟨[], some fun _ => true⟩
  perform _ machine := ⟨⟨machine.registers, machine.locals, machine.world, true⟩, []⟩

/-- `r0 = value; r1 = r0 / 2; r2 = r1 & 3; r3 = r1 & 3` -/
def maskTwice (value : Int) : RegionBlock where
  id := 0
  entryContinuationId := 0
  entryLiveLocals := []
  instructions := [ ⟨1, none, false, .nop, .move 0 (.i64 value)⟩,
    ⟨2, none, false, .nop, .binary 1 .div (.register 0) (.i64 2)⟩,
    ⟨3, none, false, .nop, .binary 2 .bitAnd (.register 1) (.i64 3)⟩,
    ⟨4, none, false, .nop, .binary 3 .bitAnd (.register 1) (.i64 3)⟩]
  terminatorLiveRegisters := none
  terminator := .return_ (.register 3) none

theorem assignsOnce_maskTwice (value : Int) : AssignsOnce (maskTwice value).instructions := by
  simp [AssignsOnce, maskTwice, RegionInstruction.writes, RegionInstructionKind.scalarResult?,
    RegionInstructionKind.scalar?]

def cleared : Machine (RuntimeValue Int) Unit := ⟨fun _ => .null, fun _ => .null, ()⟩

/-- Six halves are three, and the second `&` may go. -/
theorem runBlock_maskTwice_six :
    halves.runBlock (maskTwice 6).optimizeScalars cleared = halves.runBlock (maskTwice 6) cleared := by
  refine (runBlock_optimizeScalars_iff halves (maskTwice 6) (assignsOnce_maskTwice 6) cleared).1.mpr ?_
  refine ⟨nofun, fun _ => ⟨nofun, fun _ =>
    ⟨nofun, fun _ => ⟨?_, fun _ => trivial⟩⟩⟩⟩
  rintro _ _ ⟨⟩
  exact ⟨by decide, rfl⟩

/-- Five halves are not an integer, and the second diagnostic is lost. -/
theorem runBlock_maskTwice_five : AssignsOnce (maskTwice 5).instructions ∧
    (halves.runBlock (maskTwice 5).optimizeScalars cleared).events ≠
      (halves.runBlock (maskTwice 5) cleared).events := by
  exact ⟨assignsOnce_maskTwice 5, by decide⟩

end NativeRuntime
end Phrust.Jit
