import Phrust.Optimizer.Pipeline
import Phrust.Verify.IrVerifier

/-!
# The pipeline is fail-safe

Whatever a pass does through its transaction, a rollback restores the unit, and a unit that was
verified before a run of the pipeline is verified afterwards.
-/

namespace Phrust.Optimizer
open List Ir

/-! ## Rollback restores the unit -/

/-- Writing back what `target` holds at some places, into a list that agrees with it elsewhere. -/
theorem foldl_set_eq {target start : List α} {entries : List (Nat × α)}
    (hentries : ∀ entry ∈ entries, target[entry.1]? = some entry.2) (hlength : start.length = target.length)
    (hother : ∀ i, (∀ entry ∈ entries, entry.1 ≠ i) → start[i]? = target[i]?) :
    entries.foldl (fun list entry => list.set entry.1 entry.2) start = target := by
  induction entries generalizing start with
  | nil => exact ext_getElem? fun i => hother i nofun
  | cons entry entries ih =>
    refine ih (forall_mem_cons.mp hentries).2 ?_ fun i hi => ?_
    · rw [length_set, hlength]
    by_cases hne : entry.1 = i
    · have htarget := hentries entry mem_cons_self
      have hlt := (List.getElem?_eq_some_iff.mp htarget).1
      rw [← hne, getElem?_set_self (hlength ▸ hlt), htarget]
    rw [getElem?_set_ne hne]
    exact hother i fun e he => by
      rcases mem_cons.mp he with rfl | he
      · exact hne
      · exact hi e he

namespace PassTransaction

/-- A snapshot, or what is there if there is none. -/
def Saved (snapshot : Option α) (current original : α) : Prop := snapshot.getD current = original

/-- What a transaction that started with `unit` keeps: its snapshots are parts of `unit`, and the
parts without a snapshot are as they were. -/
structure Restores (transaction : PassTransaction) (unit : IrUnit) : Prop where
  length : transaction.unit.functions.length = unit.functions.length
  snapshots : ∀ entry ∈ transaction.functionSnapshots, unit.functions[entry.1]? = some entry.2
  untouched : ∀ i, transaction.functionSnapshots.get i = none →
    transaction.unit.functions[i]? = unit.functions[i]?
  constants : Saved transaction.constantsSnapshot transaction.unit.constants unit.constants
  classes : Saved transaction.classesSnapshot transaction.unit.classes unit.classes
  constantTable :
    Saved transaction.constantTableSnapshot transaction.unit.constantTable unit.constantTable
  version : transaction.unit.version = unit.version
  functionTable : transaction.unit.functionTable = unit.functionTable
  files : transaction.unit.files = unit.files
  entry : transaction.unit.entry = unit.entry

theorem restores_new (unit : IrUnit) : (new unit).Restores unit :=
  ⟨rfl, nofun, fun _ _ => rfl, rfl, rfl, rfl, rfl, rfl, rfl, rfl⟩

variable {transaction : PassTransaction} {unit : IrUnit}

section
variable (h : transaction.Restores unit)
include h

theorem Restores.functionMut (heq : transaction.functionMut function update = some transaction') :
    transaction'.Restores unit := by
  obtain ⟨current, hcurrent, rfl⟩ := Option.map_eq_some_iff.mp heq
  refine { h with
    length := by rw [length_set, h.length]
    snapshots := fun entry hentry => ?_
    untouched := fun i hi => ?_ }
  · dsimp only at hentry
    split at hentry
    · exact h.snapshots entry hentry
    · next hnone =>
      rcases KeyMap.mem_insert hentry with rfl | hentry
      · rw [← h.untouched function hnone, hcurrent]
      · exact h.snapshots entry hentry
  · dsimp only at hi
    split at hi
    · next snapshot hsome =>
      have hne : function ≠ i := by
        rintro rfl
        rw [hsome] at hi
        cases hi
      rw [getElem?_set_ne hne]
      exact h.untouched i hi
    · rw [KeyMap.get_insert] at hi
      split at hi
      · cases hi
      · next hne =>
        rw [getElem?_set_ne hne]
        exact h.untouched i hi

theorem Restores.act (heq : transaction.act action = some transaction') : transaction'.Restores unit := by
  cases action with
  | functionMut function update => exact h.functionMut heq
  | touchBlock function block =>
    cases heq
    exact { h with }
  | constantsMut update =>
    cases heq
    exact { h with constants := h.constants }
  | classesMut update =>
    cases heq
    exact { h with classes := h.classes }
  | constantTableMut update =>
    cases heq
    exact { h with constantTable := h.constantTable }

theorem Restores.exec (program : PassProgram) : (program.exec transaction).1.Restores unit := by
  induction program generalizing transaction with
  | finish result => cases result <;> exact h
  | panics => exact h
  | act action next ih =>
    rw [PassProgram.exec]
    split
    · next transaction' heq => exact ih _ (h.act heq)
    · exact h

theorem Restores.rollback : transaction.rollback.unit = unit := by
  have hfunctions : transaction.functionSnapshots.foldl
      (fun functions entry => functions.set entry.1 entry.2) transaction.unit.functions =
      unit.functions := by
    refine foldl_set_eq h.snapshots h.length fun i hi => h.untouched i ?_
    rw [KeyMap.get, Option.map_eq_none_iff, find?_eq_none]
    intro entry hentry
    simpa using hi entry hentry
  obtain ⟨-, -, -, hconstants, hclasses, htable, hversion, hnames, hfiles, hentry⟩ := h
  unfold Saved at hconstants hclasses htable
  unfold PassTransaction.rollback
  simp only [hfunctions, hconstants, hclasses, htable, hversion, hnames, hfiles, hentry]

end

theorem rollback_drop (transaction : PassTransaction) :
    transaction.rollback.drop = transaction.rollback := rfl

theorem act_committed (heq : transaction.act action = some transaction') :
    transaction'.committed = transaction.committed := by
  cases action with
  | functionMut function update =>
    obtain ⟨current, -, rfl⟩ := Option.map_eq_some_iff.mp heq
    rfl
  | touchBlock | constantsMut | classesMut | constantTableMut =>
    cases heq
    rfl

theorem exec_committed (program : PassProgram) (transaction : PassTransaction) :
    (program.exec transaction).1.committed = transaction.committed := by
  induction program generalizing transaction with
  | finish result => cases result <;> rfl
  | panics => rfl
  | act action next ih =>
    rw [PassProgram.exec]
    split
    · next transaction' heq => rw [ih, act_committed heq]
    · rfl

theorem Restores.drop (h : transaction.Restores unit) (hcommitted : transaction.committed = false) :
    transaction.drop.unit = unit := by
  rw [PassTransaction.drop, hcommitted]
  exact h.rollback

/-! ## A unit that compares as unchanged is still verified -/

theorem saved_of_unchanged [BEq α] {snapshot : Option (List α)} (hsaved : Saved snapshot current original)
    (h : snapshot.any (· != current) = false) : current = original ∨ (original == current) = true := by
  cases snapshot with
  | none => exact .inl hsaved
  | some saved =>
    cases hsaved
    exact .inr (by simpa [bne] using h)

variable (h : transaction.Restores unit) (hchanged : transaction.changed = false)
include h hchanged

theorem Restores.function_unchanged {i : Nat} (hfunction : transaction.unit.functions[i]? = some function) :
    ∃ original, unit.functions[i]? = some original ∧
      (function = original ∨ (function == original) = true) := by
  cases hget : transaction.functionSnapshots.get i with
  | none => exact ⟨function, by rw [← h.untouched i hget, hfunction], .inl rfl⟩
  | some snapshot =>
    have hmem := KeyMap.mem_of_get hget
    refine ⟨snapshot, h.snapshots _ hmem, .inr ?_⟩
    simp only [changed, Bool.or_eq_false_iff, any_eq_false] at hchanged
    have hentry := hchanged.1.1.1 _ hmem
    rw [hfunction] at hentry
    simpa [bne] using hentry

theorem Restores.verifyTables_unchanged : verifyTables transaction.unit = verifyTables unit ∧
      transaction.unit.constants.length = unit.constants.length := by
  simp only [changed, Bool.or_eq_false_iff] at hchanged
  obtain ⟨⟨⟨-, hconstants⟩, hclasses⟩, htable⟩ := hchanged
  have hlength : transaction.unit.constants.length = unit.constants.length := by
    rcases saved_of_unchanged h.constants hconstants with heq | heq
    · rw [heq]
    · exact (length_eq_of_beq heq).symm
  have hclasses : transaction.unit.classes = unit.classes :=
    (saved_of_unchanged h.classes hclasses).elim id fun heq => (eq_of_beq heq).symm
  have htable : transaction.unit.constantTable = unit.constantTable :=
    (saved_of_unchanged h.constantTable htable).elim id fun heq => (eq_of_beq heq).symm
  refine ⟨?_, hlength⟩
  unfold verifyTables verifyClass verifySpan
  rw [h.version, h.entry, h.length, h.files, h.functionTable, hclasses, htable, hlength]

theorem Restores.verifyUnit_unchanged : verifyUnit transaction.unit = verifyUnit unit := by
  obtain ⟨htables, hconstants⟩ := h.verifyTables_unchanged hchanged
  rw [verifyUnit, verifyUnit, htables, append_cancel_left_eq, flatMap_def, flatMap_def]
  refine congrArg List.flatten (ext_getElem? fun i => ?_)
  simp only [getElem?_map, getElem?_zipIdx]
  cases hfunction : transaction.unit.functions[i]? with
  | none =>
    have hnone : unit.functions[i]? = none := by
      rw [List.getElem?_eq_none_iff] at hfunction ⊢
      rw [← h.length]
      exact hfunction
    rw [hnone]
    rfl
  | some function =>
    obtain ⟨original, horiginal, heq⟩ := h.function_unchanged hchanged hfunction
    rw [horiginal]
    refine congrArg some ?_
    rcases heq with rfl | heq
    · exact verifyFunctionBody_congr ⟨hconstants, h.length, congrArg _ h.files, rfl, rfl, rfl⟩
        rfl rfl rfl rfl _
    · exact verifyFunctionBody_of_beq hconstants h.length (congrArg _ h.files) heq _

end PassTransaction

/-! ## Passes and the pipeline -/

/-- The pass returned an error, was rejected by the verifier, or was dropped uncommitted. -/
def PassEnding.abandoned : PassEnding → Prop
  | .rejected _ | .failed _ | .panicked => True
  | .skipped _ | .committed _ => False

section
variable (context : PassContext) (unit : IrUnit) (pass : OptimizerPass)

theorem runPass_before : (runPass context unit pass).before = unit := by
  unfold runPass
  split
  · rfl
  split
  · rfl
  · rfl
  dsimp only
  split
  · split <;> rfl
  · rfl

/-- One pass: abandoned work is undone, and the verifier's verdict is kept. -/
theorem runPass_failSafe :
    ((runPass context unit pass).ending.abandoned → (runPass context unit pass).after = unit) ∧
      (Verified unit → Verified (runPass context unit pass).after) := by
  have hrestores := (PassTransaction.restores_new unit).exec (pass.run unit context)
  have hcommitted := PassTransaction.exec_committed (pass.run unit context) (.new unit)
  unfold runPass
  split
  · exact ⟨fun h => h.elim, id⟩
  split
  · next transaction error heq =>
    rw [heq] at hrestores
    rw [PassTransaction.rollback_drop, hrestores.rollback]
    exact ⟨fun _ => rfl, id⟩
  · next transaction heq =>
    rw [heq] at hrestores hcommitted
    rw [hrestores.drop hcommitted]
    exact ⟨fun _ => rfl, id⟩
  · next transaction report heq =>
    rw [heq] at hrestores
    dsimp only
    split
    · split
      · next hverified => exact ⟨fun h => h.elim, fun _ => hverified⟩
      · rw [PassTransaction.rollback_drop, hrestores.rollback]
        exact ⟨fun _ => rfl, id⟩
    · next hchanged =>
      refine ⟨fun h => h.elim, fun hverified => ?_⟩
      exact (hrestores.verifyUnit_unchanged (Bool.eq_false_iff.mpr hchanged)).trans hverified

end

/-- Each step begins with the unit that the step before it left. -/
def Chained (unit : IrUnit) : List PassStep → IrUnit → Prop
  | [], final => unit = final
  | step :: steps, final => step.before = unit ∧ Chained step.after steps final

theorem Chained.append (h : Chained unit steps middle)
    (h' : Chained middle steps' final) : Chained unit (steps ++ steps') final := by
  induction steps generalizing unit with
  | nil =>
    cases h
    exact h'
  | cons step steps ih => exact ⟨h.1, ih h.2⟩

/-- The steps of a run lead from the unit to the unit afterwards, what is abandoned is undone, and
the verifier's verdict is kept. -/
structure FailSafe (unit : IrUnit) (run : PhaseRun) : Prop where
  chained : Chained unit run.steps run.unit
  undone : ∀ step ∈ run.steps, step.ending.abandoned → step.after = step.before
  verified : Verified unit → Verified run.unit

theorem failSafe_nil (unit : IrUnit) (ending : PhaseEnding) : FailSafe unit ⟨unit, [], ending⟩ :=
  ⟨rfl, nofun, id⟩

theorem FailSafe.cons (context : PassContext) (unit : IrUnit)
    (pass : OptimizerPass) (h : FailSafe (runPass context unit pass).after rest) :
    FailSafe unit ⟨rest.unit, runPass context unit pass :: rest.steps, rest.ending⟩ := by
  obtain ⟨hundone, hverified⟩ := runPass_failSafe context unit pass
  refine ⟨⟨runPass_before context unit pass, h.chained⟩, fun step hstep => ?_,
    fun hunit => h.verified (hverified hunit)⟩
  rcases mem_cons.mp hstep with rfl | hstep
  · rw [runPass_before]
    exact hundone
  · exact h.undone step hstep

theorem runPasses_failSafe (context : PassContext) (passes : List OptimizerPass) (unit : IrUnit) :
    FailSafe unit (runPasses context unit passes) := by
  induction passes generalizing unit with
  | nil => exact failSafe_nil unit .finished
  | cons pass passes ih =>
    rw [runPasses]
    split
    · exact (failSafe_nil _ (.failed _)).cons context unit pass
    · exact (failSafe_nil _ .panicked).cons context unit pass
    · exact (ih _).cons context unit pass

namespace PassPipeline
variable (passes : PassPipeline) (unit : IrUnit) (context : PassContext)

theorem trace_failSafe : FailSafe unit (passes.trace unit context) := by
  have hphase (phase : PassPhase) (unit : IrUnit) :
      FailSafe unit (passes.runPhase phase unit context) := runPasses_failSafe context _ unit
  unfold trace
  split
  · dsimp only
    split
    · have first := hphase .preVerify unit
      have second := hphase .postVerify (passes.runPhase .preVerify unit context).unit
      refine ⟨first.chained.append second.chained, fun step hstep => ?_,
        fun h => second.verified (first.verified h)⟩
      rcases mem_append.mp hstep with hstep | hstep
      · exact first.undone step hstep
      · exact second.undone step hstep
    · exact { hphase .preVerify unit with }
  · exact failSafe_nil unit _

/-- The pipeline is fail-safe: for all passes that work through the accessors, every unit and every
context. -/
theorem run_failSafe : (Verified unit → Verified (passes.run unit context).1) ∧
      Chained unit (passes.trace unit context).steps (passes.run unit context).1 ∧
      ∀ step ∈ (passes.trace unit context).steps, step.ending.abandoned → step.after = step.before :=
  have h := trace_failSafe passes unit context
  ⟨h.verified, h.chained, h.undone⟩

end PassPipeline
end Phrust.Optimizer
