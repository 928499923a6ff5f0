import Phrust.Ir.Verify
import Phrust.Theory.KeyMap

/-!
# Pass transactions and the pass pipeline

A pass reads the unit and changes it through the accessors of its transaction, which keep a snapshot
of what is touched for the first time. The pipeline verifies what a pass has changed and then commits
or rolls back.
-/

namespace Phrust.Optimizer
open Ir

inductive OptimizationLevel where
  | o0 | o1 | o2
  deriving DecidableEq

def OptimizationLevel.rank : OptimizationLevel → Nat
  | o0 => 0
  | o1 => 1
  | o2 => 2

inductive PassPhase where
  | preVerify | postVerify
  deriving DecidableEq

structure PassContext where
  level : OptimizationLevel
  enabledOnly : Option (List String)
  disabled : List String

def PassContext.isPassEnabled (context : PassContext) (passName : String) : Bool :=
  if context.disabled.contains passName then false
  else
    match context.enabledOnly with
    | none => true
    | some enabled => enabled.contains passName

structure PassScopeReport where
  functions : List Nat
  blocks : List (Nat × Nat)
  constants : Bool
  metadata : List String
  sourceMappingsMayChange : Bool

def PassScopeReport.default : PassScopeReport := ⟨[], [], false, [], false⟩

structure PassReport where
  name : String
  phase : PassPhase
  enabled : Bool
  changed : Bool
  sourceSpansPreserved : Bool
  rolledBack : Bool
  scope : PassScopeReport
  stats : KeyMap String Nat

def PassReport.skipped (name : String) (phase : PassPhase) : PassReport :=
  ⟨name, phase, false, false, true, false, .default, []⟩

structure OptimizationReport where
  level : OptimizationLevel
  passes : List PassReport

inductive PassError where
  | passFailed (pass message : String)
  | verification (phase : PassPhase) (errors : List VerificationError)

/-! ## Transactions -/

structure PassTransaction where
  unit : IrUnit
  functionSnapshots : KeyMap Nat IrFunction
  constantsSnapshot : Option (List IrConstant)
  classesSnapshot : Option (List ClassEntry)
  constantTableSnapshot : Option (List GlobalConstantEntry)
  touchedBlocks : KeyMap Nat (KeyMap Nat Unit)
  committed : Bool

namespace PassTransaction

def new (unit : IrUnit) : PassTransaction := ⟨unit, [], none, none, none, [], false⟩

variable (transaction : PassTransaction)

/-- What a caller does with the function it gets is `update`; `none` is the panic of an index out of
range. -/
def functionMut (function : Nat) (update : IrFunction → IrFunction) : Option PassTransaction :=
  transaction.unit.functions[function]?.map fun current =>
    { transaction with
      unit := { transaction.unit with
        functions := transaction.unit.functions.set function (update current) }
      functionSnapshots :=
        match transaction.functionSnapshots.get function with
        | some _ => transaction.functionSnapshots
        | none => transaction.functionSnapshots.insert function current }

def touchBlock (function block : Nat) : PassTransaction :=
  let blocks := (transaction.touchedBlocks.get function).getD []
  { transaction with
    touchedBlocks := transaction.touchedBlocks.insert function (blocks.insert block ()) }

def constantsMut (update : List IrConstant → List IrConstant) : PassTransaction :=
  { transaction with
    unit := { transaction.unit with constants := update transaction.unit.constants }
    constantsSnapshot := some (transaction.constantsSnapshot.getD transaction.unit.constants) }

def classesMut (update : List ClassEntry → List ClassEntry) : PassTransaction :=
  { transaction with
    unit := { transaction.unit with classes := update transaction.unit.classes }
    classesSnapshot := some (transaction.classesSnapshot.getD transaction.unit.classes) }

def constantTableMut (update : List GlobalConstantEntry → List GlobalConstantEntry) : PassTransaction :=
  { transaction with
    unit := { transaction.unit with constantTable := update transaction.unit.constantTable }
    constantTableSnapshot :=
      some (transaction.constantTableSnapshot.getD transaction.unit.constantTable) }

def changed : Bool :=
  (transaction.functionSnapshots.any fun (index, snapshot) =>
    transaction.unit.functions[index]? != some snapshot) ||
  transaction.constantsSnapshot.any (· != transaction.unit.constants) ||
  transaction.classesSnapshot.any (· != transaction.unit.classes) ||
  transaction.constantTableSnapshot.any (· != transaction.unit.constantTable)

/-- The stat `snapshot_bytes`, an estimate from the sizes of the Rust types, is left out. -/
def addInstrumentation (report : PassReport) : PassReport :=
  let functions := transaction.functionSnapshots.map Prod.fst
  let blocks := transaction.touchedBlocks.flatMap fun (function, blocks) =>
    blocks.map fun block => (function, block.1)
  let constants := transaction.constantsSnapshot.isSome
  let metadata :=
    (if transaction.classesSnapshot.isSome then ["classes"] else []) ++
    if transaction.constantTableSnapshot.isSome then ["constant_table"] else []
  { report with
    scope := ⟨functions, blocks, constants, metadata, false⟩
    stats := report.stats
      |>.insert "functions_touched" functions.length
      |>.insert "blocks_touched" blocks.length
      |>.insert "constant_pool_touched" constants.toNat
      |>.insert "metadata_tables_touched" metadata.length
      |>.insert "source_mappings_may_change" 0
      |>.insert "scope_snapshots" (functions.length + constants.toNat + metadata.length) }

def rollback : PassTransaction where
  unit := { transaction.unit with
    functions := transaction.functionSnapshots.foldl
      (fun functions (index, function) => functions.set index function) transaction.unit.functions
    constants := transaction.constantsSnapshot.getD transaction.unit.constants
    classes := transaction.classesSnapshot.getD transaction.unit.classes
    constantTable := transaction.constantTableSnapshot.getD transaction.unit.constantTable }
  functionSnapshots := []
  constantsSnapshot := none
  classesSnapshot := none
  constantTableSnapshot := none
  touchedBlocks := transaction.touchedBlocks
  committed := true

def drop : PassTransaction := if transaction.committed then transaction else transaction.rollback

def commit : PassTransaction := { transaction with committed := true }.drop

end PassTransaction

/-! ## Passes -/

/-- One call of an accessor. -/
inductive PassAction where
  | functionMut (function : Nat) (update : IrFunction → IrFunction)
  | touchBlock (function block : Nat)
  | constantsMut (update : List IrConstant → List IrConstant)
  | classesMut (update : List ClassEntry → List ClassEntry)
  | constantTableMut (update : List GlobalConstantEntry → List GlobalConstantEntry)

def PassTransaction.act (transaction : PassTransaction) : PassAction → Option PassTransaction
  | .functionMut function update => transaction.functionMut function update
  | .touchBlock function block => some (transaction.touchBlock function block)
  | .constantsMut update => some (transaction.constantsMut update)
  | .classesMut update => some (transaction.classesMut update)
  | .constantTableMut update => some (transaction.constantTableMut update)

/-- The body of a pass: it ends with a result or a panic, or calls an accessor and goes on with the
unit as it is then. -/
inductive PassProgram where
  | finish (result : Except PassError PassReport)
  | panics
  | act (action : PassAction) (next : IrUnit → PassProgram)

inductive PassResult where
  | done (report : PassReport)
  | failed (error : PassError)
  | panicked

def PassProgram.exec : PassProgram → PassTransaction → PassTransaction × PassResult
  | finish (.ok report), transaction => (transaction, .done report)
  | finish (.error error), transaction => (transaction, .failed error)
  | panics, transaction => (transaction, .panicked)
  | act action next, transaction =>
    match transaction.act action with
    | some transaction => (next transaction.unit).exec transaction
    | none => (transaction, .panicked)

structure OptimizerPass where
  name : String
  phase : PassPhase
  minLevel : OptimizationLevel
  run : IrUnit → PassContext → PassProgram

/-! ## The pipeline -/

/-- How a pass ends in the pipeline. -/
inductive PassEnding where
  | skipped (report : PassReport)
  | committed (report : PassReport)
  /-- The verifier rejects what the pass has changed. -/
  | rejected (report : PassReport)
  | failed (error : PassError)
  /-- The transaction is dropped while the stack unwinds. -/
  | panicked

def PassEnding.report? : PassEnding → Option PassReport
  | skipped report | committed report | rejected report => some report
  | failed _ | panicked => none

/-- A pass in a run of the pipeline: the unit before it, the unit after it, and how it ended. -/
structure PassStep where
  pass : OptimizerPass
  before : IrUnit
  after : IrUnit
  ending : PassEnding

def runPass (context : PassContext) (unit : IrUnit) (pass : OptimizerPass) : PassStep :=
  if context.level.rank < pass.minLevel.rank || !context.isPassEnabled pass.name then
    ⟨pass, unit, unit, .skipped (.skipped pass.name pass.phase)⟩
  else
    match (pass.run unit context).exec (.new unit) with
    | (transaction, .failed error) => ⟨pass, unit, transaction.rollback.drop.unit, .failed error⟩
    | (transaction, .panicked) => ⟨pass, unit, transaction.drop.unit, .panicked⟩
    | (transaction, .done report) =>
      let report := transaction.addInstrumentation { report with changed := transaction.changed }
      if report.changed then
        let report := { report with stats := report.stats.insert "verifier_calls" 1 }
        match verifyUnit transaction.unit with
        | [] => ⟨pass, unit, transaction.commit.unit, .committed report⟩
        | errors =>
          let report := { report with
            changed := false
            rolledBack := true
            stats := report.stats.insert "verifier_errors" errors.length }
          ⟨pass, unit, transaction.rollback.drop.unit, .rejected report⟩
      else
        let report := { report with stats := report.stats.insert "verifier_calls" 0 }
        ⟨pass, unit, transaction.commit.unit, .committed report⟩

inductive PhaseEnding where
  | finished
  | failed (error : PassError)
  | panicked

structure PhaseRun where
  unit : IrUnit
  steps : List PassStep
  ending : PhaseEnding

def runPasses (context : PassContext) (unit : IrUnit) : List OptimizerPass → PhaseRun
  | [] => ⟨unit, [], .finished⟩
  | pass :: passes =>
    let step := runPass context unit pass
    match step.ending with
    | .failed error => ⟨step.after, [step], .failed error⟩
    | .panicked => ⟨step.after, [step], .panicked⟩
    | _ =>
      let rest := runPasses context step.after passes
      ⟨rest.unit, step :: rest.steps, rest.ending⟩

abbrev PassPipeline := List OptimizerPass

namespace PassPipeline
variable (passes : PassPipeline)

def runPhase (phase : PassPhase) (unit : IrUnit) (context : PassContext) : PhaseRun :=
  runPasses context unit (passes.filter (·.phase = phase))

/-- The passes that are run, with the units around them. -/
def trace (unit : IrUnit) (context : PassContext) : PhaseRun :=
  match verifyUnit unit with
  | [] =>
    let first := passes.runPhase .preVerify unit context
    match first.ending with
    | .finished =>
      let second := passes.runPhase .postVerify first.unit context
      ⟨second.unit, first.steps ++ second.steps, second.ending⟩
    | ending => ⟨first.unit, first.steps, ending⟩
  | errors => ⟨unit, [], .failed (.verification .preVerify errors)⟩

/-- The unit afterwards and the result; `none` is a panic. -/
def run (unit : IrUnit) (context : PassContext) : IrUnit × Option (Except PassError OptimizationReport) :=
  let trace := passes.trace unit context
  (trace.unit,
    match trace.ending with
    | .finished => some (.ok ⟨context.level, trace.steps.filterMap (·.ending.report?)⟩)
    | .failed error => some (.error error)
    | .panicked => none)

end PassPipeline
end Phrust.Optimizer
