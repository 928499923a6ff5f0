import Phrust.Runtime.ArrayStorage
import Phrust.Theory.GraphSearch

/-!
# Class tables and ancestry queries

The tables of a native request that say which classes are visible, the two ancestry queries over
them (`native_class_is_a` with its cache, and the capability query `class_is_a`), and the operations
that change the tables.
-/

namespace Phrust
open List

/-- `name.trim_start_matches('\\').to_ascii_lowercase()` -/
def normalizeClassName (name : PhpString) : PhpString :=
  (name.dropWhile (· == 92)).map toAsciiLowercase

/-- A class or interface declaration: its normalized name, its parent and interfaces as they are written, and
whether it is declared only when its code runs. -/
structure ClassEntry where
  name : PhpString
  parent : Option PhpString
  interfaces : List PhpString
  isConditional : Bool
  name_normalized : normalizeClassName name = name

/-- The names written in the declaration. -/
def ClassEntry.written (entry : ClassEntry) : List PhpString := entry.parent.toList ++ entry.interfaces

/-- `classes.iter().find(|class| class.name == candidate)` -/
def findClass (classes : List ClassEntry) (candidate : PhpString) : Option ClassEntry :=
  classes.find? (·.name == candidate)

/-- The unit that is running: its classes, and its index when it is one of the dynamic units. -/
structure ActiveUnit where
  classes : List ClassEntry
  dynamicUnit : Option Nat

structure ClassTables where
  active : ActiveUnit
  /-- The units to return to, the innermost first. -/
  suspended : List ActiveUnit
  dynamicUnits : List (List ClassEntry)
  externalClassUnits : StableKeyMap PhpString Nat
  deploymentClasses : PhpString → Bool
  dynamicClasses : PhpString → Bool
  classAliases : StableKeyMap PhpString PhpString
  externalSignatureEpoch : Nat
  runtimeClassAncestryCache : StableKeyMap (Nat × PhpString) (List PhpString)
  /-- A running dynamic unit is the one in the table. -/
  consistent : ∀ unit ∈ active :: suspended, ∀ index, unit.dynamicUnit = some index →
    dynamicUnits[index]? = some unit.classes
  /-- The tables name units that exist; the deployment is unit 0. -/
  external_lt : ∀ name unit, externalClassUnits.get name = some unit → unit < dynamicUnits.length
  deployment_lt : ∀ name, deploymentClasses name = true → 0 < dynamicUnits.length

namespace ClassTables
variable (tables : ClassTables) (name : PhpString)

def classIsVisible : Bool := tables.deploymentClasses name || tables.dynamicClasses name

def resolveAlias : PhpString :=
  (tables.classAliases.get name).getD name

/-- The class in another unit that the request has made visible. -/
def nativeExternalClassRef : Option ClassEntry := do
  let normalized := tables.resolveAlias (normalizeClassName name)
  let unit ← (tables.externalClassUnits.get normalized).or
    (if tables.deploymentClasses normalized then some 0 else none)
  if tables.active.dynamicUnit = some unit then none
  else findClass (← tables.dynamicUnits[unit]?) (normalizeClassName normalized)

/-- The same for the capability query, which does not look at the deployment. -/
def externalClassHandle : Option ClassEntry := do
  let normalized := tables.resolveAlias (normalizeClassName name)
  let unit ← tables.externalClassUnits.get normalized
  if tables.active.dynamicUnit = some unit then none
  else findClass (← tables.dynamicUnits[unit]?) (normalizeClassName normalized)

def classHandle : Option ClassEntry :=
  (findClass tables.active.classes (normalizeClassName name)).or
    (tables.externalClassHandle (normalizeClassName name))

end ClassTables

/-! ## Queries -/

/-- `arrayiterator`, `iterator` and `traversable` -/
def arrayIteratorName : PhpString := [97, 114, 114, 97, 121, 105, 116, 101, 114, 97, 116, 111, 114]
def iteratorName : PhpString := [105, 116, 101, 114, 97, 116, 111, 114]
def traversableName : PhpString := [116, 114, 97, 118, 101, 114, 115, 97, 98, 108, 101]

/-- The answer both queries give without a look at the tables. -/
def isArrayIteratorQuery (candidate target : PhpString) : Bool :=
  candidate == arrayIteratorName && (target == iteratorName || target == traversableName)

namespace ClassTables
variable (internal : List ClassEntry)

section
variable (tables : ClassTables)
variable (candidate : PhpString)

/-- The declaration the worklist finds for a candidate. -/
def candidateClass : Option ClassEntry :=
  ((findClass tables.active.classes candidate).or (tables.nativeExternalClassRef candidate)).or
    (findClass internal candidate)

/-- What the worklist pushes for a candidate, the top of the stack first. -/
def ancestrySuccessors : List PhpString :=
  match tables.candidateClass internal candidate with
  | some entry => (entry.written.map normalizeClassName).reverse
  | none => []

def mentionedNames : List PhpString :=
  (tables.active.classes ++ tables.dynamicUnits.flatten ++ internal).flatMap fun entry =>
    entry.written.map normalizeClassName

/-- Enough pops for any search. -/
def ancestryFuel : Nat :=
  ((tables.mentionedNames internal).length + 1) * ((tables.mentionedNames internal).length + 1) + 2

def nativeClassIsA (className target : PhpString) : Option (Bool × ClassTables) :=
  let target := normalizeClassName target
  let className := normalizeClassName className
  if isArrayIteratorQuery className target then some (true, tables)
  else
    let cacheKey := (tables.externalSignatureEpoch, className)
    match tables.runtimeClassAncestryCache.get cacheKey with
    | some ancestry => some (ancestry.contains target, tables)
    | none => do
      let visited ← search (tables.ancestrySuccessors internal) (tables.ancestryFuel internal)
        [className] []
      return (visited.contains target, { tables with
          runtimeClassAncestryCache := tables.runtimeClassAncestryCache.insert cacheKey visited })

/-- The successors that the capability query knows. -/
def handleSuccessors : Option (List PhpString) :=
  ((tables.classHandle candidate).or (findClass internal candidate)).map fun entry =>
    entry.written.map normalizeClassName

end

/-- `JIT_NATIVE_DIRECT_VALUE_CAPACITY` -/
def directValueCapacity : Nat := 2097152

/-- `None` when some ancestor is not known here or the search gets too deep. -/
def classIsA (tables : ClassTables) (className target : PhpString) : Option Bool :=
  let target := tables.resolveAlias (normalizeClassName target)
  ask (fun candidate => candidate == target || isArrayIteratorQuery candidate target)
    (tables.handleSuccessors internal) directValueCapacity (normalizeClassName className)

end ClassTables

/-! ## Operations -/

inductive ClassOp where
  /-- `native_class_is_a` -/
  | query (className target : PhpString)
  /-- `register_native_dynamic_unit`: a unit, whether it exports functions, and the normalized names
  of the classes it exports. -/
  | register (compiled : List ClassEntry) (exportsFunctions : Bool) (classes : List PhpString)
  /-- `DECLARE_CLASS` -/
  | declareClass (name : PhpString)
  /-- Enter and leave `with_active_dynamic_unit`. -/
  | activate (unit : Nat)
  | deactivate

namespace ClassTables

def u64Max : Nat := 2 ^ 64 - 1

/-- `epoch.saturating_add(1)` -/
def bumpEpoch (epoch : Nat) : Nat := if epoch < u64Max then epoch + 1 else epoch

theorem get_foldl_insert {map : StableKeyMap PhpString Nat} {classes : List PhpString}
    (h : (classes.foldl (fun map name => map.insert name unit) map).get name = some index) :
    index = unit ∨ map.get name = some index := by
  induction classes generalizing map with
  | nil => exact .inr h
  | cons first classes ih =>
    rcases ih h with h | h
    · exact .inl h
    rw [StableKeyMap.get_insert] at h
    split at h
    · cases h
      exact .inl rfl
    · exact .inr h

/-- Registration stops at a class that is in use already. -/
def register (tables : ClassTables) (compiled : List ClassEntry) (exportsFunctions : Bool)
    (classes : List PhpString) : ClassTables :=
  if classes.any fun name => (findClass tables.active.classes (normalizeClassName name)).isSome ||
      (tables.nativeExternalClassRef name).isSome then tables
  else
    { tables with
      dynamicUnits := tables.dynamicUnits ++ [compiled]
      externalClassUnits := classes.foldl
        (fun map name => map.insert name tables.dynamicUnits.length) tables.externalClassUnits
      dynamicClasses := fun name => classes.contains name || tables.dynamicClasses name
      externalSignatureEpoch :=
        if exportsFunctions || !classes.isEmpty then bumpEpoch tables.externalSignatureEpoch
        else tables.externalSignatureEpoch
      consistent := fun unit hunit index hindex => by
        have h := tables.consistent unit hunit index hindex
        rw [List.getElem?_append_left (List.getElem?_eq_some_iff.mp h).1, h]
      external_lt := fun name unit h => by
        rw [length_append, length_singleton]
        rcases get_foldl_insert h with h | h
        · exact h ▸ Nat.lt_succ_self _
        · exact Nat.lt_succ_of_lt (tables.external_lt name unit h)
      deployment_lt := fun _ _ => by
        rw [length_append]
        exact Nat.succ_pos _ }

section
variable (unit : Option Nat) (name : PhpString) (map : StableKeyMap PhpString Nat)

/-- A dynamic unit enters its class in the table; the main unit has none. -/
def declareExternal : StableKeyMap PhpString Nat :=
  match unit with
  | some index => map.insert name index
  | none => map

theorem get_declareExternal (key : PhpString) : (declareExternal unit name map).get key =
      if key = name then unit.or (map.get name) else map.get key := by
  cases unit with
  | none =>
    split
    · next h => rw [h]; rfl
    · rfl
  | some index => exact StableKeyMap.get_insert map name key index

end

/-- A declaration that runs: only now do other units see the class. -/
def declareClass (tables : ClassTables) (name : PhpString) : ClassTables :=
  match findClass tables.active.classes name with
  | none => tables
  | some entry =>
    let normalized := normalizeClassName entry.name
    if tables.classIsVisible normalized ||
        (tables.externalClassUnits.get normalized).isSome then tables
    else
      { tables with
        externalClassUnits :=
          declareExternal tables.active.dynamicUnit normalized tables.externalClassUnits
        dynamicClasses := fun name => name == normalized || tables.dynamicClasses name
        external_lt := fun other unit h => by
          rw [get_declareExternal] at h
          split at h
          · rcases Option.or_eq_some_iff.mp h with h | ⟨-, h⟩
            · have hunit := tables.consistent _ mem_cons_self unit h
              exact (List.getElem?_eq_some_iff.mp hunit).1
            · exact tables.external_lt _ unit h
          · exact tables.external_lt other unit h }

def activate (tables : ClassTables) (unit : Nat) : ClassTables :=
  match h : tables.dynamicUnits[unit]? with
  | none => tables
  | some classes =>
    { tables with
      active := ⟨classes, some unit⟩
      suspended := tables.active :: tables.suspended
      consistent := fun running hrunning index hindex => by
        rcases mem_cons.mp hrunning with rfl | hrunning
        · cases hindex
          exact h
        · exact tables.consistent running hrunning index hindex }

def deactivate (tables : ClassTables) : ClassTables :=
  match h : tables.suspended with
  | [] => tables
  | previous :: suspended =>
    { tables with
      active := previous
      suspended
      consistent := fun running hrunning index hindex =>
        tables.consistent running (mem_cons_of_mem _ (h ▸ hrunning)) index hindex }

variable (internal : List ClassEntry)

def step (tables : ClassTables) : ClassOp → ClassTables
  | .query className target =>
    ((tables.nativeClassIsA internal className target).map Prod.snd).getD tables
  | .register compiled exportsFunctions classes => tables.register compiled exportsFunctions classes
  | .declareClass name => tables.declareClass name
  | .activate unit => tables.activate unit
  | .deactivate => tables.deactivate

def run (tables : ClassTables) (ops : List ClassOp) : ClassTables := ops.foldl (step internal) tables

end ClassTables
end Phrust
