import Phrust.Ir.LoweredExpressions
import Phrust.Verify.Doubles
import Phrust.Verify.NumericPrefix

/-!
# Scoped error suppression, and increments

An exception skips the call that restores `error_reporting`. An increment is an addition of one,
which is PHP's rule for numbers only, and a dimension is located a second time for the assignment.
-/

namespace Phrust.Ir
open Phrust.Convert NativeOps Nat

/-! ## Error suppression -/

theorem lower_errorSuppress {inner : HirExpr E} (h : ∀ local_, inner ≠ .variable_ local_) :
    lowerExprToRegister (.errorSuppress inner) next =
      let (suppressed, code, last) := lowerExprToRegister inner (next + 2)
      (suppressed, LoweredStep.errorReporting (P := P) next none ::
        .errorReporting (next + 1) (some (.constant 0)) ::
          (code ++ [.errorReporting last (some (.register next))]), last + 1) := by
  cases inner with
  | variable_ local_ => exact absurd rfl (h local_)
  | operand | errorSuppress => rfl

namespace LoweredHost
variable [DecidableEq P] (host : LoweredHost E P F W) (state : LoweredState P F W)

/-- How control leaves the code of an expression, and the state then. -/
def leaves (expression : HirExpr E) (next : RegId) (state : LoweredState P F W) : Bool × LoweredState P F W :=
  host.run (lowerExprToRegister expression next).2.1 state

/-- The state behind the first two calls of `error_reporting`. -/
def silenced (next : RegId) (state : LoweredState P F W) : LoweredState P F W :=
  { setRegister (setRegister state next (.int state.reporting)) (next + 1)
      (.int state.reporting) with reporting := 0 }

theorem run_append (code code' : List (LoweredStep E P)) : host.run (code ++ code') state =
    if (host.run code state).1 then host.run code' (host.run code state).2 else host.run code state := by
  induction code generalizing state with
  | nil => rfl
  | cons first rest ih =>
    rw [List.cons_append, run, run]
    split
    · exact ih _
    · rfl

variable {host state}

/-- The operand runs between the calls, and the last one is reached if it completes. -/
theorem leaves_errorSuppress {inner : HirExpr E} (h : ∀ local_, inner ≠ .variable_ local_) :
    host.leaves (.errorSuppress inner) next state =
      let left := host.leaves inner (next + 2) (silenced next state)
      if left.1 then host.step left.2 (.errorReporting
        (lowerExprToRegister (P := P) inner (next + 2)).2.2 (some (.register next)))
      else left := by
  rw [leaves, lower_errorSuppress h]
  change host.run (_ ++ _) (silenced next state) = _
  rw [run_append]
  rfl

theorem step_errorReporting_registers (h : register ≠ dst) :
    (host.step state (.errorReporting dst argument)).2.registers register = state.registers register :=
  Function.update_of_ne h ..

theorem leaves_registers (expression : HirExpr E) (h : register < next) :
    register < (lowerExprToRegister (P := P) expression next).2.2 ∧
      (host.leaves expression next state).2.registers register = state.registers register := by
  have hne := Nat.ne_of_lt h
  induction expression generalizing next state with
  | variable_ => exact ⟨lt_succ_of_lt h, Function.update_of_ne hne ..⟩
  | operand expression =>
    refine ⟨lt_succ_of_lt h, ?_⟩
    cases hcompletes : (host.evaluate expression state.reporting state.world).1 with
    | false => simp [leaves, lowerExprToRegister, run, step, hcompletes]
    | true => simp [leaves, lowerExprToRegister, run, step, hcompletes, setRegister, hne]
  | errorSuppress inner ih =>
    by_cases hvariable : ∃ local_, inner = .variable_ local_
    · obtain ⟨local_, rfl⟩ := hvariable
      exact ⟨lt_succ_of_lt h, Function.update_of_ne hne ..⟩
    rw [not_exists] at hvariable
    have hnext := Nat.lt_add_right 2 h
    obtain ⟨hlast, hregister⟩ := @ih (silenced next state) (next + 2) hnext (Nat.ne_of_lt hnext)
    rw [lower_errorSuppress hvariable, leaves_errorSuppress hvariable]
    have hsilenced : (silenced next state).registers register = state.registers register := by
      simp [silenced, setRegister, hne, Nat.ne_of_lt (Nat.lt_succ_of_lt h)]
    rw [hsilenced] at hregister
    refine ⟨lt_succ_of_lt hlast, ?_⟩
    dsimp only
    split
    · rw [step_errorReporting_registers (Nat.ne_of_lt hlast), hregister]
    · exact hregister

/-- Where the operand leaves the reporting off, it is restored if the operand completes or if it was
off. -/
theorem errorSuppress_restored_iff (host : LoweredHost E P F W) (inner : HirExpr E) (next : RegId)
    (state : LoweredState P F W) : let left := host.leaves inner (next + 2) (silenced next state)
    (left.2.reporting = 0 → (host.leaves (.errorSuppress inner) next state).2.reporting = state.reporting) ↔
      left.1 = true ∨ state.reporting = 0 ∨ left.2.reporting ≠ 0 := by
  intro left
  by_cases hvariable : ∃ local_, inner = .variable_ local_
  · obtain ⟨local_, rfl⟩ := hvariable
    exact ⟨fun _ => .inl rfl, fun _ _ => rfl⟩
  rw [not_exists] at hvariable
  rw [leaves_errorSuppress hvariable]
  have hold : left.2.registers next = .int state.reporting := by
    rw [(leaves_registers inner (Nat.lt_add_of_pos_right Nat.two_pos)).2]
    simp [silenced, setRegister]
  change (_ → (if left.1 then host.step left.2 _ else left).2.reporting = _) ↔ _
  cases hcompletes : left.1 with
  | true => simp [step, hold]
  | false =>
    simp only [Bool.false_eq_true, if_false, false_or]
    omega

/-- `@f()` where `f` throws leaves the reporting off. -/
theorem errorSuppress_throwing : let host : LoweredHost Unit Unit _ Unit :=
      ⟨wholeDoubles, fun _ reporting world => (false, .null, reporting, world), fun place locals world =>
        (place, locals, world)⟩
    let state : LoweredState Unit _ Unit :=
      ⟨fun _ => .null, fun _ => .null, fun _ => .null, fun _ => (), 32767, ()⟩
    (host.leaves (.operand ()) 2 (silenced 0 state)).2.reporting = 0 ∧
      (host.leaves (.errorSuppress (.operand ())) 0 state).2.reporting = 0 ∧
      state.reporting = 32767 :=
  ⟨rfl, rfl, rfl⟩

end LoweredHost

/-! ## Increments -/

/-- PHP's successor of a string, from its last character on. `lead` is what a carry puts in front. -/
def successorReversed (lead : UInt8) : PhpString → PhpString
  | [] => [lead]
  | 122 :: rest => 97 :: successorReversed 97 rest
  | 90 :: rest => 65 :: successorReversed 65 rest
  | 57 :: rest => 48 :: successorReversed 49 rest
  | byte :: rest => (if isAsciiAlphanumeric byte then byte + 1 else byte) :: rest

namespace IncDecOperator
variable (floats : RuntimeFloats F) (operator : IncDecOperator)

def number (value : NumericValue F) : Convert.Value F :=
  let (whole, float) := match operator with
    | .increment => ((· + 1 : Int → Int), floats.add)
    | .decrement => ((· - 1), floats.sub)
  match value with
  | .int value =>
    ((checkedI64 (whole value)).map .int).getD (.float (float (floats.ofInt value) (floats.ofInt 1)))
  | .float value => .float (float value (floats.ofInt 1))

/-- The number that a numeric string denotes. -/
def numericValue (text : PhpString) : NumericValue F :=
  if isLong text then .int (integerValue text) else .float (floats.ofDecimal text)

/-- PHP's rule for the value behind all references, as far as it has one. -/
def result : Convert.Value F → Option (Convert.Value F)
  | .null => some (if operator = .increment then .int 1 else .null)
  | .bool value => some (.bool value)
  | .int value => some (operator.number floats (.int value))
  | .float value => some (operator.number floats (.float value))
  | .string [] => none
  | .string bytes => some (match numericText bytes with
    | some text => operator.number floats (numericValue floats text)
    | none =>
      .string (if operator = .increment then (successorReversed 49 bytes.reverse).reverse
        else bytes))
  | _ => none

/-- The rule is the one of numbers, or there is none. The runtime knows no `\v` in front of a number. -/
def Numeric : Convert.Value F → Prop
  | .null => operator = .increment
  | .bool _ => False
  | .string bytes => bytes = [] ∨ (numericText bytes).isSome ∧ 11 ∉ bytes.takeWhile isNumberSpace
  | _ => True

theorem isNumberSpace_iff (byte : UInt8) : isNumberSpace byte = true ↔ isAsciiWhitespace byte = true ∨ byte = 11 := by
  simp only [isNumberSpace, isAsciiWhitespace]
  grind

theorem dropWhile_space (bytes : PhpString) :
    bytes.dropWhile isAsciiWhitespace = if 11 ∈ bytes.takeWhile isNumberSpace then
      11 :: (bytes.dropWhile isAsciiWhitespace).tail else bytes.dropWhile isNumberSpace := by
  induction bytes with
  | nil => rfl
  | cons byte rest ih =>
    have hspace := isNumberSpace_iff byte
    cases hascii : isAsciiWhitespace byte with
    | true =>
      rw [hascii] at hspace
      have hne : ¬11 = byte := by rintro rfl; cases hascii
      simpa [hascii, hspace, hne] using ih
    | false =>
      rw [hascii] at hspace
      by_cases heq : byte = 11
      · subst heq
        simp [hascii, hspace]
      · have hno : isNumberSpace byte = false := by simpa [heq] using hspace
        simp [hascii, hno]

/-- The number in front, whatever follows it. -/
theorem toNumber_string (bytes : PhpString) : (Convert.Value.string bytes).toNumber floats =
    match numericPrefixLen (bytes.dropWhile isAsciiWhitespace) with
    | some length => .ok (numberValue floats.toParsedFloats ((bytes.dropWhile isAsciiWhitespace).take length))
    | none => .error "E_PHP_RUNTIME_NON_NUMERIC_STRING: non-numeric string cannot be used as a number" := by
  rw [Convert.Value.toNumber, Convert.Value.arithmeticNumericString, classify, drop_takeWhile_length]
  cases hlength : numericPrefixLen (bytes.dropWhile isAsciiWhitespace) with
  | none => cases (bytes.dropWhile isAsciiWhitespace).isEmpty <;> rfl
  | some length =>
    obtain ⟨sensitive, hparse⟩ :=
      parseNumericPrefix_eq floats.toParsedFloats (isDecimal_take_numericPrefixLen hlength)
    simp only [isEmpty_of_numericPrefixLen hlength, hparse, Bool.false_eq_true, if_false]
    cases List.all _ isAsciiWhitespace with
    | false => rfl
    | true => cases (numberValue floats.toParsedFloats _).isFloat <;> rfl

theorem toNumber_of_numericText (h : numericText bytes = some text) : (Convert.Value.string bytes).toNumber floats =
    if 11 ∈ bytes.takeWhile isNumberSpace then
      .error "E_PHP_RUNTIME_NON_NUMERIC_STRING: non-numeric string cannot be used as a number"
    else .ok (numericValue floats text) := by
  simp only [numericText, Option.ite_none_right_eq_some, Option.some.injEq] at h
  obtain ⟨hdecimal, htext⟩ := h
  rw [toNumber_string, dropWhile_space]
  by_cases hmem : 11 ∈ bytes.takeWhile isNumberSpace
  · rw [if_pos hmem, if_pos hmem, numericPrefixLen_eq]
    rfl
  · rw [if_neg hmem, if_neg hmem]
    have hsplit : (bytes.dropWhile isNumberSpace).rdropWhile isNumberSpace ++ _ = _ := List.rdropWhile_append_rtakeWhile
    rw [htext] at hsplit hdecimal
    have hspaces : ∀ byte ∈ ((bytes.dropWhile isNumberSpace).rtakeWhile isNumberSpace).head?, isNumberSpace byte = true :=
      fun byte hbyte => List.mem_rtakeWhile_imp (List.mem_of_head? hbyte)
    have hlength := numericPrefixLen_append hspaces hdecimal
    rw [hsplit] at hlength
    rw [hlength, ← hsplit]
    simp only [List.take_left, numberValue, numericValue]
    cases hlong : isLong text with
    | false => simp
    | true =>
      have hinteger : isInteger text = true := by simp [isLong] at hlong; exact hlong.1.1
      rw [looksFloat_of_isInteger hinteger]
      rfl

theorem number_ne (value : NumericValue F) (h : operator.number floats value = new) :
    (∀ value, new ≠ .bool value) ∧ (∀ text, new ≠ .string text) ∧ new ≠ .null := by
  subst h
  cases value with
  | float => cases operator <;> simp [number]
  | int => cases operator <;> simp only [number] <;> cases checkedI64 _ <;> simp

/-- A rule that is not the one of numbers has no number for its result. -/
theorem numeric_iff (old : Convert.Value F) :
    (∀ new ∈ operator.result floats old, ∃ number, old.toNumber floats = .ok number ∧
      operator.number floats number = new) ↔ operator.Numeric old := by
  cases old with
  | null =>
    cases operator with
    | increment => exact iff_of_true (fun new hnew => ⟨_, rfl, by cases hnew; rfl⟩) rfl
    | decrement =>
      refine iff_of_false (fun h => ?_) nofun
      obtain ⟨number, -, hnumber⟩ := h _ rfl
      exact (number_ne _ _ _ hnumber).2.2 rfl
  | bool value =>
    refine iff_of_false (fun h => ?_) id
    obtain ⟨number, -, hnumber⟩ := h _ rfl
    exact (number_ne _ _ _ hnumber).1 _ rfl
  | int | float => exact iff_of_true (fun new hnew => ⟨_, rfl, by cases hnew; rfl⟩) trivial
  | string bytes =>
    cases bytes with
    | nil => exact iff_of_true nofun (.inl rfl)
    | cons byte rest =>
      simp only [result, Numeric]
      cases hnumeric : numericText (byte :: rest) with
      | none =>
        refine iff_of_false (fun h => ?_) (by simp)
        obtain ⟨number, -, hnumber⟩ := h _ rfl
        exact (number_ne _ _ _ hnumber).2.1 _ rfl
      | some text =>
        rw [toNumber_of_numericText floats hnumeric]
        by_cases hmem : 11 ∈ (byte :: rest).takeWhile isNumberSpace
        · rw [if_pos hmem]
          refine iff_of_false (fun h => ?_) (by simp [hmem])
          obtain ⟨number, herror, -⟩ := h _ rfl
          cases herror
        · rw [if_neg hmem]
          exact iff_of_true (fun new hnew => ⟨_, rfl, by cases hnew; rfl⟩) (.inr ⟨rfl, hmem⟩)
  | _ => exact iff_of_true nofun trivial

theorem nativeArithmetic_one (number : NumericValue F) :
    nativeArithmetic floats operator.op number (.int 1) = some (.ok (operator.number floats number)) := by
  cases number with
  | float => cases operator <;> rfl
  | int value =>
    cases operator <;> simp only [op, nativeArithmetic, checkedNumeric, number] <;>
      cases checkedI64 _ <;> rfl

theorem binaryResult_one (old : Convert.Value F) : binaryResult floats operator.op old (.int 1) =
    some ((old.toNumber floats).map (operator.number floats)) := by
  have hunion : arrayUnion old (.int 1) = none := by
    rw [arrayUnion]
    cases old.effectiveValue <;> rfl
  have hbinary : binaryResult floats operator.op old (.int 1) =
      arithmeticResult floats operator.op old (.int 1) := by
    cases operator with
    | increment => simp only [op, binaryResult, hunion]
    | decrement => rfl
  rw [hbinary, arithmeticResult]
  cases old.toNumber floats with
  | error => rfl
  | ok number => exact nativeArithmetic_one ..

end IncDecOperator

theorem toNumber_effectiveValue (floats : RuntimeFloats F) (value : Convert.Value F) :
    value.effectiveValue.toNumber floats = value.toNumber floats := by
  induction value using Convert.Value.effectiveValue.induct with
  | case1 _ value ih => rwa [Convert.Value.effectiveValue, Convert.Value.toNumber]
  | case2 value h => rw [Convert.Value.effectiveValue]; exact h

/-- What a step of the program can observe afterwards. -/
def LoweredState.memory (state : LoweredState P F W) : (LocalId → Convert.Value F) × (P → Convert.Value F) × W :=
  (state.locals, state.places, state.world)

namespace IncDecTarget
variable [DecidableEq P] (host : LoweredHost E P F W) (state : LoweredState P F W)

/-- The value of a target whose receiver and keys are evaluated once. -/
def old : IncDecTarget P → Convert.Value F
  | .local_ id => state.locals id
  | .dims place | .property place => state.places (host.locate place state.locals state.world).1

/-- The memory once the target has its new value. -/
def stored (new : Convert.Value F) :
    IncDecTarget P → (LocalId → Convert.Value F) × (P → Convert.Value F) × W
  | .local_ id => (Function.update state.locals id new, state.places, state.world)
  | .dims place | .property place =>
    let (location, locals, world) := host.locate place state.locals state.world
    (locals, Function.update state.places location new, world)

/-- Evaluating the receiver and the keys again leads to the same place and does nothing else. -/
def Steady : IncDecTarget P → Prop
  | .local_ _ | .property _ => True
  | .dims place =>
    let located := host.locate place state.locals state.world
    host.locate place located.2.1 located.2.2 = located

theorem stored_injective (target : IncDecTarget P) (h : target.stored host state new = target.stored host state new') :
    new = new' := by
  cases target with
  | local_ id => simpa [stored] using congrFun (congrArg Prod.fst h) id
  | dims place | property place =>
    simpa [stored] using congrFun (congrArg (·.2.1) h) (host.locate place state.locals state.world).1

variable (operator : IncDecOperator) (target : IncDecTarget P)

/-- The value read, one and the sum are in registers of their own. -/
theorem run_lowerIncDec (hsteady : target.Steady host state) (isPrefix : Bool) (next : RegId) :
    let after := host.run (lowerIncDecToRegister operator isPrefix target next).2.1 state
    match (target.old host state).toNumber host.floats with
    | .ok number => after.1 = true ∧ after.2.memory = target.stored host state (operator.number host.floats number)
    | .error _ => after.1 = false := by
  cases target <;>
    simp only [lowerIncDecToRegister, List.cons_append, List.nil_append, LoweredHost.run, LoweredHost.step,
      LoweredHost.setRegister, baselineBinary, Function.update_self, ne_eq, left_eq_add, one_ne_zero,
      not_false_eq_true, Function.update_of_ne, operator.binaryResult_one, old, Option.map_some]
  case local_ => cases (state.locals _).toNumber host.floats <;> simp [Except.map, publish, LoweredState.memory, stored]
  case dims place =>
    rw [Steady] at hsteady
    cases (state.places _).toNumber host.floats <;> simp [Except.map, publish, LoweredState.memory, stored, hsteady]
  case property =>
    cases (state.places _).toNumber host.floats <;> simp [Except.map, publish, LoweredState.memory, stored]

/-- `$a[$i++]`, where `$i` is the first local and no key is evaluated as long as it is no integer. -/
def countingHost : LoweredHost Unit Nat (Option (Int × Bool)) Unit :=
  ⟨wholeDoubles, fun _ level world => (true, .null, level, world), fun place locals world =>
    match locals 0 with
    | .int index => (index.toNat, Function.update locals 0 (.int (index + 1)), world)
    | _ => (place, locals, world)⟩

/-- `$a` is `[5, 7]`. -/
def countingState (index : Convert.Value (Option (Int × Bool))) :
    LoweredState Nat (Option (Int × Bool)) Unit :=
  ⟨fun _ => .null, fun _ => index, fun place => if place = 0 then .int 5 else .int 7, fun _ => 0, 0, ()⟩

end IncDecTarget
end Phrust.Ir
