import Phrust.Ir.ConstantExpressions
import Phrust.Runtime.NativeOps
import Phrust.Verify.Doubles

/-!
# Binary operations on integers

Which operations panic, when `%` is the remainder of its operands although they travel through doubles,
and when a shift by any count is the mathematical one.
-/

namespace Phrust.NativeOps
open Phrust.Convert Option
variable (floats : RuntimeFloats F)

/-! ## Panics -/

theorem nativeDivision_eq_none_iff :
    nativeDivision floats lhs rhs = none ↔ lhs = .int i64Min ∧ rhs = .int (-1) := by
  cases lhs with
  | float left => cases rhs <;> simp only [nativeDivision] <;> split <;> simp
  | int left =>
    cases rhs with
    | float right =>
      simp only [nativeDivision]
      split <;> simp
    | int right =>
      simp only [nativeDivision, asF64, floats.nonzero_ofInt, decide_eq_true_eq, NumericStringValue.int.injEq]
      split
      · next hne =>
        -- the remainder is taken before it is known whether the quotient fits
        by_cases hcorner : left = i64Min ∧ right = -1
        · simp [remI64, hcorner]
        have hrem : remI64 left right = some (left.tmod right) := if_neg (by omega)
        have hdiv : divI64 left right = some (left.tdiv right) := if_neg (by omega)
        simp only [hrem, hdiv, bind_eq_bind, bind_some, map_some, hcorner, iff_false]
        split <;> simp
      · next hzero =>
        simp only [reduceCtorEq, false_iff]
        omega

theorem nativeArithmetic_eq_none_iff :
    nativeArithmetic floats op lhs rhs = none ↔ op = .div ∧ lhs = .int i64Min ∧ rhs = .int (-1) := by
  cases op <;> simp [nativeArithmetic, nativeDivision_eq_none_iff]

theorem arithmeticResult_eq_none_iff : arithmeticResult floats op lhs rhs = none ↔
    op = .div ∧ lhs.toNumber floats = .ok (.int i64Min) ∧ rhs.toNumber floats = .ok (.int (-1)) := by
  rw [arithmeticResult]
  cases lhs.toNumber floats with
  | error => simp
  | ok left =>
    cases rhs.toNumber floats with
    | error => simp
    | ok right => simp [nativeArithmetic_eq_none_iff]

theorem binaryResult_eq_none_iff : binaryResult floats op lhs rhs = none ↔
    op = .div ∧ lhs.toNumber floats = .ok (.int i64Min) ∧ rhs.toNumber floats = .ok (.int (-1)) := by
  cases op
  case add =>
    rw [binaryResult]
    split <;> simp [arithmeticResult_eq_none_iff]
  all_goals simp [binaryResult, arithmeticResult_eq_none_iff]

/-- The operation ends with a status, and an error leaves the slot of the caller as it was. -/
def Completes (context : NativeOperationContext) (op : NativeBinaryOp) (lhs rhs out : Convert.Value F) : Prop :=
  ∃ status context' out', baselineBinary floats context op lhs rhs out = some (status, context', out') ∧
    (status = .runtimeError → out' = out)

theorem publish_error (h : (publish context result out).1 = .runtimeError) : (publish context result out).2.2 = out := by
  cases result with
  | ok => cases h
  | error => rfl

theorem completes_iff : Completes floats context op lhs rhs out ↔ binaryResult floats op lhs rhs ≠ none := by
  rw [Completes, baselineBinary]
  constructor
  · rintro ⟨status, context', out', h, -⟩ hnone
    rw [hnone] at h
    cases h
  · intro h
    obtain ⟨result, hresult⟩ := ne_none_iff_exists'.mp h
    exact ⟨_, _, _, by rw [hresult, map_some], publish_error⟩

/-- Only the division of the least integer by minus one does not end. -/
theorem baselineBinary_completes_iff (context : NativeOperationContext) (op : NativeBinaryOp) (lhs rhs out : Convert.Value F) :
    (Completes floats context op lhs rhs out ↔
      ¬(op = .div ∧ lhs.toNumber floats = .ok (.int i64Min) ∧ rhs.toNumber floats = .ok (.int (-1)))) ∧
    ∀ left right, ((nativeArithmetic floats op (.int left) (.int right)).isSome ↔
      ¬(op = .div ∧ left = i64Min ∧ right = -1)) := by
  refine ⟨?_, fun left right => ?_⟩
  · rw [completes_iff, ne_eq, binaryResult_eq_none_iff]
  · rw [isSome_iff_ne_none, ne_eq, nativeArithmetic_eq_none_iff]
    simp

theorem division_leastByMinusOne : nativeArithmetic wholeDoubles .div (.int i64Min) (.int (-1)) = none ∧
      baselineBinary wholeDoubles {} .div (.int i64Min) (.int (-1)) .uninitialized = none ∧
      ¬Completes wholeDoubles {} .div (.int i64Min) (.int (-1)) .uninitialized := by
  have h : nativeArithmetic wholeDoubles .div (.int i64Min) (.int (-1)) = none := by
    rw [nativeArithmetic_eq_none_iff]
    exact ⟨rfl, rfl, rfl⟩
  refine ⟨h, congrArg (Option.map _) h, ?_⟩
  rw [completes_iff]
  exact not_not_intro h

/-! ## Remainders -/

/-- The operation writes the integer to the slot. -/
def Yields (context : NativeOperationContext) (op : NativeBinaryOp) (lhs rhs out : Convert.Value F) (value : Int) : Prop :=
  ∃ context', baselineBinary floats context op lhs rhs out = some (.ok, context', .int value)

theorem yields_iff (h : binaryResult floats op lhs rhs = some (.ok (.int result))) :
    Yields floats context op lhs rhs out value ↔ result = value := by
  rw [Yields, baselineBinary, h]
  constructor
  · rintro ⟨context', h⟩
    cases h
    rfl
  · rintro rfl
    exact ⟨_, rfl⟩

theorem remI64_getD (h : rhs ≠ 0) : (remI64 lhs rhs).getD 0 = lhs.tmod rhs := by
  rw [remI64]
  split
  · next hcorner =>
    obtain ⟨rfl, rfl⟩ := hcorner.resolve_left h
    rfl
  · rfl

theorem binaryResult_mod (h : right ≠ 0) : binaryResult floats .mod (.int left) (.int right) =
    some (.ok (.int ((throughDouble left).tmod (throughDouble right)))) := by
  have hne : throughDouble right ≠ 0 := mt throughDouble_eq_zero_iff.mp h
  simp only [binaryResult, arithmeticResult, Convert.Value.toNumber, nativeArithmetic, nativeModulo, asF64,
    floats.truncate_ofInt, hne, if_false, remI64_getD hne]

/-- The remainder is the one of the operands if the rounding errors of the operands cancel out modulo the
rounded divisor, which is larger than the remainder. -/
theorem modulo_exact_iff (context : NativeOperationContext) (out : Convert.Value F) {a b : Int} (hb : b ≠ 0) :
    Yields floats context .mod (.int a) (.int b) out (a.tmod b) ↔
      throughDouble b ∣ a.tdiv b * (b - throughDouble b) - (a - throughDouble a) ∧
        (a.tmod b).natAbs < (throughDouble b).natAbs := by
  have hne : throughDouble b ≠ 0 := mt throughDouble_eq_zero_iff.mp hb
  have hsign : 0 ≤ throughDouble a ∧ 0 ≤ a.tmod b ∨ throughDouble a ≤ 0 ∧ a.tmod b ≤ 0 := by
    rcases Int.le_total 0 a with h | h
    · exact .inl ⟨throughDouble_nonneg h, Int.tmod_nonneg b h⟩
    · have hneg := Int.tmod_nonneg b (Int.neg_nonneg.mpr h)
      rw [Int.neg_tmod] at hneg
      exact .inr ⟨throughDouble_nonpos h, by omega⟩
  have herrors : throughDouble a - a.tmod b =
      a.tdiv b * (b - throughDouble b) - (a - throughDouble a) + throughDouble b * a.tdiv b := by
    have hsplit := Int.mul_tdiv_add_tmod a b
    rw [Int.mul_sub, Int.mul_comm (a.tdiv b) b, Int.mul_comm (a.tdiv b)]
    omega
  rw [yields_iff floats (binaryResult_mod floats hb), tmod_eq_iff hne hsign, herrors,
    Int.dvd_add_left (Int.dvd_mul_right _ _)]

/-- `7 % 3`: doubles hold small operands. -/
theorem modulo_sevenByThree : (3 : Int) ≠ 0 ∧ Yields wholeDoubles {} .mod (.int 7) (.int 3) .uninitialized 1 := by
  refine ⟨by decide, (modulo_exact_iff wholeDoubles {} .uninitialized (by decide)).mpr ?_⟩
  rw [throughDouble_of_natAbs_lt (by decide), throughDouble_of_natAbs_lt (by decide)]
  decide

/-- `(2 ** 53 + 1) % 2` is zero: the dividend is rounded to the even neighbour. -/
theorem modulo_beyondPrecision : (9007199254740993 : Int).tmod 2 = 1 ∧
      ¬Yields wholeDoubles {} .mod (.int 9007199254740993) (.int 2) .uninitialized 1 ∧
      Yields wholeDoubles {} .mod (.int 9007199254740993) (.int 2) .uninitialized 0 := by
  have hresult : binaryResult wholeDoubles .mod (.int 9007199254740993) (.int 2) = some (.ok (.int 0)) :=
    binaryResult_mod wholeDoubles (by decide)
  rw [yields_iff wholeDoubles hresult, yields_iff wholeDoubles hresult]
  decide

/-! ## Shifts -/

theorem asU32_mod (h : 0 ≤ count) : asU32 count % 64 = count.toNat % 64 := by
  rw [asU32]
  omega

theorem wrapI64_eq_zero_iff : wrapI64 value = 0 ↔ 2 ^ 64 ∣ value :=
  Int.dvd_iff_bmod_eq_zero.symm

/-- A shift by the width or more leaves nothing of the integer. -/
theorem wrapI64_mul_two_pow (value : Int) (h : 64 ≤ count) : wrapI64 (value * 2 ^ count) = 0 :=
  wrapI64_eq_zero_iff.mpr (Int.dvd_trans (pow_dvd_pow 2 h) (Int.dvd_mul_left _ _))

theorem wrappingShl_eq_iff : wrappingShl value count = wrapI64 (value * 2 ^ count) ↔
    count < 64 ∨ 2 ^ (64 - count % 64) ∣ value := by
  rcases Nat.lt_or_ge count 64 with hlt | hge
  · simp [wrappingShl, Nat.mod_eq_of_lt hlt, hlt]
  have hsplit : (2 ^ 64 : Int) = 2 ^ (64 - count % 64) * 2 ^ (count % 64) := by
    rw [← Int.pow_add]
    congr 1
    omega
  rw [wrapI64_mul_two_pow value hge, wrappingShl, wrapI64_eq_zero_iff, hsplit,
    Int.mul_dvd_mul_iff_right (Int.pow_ne_zero (by decide))]
  exact ⟨.inr, fun h => h.resolve_left (by omega)⟩

/-- A shift by the width or more leaves the sign of the integer. -/
theorem ediv_two_pow_eq_iff (hlow : i64Min ≤ value) (hhigh : value ≤ i64Max) (h : 64 ≤ count) :
    value / 2 ^ bits = value / 2 ^ count ↔ -2 ^ bits ≤ value ∧ value < 2 ^ bits := by
  have hbits : (0 : Int) < 2 ^ bits := Int.pow_pos (by decide)
  have hcount : (2 ^ 64 : Int) ≤ 2 ^ count := Int.le_of_dvd (Int.pow_pos (by decide)) (pow_dvd_pow 2 h)
  simp only [i64Min, i64Max] at hlow hhigh
  rcases lt_or_ge value 0 with hneg | hnonneg
  · have hsign : value / 2 ^ count = -1 := Int.ediv_eq_neg_one_of_neg_of_le hneg (by omega)
    rw [hsign, Int.ediv_eq_iff_of_pos hbits]
    omega
  · have hsign : value / 2 ^ count = 0 := Int.ediv_eq_zero_of_lt hnonneg (by omega)
    rw [hsign, Int.ediv_eq_iff_of_pos hbits]
    omega

theorem wrappingShr_eq_iff (hlow : i64Min ≤ value) (hhigh : value ≤ i64Max) :
    wrappingShr value count = value / 2 ^ count ↔
      count < 64 ∨ -2 ^ (count % 64) ≤ value ∧ value < 2 ^ (count % 64) := by
  rcases Nat.lt_or_ge count 64 with hlt | hge
  · simp [wrappingShr, Nat.mod_eq_of_lt hlt, hlt]
  · rw [wrappingShr, ediv_two_pow_eq_iff hlow hhigh hge]
    exact ⟨.inr, fun h => h.resolve_left (by omega)⟩

theorem binaryResult_shiftLeft (h : 0 ≤ count) : binaryResult floats .shiftLeft (.int value) (.int count) =
    some (.ok (.int (wrappingShl value count.toNat))) := by
  have hresult : binaryResult floats .shiftLeft (.int value) (.int count) =
    some (bitwiseIntegers .shiftLeft value count) := rfl
  rw [hresult, bitwiseIntegers, if_neg (Int.not_lt.mpr h), wrappingShl, wrappingShl, asU32_mod h]

theorem binaryResult_shiftRight (h : 0 ≤ count) : binaryResult floats .shiftRight (.int value) (.int count) =
    some (.ok (.int (wrappingShr value count.toNat))) := by
  have hresult : binaryResult floats .shiftRight (.int value) (.int count) =
    some (bitwiseIntegers .shiftRight value count) := rfl
  rw [hresult, bitwiseIntegers, if_neg (Int.not_lt.mpr h), wrappingShr, wrappingShr, asU32_mod h]

open Ir in
/-- The lowering folds a shift by less than the width only, and then as it is at run time. -/
theorem binaryIrConstant_shiftLeft (h : binaryIrConstant "<<" (.int value) (.int count) = some folded) :
    0 ≤ count ∧ folded = .int (wrappingShl value count.toNat) := by
  have hfold : ((u32TryFrom count).bind (checkedShl value)).map IrConstant.int = some folded := h
  simp only [map_eq_some_iff, bind_eq_some_iff, u32TryFrom, checkedShl,
    ite_none_right_eq_some, Option.some.injEq] at hfold
  obtain ⟨_, ⟨_, ⟨⟨hnonneg, -⟩, rfl⟩, hlt, rfl⟩, rfl⟩ := hfold
  exact ⟨hnonneg, by rw [wrappingShl, Nat.mod_eq_of_lt hlt]⟩

open Ir in
theorem binaryIrConstant_shiftRight (h : binaryIrConstant ">>" (.int value) (.int count) = some folded) :
    0 ≤ count ∧ folded = .int (wrappingShr value count.toNat) := by
  have hfold : ((u32TryFrom count).bind (checkedShr value)).map IrConstant.int = some folded := h
  simp only [map_eq_some_iff, bind_eq_some_iff, u32TryFrom, checkedShr,
    ite_none_right_eq_some, Option.some.injEq] at hfold
  obtain ⟨_, ⟨_, ⟨⟨hnonneg, -⟩, rfl⟩, hlt, rfl⟩, rfl⟩ := hfold
  exact ⟨hnonneg, by rw [wrappingShr, Nat.mod_eq_of_lt hlt]⟩

/-- Below the width the shifts are the mathematical ones. From the width on a left shift is if it shifts out
only zeros, and a right shift if it shifts out all digits. What the lowering folds is what happens at run time. -/
theorem shifts_exact_iff (context : NativeOperationContext) (out : Convert.Value F) {x n : Int} (hlow : i64Min ≤ x)
    (hhigh : x ≤ i64Max) (hn : 0 ≤ n) :
    (Yields floats context .shiftLeft (.int x) (.int n) out (wrapI64 (x * 2 ^ n.toNat)) ↔
      n < 64 ∨ 2 ^ (64 - n.toNat % 64) ∣ x) ∧
    (Yields floats context .shiftRight (.int x) (.int n) out (x / 2 ^ n.toNat) ↔
      n < 64 ∨ -2 ^ (n.toNat % 64) ≤ x ∧ x < 2 ^ (n.toNat % 64)) ∧
    (∀ folded, Ir.binaryIrConstant "<<" (.int x) (.int n) = some folded →
      ∃ value, folded = .int value ∧ Yields floats context .shiftLeft (.int x) (.int n) out value) ∧
    ∀ folded, Ir.binaryIrConstant ">>" (.int x) (.int n) = some folded →
      ∃ value, folded = .int value ∧ Yields floats context .shiftRight (.int x) (.int n) out value := by
  have hwidth : n < 64 ↔ n.toNat < 64 := by omega
  refine ⟨?_, ?_, fun folded hfold => ?_, fun folded hfold => ?_⟩
  · rw [yields_iff floats (binaryResult_shiftLeft floats hn), wrappingShl_eq_iff, hwidth]
  · rw [yields_iff floats (binaryResult_shiftRight floats hn), wrappingShr_eq_iff hlow hhigh, hwidth]
  · exact ⟨_, (binaryIrConstant_shiftLeft hfold).2, (yields_iff floats (binaryResult_shiftLeft floats hn)).mpr rfl⟩
  · exact ⟨_, (binaryIrConstant_shiftRight hfold).2, (yields_iff floats (binaryResult_shiftRight floats hn)).mpr rfl⟩

/-- `1 << 65` and `-8 >> 65` -/
theorem shifts_sixtyFive : Yields wholeDoubles {} .shiftLeft (.int 1) (.int 65) .uninitialized 2 ∧
      ¬Yields wholeDoubles {} .shiftLeft (.int 1) (.int 65) .uninitialized (wrapI64 (1 * 2 ^ 65)) ∧
      Yields wholeDoubles {} .shiftRight (.int (-8)) (.int 65) .uninitialized (-4) ∧
      ¬Yields wholeDoubles {} .shiftRight (.int (-8)) (.int 65) .uninitialized (-8 / 2 ^ 65) := by
  rw [yields_iff _ (binaryResult_shiftLeft _ (by decide)), yields_iff _ (binaryResult_shiftLeft _ (by decide)),
    yields_iff _ (binaryResult_shiftRight _ (by decide)), yields_iff _ (binaryResult_shiftRight _ (by decide))]
  decide

/-- `-8 >> 1`, at run time and folded -/
theorem shifts_one : Yields wholeDoubles {} .shiftRight (.int (-8)) (.int 1) .uninitialized (-4) ∧
      Ir.binaryIrConstant ">>" (.int (-8)) (.int 1) = some (.int (-4)) :=
  have h := shifts_exact_iff wholeDoubles {} .uninitialized (x := -8) (n := 1) (by decide) (by decide) (by decide)
  ⟨h.2.1.mpr (.inl (by decide)), rfl⟩

end Phrust.NativeOps
