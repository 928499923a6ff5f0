import Phrust.Runtime.ArrayKeys
import Phrust.Verify.NumericPrefix
import Phrust.Verify.NumericStringCache

/-!
# Integer keys are canonical decimals

A string becomes an integer key exactly if it is the text of that integer. So the conversion to keys is
injective on strings, and meets an integer key only with its own text.
-/

namespace Phrust.ArrayKeys
open List

/-! ## Canonical decimals -/

/-- Without the minus sign in front. -/
def unsignedText (bytes : PhpString) : PhpString := if bytes.head? == some 45 then bytes.drop 1 else bytes

/-- An optional minus sign and digits, without a leading zero, and not `-0`. -/
def isCanonicalDecimal (bytes : PhpString) : Bool :=
  unsignedText bytes != [] && (unsignedText bytes).all isAsciiDigit &&
    ((unsignedText bytes).length == 1 || (unsignedText bytes).head? != some 48) && bytes != [45, 48]

theorem integerValue_of_digits (h : digits.all isAsciiDigit = true) : integerValue digits = digitsValue digits := by
  rw [integerValue, splitSign_digits h]
  rfl

theorem integerValue_minus (digits : PhpString) : integerValue (45 :: digits) = -digitsValue digits := rfl

theorem unsignedText_of_digits (h : digits.all isAsciiDigit = true) : unsignedText digits = digits := by
  rw [unsignedText, if_neg]
  intro hhead
  obtain ⟨rest, rfl⟩ := head?_eq_some_iff.mp (beq_iff_eq.mp hhead)
  cases h

theorem integerText_neg {n : Nat} (h : n ≠ 0) : integerText (-(n : Int)) = 45 :: (Nat.toDigits 10 n).map digitByte := by
  obtain ⟨k, rfl⟩ := Nat.exists_eq_succ_of_ne_zero h
  exact integerText_negSucc k

theorem eq_integerText_of_isCanonicalDecimal (h : isCanonicalDecimal bytes = true) :
    bytes = integerText (integerValue bytes) := by
  simp only [isCanonicalDecimal, Bool.and_eq_true, Bool.or_eq_true, bne_iff_ne, beq_iff_eq] at h
  obtain ⟨⟨⟨hne, hall⟩, hleading⟩, hzero⟩ := h
  have hdigits := digits_eq_toDigits hne hall hleading
  by_cases hhead : bytes.head? = some 45
  · obtain ⟨digits, rfl⟩ := head?_eq_some_iff.mp hhead
    change digits = (Nat.toDigits 10 (digitsValue digits)).map digitByte at hdigits
    have hvalue : digitsValue digits ≠ 0 := by
      intro hvalue
      rw [hvalue] at hdigits
      exact hzero (by rw [hdigits]; rfl)
    rw [integerValue_minus, integerText_neg hvalue, ← hdigits]
  · have hunsigned : unsignedText bytes = bytes := if_neg (by simpa using hhead)
    rw [hunsigned] at hall hdigits
    rw [integerValue_of_digits hall, integerText_natCast, ← hdigits]

theorem isCanonicalDecimal_integerText (n : Int) :
    isCanonicalDecimal (integerText n) = true ∧ integerValue (integerText n) = n := by
  have hleading (n : Nat) : ((Nat.toDigits 10 n).map digitByte).length = 1 ∨
      ((Nat.toDigits 10 n).map digitByte).head? ≠ some 48 := by
    rcases Nat.eq_zero_or_pos n with rfl | hpos
    · exact .inl rfl
    · exact .inr (toDigits_head (Nat.ne_of_gt hpos))
  cases n with
  | ofNat n =>
    obtain ⟨hne, hall, hvalue⟩ := decimalDigits n
    rw [show integerText (Int.ofNat n) = _ from integerText_natCast n, integerValue_of_digits hall]
    refine ⟨?_, congrArg Int.ofNat hvalue⟩
    simp only [isCanonicalDecimal, unsignedText_of_digits hall, Bool.and_eq_true, Bool.or_eq_true, bne_iff_ne,
      beq_iff_eq]
    refine ⟨⟨⟨hne, hall⟩, hleading n⟩, fun h => ?_⟩
    rw [h] at hall
    cases hall
  | negSucc n =>
    obtain ⟨hne, hall, hvalue⟩ := decimalDigits (n + 1)
    rw [integerText_negSucc, integerValue_minus]
    refine ⟨?_, congrArg (fun value : Nat => -(value : Int)) hvalue⟩
    simp only [isCanonicalDecimal, Bool.and_eq_true, Bool.or_eq_true, bne_iff_ne, beq_iff_eq]
    refine ⟨⟨⟨hne, hall⟩, hleading (n + 1)⟩, fun h => ?_⟩
    exact toDigits_head (Nat.succ_ne_zero n) (by rw [(List.cons.inj h).2]; rfl)

theorem isCanonicalDecimal_iff : isCanonicalDecimal bytes = true ∧ integerValue bytes = n ↔ bytes = integerText n := by
  constructor
  · rintro ⟨h, rfl⟩
    exact eq_integerText_of_isCanonicalDecimal h
  · rintro rfl
    exact isCanonicalDecimal_integerText n

/-! ## What the classification accepts -/

variable (ops : ParsedFloats F)

theorem isInteger_of_isCanonicalDecimal (h : isCanonicalDecimal bytes = true) : isInteger bytes = true := by
  simp only [isCanonicalDecimal, Bool.and_eq_true] at h
  obtain ⟨⟨⟨hne, hall⟩, -⟩, -⟩ := h
  by_cases hhead : bytes.head? = some 45
  · obtain ⟨digits, rfl⟩ := head?_eq_some_iff.mp hhead
    exact (Bool.and_eq_true _ _).mpr ⟨hne, hall⟩
  have hunsigned : unsignedText bytes = bytes := if_neg (by simpa using hhead)
  rw [hunsigned] at hne hall
  rw [isInteger, splitSign_digits hall]
  exact (Bool.and_eq_true _ _).mpr ⟨hne, hall⟩

/-- The value zero behind a minus sign is `-0`, if no zero leads. -/
theorem minus_zero_iff (hne : unsignedText bytes ≠ []) (hall : (unsignedText bytes).all isAsciiDigit = true)
    (hleading : (unsignedText bytes).length = 1 ∨ (unsignedText bytes).head? ≠ some 48) :
    bytes.head? = some 45 ∧ integerValue bytes = 0 ↔ bytes = [45, 48] := by
  constructor
  · rintro ⟨hhead, hvalue⟩
    obtain ⟨digits, rfl⟩ := head?_eq_some_iff.mp hhead
    have hdigits : digits = (Nat.toDigits 10 (digitsValue digits)).map digitByte :=
      digits_eq_toDigits hne hall hleading
    rw [integerValue_minus, Int.neg_eq_zero, Int.natCast_eq_zero] at hvalue
    rw [hdigits, hvalue]
    rfl
  · rintro rfl
    exact ⟨rfl, rfl⟩

/-- The check of the source looks for a minus sign and the value zero. -/
theorem canonicalIntegerValue_isSome_iff (F : Type) (bytes : PhpString) :
    (canonicalIntegerValue bytes (.int (integerValue bytes) : NumericStringValue F)).isSome ↔
      isCanonicalDecimal bytes = true := by
  have hsource : (canonicalIntegerValue bytes (.int (integerValue bytes) : NumericStringValue F)).isSome ↔
      (bytes.head? ≠ some 43 ∧ unsignedText bytes ≠ [] ∧ (unsignedText bytes).all isAsciiDigit = true) ∧
      ¬(1 < (unsignedText bytes).length ∧ (unsignedText bytes).head? = some 48) ∧
      ¬(bytes.head? = some 45 ∧ integerValue bytes = 0) := by
    simp only [canonicalIntegerValue, unsignedText]
    grind
  have hplus (hall : (unsignedText bytes).all isAsciiDigit = true) : bytes.head? ≠ some 43 := by
    intro hhead
    obtain ⟨digits, rfl⟩ := head?_eq_some_iff.mp hhead
    cases hall
  rw [hsource]
  simp only [isCanonicalDecimal, Bool.and_eq_true, Bool.or_eq_true, bne_iff_ne, beq_iff_eq]
  constructor
  · rintro ⟨⟨-, hne, hall⟩, hfirst, hzero⟩
    have hlength : 0 < (unsignedText bytes).length := length_pos_iff.mpr hne
    have hleading : (unsignedText bytes).length = 1 ∨ (unsignedText bytes).head? ≠ some 48 := by
      by_cases hlong : 1 < (unsignedText bytes).length
      · exact .inr fun hhead => hfirst ⟨hlong, hhead⟩
      · exact .inl (by omega)
    exact ⟨⟨⟨hne, hall⟩, hleading⟩, mt (minus_zero_iff hne hall hleading).mpr hzero⟩
  · rintro ⟨⟨⟨hne, hall⟩, hleading⟩, hzero⟩
    refine ⟨⟨hplus hall, hne, hall⟩, ?_, mt (minus_zero_iff hne hall hleading).mp hzero⟩
    rintro ⟨hlong, hhead⟩
    exact hleading.elim (by omega) (absurd hhead)

/-- A classification as an integer without white space around it is of the whole text. -/
theorem classify_canonical (hkind : (classify ops bytes).canonical = .integer)
    (hvalue : (classify ops bytes).value = some (.int value)) :
    isCanonicalDecimal bytes = true ∧ isLong bytes = true ∧ integerValue bytes = value := by
  rcases classify_cases ops bytes with ⟨-, hnone⟩ | ⟨length, -, hnumber, hcanonical⟩
  · rw [hnone] at hvalue
    cases hvalue
  rw [hcanonical] at hkind
  obtain ⟨-, hkind⟩ := (ite_eq_iff.mp hkind).resolve_right (by simp)
  rw [hvalue, Option.some.injEq] at hnumber
  rw [canonicalKind] at hkind
  split at hkind
  · cases hkind
  · next hwhole =>
    have htext : bytes = (bytes.dropWhile isAsciiWhitespace).take length := by
      simp only [Bool.or_eq_true, not_or, bne_iff_ne, ne_eq, not_not] at hwhole
      exact hwhole.2
    rw [← htext] at hkind hnumber
    rw [← hnumber] at hkind
    rw [numberValue] at hnumber
    split at hnumber
    · next hlong =>
      cases hnumber
      refine ⟨?_, hlong.2, rfl⟩
      rw [← canonicalIntegerValue_isSome_iff F]
      split at hkind
      · assumption
      · split at hkind <;> cases hkind
    · cases hnumber

section
variable (h : isInteger bytes = true)
include h

theorem head_of_isInteger :
    ∃ byte rest, bytes = byte :: rest ∧ (byte = 45 ∨ byte = 43 ∨ isAsciiDigit byte = true) := by
  rcases sign_cases bytes with ⟨rest, rfl⟩ | ⟨rest, rfl⟩ | ⟨-, hsplit⟩
  · exact ⟨45, rest, rfl, .inl rfl⟩
  · exact ⟨43, rest, rfl, .inr (.inl rfl)⟩
  · rw [isInteger, hsplit, Bool.and_eq_true, bne_iff_ne] at h
    obtain ⟨byte, rest, rfl⟩ := exists_cons_of_ne_nil h.1
    exact ⟨byte, rest, rfl, .inr (.inr (all_eq_true.mp h.2 byte mem_cons_self))⟩

theorem whitespace_of_isInteger :
    bytes.takeWhile isAsciiWhitespace = [] ∧ bytes.dropWhile isAsciiWhitespace = bytes := by
  obtain ⟨byte, rest, rfl, hbyte⟩ := head_of_isInteger h
  have hspace : isAsciiWhitespace byte = false := by
    simp only [isAsciiDigit_iff] at hbyte
    simp only [isAsciiWhitespace, Bool.or_eq_false_iff, beq_eq_false_iff_ne, ne_eq, ← UInt8.toNat_inj]
    rcases hbyte with rfl | rfl | hbyte
    · decide
    · decide
    · simp only [UInt8.reduceToNat]
      omega
  simp [hspace]

end

theorem classify_of_isCanonicalDecimal (h : isCanonicalDecimal bytes = true) (hlong : isLong bytes = true) :
    (classify ops bytes).canonical = .integer ∧ (classify ops bytes).value = some (.int (integerValue bytes)) := by
  have hinteger := isInteger_of_isCanonicalDecimal h
  obtain ⟨htake, hdrop⟩ := whitespace_of_isInteger hinteger
  have hlength := numericPrefixLen_of_isInteger hinteger
  have hnumber : numberValue ops bytes = .int (integerValue bytes) := if_pos ⟨looksFloat_of_isInteger hinteger, hlong⟩
  rcases classify_cases ops bytes with ⟨hnone, -⟩ | ⟨length, hsome, hvalue, hcanonical⟩
  · rw [hdrop, hlength] at hnone
    cases hnone
  rw [hdrop, hlength, Option.some.injEq] at hsome
  subst hsome
  rw [hdrop, take_length, hnumber] at hvalue
  refine ⟨?_, hvalue⟩
  rw [hcanonical, hdrop, htake, drop_length, take_length, hnumber]
  simp [canonicalKind, (canonicalIntegerValue_isSome_iff F bytes).mpr h]

theorem startsLikeInteger_of_isCanonicalDecimal (h : isCanonicalDecimal bytes = true) :
    startsLikeInteger bytes = true := by
  obtain ⟨byte, rest, rfl, hbyte⟩ := head_of_isInteger (isInteger_of_isCanonicalDecimal h)
  rcases hbyte with rfl | rfl | hbyte
  · rfl
  · simp only [isCanonicalDecimal, Bool.and_eq_true] at h
    cases h.1.1.2
  · simp [startsLikeInteger, hbyte]

/-- The strings that become integer keys. -/
theorem arrayKeyIntegerBytes_eq_some_iff : arrayKeyIntegerBytes ops bytes = some n ↔
    bytes = integerText n ∧ i64Min ≤ n ∧ n ≤ i64Max := by
  have hlong : isLong bytes = true ↔
      isInteger bytes = true ∧ i64Min ≤ integerValue bytes ∧ integerValue bytes ≤ i64Max := by
    simp [isLong, and_assoc]
  constructor
  · intro h
    rw [arrayKeyIntegerBytes, Option.ite_none_right_eq_some] at h
    obtain ⟨-, h⟩ := h
    split at h
    · next value hkind hvalue =>
      cases h
      obtain ⟨hcanonical, hrange, rfl⟩ := classify_canonical ops hkind hvalue
      exact ⟨isCanonicalDecimal_iff.mp ⟨hcanonical, rfl⟩, (hlong.mp hrange).2⟩
    · cases h
  · rintro ⟨htext, hrange⟩
    obtain ⟨hcanonical, rfl⟩ := isCanonicalDecimal_iff.mpr htext
    obtain ⟨hkind, hvalue⟩ := classify_of_isCanonicalDecimal ops hcanonical
      (hlong.mpr ⟨isInteger_of_isCanonicalDecimal hcanonical, hrange⟩)
    rw [arrayKeyIntegerBytes, if_pos (startsLikeInteger_of_isCanonicalDecimal hcanonical), hkind, hvalue]

/-! ## Keys -/

section
variable (heap : StringHeap) (stats : NumericStringCacheStats) (enabled : Bool)
include heap

/-- A thread with an empty cache. -/
def freshMachine : StringMachine F :=
  ⟨heap, ⟨[], stats, enabled⟩⟩

theorem classifyPhpString_fresh (value : StoredString) :
    ((freshMachine heap stats enabled).classifyPhpString ops value).1 = classify ops value.bytes := by
  rcases ClassificationCache.classifyPhpString_cases ops ⟨[], stats, enabled⟩ value with
    ⟨classified, after, -, hget, -⟩ | ⟨-, after, full, hcall, -⟩
  · cases hget
  · rw [StringMachine.classifyPhpString, freshMachine, hcall]

theorem classifyArrayKey_fresh (value : StoredString) :
    ((freshMachine heap stats enabled).classifyArrayKey ops value).1 =
      (arrayKeyIntegerBytes ops value.bytes).elim .string .integer := by
  rw [StringMachine.classifyArrayKey, arrayKeyIntegerBytes]
  split
  · rw [← classifyPhpString_fresh ops heap stats enabled value]
    change NumericString.arrayKey _ = _
    generalize ((freshMachine heap stats enabled).classifyPhpString ops value).1 = classified
    obtain ⟨kind, value, canonical, sensitive⟩ := classified
    cases canonical with
    | integer => rcases value with - | (- | -) <;> rfl
    | none | float => rfl
  · rfl

theorem fromPhpString_fresh (value : StoredString) :
    fromPhpString ops (freshMachine heap stats enabled) value =
      (arrayKeyIntegerBytes ops value.bytes).elim (.string value.bytes) .int := by
  rw [fromPhpString, classifyArrayKey_fresh]
  cases arrayKeyIntegerBytes ops value.bytes <;> rfl

end

/-- The bytes come back from their key. -/
theorem arrayKey_injective (h : (arrayKeyIntegerBytes ops bytes).elim (.string bytes) ArrayKey.int =
    (arrayKeyIntegerBytes ops other).elim (.string other) .int) : bytes = other := by
  cases hbytes : arrayKeyIntegerBytes ops bytes with
  | none =>
    cases hother : arrayKeyIntegerBytes ops other with
    | none =>
      rw [hbytes, hother] at h
      exact ArrayKey.string.inj h
    | some n =>
      rw [hbytes, hother] at h
      cases h
  | some n =>
    cases hother : arrayKeyIntegerBytes ops other with
    | none =>
      rw [hbytes, hother] at h
      cases h
    | some m =>
      rw [hbytes, hother] at h
      cases h
      rw [((arrayKeyIntegerBytes_eq_some_iff ops).mp hbytes).1, ((arrayKeyIntegerBytes_eq_some_iff ops).mp hother).1]

/-- Integer keys are the canonical decimals of the 64-bit range, with and without the cache, and different
strings have different keys. -/
theorem arrayKeys_canonical (bytes : PhpString) :
    (∀ n, arrayKeyIntegerBytes ops bytes = some n ↔ bytes = integerText n ∧ i64Min ≤ n ∧ n ≤ i64Max) ∧
    ((∃ n, bytes = integerText n) ↔ isCanonicalDecimal bytes = true) ∧ ∀ heap stats enabled storageId,
      ((freshMachine heap stats enabled).classifyArrayKey ops ⟨storageId, bytes⟩).1 =
        (arrayKeyIntegerBytes ops bytes).elim .string .integer ∧
      (∀ n, fromPhpString ops (freshMachine heap stats enabled) ⟨storageId, bytes⟩ = .int n ↔
        bytes = integerText n ∧ i64Min ≤ n ∧ n ≤ i64Max) ∧ ∀ heap' stats' enabled' storageId' other,
        fromPhpString ops (freshMachine heap stats enabled) ⟨storageId, bytes⟩ =
          fromPhpString ops (freshMachine heap' stats' enabled') ⟨storageId', other⟩ → bytes = other := by
  refine ⟨fun n => arrayKeyIntegerBytes_eq_some_iff ops, ?_, fun heap stats enabled storageId => ?_⟩
  · constructor
    · rintro ⟨n, rfl⟩
      exact (isCanonicalDecimal_integerText n).1
    · exact fun h => ⟨_, eq_integerText_of_isCanonicalDecimal h⟩
  · refine ⟨classifyArrayKey_fresh ops _ _ _ _, fun n => ?_, fun heap' stats' enabled' storageId' other h => ?_⟩
    · rw [fromPhpString_fresh, ← arrayKeyIntegerBytes_eq_some_iff ops]
      cases arrayKeyIntegerBytes ops bytes <;> simp
    · rw [fromPhpString_fresh, fromPhpString_fresh] at h
      exact arrayKey_injective ops h

end Phrust.ArrayKeys
