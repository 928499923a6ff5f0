import Phrust.Runtime.Comparison

/-!
# Decimal text

The text of an integer is an optional minus sign and its digits, without a leading zero, and reading it
gives the integer back.
-/

namespace Phrust
open List Nat

def digitByte (char : Char) : UInt8 := char.val.toUInt8

theorem isDigit_range {char : Char} (h : char.isDigit = true) : 48 ≤ char.toNat ∧ char.toNat ≤ 57 := by
  simp only [Char.isDigit, Bool.and_eq_true, decide_eq_true_eq, ge_iff_le, UInt32.le_iff_toNat_le] at h
  exact h

theorem toNat_digitByte {char : Char} (h : char.isDigit = true) : (digitByte char).toNat = char.toNat := by
  have hrange := isDigit_range h
  show char.val.toNat % 256 = char.val.toNat
  exact mod_eq_of_lt (lt_of_le_of_lt hrange.2 (by decide))

theorem toUTF8_ofList {chars : List Char} (h : ∀ char ∈ chars, char.isDigit = true) :
    (String.ofList chars).toUTF8.data.toList = chars.map digitByte := by
  have hencode : chars.flatMap String.utf8EncodeChar = chars.map digitByte := by
    induction chars with
    | nil => rfl
    | cons char chars ih =>
      have hsize : char.utf8Size = 1 := by
        rw [Char.utf8Size_eq_one_iff, UInt32.le_iff_toNat_le]
        exact le_trans (isDigit_range (h char mem_cons_self)).2 (by decide)
      rw [flatMap_cons, String.utf8EncodeChar_eq_singleton hsize, map_cons,
        ih fun c hc => h c (mem_cons_of_mem _ hc)]
      rfl
  rw [String.toUTF8, String.toByteArray_ofList, List.utf8Encode, data_toByteArray, hencode]

theorem digits_isDigit (n : Nat) : ∀ char ∈ Nat.toDigits 10 n, char.isDigit = true :=
  fun _ hchar => isDigit_of_mem_toDigits (by decide) (by decide) hchar

theorem integerText_natCast (n : Nat) : integerText n = (Nat.toDigits 10 n).map digitByte :=
  toUTF8_ofList (digits_isDigit n)

theorem integerText_negSucc (n : Nat) :
    integerText (Int.negSucc n) = 45 :: (Nat.toDigits 10 (n + 1)).map digitByte := by
  have happend : ("-" ++ (n + 1).repr).toUTF8.data.toList = "-".toUTF8.data.toList ++ (n + 1).repr.toUTF8.data.toList := by
    simp
  refine happend.trans ?_
  rw [show (n + 1).repr.toUTF8.data.toList = _ from toUTF8_ofList (digits_isDigit (n + 1))]
  rfl

/-- The digits of a number: not empty, all digits, and their value. -/
theorem decimalDigits (n : Nat) : (Nat.toDigits 10 n).map digitByte ≠ [] ∧
    ((Nat.toDigits 10 n).map digitByte).all isAsciiDigit = true ∧
    ((Nat.toDigits 10 n).map digitByte).foldl
      (fun (value : Nat) (digit : UInt8) => value * 10 + (digit.toNat - 48)) 0 = n := by
  have hdigits := digits_isDigit n
  refine ⟨by simp [toDigits_ne_nil], ?_, ?_⟩
  · rw [all_map, all_eq_true]
    intro char hchar
    have hrange := isDigit_range (hdigits char hchar)
    rw [← toNat_digitByte (hdigits char hchar)] at hrange
    simpa [isAsciiDigit, UInt8.le_iff_toNat_le] using hrange
  · refine Eq.trans ?_ (ofDigitChars_toDigits (by decide : 1 < 10) (by decide))
    rw [foldl_map, Nat.ofDigitChars]
    refine foldl_ext _ _ _ fun value char hchar => ?_
    rw [toNat_digitByte (hdigits char hchar), Nat.mul_comm]
    rfl

theorem not_mem_of_all_digit {text : PhpString} (h : text.all isAsciiDigit = true) (hbyte : 57 < byte) :
    byte ∉ text := by
  intro hmem
  have hdigit := all_eq_true.mp h byte hmem
  simp only [isAsciiDigit, Bool.and_eq_true, decide_eq_true_eq] at hdigit
  exact absurd hdigit.2 (UInt8.not_le.mpr hbyte)

theorem splitSign_digits (h : text.all isAsciiDigit = true) : splitSign text = (false, text) := by
  rw [splitSign.eq_def]
  split
  · cases h
  · cases h
  · rfl

/-- The sign and the digits of a text determine the integer that is read. -/
theorem parseI64_of_split {digits : PhpString} (hsplit : splitSign text = (negative, digits)) (hne : digits ≠ [])
    (hall : digits.all isAsciiDigit = true)
    (hvalue : digits.foldl (fun (n : Nat) (digit : UInt8) => n * 10 + (digit.toNat - 48)) 0 = n)
    (h : i64Min ≤ (if negative then -(n : Int) else n) ∧ (if negative then -(n : Int) else n) ≤ i64Max) :
    parseI64 text = some (if negative then -(n : Int) else n) := by
  have hinteger : integerValue text = if negative then -(n : Int) else n := by
    rw [integerValue, hsplit]
    simp [hvalue]
  have hlong : isLong text = true := by
    rw [isLong, isInteger, hinteger, hsplit]
    simp only [hall, Bool.and_true, Bool.and_eq_true, bne_iff_ne, decide_eq_true_eq]
    exact ⟨⟨hne, h.1⟩, h.2⟩
  rw [parseI64, if_pos hlong, hinteger]

theorem parseI64_integerText (h : i64Min ≤ value ∧ value ≤ i64Max) :
    parseI64 (integerText value) = some value := by
  cases value with
  | ofNat n =>
    obtain ⟨hne, hall, hvalue⟩ := decimalDigits n
    rw [show integerText (Int.ofNat n) = _ from integerText_natCast n]
    exact parseI64_of_split (splitSign_digits hall) hne hall hvalue h
  | negSucc n =>
    obtain ⟨hne, hall, hvalue⟩ := decimalDigits (n + 1)
    have hsplit : splitSign (integerText (Int.negSucc n)) =
        (true, (Nat.toDigits 10 (n + 1)).map digitByte) := by
      rw [integerText_negSucc]
      rfl
    exact parseI64_of_split hsplit hne hall hvalue h

/-! ## Digits without a leading zero -/

/-- The number that digits denote. -/
def digitsValue (digits : PhpString) : Nat :=
  digits.foldl (fun (n : Nat) (digit : UInt8) => n * 10 + (digit.toNat - 48)) 0

theorem digitsValue_concat (digits : PhpString) (digit : UInt8) :
    digitsValue (digits ++ [digit]) = digitsValue digits * 10 + (digit.toNat - 48) := by
  rw [digitsValue, foldl_append]
  rfl

theorem isAsciiDigit_iff : isAsciiDigit byte = true ↔ 48 ≤ byte.toNat ∧ byte.toNat ≤ 57 := by
  simp [isAsciiDigit, UInt8.le_iff_toNat_le]

theorem digitByte_digitChar (h : isAsciiDigit byte = true) :
    digitByte (Nat.digitChar (byte.toNat - 48)) = byte := by
  rw [isAsciiDigit_iff] at h
  have hlt : byte.toNat - 48 < 10 := by omega
  have hdigit : (Nat.digitChar (byte.toNat - 48)).isDigit = true := by simpa using hlt
  rw [← UInt8.toNat_inj, toNat_digitByte hdigit, toNat_digitChar_of_lt_ten hlt]
  omega

/-- Digits without a leading zero are the digits of their value. -/
theorem digits_eq_toDigits {digits : PhpString} (hne : digits ≠ []) (hall : digits.all isAsciiDigit = true)
    (hzero : digits.length = 1 ∨ digits.head? ≠ some 48) :
    digits = (Nat.toDigits 10 (digitsValue digits)).map digitByte := by
  induction digits using List.reverseRecOn with
  | nil => exact absurd rfl hne
  | append_singleton front digit ih =>
    rw [all_append, Bool.and_eq_true] at hall
    have hdigit : isAsciiDigit digit = true := by simpa using hall.2
    have hlt : digit.toNat - 48 < 10 := by
      rw [isAsciiDigit_iff] at hdigit
      omega
    rw [digitsValue_concat]
    rcases eq_nil_or_concat front with rfl | hfront
    · rw [toDigits_of_lt_base (by simpa [digitsValue] using hlt)]
      simp [digitsValue, digitByte_digitChar hdigit]
    have hfront : front ≠ [] := by
      rintro rfl
      simp at hfront
    have hhead : front.head? ≠ some 48 := by
      have hlong : (front ++ [digit]).length ≠ 1 := by simpa using hfront
      simpa [head?_append_of_ne_nil _ hfront] using hzero.resolve_left hlong
    have hdigits := ih hfront hall.1 (.inr hhead)
    have hpos : digitsValue front ≠ 0 := by
      intro hvalue
      rw [hvalue] at hdigits
      exact hhead (by rw [hdigits]; rfl)
    have hdiv : (digitsValue front * 10 + (digit.toNat - 48)) / 10 = digitsValue front := by omega
    have hmod : (digitsValue front * 10 + (digit.toNat - 48)) % 10 = digit.toNat - 48 := by omega
    rw [toDigits_of_base_le (by decide) (by omega), hdiv, hmod, map_append, ← hdigits, map_singleton,
      digitByte_digitChar hdigit]

/-- The digits of a positive number have no leading zero. -/
theorem toDigits_head (h : n ≠ 0) : ((Nat.toDigits 10 n).map digitByte).head? ≠ some 48 := by
  induction n using Nat.strongRecOn with
  | _ n ih =>
    rcases lt_or_ge n 10 with hlt | hge
    · intro hhead
      have hbyte : digitByte n.digitChar = 48 := by simpa [toDigits_of_lt_base hlt] using hhead
      have hvalue : (digitByte n.digitChar).toNat = n.digitChar.toNat := toNat_digitByte (by simpa using hlt)
      rw [hbyte, toNat_digitChar_of_lt_ten hlt] at hvalue
      exact h (by simpa using hvalue)
    · rw [toDigits_of_base_le (by decide) hge, map_append,
        head?_append_of_ne_nil _ (by simp [toDigits_ne_nil])]
      exact ih (n / 10) (by omega) (by omega)

end Phrust
