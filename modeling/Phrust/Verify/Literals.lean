import Phrust.Ir.Literals
import Phrust.Verify.ArrayKeys
import Phrust.Verify.ConstantCasts

/-!
# Integer literals

The integer literals of the lexical grammar, with their value in their own base, and the constant that
`literal_constant` makes of them. A literal behind `0o` has none, a hexadecimal or binary literal that
does not fit has none, and an octal literal that does not fit is read as a decimal number.
-/

namespace Phrust.Ir
open List Option

/-! ## Grammar -/

/-- The forms of an integer literal, with the case of the letter in front. -/
inductive LiteralForm where
  | decimal
  | octal
  | hexadecimal (upper : Bool)
  | binary (upper : Bool)
  | markedOctal (upper : Bool)

namespace LiteralForm

def radix : LiteralForm → Nat
  | .decimal => 10
  | .octal | .markedOctal _ => 8
  | .hexadecimal _ => 16
  | .binary _ => 2

/-- `0x`, `0b` or `0o` -/
def marker : LiteralForm → PhpString
  | .decimal | .octal => []
  | .hexadecimal upper => [48, if upper then 88 else 120]
  | .binary upper => [48, if upper then 66 else 98]
  | .markedOctal upper => [48, if upper then 79 else 111]

/-- Digits behind a zero are octal. -/
def Starts : LiteralForm → PhpString → Prop
  | .decimal, digits => digits.length = 1 ∨ digits.head? ≠ some 48
  | .octal, digits => 1 < digits.length ∧ digits.head? = some 48
  | _, _ => True

end LiteralForm

/-- The number that digits denote in a base. -/
def positionalValue (radix : Nat) (digits : PhpString) : Nat :=
  digits.foldl (fun value byte => value * radix + (toDigit radix byte).getD 0) 0

/-- An integer literal: groups of digits with `_` between them. -/
structure IntegerLiteral where
  form : LiteralForm
  groups : List PhpString
  groups_ne : groups ≠ []
  group_ne : ∀ group ∈ groups, group ≠ []
  valid : ∀ group ∈ groups, ∀ byte ∈ group, toDigit form.radix byte ≠ none
  starts : form.Starts groups.flatten

namespace IntegerLiteral
variable (literal : IntegerLiteral)

def text : PhpString := literal.form.marker ++ [95].intercalate literal.groups

def digits : PhpString := literal.groups.flatten

def value : Nat := positionalValue literal.form.radix literal.digits

/-- The constant that a literal denotes: a value that does not fit is rounded. -/
def constant (floats : FloatOps F64) : IrConstant :=
  if (literal.value : Int) ≤ i64Max then .int literal.value
  else .float (floats.ofDecimal (integerText literal.value))

end IntegerLiteral

/-! ## Digits -/

theorem toDigit_range (h : toDigit radix byte ≠ none) : 48 ≤ byte ∧ byte ≤ 122 ∧ byte ≠ 95 := by
  simp only [toDigit, toAsciiLowercase, isAsciiDigit] at h
  grind

theorem toDigit_decimal (hradix : radix ≤ 10) (h : toDigit radix byte ≠ none) :
    48 ≤ byte.toNat ∧ byte.toNat < 48 + radix ∧ toDigit radix byte = some (byte.toNat - 48) := by
  simp only [toDigit, toAsciiLowercase, isAsciiDigit_iff, UInt8.le_iff_toNat_le] at h ⊢
  grind

theorem toDigit_toAsciiLowercase : toDigit radix (toAsciiLowercase byte) = toDigit radix byte := by
  simp only [toDigit, isAsciiDigit, toAsciiLowercase]
  grind

/-- A number that fits is its value. -/
theorem checkedI64_natCast (n : Nat) :
    checkedI64 n = if (n : Int) ≤ i64Max then some (n : Int) else none := by
  rw [checkedI64]
  congr 1
  simp only [i64Max, eq_iff_iff]
  omega

theorem foldlM_toDigit {digits : PhpString} (h : ∀ byte ∈ digits, toDigit radix byte ≠ none) (value : Nat) :
    digits.foldlM (fun value byte => (toDigit radix byte).map (value * radix + ·)) value =
      some (digits.foldl (fun value byte => value * radix + (toDigit radix byte).getD 0) value) := by
  induction digits generalizing value with
  | nil => rfl
  | cons byte digits ih =>
    obtain ⟨digit, hdigit⟩ := ne_none_iff_exists'.mp (h byte mem_cons_self)
    rw [foldlM_cons, foldl_cons, hdigit]
    exact ih (forall_mem_cons.mp h).2 _

theorem fromStrRadix_digits (hne : digits ≠ []) (h : ∀ byte ∈ digits, toDigit radix byte ≠ none) :
    fromStrRadix radix digits = checkedI64 (positionalValue radix digits) := by
  have hsplit : splitSign digits = (false, digits) := by
    rw [splitSign.eq_def]
    split
    · exact absurd (toDigit_range (h 45 mem_cons_self)) (by decide)
    · exact absurd (toDigit_range (h 43 mem_cons_self)) (by decide)
    · rfl
  simp only [fromStrRadix, hsplit]
  rw [if_neg hne, foldlM_toDigit h, bind_eq_bind, bind_some, if_neg Bool.false_ne_true]
  rfl

/-! ## From the text to the number -/

theorem trim_of_range (h : ∀ byte ∈ text, 48 ≤ byte ∧ byte ≤ 122) : trim text = text := by
  have hkeep (text : PhpString) (h : ∀ byte ∈ text, 48 ≤ byte ∧ byte ≤ 122) :
      text.dropWhile isNumberSpace = text ∧ ∀ byte ∈ text.head?, byte < 128 := by
    cases text with
    | nil => exact ⟨rfl, nofun⟩
    | cons first rest =>
      have hrange := h first mem_cons_self
      have hspace : ¬isNumberSpace first = true := by
        simp only [isNumberSpace]
        grind
      refine ⟨dropWhile_cons_of_neg hspace, fun byte hbyte => ?_⟩
      cases hbyte
      exact UInt8.lt_of_le_of_lt hrange.2 (by decide)
  obtain ⟨hfront, hfirst⟩ := hkeep text h
  obtain ⟨hback, hlast⟩ := hkeep text.reverse fun byte hbyte => h byte (mem_reverse.mp hbyte)
  rw [trim, trimStart_eq_dropWhile (by rwa [hfront]), hfront,
    trimStartReversed_eq_dropWhile (by rwa [hback]), hback, reverse_reverse]

theorem filter_intercalate (h : ∀ group ∈ groups, ∀ byte ∈ group, byte ≠ 95) :
    ([95].intercalate groups).filter (· != (95 : UInt8)) = groups.flatten := by
  induction groups with
  | nil => rfl
  | cons group groups ih =>
    have hfirst : group.filter (· != 95) = group :=
      filter_eq_self.mpr fun byte hbyte => bne_iff_ne.mpr (h group mem_cons_self byte hbyte)
    have hrest := ih (forall_mem_cons.mp h).2
    cases groups with
    | nil => simpa using hfirst
    | cons next groups => simp [hfirst, hrest]

theorem literalConstant_of_head (hfirst : isAsciiDigit first = true)
    (htrim : trim (first :: rest) = first :: rest) :
    literalConstant floats escapes (first :: rest) =
      numericConstant floats ((first :: rest).filter (· != 95)) := by
  have hne (byte : UInt8) (h : isAsciiDigit byte = false) : first ≠ byte := by
    rintro rfl
    cases h.symm.trans hfirst
  have hword (word : PhpString) (h : isAsciiDigit (word.headD 48) = false) :
      (first :: rest).map toAsciiLowercase ≠ word := by
    have hlower : toAsciiLowercase first = first := by
      simp only [isAsciiDigit, toAsciiLowercase] at hfirst ⊢
      grind
    rw [map_cons, hlower]
    rintro rfl
    cases h.symm.trans hfirst
  have hquoted : quotedLiteralBody escapes (first :: rest) = none := by
    cases rest <;> simp [quotedLiteralBody, hne 98 rfl, hne 66 rfl, hne 39 rfl, hne 34 rfl]
  have hheredoc : heredocLiteralBody escapes (first :: rest) = none := by
    rw [heredocLiteralBody]
    exact fun text heq => hne 60 rfl (List.cons.inj heq).1
  rw [literalConstant, htrim, if_neg (hword (bytesOf "null") rfl), if_neg (hword (bytesOf "true") rfl),
    if_neg (hword (bytesOf "false") rfl), hquoted, hheredoc]
  rfl

/-! ## The numbers of each form -/

section
variable {digits : PhpString} (hall : digits.all isAsciiDigit = true)
include hall

theorem toAsciiLowercase_digits : digits.map toAsciiLowercase = digits := by
  refine (map_congr_left fun byte hbyte => if_neg ?_).trans (map_id' digits)
  have hrange := isAsciiDigit_iff.mp (all_eq_true.mp hall byte hbyte)
  simp only [UInt8.le_iff_toNat_le]
  grind

theorem notMem_digits (byte : UInt8) (h : isAsciiDigit byte = false) : byte ∉ digits := fun hbyte =>
  Bool.false_ne_true <| h.symm.trans (all_eq_true.mp hall byte hbyte)

/-- Digits are an octal number if they start with a zero and are octal, and a decimal number otherwise. -/
theorem parsePhpIntLiteral_digits (hne : digits ≠ []) :
    parsePhpIntLiteral digits =
      if 1 < digits.length ∧ digits.head? = some 48 ∧ digits.all fun byte => 48 ≤ byte ∧ byte ≤ 55 then
        fromStrRadix 8 digits else parseI64 digits := by
  simp only [parsePhpIntLiteral, splitSign_digits hall, toAsciiLowercase_digits hall]
  rw [if_neg hne]
  split
  · exact absurd (by simp) (notMem_digits hall 120 rfl)
  · exact absurd (by simp) (notMem_digits hall 98 rfl)
  · split <;> simp

theorem parseI64_digits (hne : digits ≠ []) : parseI64 digits = checkedI64 (digitsValue digits) := by
  have hlow : i64Min ≤ (digitsValue digits : Int) := le_trans (by decide) (Int.natCast_nonneg _)
  rw [checkedI64_natCast]
  simp [parseI64, isLong, isInteger, splitSign_digits hall, hall, hne,
    ArrayKeys.integerValue_of_digits hall, hlow]

/-- A number without a letter that does not fit is the float of its digits in decimal. -/
theorem numericConstant_digits (hne : digits ≠ []) (hvalue : parsePhpIntLiteral digits = checkedI64 value) :
    numericConstant floats digits =
      some (((checkedI64 value).map IrConstant.int).getD (.float (floats.ofDecimal digits))) := by
  have hfloat : isPhpFloatLiteralCandidate digits = false := by
    simp only [isPhpFloatLiteralCandidate, splitSign_digits hall, toAsciiLowercase_digits hall]
    split <;> simp [notMem_digits hall 46 rfl, notMem_digits hall 101 rfl, notMem_digits hall 69 rfl]
  have hdecimal : isDecimal digits = true := by
    have hdigits := all_eq_true.mp hall
    simp [isDecimal, splitSign_digits hall, takeWhile_eq_self_iff.mpr hdigits,
      dropWhile_eq_nil_iff.mpr hdigits, hne, isExponent]
  have hinteger : isInteger digits = true := by simpa [isInteger, splitSign_digits hall, hne] using hall
  rw [numericConstant, hfloat, hvalue, decimalIntegerLiteral, if_pos hinteger, bind_some, parseF64,
    if_pos hdecimal]
  cases checkedI64 value <;> rfl

end

/-- Behind a letter there is no decimal number. -/
theorem numericConstant_marked (hletter : isAsciiDigit letter = false)
    (hfloat : isPhpFloatLiteralCandidate (48 :: letter :: digits) = false) :
    numericConstant floats (48 :: letter :: digits) =
      (parsePhpIntLiteral (48 :: letter :: digits)).map .int := by
  have hinteger : isInteger (48 :: letter :: digits) = false := by simp [isInteger, splitSign, hletter]
  simp [numericConstant, hfloat, decimalIntegerLiteral, hinteger]

/-! ## Literals -/

namespace IntegerLiteral
variable {literal : IntegerLiteral}

theorem digits_ne : literal.digits ≠ [] := by
  obtain ⟨group, hgroup⟩ := exists_mem_of_ne_nil _ literal.groups_ne
  obtain ⟨byte, hbyte⟩ := exists_mem_of_ne_nil _ (literal.group_ne group hgroup)
  exact ne_nil_of_mem (mem_flatten.mpr ⟨group, hgroup, hbyte⟩)

theorem digits_valid : ∀ byte ∈ literal.digits, toDigit literal.form.radix byte ≠ none := by
  intro byte hbyte
  obtain ⟨group, hgroup, hbyte⟩ := mem_flatten.mp hbyte
  exact literal.valid group hgroup byte hbyte

theorem digits_all (hradix : literal.form.radix ≤ 10) : literal.digits.all isAsciiDigit = true := by
  refine all_eq_true.mpr fun byte hbyte => isAsciiDigit_iff.mpr ?_
  have hdigit := toDigit_decimal hradix (digits_valid byte hbyte)
  omega

theorem marker_range : ∀ byte ∈ literal.form.marker, 48 ≤ byte ∧ byte ≤ 122 ∧ byte ≠ 95 := by
  cases literal.form with
  | decimal | octal => exact nofun
  | hexadecimal upper | binary upper | markedOctal upper => cases upper <;> simp [LiteralForm.marker]

theorem text_filter : literal.text.filter (· != 95) = literal.form.marker ++ literal.digits := by
  have hmarker : literal.form.marker.filter (· != 95) = literal.form.marker :=
    filter_eq_self.mpr fun byte hbyte => bne_iff_ne.mpr (marker_range byte hbyte).2.2
  rw [text, filter_append, hmarker, filter_intercalate fun group hgroup byte hbyte =>
    (toDigit_range (literal.valid group hgroup byte hbyte)).2.2]
  rfl

theorem text_range : ∀ byte ∈ literal.text, 48 ≤ byte ∧ byte ≤ 122 := by
  intro byte h
  by_cases hseparator : byte = 95
  · subst hseparator
    decide
  have hfilter : byte ∈ literal.text.filter (· != 95) := by simp [h, hseparator]
  rw [text_filter, mem_append] at hfilter
  have hrange := hfilter.elim (marker_range byte) fun hbyte => toDigit_range (digits_valid byte hbyte)
  exact ⟨hrange.1, hrange.2.1⟩

theorem literalConstant_text :
    literalConstant floats escapes literal.text =
      numericConstant floats (literal.form.marker ++ literal.digits) := by
  obtain ⟨first, rest, htext, hfirst⟩ :
      ∃ first rest, literal.text = first :: rest ∧ isAsciiDigit first = true := by
    have hall := literal.digits_all
    rw [text]
    cases hform : literal.form with
    | hexadecimal | binary | markedOctal => exact ⟨48, _, rfl, rfl⟩
    | decimal | octal =>
      obtain ⟨group, groups, hcons⟩ := exists_cons_of_ne_nil literal.groups_ne
      obtain ⟨first, rest, rfl⟩ := exists_cons_of_ne_nil (literal.group_ne group (by simp [hcons]))
      rw [hform, digits, hcons] at hall
      rw [hcons]
      refine ⟨first, [95].intercalate (rest :: groups), by cases groups <;> rfl, ?_⟩
      exact all_eq_true.mp (hall (by decide)) first mem_cons_self
  rw [← text_filter, htext]
  exact literalConstant_of_head hfirst (htext ▸ trim_of_range literal.text_range)

theorem literalConstant_decimal (h : literal.form = .decimal) :
    literalConstant floats escapes literal.text = some (literal.constant floats) := by
  have hstarts := literal.starts
  have hvalid := literal.digits_valid
  rw [h] at hstarts hvalid
  have hall := literal.digits_all (by rw [h]; decide)
  have hvalue : digitsValue literal.digits = literal.value := by
    rw [value, digitsValue, positionalValue, h]
    refine foldl_ext _ _ 0 fun value byte hbyte => ?_
    rw [(toDigit_decimal (by decide) (hvalid byte hbyte)).2.2]
    rfl
  have htext : literal.digits = integerText literal.value := by
    rw [← hvalue, integerText_natCast]
    exact digits_eq_toDigits literal.digits_ne hall hstarts
  have hparsed : parsePhpIntLiteral literal.digits = checkedI64 literal.value := by
    rw [parsePhpIntLiteral_digits hall literal.digits_ne, if_neg, parseI64_digits hall literal.digits_ne, hvalue]
    rintro ⟨hlength, hhead, -⟩
    exact hstarts.elim (fun hone => absurd hone hlength.ne') fun hne => hne hhead
  rw [literalConstant_text, h]
  refine (numericConstant_digits hall literal.digits_ne hparsed).trans ?_
  rw [checkedI64_natCast, constant, ← htext]
  split <;> rfl

theorem literalConstant_octal (h : literal.form = .octal) :
    literalConstant floats escapes literal.text =
      some (if (literal.value : Int) ≤ i64Max then .int literal.value
        else .float (floats.ofDecimal literal.digits)) := by
  have hstarts := literal.starts
  have hvalid := literal.digits_valid
  rw [h] at hstarts hvalid
  have hall := literal.digits_all (by rw [h]; decide)
  have hparsed : parsePhpIntLiteral literal.digits = checkedI64 literal.value := by
    rw [parsePhpIntLiteral_digits hall literal.digits_ne, if_pos, value, h]
    · exact fromStrRadix_digits literal.digits_ne hvalid
    · refine ⟨hstarts.1, hstarts.2, all_eq_true.mpr fun byte hbyte => decide_eq_true ?_⟩
      obtain ⟨hlow, hhigh, -⟩ := toDigit_decimal (by decide) (hvalid byte hbyte)
      exact ⟨UInt8.le_iff_toNat_le.mpr hlow, UInt8.le_iff_toNat_le.mpr (Nat.le_of_lt_succ hhigh)⟩
  rw [literalConstant_text, h]
  refine (numericConstant_digits hall literal.digits_ne hparsed).trans ?_
  rw [checkedI64_natCast]
  split <;> rfl

theorem fromStrRadix_lowercase :
    fromStrRadix literal.form.radix (literal.digits.map toAsciiLowercase) = checkedI64 literal.value := by
  rw [fromStrRadix_digits, positionalValue, foldl_map]
  · simp only [toDigit_toAsciiLowercase]
    rfl
  · simpa using literal.digits_ne
  intro byte hbyte
  obtain ⟨digit, hdigit, rfl⟩ := mem_map.mp hbyte
  rw [toDigit_toAsciiLowercase]
  exact literal.digits_valid digit hdigit

/-- A hexadecimal or binary number that does not fit is no constant. -/
theorem literalConstant_based (hmarker : literal.form.marker = [48, letter])
    (hletter : isAsciiDigit letter = false)
    (hfloat : isPhpFloatLiteralCandidate (48 :: letter :: literal.digits) = false)
    (hparsed : parsePhpIntLiteral (48 :: letter :: literal.digits) =
      fromStrRadix literal.form.radix (literal.digits.map toAsciiLowercase)) :
    literalConstant floats escapes literal.text = some (literal.constant floats) ↔
      (literal.value : Int) ≤ i64Max := by
  rw [literalConstant_text, hmarker, cons_append, cons_append, nil_append,
    numericConstant_marked hletter hfloat, hparsed, fromStrRadix_lowercase, checkedI64_natCast, constant]
  split
  · next hfits => simp [hfits]
  · next hfits => simp [hfits]

/-- Behind `0o` no parser takes the digits. -/
theorem literalConstant_markedOctal (h : literal.form = .markedOctal upper) :
    literalConstant floats escapes literal.text = none := by
  have hmem := notMem_digits (literal.digits_all (by rw [h, LiteralForm.radix]; decide))
  rw [literalConstant_text, h]
  refine (numericConstant_marked (by cases upper <;> rfl) ?_).trans ?_
  · cases upper <;>
      simp [isPhpFloatLiteralCandidate, splitSign, toAsciiLowercase, hmem 46 rfl, hmem 101 rfl, hmem 69 rfl]
  · cases upper <;>
      simp [parsePhpIntLiteral, splitSign, toAsciiLowercase, parseI64, isLong, isInteger, isAsciiDigit]

/-- The literals that are lowered to the constant that they denote. -/
def Lowered (literal : IntegerLiteral) (floats : FloatOps F64) : Prop :=
  match literal.form with
  | .decimal => True
  | .octal => (literal.value : Int) ≤ i64Max ∨
    floats.ofDecimal literal.digits = floats.ofDecimal (integerText literal.value)
  | .hexadecimal _ | .binary _ => (literal.value : Int) ≤ i64Max
  | .markedOctal _ => False

theorem literalConstant_iff (floats : FloatOps F64) (escapes : LiteralEscapes) (literal : IntegerLiteral) :
    literalConstant floats escapes literal.text = some (literal.constant floats) ↔
      literal.Lowered floats := by
  rw [Lowered]
  cases hform : literal.form with
  | decimal => simp [literalConstant_decimal hform]
  | octal =>
    rw [literalConstant_octal hform, constant]
    split
    · next hfits => simp [hfits]
    · next hfits => simp [hfits]
  | hexadecimal upper | binary upper =>
    refine literalConstant_based (by rw [hform]; rfl) (by cases upper <;> rfl) (by cases upper <;> rfl) ?_
    rw [hform]
    cases upper <;> simp [parsePhpIntLiteral, splitSign, toAsciiLowercase, LiteralForm.radix]
  | markedOctal => simp [literalConstant_markedOctal hform]

theorem valid_of_all {groups : List PhpString}
    (h : groups.all (·.all fun byte => (toDigit radix byte).isSome) = true) :
    ∀ group ∈ groups, ∀ byte ∈ group, toDigit radix byte ≠ none := by
  intro group hgroup byte hbyte
  exact isSome_iff_ne_none.mp (all_eq_true.mp (all_eq_true.mp h group hgroup) byte hbyte)

/-- `0o17` is 15, `0x8000000000000000` does not fit and `01000000000000000000000` is the same number in
octal: the first two are no constant, and the last one is read in decimal. -/
theorem literalConstant_lost :
    (∃ literal : IntegerLiteral, literal.text = bytesOf "0o17" ∧ literal.value = 15) ∧
      literalConstant constantZeros ⟨id, id, some⟩ (bytesOf "0o17") = none ∧
      (∃ literal : IntegerLiteral, literal.text = bytesOf "0x8000000000000000" ∧ literal.value = 2 ^ 63) ∧
      literalConstant constantZeros ⟨id, id, some⟩ (bytesOf "0x8000000000000000") = none ∧
      (∃ literal : IntegerLiteral, literal.text = bytesOf "01000000000000000000000" ∧
        literal.value = 2 ^ 63) ∧
      ∀ floats, literalConstant floats ⟨id, id, some⟩ (bytesOf "01000000000000000000000") =
        some (.float (floats.ofDecimal (bytesOf "01000000000000000000000"))) := by
  refine ⟨⟨⟨.markedOctal false, [bytesOf "17"], ?_, ?_, valid_of_all rfl, ?_⟩, ?_⟩, ?_,
    ⟨⟨.hexadecimal false, [bytesOf "8000000000000000"], ?_, ?_, valid_of_all rfl, ?_⟩, ?_⟩, ?_,
    ⟨⟨.octal, [bytesOf "01000000000000000000000"], ?_, ?_, valid_of_all rfl, ?_⟩, ?_⟩, fun floats => ?_⟩
  all_goals trivial

end IntegerLiteral
end Phrust.Ir
