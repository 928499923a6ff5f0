import Mathlib.Data.List.DropRight
import Phrust.Runtime.HtmlEscape

/-!
# Numbers in text

The numeric strings of PHP, and what the string functions of the standard library accept: `trim`,
`parse::<i64>` and `parse::<f64>`. A Rust string is given by its UTF-8 bytes; the lossy conversion
replaces bytes that no number contains.
-/

namespace Phrust
open List

/-- The white space around a PHP number: blank, `\t`, `\n`, `\v`, `\f` and `\r`. -/
def isNumberSpace (byte : UInt8) : Bool := byte == 32 || (9 ≤ byte && byte ≤ 13)

/-! ## Syntax -/

/-- The sign in front, `true` for `-`, and the rest. -/
def splitSign : PhpString → Bool × PhpString
  | 45 :: rest => (true, rest)
  | 43 :: rest => (false, rest)
  | text => (false, text)

section
variable (text : PhpString)

/-- `[+-]?[0-9]+` -/
def isInteger : Bool :=
  (splitSign text).2 != [] && (splitSign text).2.all isAsciiDigit

def integerValue : Int :=
  let magnitude : Nat := (splitSign text).2.foldl (fun n digit => n * 10 + (digit.toNat - 48)) 0
  if (splitSign text).1 then -magnitude else magnitude

/-- `([eE][+-]?[0-9]+)?` -/
def isExponent : PhpString → Bool
  | [] => true
  | byte :: rest => (byte == 69 || byte == 101) && isInteger rest

/-- `[+-]?([0-9]+(\.[0-9]*)?|\.[0-9]+)([eE][+-]?[0-9]+)?` -/
def isDecimal : Bool :=
  let body := (splitSign text).2
  let whole := body.takeWhile isAsciiDigit
  match body.dropWhile isAsciiDigit with
  | 46 :: rest =>
    (whole != [] || rest.takeWhile isAsciiDigit != []) && isExponent (rest.dropWhile isAsciiDigit)
  | rest => whole != [] && isExponent rest

/-! ## Numeric strings -/

/-- The number in a numeric string: white space is allowed on both sides. -/
def numericText (bytes : PhpString) : Option PhpString :=
  let text := (bytes.dropWhile isNumberSpace).rdropWhile isNumberSpace
  if isDecimal text then some text else none

/-- The text of an integer in the 64-bit range. -/
def isLong : Bool :=
  isInteger text && i64Min ≤ integerValue text && integerValue text ≤ i64Max

/-- `-0`, also with more zeros. -/
def isNegativeZero : Bool := (splitSign text).1 && integerValue text == 0

/-! ## Rust -/

/-- `str::trim_start`: drop the characters with the property `White_Space`. -/
def trimStart : PhpString → PhpString
  | 0xC2 :: 0x85 :: rest | 0xC2 :: 0xA0 :: rest => trimStart rest
  | 0xE1 :: 0x9A :: 0x80 :: rest | 0xE2 :: 0x81 :: 0x9F :: rest
  | 0xE3 :: 0x80 :: 0x80 :: rest => trimStart rest
  | 0xE2 :: 0x80 :: last :: rest =>
    if (0x80 ≤ last && last ≤ 0x8A) || last == 0xA8 || last == 0xA9 || last == 0xAF then
      trimStart rest
    else 0xE2 :: 0x80 :: last :: rest
  | byte :: rest => if isNumberSpace byte then trimStart rest else byte :: rest
  | [] => []

/-- The same on reversed text. -/
def trimStartReversed : PhpString → PhpString
  | 0x85 :: 0xC2 :: rest | 0xA0 :: 0xC2 :: rest => trimStartReversed rest
  | 0x80 :: 0x9A :: 0xE1 :: rest | 0x9F :: 0x81 :: 0xE2 :: rest
  | 0x80 :: 0x80 :: 0xE3 :: rest => trimStartReversed rest
  | last :: 0x80 :: 0xE2 :: rest =>
    if (0x80 ≤ last && last ≤ 0x8A) || last == 0xA8 || last == 0xA9 || last == 0xAF then
      trimStartReversed rest
    else if isNumberSpace last then trimStartReversed (0x80 :: 0xE2 :: rest)
    else last :: 0x80 :: 0xE2 :: rest
  | byte :: rest => if isNumberSpace byte then trimStartReversed rest else byte :: rest
  | [] => []

/-- `str::trim` -/
def trim (bytes : PhpString) : PhpString :=
  (trimStartReversed (trimStart bytes).reverse).reverse

/-- `text.parse::<i64>().ok()` -/
def parseI64 : Option Int :=
  if isLong text then some (integerValue text) else none

/-- `inf`, `infinity` and `nan` in any case -/
def isFloatWord : Bool :=
  let word := (splitSign text).2.map toAsciiLowercase
  word == [105, 110, 102] || word == [105, 110, 102, 105, 110, 105, 116, 121] ||
    word == [110, 97, 110]

end

/-- The 64-bit floats. An integer text denotes the nearest float of its value, except that the sign
of `-0` is kept. -/
structure FloatOps (F : Type) where
  ofInt : Int → F
  /-- The nearest float of a decimal text, as `strtod` and `parse::<f64>` compute it. -/
  ofDecimal : PhpString → F
  /-- `inf`, `infinity` and `nan` -/
  ofWord : PhpString → F
  /-- The value of a float that is an integer in the 64-bit range. -/
  toLong : F → Option Int
  /-- `value as i64`, `value.to_string()` and `value != 0.0` -/
  truncate : F → Int
  display : F → PhpString
  nonzero : F → Bool
  ofDecimal_long : ∀ text, isLong text = true → isNegativeZero text = false →
    ofDecimal text = ofInt (integerValue text)

/-- Floats that know their integers only. -/
def FloatOps.integral : FloatOps (Option Int) where
  ofInt := some
  ofDecimal text := if isLong text && !isNegativeZero text then some (integerValue text) else none
  ofWord _ := none
  toLong := id
  truncate number := number.getD 0
  display _ := []
  nonzero number := number != some 0
  ofDecimal_long text hlong hzero := by simp [hlong, hzero]

/-- `text.parse::<f64>().ok()` -/
def parseF64 (ops : FloatOps F) (text : PhpString) : Option F :=
  if isDecimal text then some (ops.ofDecimal text)
  else if isFloatWord text then some (ops.ofWord text)
  else none

/-! ## `trim` on ASCII text -/

theorem splitSign_mem (h : byte ∈ text) : byte = 45 ∨ byte = 43 ∨ byte ∈ (splitSign text).2 := by
  rw [splitSign.eq_def]
  split
  · exact (mem_cons.mp h).imp_right .inr
  · rcases mem_cons.mp h with h | h
    · exact .inr (.inl h)
    · exact .inr (.inr h)
  · exact .inr (.inr h)

theorem isAsciiDigit_lt (h : isAsciiDigit byte = true) : byte < 128 := by
  simp only [isAsciiDigit, Bool.and_eq_true, decide_eq_true_eq] at h
  exact UInt8.lt_of_le_of_lt h.2 (by decide)

/-- The multibyte white space starts, and ends, with a byte that is not ASCII. -/
theorem trimStart_ascii (h : byte < 128) :
    trimStart (byte :: rest) = if isNumberSpace byte then trimStart rest else byte :: rest := by
  rw [trimStart]
  all_goals
    intros
    subst byte
    exact absurd h (by decide)

theorem trimStartReversed_ascii (h : byte < 128) :
    trimStartReversed (byte :: rest) =
      if isNumberSpace byte then trimStartReversed rest else byte :: rest := by
  rw [trimStartReversed.eq_def]
  split
  case h_6 last rest heq =>
    cases heq
    rw [if_neg]
    grind
  case h_7 heq =>
    cases heq
    rfl
  all_goals grind

theorem isNumberSpace_lt (h : isNumberSpace byte = true) : byte < 128 := by
  simp only [isNumberSpace, Bool.or_eq_true, Bool.and_eq_true, decide_eq_true_eq, beq_iff_eq] at h
  rcases h with rfl | h
  · decide
  · exact UInt8.lt_of_le_of_lt h.2 (by decide)

section
variable {text : PhpString} (h : ∀ byte ∈ (text.dropWhile isNumberSpace).head?, byte < 128)
include h

theorem trimStart_eq_dropWhile : trimStart text = text.dropWhile isNumberSpace := by
  induction text with
  | nil => rfl
  | cons byte rest ih =>
    cases hspace : isNumberSpace byte with
    | true =>
      rw [dropWhile_cons_of_pos hspace] at h ⊢
      rw [trimStart_ascii (isNumberSpace_lt hspace), if_pos hspace, ih h]
    | false =>
      rw [dropWhile_cons_of_neg (by simp [hspace])] at h ⊢
      rw [trimStart_ascii (h byte rfl), hspace]
      rfl

theorem trimStartReversed_eq_dropWhile : trimStartReversed text = text.dropWhile isNumberSpace := by
  induction text with
  | nil => rfl
  | cons byte rest ih =>
    cases hspace : isNumberSpace byte with
    | true =>
      rw [dropWhile_cons_of_pos hspace] at h ⊢
      rw [trimStartReversed_ascii (isNumberSpace_lt hspace), if_pos hspace, ih h]
    | false =>
      rw [dropWhile_cons_of_neg (by simp [hspace])] at h ⊢
      rw [trimStartReversed_ascii (h byte rfl), hspace]
      rfl

end

end Phrust
