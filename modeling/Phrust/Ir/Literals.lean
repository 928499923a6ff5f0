import Phrust.Ir.ConstantExpressions

/-!
# Literals

`literal_constant` of `lower/mod.rs`, on the UTF-8 bytes of a literal. What the escapes of a string
literal stand for is left open. Negation wraps, as in a release build.
-/

namespace Phrust.Ir

/-! ## Numbers -/

/-- `char::to_digit` -/
def toDigit (radix : Nat) (byte : UInt8) : Option Nat :=
  let letter := toAsciiLowercase byte
  let value :=
    if isAsciiDigit byte then byte.toNat - 48
    else if 97 ≤ letter ∧ letter ≤ 122 then letter.toNat - 87
    else radix
  if value < radix then some value else none

/-- `i64::from_str_radix` -/
def fromStrRadix (radix : Nat) (text : PhpString) : Option Int := do
  let (negative, digits) := splitSign text
  if digits = [] then none
  let magnitude ← digits.foldlM (fun value byte => (toDigit radix byte).map (value * radix + ·)) 0
  checkedI64 (if negative then -(magnitude : Int) else magnitude)

def parsePhpIntLiteral (text : PhpString) : Option Int := do
  let (negative, body) := splitSign text
  if body = [] then none
  let parsed ←
    match body.map toAsciiLowercase with
    | 48 :: 120 :: digits => fromStrRadix 16 digits
    | 48 :: 98 :: digits => fromStrRadix 2 digits
    | _ =>
      if 1 < body.length ∧ body.head? = some 48 ∧ body.all fun byte => 48 ≤ byte ∧ byte ≤ 55 then
        fromStrRadix 8 body
      else parseI64 body
  return if negative then wrapI64 (-parsed) else parsed

def isPhpFloatLiteralCandidate (text : PhpString) : Bool :=
  let body := (splitSign text).2
  match body.map toAsciiLowercase with
  | 48 :: 120 :: _ | 48 :: 98 :: _ => false
  | _ => body.contains 46 || body.contains 101 || body.contains 69

def decimalIntegerLiteral (text : PhpString) : Option PhpString :=
  if isInteger text then some text else none

/-! ## Strings -/

/-- The bytes that the body of a string literal stands for. -/
structure LiteralEscapes where
  unescapeSingleQuoted : PhpString → PhpString
  unescapeDoubleQuoted : PhpString → PhpString
  /-- Behind `<<<`, with the marker and the indentation taken away. -/
  heredocBody : PhpString → Option PhpString

def quotedLiteralBody (escapes : LiteralEscapes) (bytes : PhpString) : Option PhpString := do
  let quoteStart :=
    match bytes with
    | first :: second :: _ =>
      if (first = 98 ∨ first = 66) ∧ (second = 39 ∨ second = 34) then 1 else 0
    | _ => 0
  let quote ← bytes[quoteStart]?
  if bytes.length < quoteStart + 2 ∨ (quote ≠ 39 ∧ quote ≠ 34) ∨ bytes.getLast? ≠ some quote then none
  let body := (bytes.drop (quoteStart + 1)).dropLast
  return if quote = 39 then escapes.unescapeSingleQuoted body else escapes.unescapeDoubleQuoted body

def heredocLiteralBody (escapes : LiteralEscapes) : PhpString → Option PhpString
  | 60 :: 60 :: 60 :: text => escapes.heredocBody text
  | _ => none

def irStringConstant (bytes : PhpString) : IrConstant :=
  match String.fromUTF8? ⟨bytes.toArray⟩ with
  | some text => .string text
  | none => .stringBytes bytes

/-! ## Constants -/

/-- The end of `literal_constant`, without the separators. -/
def numericConstant (floats : FloatOps F64) (numeric : PhpString) : Option IrConstant :=
  if isPhpFloatLiteralCandidate numeric then (parseF64 floats numeric).map .float
  else
    ((parsePhpIntLiteral numeric).map .int).or
      ((decimalIntegerLiteral numeric).bind fun text => (parseF64 floats text).map .float)

def literalConstant (floats : FloatOps F64) (escapes : LiteralEscapes) (text : PhpString) :
    Option IrConstant :=
  let trimmed := trim text
  let word := trimmed.map toAsciiLowercase
  if word = bytesOf "null" then some .null
  else if word = bytesOf "true" then some (.bool true)
  else if word = bytesOf "false" then some (.bool false)
  else
    match (quotedLiteralBody escapes trimmed).or (heredocLiteralBody escapes trimmed) with
    | some bytes => some (irStringConstant bytes)
    | none => numericConstant floats (trimmed.filter (· != 95))

end Phrust.Ir
