import Phrust.Runtime.ArraySlices
import Phrust.Runtime.HtmlEscape

/-!
# Cutting strings at characters

`mb_strcut` of `php_runtime/src/builtins/modules/mbstring.rs`, as the builtin and as the native function.
Their arguments are converted already.
-/

namespace Phrust.Mbstring

/-- The errors, by the functions that make them and their arguments. -/
inductive BuiltinError where
  | argumentValue (name argument text : String)
  | unsupportedEncoding (name argument encoding : String)

/-- An entry of the table of encodings, with what `decode_bytes` and `encode_text` do for it. -/
structure Encoding (C : Type) where
  canonical : String
  decode : PhpString → Except BuiltinError (List C)
  encode : List C → Except BuiltinError PhpString

/-- The characters of a valid text. All bytes behind its first one are continuations. -/
def utf8Chars (bytes : PhpString) : List PhpString := bytes.splitBy fun _ byte => isContinuation byte

/-- A character is represented by its bytes. -/
def Encoding.utf8 : Encoding PhpString where
  canonical := "UTF-8"
  decode bytes := if isUtf8 bytes then .ok (utf8Chars bytes)
    else .error (.argumentValue "mb_strcut" "#1 ($string)" "is not valid for encoding UTF-8")
  encode text := .ok text.flatten

def normalizeCharacterOffset (total : Nat) (offset : Int) : Nat :=
  if 0 ≤ offset then min offset.toNat total else total - offset.natAbs

def byteSubstring (bytes : PhpString) (start : Int) (length : Option Int) : PhpString :=
  let total := bytes.length
  let start := normalizeCharacterOffset total start
  if total ≤ start then []
  else
    let len :=
      match length with
      | none => total - start
      | some length =>
        if 0 ≤ length then min length.toNat (total - start) else total - start - length.natAbs
    (bytes.drop start).take len

/-- The addition saturates above `total`. -/
def byteEnd (total byteStart : Nat) : Option Int → Nat
  | none => total
  | some length =>
    if length < 0 then total - length.natAbs else min (byteStart + length.toNat) total

/-- The loop over the characters. -/
def cutChars (encoding : Encoding C) (byteStart byteEnd : Nat) :
    Nat → List C → Except BuiltinError (List C)
  | _, [] => .ok []
  | cursor, character :: text => do
    let encoded ← encoding.encode [character]
    let next := cursor + encoded.length
    let output ← cutChars encoding byteStart byteEnd next text
    return if byteStart ≤ cursor ∧ next ≤ byteEnd then character :: output else output

/-- The part that both functions have. -/
def mbStrcut (encoding : Encoding C) (bytes : PhpString) (start : Int) (length : Option Int) :
    Except BuiltinError PhpString :=
  if encoding.canonical = "8BIT" then .ok (byteSubstring bytes start length)
  else do
    let text ← encoding.decode bytes
    let byteStart := normalizeCharacterOffset bytes.length start
    let output ← cutChars encoding byteStart (byteEnd bytes.length byteStart length) 0 text
    encoding.encode output

variable (encodings : String → Option (Encoding C))

def builtinMbStrcut (internalEncoding : String) (string : PhpString) (start : Int)
    (length : Option Int) (encoding : Option String) : Except BuiltinError PhpString :=
  let encoding := encoding.getD internalEncoding
  match encodings encoding with
  | none => .error (.unsupportedEncoding "mb_strcut" "#4 ($encoding)" encoding)
  | some canonical => mbStrcut canonical string start length

def nativeMbStrcut (bytes : PhpString) (start : Int) (length : Option Int) (encoding : String) :
    Option PhpString :=
  (encodings encoding).bind fun canonical => (mbStrcut canonical bytes start length).toOption

end Phrust.Mbstring
