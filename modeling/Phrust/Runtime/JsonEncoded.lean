import Phrust.Theory.Json

/-!
# `json_encode` flags

A tree is written by `serde_json` and the flags are applied to the written text. A text is a list of
characters.
-/

namespace Phrust
namespace JsonEncode

/-! ## `serde_json` -/

/-- `HEX_DIGITS` -/
def hexDigit (digit : Nat) : Char := if digit < 10 then Char.ofNat (48 + digit) else Char.ofNat (87 + digit)

/-- `\u` and four digits, for `{:04x}` of at most `0xFFFF` -/
def unicodeEscape (code : Nat) : List Char :=
  ['\\', 'u', hexDigit (code / 4096 % 16), hexDigit (code / 256 % 16), hexDigit (code / 16 % 16),
    hexDigit (code % 16)]

/-- `format_escaped_str_contents` for one character -/
def serdeEscape (c : Char) : List Char :=
  if c = '"' then ['\\', '"']
  else if c = '\\' then ['\\', '\\']
  else if c = '\x08' then ['\\', 'b']
  else if c = '\t' then ['\\', 't']
  else if c = '\n' then ['\\', 'n']
  else if c = '\x0c' then ['\\', 'f']
  else if c = '\r' then ['\\', 'r']
  else if c.toNat < 0x20 then unicodeEscape c.toNat
  else [c]

/-- A string with its quotes, with `escape` for the characters. -/
def quoteWith (escape : Char → List Char) (s : List Char) : List Char := '"' :: (s.flatMap escape ++ ['"'])

/-- `serde_json::to_string`, or `serde_json::to_string_pretty` for the pretty layout -/
def toText (layout : Json.Layout) (json : Json) : List Char :=
  json.render layout (quoteWith serdeEscape) 0

/-! ## Flags -/

abbrev Flags := BitVec 64

def jsonHexTag : Flags := 1
def jsonHexAmp : Flags := 2
def jsonHexApos : Flags := 4
def jsonHexQuot : Flags := 8
def jsonUnescapedSlashes : Flags := 64
def jsonPrettyPrint : Flags := 128
def jsonUnescapedUnicode : Flags := 256
def jsonUnescapedLineTerminators : Flags := 2048

def hasFlag (flags flag : Flags) : Bool := flags &&& flag != 0

/-! ## Rewriting -/

/-- `str::replace` with a character -/
def replaceChar (c : Char) (replacement text : List Char) : List Char :=
  text.flatMap fun x => if x = c then replacement else [x]

/-- `str::replace` with a text of two characters -/
def replacePair (first second : Char) (replacement : List Char) : List Char → List Char
  | x :: y :: rest =>
    if x = first ∧ y = second then replacement ++ replacePair first second replacement rest
    else x :: replacePair first second replacement (y :: rest)
  | text => text

/-- One character of `escape_json_non_ascii` -/
def escapeNonAscii (c : Char) : List Char :=
  if c.toNat < 128 then [c]
  else if c = '\u2028' then ['\\', 'u', '2', '0', '2', '8']
  else if c = '\u2029' then ['\\', 'u', '2', '0', '2', '9']
  else if c.toNat ≤ 0xFFFF then unicodeEscape c.toNat
  else
    let code := c.toNat - 0x10000
    unicodeEscape (0xD800 + code / 1024 % 1024) ++ unicodeEscape (0xDC00 + code % 1024)

variable (encoded : List Char)

def escapeJsonNonAscii : List Char := encoded.flatMap escapeNonAscii

def escapeJsonLineTerminators : List Char :=
  replaceChar '\u2029' ['\\', 'u', '2', '0', '2', '9']
    (replaceChar '\u2028' ['\\', 'u', '2', '0', '2', '8'] encoded)

/-- One line of `json_pretty_indent_for_php` -/
def doubleIndent (line : List Char) : List Char :=
  let indent := (line.takeWhile (· = ' ')).length
  List.replicate (indent * 2) ' ' ++ line.drop indent

def jsonPrettyIndentForPhp : List Char :=
  ['\n'].intercalate ((encoded.splitOn '\n').map doubleIndent)

def normalizeJsonEncoded (flags : Flags) : List Char :=
  let encoded := if hasFlag flags jsonPrettyPrint then jsonPrettyIndentForPhp encoded else encoded
  let encoded := if hasFlag flags jsonUnescapedSlashes then encoded else replaceChar '/' ['\\', '/'] encoded
  let encoded :=
    if hasFlag flags jsonUnescapedUnicode then
      if hasFlag flags jsonUnescapedLineTerminators then encoded else escapeJsonLineTerminators encoded
    else escapeJsonNonAscii encoded
  let encoded :=
    if hasFlag flags jsonHexTag then
      replaceChar '>' ['\\', 'u', '0', '0', '3', 'E']
        (replaceChar '<' ['\\', 'u', '0', '0', '3', 'C'] encoded)
    else encoded
  let encoded :=
    if hasFlag flags jsonHexAmp then replaceChar '&' ['\\', 'u', '0', '0', '2', '6'] encoded else encoded
  let encoded :=
    if hasFlag flags jsonHexApos then replaceChar '\'' ['\\', 'u', '0', '0', '2', '7'] encoded
    else encoded
  if hasFlag flags jsonHexQuot then replacePair '\\' '"' ['\\', 'u', '0', '0', '2', '2'] encoded
  else encoded

end JsonEncode
end Phrust
