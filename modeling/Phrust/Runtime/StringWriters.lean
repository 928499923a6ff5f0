import Phrust.Runtime.ArrayStorage
import Phrust.Theory.ByteWriter

/-!
# String builtins with sized output

The two-pass string builtins of `php_runtime/src/builtins/modules/strings.rs`: an output length, an
`_into` writer for a buffer of that length, and the baseline wrapper that sizes a zeroed buffer and
calls the writer inside `debug_assert!`. `usize` arithmetic that the source checks is checked here.
-/

namespace Phrust

def usizeLimit : Nat := 2 ^ 64

def checkedAdd (a b : Nat) : Option Nat := if a + b < usizeLimit then some (a + b) else none

def checkedMul (a b : Nat) : Option Nat := if a * b < usizeLimit then some (a * b) else none

/-- Run a filling pass when the buffer has the announced length. -/
def intoSized (length : Option Nat) (output : List UInt8)
    (pass : Cursor → Option (Bool × List UInt8)) : Option (Bool × List UInt8) :=
  if length = some output.length then pass ⟨output, 0⟩ else some (false, output)

/-- A scanner's callback writes through the cursor; the pass checks the count it returns. -/
def intoVisited (iteration : UInt8 → List UInt8 → Option UInt8 × Nat) (input output : List UInt8) :
    Option (Bool × List UInt8) :=
  intoSized ((visit iteration (fun (_ : Unit) _ => some ()) input ()).map Prod.fst) output
    fun cursor => do
      let (length, cursor) ← visit iteration Cursor.put input cursor
      return (length == output.length, cursor.buffer)

/-- The announced length and the writer of a scanning decoder. -/
def visitedWriter (iteration : UInt8 → List UInt8 → Option UInt8 × Nat) (input : PhpString) : Writer where
  outputLength := (visit iteration (fun (_ : Unit) _ => some ()) input ()).map Prod.fst
  into := intoVisited iteration input

/-! ## Hexadecimal digits -/

def hexLower : List UInt8 :=
  [48, 49, 50, 51, 52, 53, 54, 55, 56, 57, 97, 98, 99, 100, 101, 102]

def hexUpper : List UInt8 :=
  [48, 49, 50, 51, 52, 53, 54, 55, 56, 57, 65, 66, 67, 68, 69, 70]

/-- `HEX[(byte >> 4) as usize]` and `HEX[(byte & 0x0f) as usize]`. -/
def hexPairOf (digits : List UInt8) (byte : UInt8) : List UInt8 :=
  [digits.getD (byte >>> 4).toNat 0, digits.getD (byte &&& 0x0f).toNat 0]

def hexNibble (byte : UInt8) : Option UInt8 :=
  if 48 ≤ byte ∧ byte ≤ 57 then some (byte - 48)
  else if 97 ≤ byte ∧ byte ≤ 102 then some (byte - 97 + 10)
  else if 65 ≤ byte ∧ byte ≤ 70 then some (byte - 65 + 10)
  else none

/-- The byte spelled by the next two hexadecimal digits. -/
def decodeHexPair : List UInt8 → Option UInt8
  | high :: low :: _ => do
    let high ← hexNibble high
    let low ← hexNibble low
    return (high <<< 4) ||| low
  | _ => none

/-- `write_hex_into`: one pair of output bytes per input byte. -/
def writeHexInto : List UInt8 → List UInt8 → List UInt8
  | byte :: input, _ :: _ :: output => hexPairOf hexLower byte ++ writeHexInto input output
  | _, output => output

/-! ## `ucwords` and `str_pad` -/

/-- Bytes of `" \t\r\n\x0c\x0b"`. -/
def ucwordsDefaultDelimiters : PhpString := [32, 9, 13, 10, 12, 11]

def toAsciiUppercase (byte : UInt8) : UInt8 := if 97 ≤ byte ∧ byte ≤ 122 then byte - 32 else byte

def ucwordsLoop (delimiters : PhpString) (atWordStart : Bool) : List UInt8 → List UInt8 → List UInt8
  | byte :: input, _ :: output =>
    if delimiters.contains byte then byte :: ucwordsLoop delimiters true input output
    else if atWordStart then toAsciiUppercase byte :: ucwordsLoop delimiters false input output
    else byte :: ucwordsLoop delimiters false input output
  | _, output => output

def nativeUcwordsInto (input : PhpString) (delimiters : Option PhpString) (output : List UInt8) :
    Option (Bool × List UInt8) :=
  if output.length ≠ input.length then some (false, output)
  else some (true, ucwordsLoop (delimiters.getD ucwordsDefaultDelimiters) true input output)

def ucwordsWriter (input : PhpString) (delimiters : Option PhpString) : Writer :=
  ⟨some input.length, nativeUcwordsInto input delimiters⟩

def baselineUcwords (debugAssertions : Bool) (input : PhpString) (delimiters : Option PhpString) :
    Option PhpString :=
  (ucwordsWriter input delimiters).baseline debugAssertions

def nativeStrPadOutputLength (input : PhpString) (target : Nat) (pad : PhpString) : Option Nat :=
  if pad.isEmpty then none else some (max input.length target)

/-- How many pad bytes go to the left and to the right. -/
def strPadSides (needed : Nat) (padType : Int) : Nat × Nat :=
  if padType = 0 then (needed, 0)
  else if padType = 2 then (needed / 2, needed - needed / 2)
  else (0, needed)

/-- `*slot = pad[index % pad.len()]` for the first `count` slots. -/
def padBytes (pad : PhpString) (count : Nat) : List UInt8 :=
  (List.range count).map fun index => pad.getD (index % pad.length) 0

section
variable (input : PhpString) (target : Nat) (pad : PhpString) (padType : Int)

def nativeStrPadInto (output : List UInt8) : Option (Bool × List UInt8) :=
  intoSized (nativeStrPadOutputLength input target pad) output fun cursor => do
    if input.length ≥ target then
      let cursor ← cursor.putSlice input
      return (true, cursor.buffer)
    else
      let (left, right) := strPadSides (target - input.length) padType
      let cursor ← cursor.putSlice (padBytes pad left)
      let cursor ← cursor.putSlice input
      let cursor ← cursor.putSlice (padBytes pad right)
      return (true, cursor.buffer)

def strPadWriter : Writer :=
  ⟨nativeStrPadOutputLength input target pad, nativeStrPadInto input target pad padType⟩

end

section
variable (debugAssertions : Bool)

def baselineStrPad (input : PhpString) (target : Nat) (pad : PhpString) (padType : Int) : Option PhpString :=
  (strPadWriter input target pad padType).baseline debugAssertions

/-! ## `quotemeta` and `bin2hex` -/

/-- `. \ + * ? [ ^ ] $ ( )` -/
def isQuotemetaByte (byte : UInt8) : Bool := [46, 92, 43, 42, 63, 91, 94, 93, 36, 40, 41].contains byte

section
variable (input : PhpString)

def nativeQuotemetaOutputLength : Option Nat :=
  checkedAdd input.length (input.countP isQuotemetaByte)

def nativeQuotemetaInto (output : List UInt8) : Option (Bool × List UInt8) :=
  intoSized (nativeQuotemetaOutputLength input) output fun cursor => do
    let cursor ← input.foldlM (fun cursor byte => do
      let cursor ← if isQuotemetaByte byte then cursor.put 92 else some cursor
      cursor.put byte) cursor
    return (true, cursor.buffer)

def quotemetaWriter : Writer :=
  ⟨nativeQuotemetaOutputLength input, nativeQuotemetaInto input⟩

def baselineQuotemeta (input : PhpString) : Option PhpString :=
  (quotemetaWriter input).baseline debugAssertions

def nativeBin2hexOutputLength : Option Nat := checkedMul input.length 2

def nativeBin2hexInto (output : List UInt8) : Option (Bool × List UInt8) :=
  intoSized (nativeBin2hexOutputLength input) output fun cursor =>
    some (true, writeHexInto input cursor.buffer)

def bin2hexWriter : Writer :=
  ⟨nativeBin2hexOutputLength input, nativeBin2hexInto input⟩

def baselineBin2hex (input : PhpString) : Option PhpString :=
  (bin2hexWriter input).baseline debugAssertions

/-! ## Scanning decoders -/

/-- One iteration of `visit_quoted_printable_decoded`: `=\n` and `=\r\n` are soft line breaks. -/
def quotedPrintableIteration (byte : UInt8) (rest : List UInt8) : Option UInt8 × Nat :=
  if byte = 61 then
    if rest.head? = some 10 then (none, 1)
    else if rest.take 2 = [13, 10] then (none, 2)
    else
      match decodeHexPair rest with
      | some decoded => (some decoded, 2)
      | none => (some byte, 0)
  else (some byte, 0)

def quotedPrintableDecodeWriter (bytes : PhpString) : Writer :=
  visitedWriter quotedPrintableIteration bytes

def baselineQuotedPrintableDecode (bytes : PhpString) : Option PhpString :=
  (quotedPrintableDecodeWriter bytes).baseline debugAssertions

/-- One iteration of `visit_url_decoded`. -/
def urlDecodeIteration (raw : Bool) (byte : UInt8) (rest : List UInt8) : Option UInt8 × Nat :=
  match if byte = 37 then decodeHexPair rest else none with
  | some decoded => (some decoded, 2)
  | none => (some (if !raw && byte = 43 then 32 else byte), 0)

def urlDecodeWriter (raw : Bool) : Writer :=
  visitedWriter (urlDecodeIteration raw) input

def baselineUrlDecode (input : PhpString) (raw : Bool) : Option PhpString :=
  (urlDecodeWriter input raw).baseline debugAssertions

/-- One iteration of `visit_stripslashes`. A backslash at the end is dropped. -/
def stripslashesIteration (byte : UInt8) (rest : List UInt8) : Option UInt8 × Nat :=
  if byte ≠ 92 then (some byte, 0)
  else
    match rest with
    | next :: _ => (some (if next = 48 then 0 else next), 1)
    | [] => (none, 0)

def stripslashesWriter : Writer := visitedWriter stripslashesIteration input

def baselineStripslashes (input : PhpString) : Option PhpString :=
  (stripslashesWriter input).baseline debugAssertions

/-- Up to two hexadecimal digits. -/
def decodeCHexEscape (input : List UInt8) : UInt8 × Nat :=
  let digits := (input.take 2).map hexNibble |>.takeWhile Option.isSome |>.reduceOption
  (digits.foldl (fun value nibble => (value <<< 4) ||| nibble) 0, digits.length)

/-- Up to three octal digits; the value is cut to a byte. -/
def decodeCOctalEscape (input : List UInt8) : UInt8 × Nat :=
  let digits := (input.take 3).takeWhile fun byte => 48 ≤ byte && byte ≤ 55
  ((digits.foldl (fun (value : UInt16) byte => (value <<< 3) ||| (byte - 48).toUInt16) 0).toUInt8,
    digits.length)

/-- One iteration of `visit_stripcslashes`. A backslash at the end stands for itself. -/
def stripcslashesIteration (byte : UInt8) (rest : List UInt8) : Option UInt8 × Nat :=
  if byte ≠ 92 then (some byte, 0)
  else
    match rest with
    | [] => (some 92, 0)
    | next :: rest' =>
      if next = 110 then (some 10, 1)
      else if next = 114 then (some 13, 1)
      else if next = 116 then (some 9, 1)
      else if next = 118 then (some 11, 1)
      else if next = 102 then (some 12, 1)
      else if next = 97 then (some 7, 1)
      else if next = 98 then (some 8, 1)
      else if next = 120 ∨ next = 88 then
        let (decoded, consumed) := decodeCHexEscape rest'
        if consumed = 0 then (some next, 1) else (some decoded, consumed + 1)
      else if 48 ≤ next ∧ next ≤ 55 then
        let (decoded, consumed) := decodeCOctalEscape rest
        (some decoded, consumed)
      else (some next, 1)

def stripcslashesWriter : Writer := visitedWriter stripcslashesIteration input

end

def baselineStripcslashes (input : PhpString) : Option PhpString :=
  (stripcslashesWriter input).baseline debugAssertions

end

/-! ## `urlencode` -/

def isAsciiAlphanumeric (byte : UInt8) : Bool :=
  (48 ≤ byte && byte ≤ 57) || (65 ≤ byte && byte ≤ 90) || (97 ≤ byte && byte ≤ 122)

def urlByteIsUnescaped (byte : UInt8) (raw : Bool) : Bool :=
  isAsciiAlphanumeric byte || byte == 45 || byte == 95 || (!raw && byte == 46) ||
    (raw && (byte == 46 || byte == 126))

section
variable (input : PhpString) (raw : Bool)

def nativeUrlEncodeOutputLength : Option Nat := do
  let escaped := input.countP fun byte => !urlByteIsUnescaped byte raw && (raw || byte != 32)
  checkedAdd input.length (← checkedMul escaped 2)

def nativeUrlEncodeInto (output : List UInt8) : Option (Bool × List UInt8) :=
  intoSized (nativeUrlEncodeOutputLength input raw) output fun cursor => do
    let cursor ← input.foldlM (fun cursor byte =>
      if urlByteIsUnescaped byte raw then cursor.put byte
      else if !raw && byte == 32 then cursor.put 43
      else cursor.putSlice (37 :: hexPairOf hexUpper byte)) cursor
    return (true, cursor.buffer)

def urlEncodeWriter : Writer :=
  ⟨nativeUrlEncodeOutputLength input raw, nativeUrlEncodeInto input raw⟩

end

def baselineUrlEncode (debugAssertions : Bool) (input : PhpString) (raw : Bool) : Option PhpString :=
  (urlEncodeWriter input raw).baseline debugAssertions

/-! ## `addcslashes` -/

/-- One character of the list, which may be written as an escape, and how long it is. -/
def addcslashesCharlistAtom (input : List UInt8) : Option (UInt8 × Nat) :=
  match input with
  | [] => none
  | first :: rest =>
    if first ≠ 92 then some (first, 1)
    else
      match rest with
      | [] => some (92, 1)
      | next :: rest' =>
        if next = 110 then some (10, 2)
        else if next = 114 then some (13, 2)
        else if next = 116 then some (9, 2)
        else if next = 118 then some (11, 2)
        else if next = 102 then some (12, 2)
        else if next = 97 then some (7, 2)
        else if next = 98 then some (8, 2)
        else if next = 92 ∨ next = 39 ∨ next = 34 then some (next, 2)
        else if next = 120 ∨ next = 88 then
          let (decoded, consumed) := decodeCHexEscape rest'
          if consumed > 0 then some (decoded, consumed + 2) else none
        else if 48 ≤ next ∧ next ≤ 55 then
          let (decoded, consumed) := decodeCOctalEscape rest
          some (decoded, consumed + 1)
        else some (92, 1)

/-- The bytes a character list names. `fuel` bounds the number of atoms; the list's length is
enough, since an atom takes at least one byte. -/
def addcslashesCharlistLoop (escaped : UInt8 → Bool) (charlist : List UInt8) : Nat → UInt8 → Bool
  | 0 => escaped
  | fuel + 1 =>
    match addcslashesCharlistAtom charlist with
    | none => escaped
    | some (start, consumed) =>
      let afterStart := charlist.drop consumed
      match if afterStart.take 2 = [46, 46] then addcslashesCharlistAtom (afterStart.drop 2)
          else none with
      | some (last, lastConsumed) =>
        addcslashesCharlistLoop
          (fun byte => escaped byte || (if start ≤ last then start ≤ byte && byte ≤ last
            else byte == start || byte == last))
          (afterStart.drop (2 + lastConsumed)) fuel
      | none => addcslashesCharlistLoop (fun byte => escaped byte || byte == start) afterStart fuel

def addcslashesCharlist (charlist : PhpString) : UInt8 → Bool :=
  addcslashesCharlistLoop (fun _ => false) charlist charlist.length

/-- The named escapes `\n \r \t \v \f \a \b`. -/
def addcslashesNamed (byte : UInt8) : Option UInt8 :=
  if byte = 10 then some 110
  else if byte = 13 then some 114
  else if byte = 9 then some 116
  else if byte = 11 then some 118
  else if byte = 12 then some 102
  else if byte = 7 then some 97
  else if byte = 8 then some 98
  else none

def addcslashesEscapedLength (escaped : UInt8 → Bool) (byte : UInt8) : Nat :=
  if !escaped byte then 1
  else if byte = 10 ∨ byte = 13 ∨ byte = 9 ∨ byte = 11 ∨ byte = 12 ∨ byte = 7 ∨ byte = 8 ∨
      (0x20 ≤ byte ∧ byte ≤ 0x7e) then 2
  else 4

section
variable (input charlist : PhpString)

def nativeAddcslashesOutputLength : Option Nat :=
  input.foldlM (fun length byte =>
    checkedAdd length (addcslashesEscapedLength (addcslashesCharlist charlist) byte)) 0

def nativeAddcslashesInto (output : List UInt8) : Option (Bool × List UInt8) :=
  intoSized (nativeAddcslashesOutputLength input charlist) output fun cursor => do
    let cursor ← input.foldlM (fun cursor byte =>
      if !addcslashesCharlist charlist byte then cursor.put byte
      else
        match addcslashesNamed byte with
        | some letter => cursor.putSlice [92, letter]
        | none =>
          if 0x20 ≤ byte ∧ byte ≤ 0x7e then cursor.putSlice [92, byte]
          else cursor.putSlice [92, (48 : UInt8) + ((byte >>> 6) &&& 7),
            (48 : UInt8) + ((byte >>> 3) &&& 7), (48 : UInt8) + (byte &&& 7)]) cursor
    return (cursor.pos == output.length, cursor.buffer)

def addcslashesWriter : Writer :=
  ⟨nativeAddcslashesOutputLength input charlist, nativeAddcslashesInto input charlist⟩

end

def baselineAddcslashes (debugAssertions : Bool) (input charlist : PhpString) : Option PhpString :=
  (addcslashesWriter input charlist).baseline debugAssertions

/-! ## `convert_uuencode` -/

/-- `slice.chunks(size)` -/
def chunks (size : Nat) (input : List UInt8) : List (List UInt8) :=
  if _h : input = [] ∨ size = 0 then []
  else input.take size :: chunks size (input.drop size)
termination_by input.length
decreasing_by
  rw [not_or] at _h
  have := List.length_pos_iff.mpr _h.1
  rw [List.length_drop]
  omega

def uuencodeSixbit (value : UInt8) : UInt8 :=
  let encoded := (value &&& 0x3f) + 0x20
  if encoded = 0x20 then 96 else encoded

def divCeil (a b : Nat) : Nat := (a + b - 1) / b

def nativeConvertUuencodeOutputLength (input : PhpString) : Option Nat :=
  (chunks 45 input).foldlM (fun length chunk => do
    let length ← checkedAdd length 2
    checkedAdd length (← checkedMul (divCeil chunk.length 3) 4)) 2

/-- Four characters for three bytes; missing bytes are zero. -/
def uuencodeTriple (triple : List UInt8) : List UInt8 :=
  let a := triple.getD 0 0
  let b := triple.getD 1 0
  let c := triple.getD 2 0
  [uuencodeSixbit (a >>> 2), uuencodeSixbit (((a <<< 4) ||| (b >>> 4)) &&& 0x3f),
    uuencodeSixbit (((b <<< 2) ||| (c >>> 6)) &&& 0x3f), uuencodeSixbit (c &&& 0x3f)]

def nativeConvertUuencodeInto (input : PhpString) (output : List UInt8) : Option (Bool × List UInt8) :=
  intoSized (nativeConvertUuencodeOutputLength input) output fun cursor => do
    let cursor ← (chunks 45 input).foldlM (fun cursor chunk => do
      let cursor ← cursor.put (uuencodeSixbit (UInt8.ofNat chunk.length))
      let cursor ← (chunks 3 chunk).foldlM (fun cursor triple =>
        cursor.putSlice (uuencodeTriple triple)) cursor
      cursor.put 10) cursor
    -- `output[cursor..]` must have exactly the two bytes left
    if output.length = cursor.pos + 2 then
      let finished ← cursor.putSlice [96, 10]
      return (cursor.pos + 2 == output.length, finished.buffer)
    else none

def convertUuencodeWriter (input : PhpString) : Writer :=
  ⟨nativeConvertUuencodeOutputLength input, nativeConvertUuencodeInto input⟩

def baselineConvertUuencode (debugAssertions : Bool) (input : PhpString) : Option PhpString :=
  (convertUuencodeWriter input).baseline debugAssertions

/-! ## Hashes and Base64 -/

/-- The third-party crates: digests of fixed size and padded Base64 text. -/
structure Crates where
  md5 : PhpString → { digest : List UInt8 // digest.length = 16 }
  sha1 : PhpString → { digest : List UInt8 // digest.length = 20 }
  /-- `base64::encoded_len(len, true)`, which is `None` on overflow. -/
  base64EncodedLen : Nat → Option Nat
  base64Encode : PhpString → PhpString
  /-- A length that does not overflow is the length of the text. -/
  base64_length : ∀ input n, base64EncodedLen input.length = some n → (base64Encode input).length = n
  /-- The text has four characters for each started group of three bytes. -/
  base64_groups : ∀ input, (base64Encode input).length = (input.length + 2) / 3 * 4
  /-- The alphabet and the padding are printable ASCII. -/
  base64_printable : ∀ input, ∀ byte ∈ base64Encode input, 0x20 < byte ∧ byte < 0x7f

/-- The common body of `native_md5_into` and `native_sha1_into`. -/
def digestInto (digest : List UInt8) (length : Nat) (raw : Bool) (output : List UInt8) :
    Option (Bool × List UInt8) :=
  intoSized (some length) output fun cursor =>
    if raw then do
      let cursor ← cursor.putSlice digest
      return (true, cursor.buffer)
    else some (true, writeHexInto digest cursor.buffer)

def nativeMd5OutputLength (raw : Bool) : Nat := if raw then 16 else 32

def nativeSha1OutputLength (raw : Bool) : Nat := if raw then 20 else 40

section
variable (crates : Crates)

section
variable (input : PhpString)

def md5Writer (raw : Bool) : Writer :=
  ⟨some (nativeMd5OutputLength raw), digestInto (crates.md5 input) (nativeMd5OutputLength raw) raw⟩

def baselineMd5 (debugAssertions : Bool) (input : PhpString) (raw : Bool) : Option PhpString :=
  (md5Writer crates input raw).baseline debugAssertions

def sha1Writer (raw : Bool) : Writer :=
  ⟨some (nativeSha1OutputLength raw), digestInto (crates.sha1 input) (nativeSha1OutputLength raw) raw⟩

def baselineSha1 (debugAssertions : Bool) (input : PhpString) (raw : Bool) : Option PhpString :=
  (sha1Writer crates input raw).baseline debugAssertions

def nativeBase64EncodeOutputLength : Option Nat :=
  crates.base64EncodedLen input.length

/-- `encode_slice` fails when the text does not fit. -/
def nativeBase64EncodeInto (output : List UInt8) : Option (Bool × List UInt8) :=
  intoSized (nativeBase64EncodeOutputLength crates input) output fun cursor =>
    match cursor.putSlice (crates.base64Encode input) with
    | some cursor => some (cursor.pos == output.length, cursor.buffer)
    | none => some (false, output)

def base64EncodeWriter : Writer :=
  ⟨nativeBase64EncodeOutputLength crates input, nativeBase64EncodeInto crates input⟩

end

def baselineBase64Encode (debugAssertions : Bool) (input : PhpString) : Option PhpString :=
  (base64EncodeWriter crates input).baseline debugAssertions

end

/-! ## Hexadecimal values of `unpack` -/

def hexDigit (nibble : UInt8) : UInt8 := if nibble ≤ 9 then 48 + nibble else 97 + (nibble - 10)

/-- The nibbles of a byte, the high one first for the code `H`. -/
def unpackNibbles (code byte : UInt8) : List UInt8 :=
  let high := byte >>> 4
  let low := byte &&& 0x0f
  if code = 72 then [high, low] else [low, high]

/-- The two nested loops, over all nibbles: write digits until `count` of them are there. -/
def unpackHexLoop (count : Nat) : List UInt8 → Cursor → Option (Bool × List UInt8)
  | [], cursor => some (cursor.pos == count, cursor.buffer)
  | nibble :: nibbles, cursor =>
    if cursor.pos = count then some (true, cursor.buffer)
    else do unpackHexLoop count nibbles (← cursor.put (hexDigit nibble))

def nativeUnpackHexInto (code : UInt8) (input : PhpString) (count : Nat) (output : List UInt8) :
    Option (Bool × List UInt8) :=
  if (code ≠ 104 ∧ code ≠ 72) ∨ output.length ≠ count ∨ input.length < divCeil count 2 then
    some (false, output)
  else unpackHexLoop count (input.flatMap (unpackNibbles code)) ⟨output, 0⟩

/-- A hexadecimal result as `visit_native_unpack` emits it: its input is exactly the bytes that
`count` digits need. -/
structure UnpackHex where
  code : UInt8
  input : PhpString
  count : Nat
  code_eq : code = 104 ∨ code = 72
  input_length : input.length = divCeil count 2

def unpackHexWriter (value : UnpackHex) : Writer :=
  ⟨some value.count, nativeUnpackHexInto value.code value.input value.count⟩

/-- The string is filled in place, in a range of the string arena that still holds `reserved`. -/
def exactNativeUnpackHex (debugAssertions : Bool) (value : UnpackHex) (reserved : List UInt8) :
    Option PhpString := (unpackHexWriter value).fill debugAssertions reserved

end Phrust
