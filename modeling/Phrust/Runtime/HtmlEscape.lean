import Phrust.Runtime.StringWriters

/-!
# HTML escaping

`visit_html_escape` of `php_runtime/src/builtins/modules/core/encoding.rs` and its two wrappers. The
flags are the bits of an `i64`.
-/

namespace Phrust

def asciiBytes (text : String) : PhpString := text.toList.map fun c => UInt8.ofNat c.toNat

/-- The named entities of `html4_named_entity`, by code point. -/
def html4Entities : List (Nat × String) :=
  [(0x00a0, "nbsp"), (0x00a1, "iexcl"), (0x00a2, "cent"), (0x00a3, "pound"), (0x00a4, "curren"),
   (0x00a5, "yen"), (0x00a6, "brvbar"), (0x00a7, "sect"), (0x00a8, "uml"), (0x00a9, "copy"),
   (0x00aa, "ordf"), (0x00ab, "laquo"), (0x00ac, "not"), (0x00ad, "shy"), (0x00ae, "reg"),
   (0x00af, "macr"), (0x00b0, "deg"), (0x00b1, "plusmn"), (0x00b2, "sup2"), (0x00b3, "sup3"),
   (0x00b4, "acute"), (0x00b5, "micro"), (0x00b6, "para"), (0x00b7, "middot"), (0x00b8, "cedil"),
   (0x00b9, "sup1"), (0x00ba, "ordm"), (0x00bb, "raquo"), (0x00bc, "frac14"), (0x00bd, "frac12"),
   (0x00be, "frac34"), (0x00bf, "iquest"), (0x00c0, "Agrave"), (0x00c1, "Aacute"),
   (0x00c2, "Acirc"), (0x00c3, "Atilde"), (0x00c4, "Auml"), (0x00c5, "Aring"), (0x00c6, "AElig"),
   (0x00c7, "Ccedil"), (0x00c8, "Egrave"), (0x00c9, "Eacute"), (0x00ca, "Ecirc"),
   (0x00cb, "Euml"), (0x00cc, "Igrave"), (0x00cd, "Iacute"), (0x00ce, "Icirc"), (0x00cf, "Iuml"),
   (0x00d0, "ETH"), (0x00d1, "Ntilde"), (0x00d2, "Ograve"), (0x00d3, "Oacute"),
   (0x00d4, "Ocirc"), (0x00d5, "Otilde"), (0x00d6, "Ouml"), (0x00d7, "times"),
   (0x00d8, "Oslash"), (0x00d9, "Ugrave"), (0x00da, "Uacute"), (0x00db, "Ucirc"),
   (0x00dc, "Uuml"), (0x00dd, "Yacute"), (0x00de, "THORN"), (0x00df, "szlig"),
   (0x00e0, "agrave"), (0x00e1, "aacute"), (0x00e2, "acirc"), (0x00e3, "atilde"),
   (0x00e4, "auml"), (0x00e5, "aring"), (0x00e6, "aelig"), (0x00e7, "ccedil"),
   (0x00e8, "egrave"), (0x00e9, "eacute"), (0x00ea, "ecirc"), (0x00eb, "euml"),
   (0x00ec, "igrave"), (0x00ed, "iacute"), (0x00ee, "icirc"), (0x00ef, "iuml"), (0x00f0, "eth"),
   (0x00f1, "ntilde"), (0x00f2, "ograve"), (0x00f3, "oacute"), (0x00f4, "ocirc"),
   (0x00f5, "otilde"), (0x00f6, "ouml"), (0x00f7, "divide"), (0x00f8, "oslash"),
   (0x00f9, "ugrave"), (0x00fa, "uacute"), (0x00fb, "ucirc"), (0x00fc, "uuml"),
   (0x00fd, "yacute"), (0x00fe, "thorn"), (0x00ff, "yuml"), (0x20ac, "euro")]

/-- `&name;` -/
def entityText (name : PhpString) : PhpString := 38 :: (name ++ [59])

def html4NamedEntity (character : Nat) : Option PhpString :=
  (html4Entities.find? (·.1 = character)).map fun entity => entityText (asciiBytes entity.2)

inductive HtmlDocumentType where
  | html401
  | xml1
  | xhtml
  | html5
  deriving DecidableEq, Repr

def htmlDocumentType (flags : BitVec 64) : HtmlDocumentType :=
  if flags &&& 48 = 16 then .xml1
  else if flags &&& 48 = 32 then .xhtml
  else if flags &&& 48 = 48 then .html5
  else .html401

/-- `&#039;` or `&apos;` -/
def htmlTranslationSingleQuoteEntity : HtmlDocumentType → PhpString
  | .html401 => [38, 35, 48, 51, 57, 59]
  | _ => [38, 97, 112, 111, 115, 59]

def isHtml4NamedEntity (name : PhpString) : Bool := html4Entities.any fun entity =>
  asciiBytes entity.2 == name

/-- What is behind `leading`, as `strip_prefix`. -/
def stripLeading (leading bytes : PhpString) : Option PhpString :=
  if leading.isPrefixOf bytes then some (bytes.drop leading.length) else none

def isAsciiDigit (byte : UInt8) : Bool := 48 ≤ byte && byte ≤ 57

/-- The length of the entity at the start of the bytes. -/
def validHtmlEntityLen (bytes : PhpString) (flags : BitVec 64) : Option Nat := do
  let semicolon ← bytes.findIdx? (· == 59)
  if semicolon < 3 then none
  else
    let entity := (bytes.take semicolon).drop 1
    let decimal := (stripLeading [35] entity).any fun digits =>
      !digits.isEmpty && digits.all isAsciiDigit
    let hex := ((stripLeading [35, 120] entity).or (stripLeading [35, 88] entity)).any fun digits =>
      !digits.isEmpty && digits.all fun byte => (hexNibble byte).isSome
    let named := ["amp", "lt", "gt", "quot", "apos"].any fun name => asciiBytes name == entity
    if decimal || hex || named || (htmlDocumentType flags != .xml1 && isHtml4NamedEntity entity) then
      some (semicolon + 1)
    else none

/-! ## UTF-8 -/

def isContinuation (byte : UInt8) : Bool := 0x80 ≤ byte && byte ≤ 0xbf

/-- The first code point of well-formed UTF-8 and the number of its bytes. -/
def decodeUtf8Char : List UInt8 → Option (Nat × Nat)
  | [] => none
  | b0 :: rest =>
    if b0 < 0x80 then some (b0.toNat, 1)
    else if 0xc2 ≤ b0 ∧ b0 ≤ 0xdf then
      match rest with
      | b1 :: _ =>
        if isContinuation b1 then some ((b0.toNat - 0xc0) * 64 + (b1.toNat - 0x80), 2) else none
      | _ => none
    else if 0xe0 ≤ b0 ∧ b0 ≤ 0xef then
      match rest with
      | b1 :: b2 :: _ =>
        if isContinuation b1 ∧ isContinuation b2 ∧ (b0 = 0xe0 → 0xa0 ≤ b1) ∧
            (b0 = 0xed → b1 ≤ 0x9f) then
          some ((b0.toNat - 0xe0) * 4096 + (b1.toNat - 0x80) * 64 + (b2.toNat - 0x80), 3)
        else none
      | _ => none
    else if 0xf0 ≤ b0 ∧ b0 ≤ 0xf4 then
      match rest with
      | b1 :: b2 :: b3 :: _ =>
        if isContinuation b1 ∧ isContinuation b2 ∧ isContinuation b3 ∧ (b0 = 0xf0 → 0x90 ≤ b1) ∧
            (b0 = 0xf4 → b1 ≤ 0x8f) then
          some ((b0.toNat - 0xf0) * 262144 + (b1.toNat - 0x80) * 4096 + (b2.toNat - 0x80) * 64 +
            (b3.toNat - 0x80), 4)
        else none
      | _ => none
    else none

/-- `std::str::from_utf8` succeeds. -/
def isUtf8 (bytes : List UInt8) : Bool :=
  match bytes with
  | [] => true
  | byte :: rest =>
    match decodeUtf8Char (byte :: rest) with
    | none => false
    | some (_, size) => isUtf8 (rest.drop (size - 1))
termination_by bytes.length
decreasing_by simp only [List.length_drop, List.length_cons]; omega

/-! ## Escaping -/

/-- The entity of a multi-byte character at the start of bytes that are all UTF-8, and its length. -/
def html4EntityAt (bytes : PhpString) : Option (PhpString × Nat) :=
  if isUtf8 bytes then do
    let (character, size) ← decodeUtf8Char bytes
    if size > 1 then
      let entity ← html4NamedEntity character
      return (entity, size)
    else none
  else none

/-- One iteration of `visit_html_escape`. -/
def htmlEscapeIteration (flags : BitVec 64) (doubleEncode allEntities : Bool) (byte : UInt8)
    (rest : List UInt8) : Option PhpString × Nat :=
  if byte = 38 then
    match if doubleEncode then none else validHtmlEntityLen (byte :: rest) flags with
    | some entityLength => (some ((byte :: rest).take entityLength), entityLength - 1)
    | none => (some (entityText (asciiBytes "amp")), 0)
  else if byte = 60 then (some (entityText (asciiBytes "lt")), 0)
  else if byte = 62 then (some (entityText (asciiBytes "gt")), 0)
  else if byte = 34 ∧ flags &&& 2 ≠ 0 then (some (entityText (asciiBytes "quot")), 0)
  else if byte = 39 ∧ flags &&& 1 ≠ 0 then
    (some (if allEntities then htmlTranslationSingleQuoteEntity (htmlDocumentType flags)
      else [38, 35, 48, 51, 57, 59]), 0)
  else
    match if allEntities then html4EntityAt (byte :: rest) else none with
    | some (entity, size) => (some entity, size - 1)
    | none => (some [byte], 0)

/-- The loop with its callback; the length is added up with overflow checks, after each emit. -/
def visitHtmlEscape (flags : BitVec 64) (doubleEncode allEntities : Bool)
    (emit : σ → List UInt8 → Option σ) : List UInt8 → Nat → σ → Option (Option Nat × σ)
  | [], length, state => some (some length, state)
  | byte :: rest, length, state => do
    let step := htmlEscapeIteration flags doubleEncode allEntities byte rest
    let encoded := step.1.getD []
    let state ← emit state encoded
    match checkedAdd length encoded.length with
    | none => return (none, state)
    | some length =>
      visitHtmlEscape flags doubleEncode allEntities emit (rest.drop step.2) length state
termination_by input => input.length
decreasing_by simp only [List.length_drop, List.length_cons]; omega

section
variable (bytes : PhpString) (flags : BitVec 64) (doubleEncode allEntities : Bool)

def directHtmlEscapeOutputLength : Option Nat :=
  (visitHtmlEscape flags doubleEncode allEntities (fun (_ : Unit) _ => some ()) bytes 0 ()).bind
    Prod.fst

def directHtmlEscapeInto (output : List UInt8) : Option (Bool × List UInt8) :=
  intoSized (directHtmlEscapeOutputLength bytes flags doubleEncode allEntities) output
    fun cursor => do
      let (length, cursor) ←
        visitHtmlEscape flags doubleEncode allEntities Cursor.putSlice bytes 0 cursor
      return (length == some output.length && cursor.pos == output.length, cursor.buffer)

def htmlEscapeWriter : Writer :=
  ⟨directHtmlEscapeOutputLength bytes flags doubleEncode allEntities,
    directHtmlEscapeInto bytes flags doubleEncode allEntities⟩

end

variable (debugAssertions : Bool) (bytes : PhpString) (flags : BitVec 64) (doubleEncode : Bool)

def htmlEscapeWithOptions : Option PhpString :=
  (htmlEscapeWriter bytes flags doubleEncode false).baseline debugAssertions

def htmlentitiesEscapeWithOptions : Option PhpString :=
  (htmlEscapeWriter bytes flags doubleEncode true).baseline debugAssertions

end Phrust
