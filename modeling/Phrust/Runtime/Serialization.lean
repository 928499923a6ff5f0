import Phrust.Runtime.NumericText
import Phrust.Theory.Reading
import Phrust.Vm.ClassTables

/-!
# Serialization

`serialize`, `unserialize` and `unserialize_prefix`. An array is the list of its entries in order and
an object the list of its properties; the contents of references are kept apart, since references may
be shared and may form cycles. Offsets are `usize` values: an addition that overflows panics if the
build checks for overflow and wraps round if it does not.
-/

namespace Phrust
namespace Serialization

def defaultMaxDepth : Nat := 64

def defaultMaxItems : Nat := 16384

def defaultMaxBytes : Nat := 1048576

/-- Security and compatibility limits for `unserialize`. -/
structure UnserializeOptions where
  maxDepth : Nat
  maxItems : Nat
  maxBytes : Nat
  isUsize : maxDepth < usizeLimit ∧ maxItems < usizeLimit ∧ maxBytes < usizeLimit

def UnserializeOptions.default : UnserializeOptions :=
  ⟨defaultMaxDepth, defaultMaxItems, defaultMaxBytes, by decide⟩

def textBytes (text : String) : PhpString := text.toUTF8.data.toList

structure SerializationError where
  message : PhpString
  deriving DecidableEq

def SerializationError.new (message : String) : SerializationError := ⟨textBytes message⟩

inductive Value (F : Type) where
  | null
  | uninitialized
  | bool (value : Bool)
  | int (value : Int)
  | float (value : F)
  | string (bytes : PhpString)
  | array (entries : List (ArrayKey × Value F))
  | object (className displayName : PhpString) (debugLabels : List (PhpString × PhpString))
    (properties : List (PhpString × Value F))
  | fiber
  | generator
  | callable
  | resource (id : Nat)
  | reference (id : Nat)

/-- What the environment answers: whether additions are checked, the classification of numeric string
keys, floats, and `String::from_utf8_lossy`. -/
structure Env (F : Type) where
  overflowChecks : Bool
  classifyArrayKey : PhpString → NumericStringArrayKey
  floats : FloatOps F
  serializeFloat : F → Int → PhpString
  phpFloatToInt : F → Int
  fromUtf8Lossy : PhpString → PhpString

/-- Overwrite the entry of a key in its place, or append a new one. -/
def insertEntry [DecidableEq κ] (entries : List (κ × ν)) (key : κ) (value : ν) : List (κ × ν) :=
  if key ∈ entries.map Prod.fst then
    entries.map fun entry => if entry.1 = key then (key, value) else entry
  else entries ++ [(key, value)]

variable {F : Type} (env : Env F)

/-! ## Array keys -/

def fromPhpString (value : PhpString) : ArrayKey :=
  match env.classifyArrayKey value with
  | .integer key => .int key
  | .string => .string value

def fromValue : Value F → Option ArrayKey
  | .int value => some (.int value)
  | .bool false => some (.int 0)
  | .bool true => some (.int 1)
  | .null | .uninitialized => some (.string [])
  | .float value => some (.int (env.phpFloatToInt value))
  | .string value => some (fromPhpString env value)
  | .resource id => if (id : Int) ≤ i64Max then some (.int id) else none
  | .array _ | .object .. | .fiber | .generator | .callable | .reference _ => none

/-! ## Class names -/

def displayClassName (name : PhpString) : PhpString :=
  let name := name.dropWhile (· == 92)
  if name.map toAsciiLowercase = textBytes "stdclass" then textBytes "stdClass" else name

/-! ## Writing -/

structure Serializer where
  output : PhpString
  activeReferences : List Nat
  serializePrecision : Int

def Serializer.extend (writer : Serializer) (bytes : PhpString) : Serializer :=
  { writer with output := writer.output ++ bytes }

/-- `value.to_string()` of an integer -/
def decimalText (value : Int) : PhpString := textBytes (toString value)

/-- `s:{len}:"{bytes}";` -/
def quoted (bytes : PhpString) : PhpString :=
  [115, 58] ++ decimalText bytes.length ++ [58, 34] ++ bytes ++ [34, 59]

def writeKey (writer : Serializer) : ArrayKey → Serializer
  | .int value => writer.extend ([105, 58] ++ decimalText value ++ [59])
  | .string value => writer.extend (quoted value)

/-- The text after `marker`, if the text starts with it. -/
def stripMarker (marker text : PhpString) : Option PhpString :=
  if text.take marker.length = marker then some (text.drop marker.length) else none

/-- `text.split_once(separator)` -/
def splitOnce (separator : UInt8) (text : PhpString) : Option (PhpString × PhpString) :=
  if separator ∈ text then
    some (text.takeWhile (· != separator), (text.dropWhile (· != separator)).tail)
  else none

def propertyDebugLabel (debugLabels : List (PhpString × PhpString)) (name : PhpString) : PhpString :=
  match debugLabels.find? (·.1 = name) with
  | some (_, label) => label
  | none => [34] ++ name ++ [34]

def serializedObjectPropertyName (debugLabels : List (PhpString × PhpString))
    (storageName : PhpString) : PhpString :=
  match (stripMarker (textBytes "private:") storageName).bind (splitOnce 58) with
  | some (owner, name) => [0] ++ owner ++ [0] ++ name
  | none =>
    let suffix := textBytes "\":protected"
    match (stripMarker [34] (propertyDebugLabel debugLabels storageName)).bind fun rest =>
      (stripMarker suffix.reverse rest.reverse).map List.reverse with
    | some name => [0, 42, 0] ++ name
    | none => storageName

def getProperty (properties : List (PhpString × Value F)) (name : String) : Option (Value F) :=
  (properties.find? (·.1 = textBytes name)).map Prod.snd

def hashContextSerializationError (className : PhpString) (properties : List (PhpString × Value F)) :
    Option SerializationError :=
  if normalizeClassName className ≠ normalizeClassName (textBytes "HashContext") then none
  else
    let hmac : Bool := match getProperty properties "__phrust_hash_flags" with
      | some (.int flags) => flags % 2 != 0
      | _ => false
    let finalized : Bool := match getProperty properties "__phrust_hash_finalized" with
      | some (.bool value) => value
      | _ => false
    if hmac then some (.new "HashContext with HASH_HMAC option cannot be serialized")
    else if finalized then
      let algorithm := match getProperty properties "__phrust_hash_algorithm" with
        | some (.string algorithm) => env.fromUtf8Lossy algorithm
        | _ => []
      some ⟨textBytes "HashContext for algorithm \"" ++ algorithm ++ textBytes "\" cannot be serialized"⟩
    else none

def objectSerializationError (className displayName : PhpString)
    (properties : List (PhpString × Value F)) : Option SerializationError :=
  if normalizeClassName className = normalizeClassName (textBytes "XMLParser") then
    some ⟨textBytes "Serialization of '" ++ displayName ++ textBytes "' is not allowed"⟩
  else hashContextSerializationError env className properties

/-- `write` writes a value one level deeper. -/
def writeObjectProperties (write : Serializer → Value F → Except SerializationError Serializer)
    (writer : Serializer) (displayName : PhpString) (debugLabels : List (PhpString × PhpString))
    (properties : List (PhpString × Value F)) : Except SerializationError Serializer := do
  let writer := writer.extend ([79, 58] ++ decimalText displayName.length ++ [58, 34] ++
    displayName ++ [34, 58] ++ decimalText properties.length ++ [58, 123])
  let writer ← properties.foldlM (fun writer (name, property) => do
    let writer ← write writer (.string (serializedObjectPropertyName debugLabels name))
    write writer property) writer
  return writer.extend [125]

/-- `cells` holds the contents of the references. -/
def writeValue (cells : Nat → Value F) (writer : Serializer) (value : Value F) (depth : Nat) :
    Except SerializationError Serializer :=
  if _h : depth > defaultMaxDepth then .error (.new "serialization depth limit exceeded")
  else
    match value with
    | .null | .uninitialized => .ok (writer.extend [78, 59])
    | .bool false => .ok (writer.extend [98, 58, 48, 59])
    | .bool true => .ok (writer.extend [98, 58, 49, 59])
    | .int value => .ok (writer.extend ([105, 58] ++ decimalText value ++ [59]))
    | .float value =>
      .ok (writer.extend ([100, 58] ++ env.serializeFloat value writer.serializePrecision ++ [59]))
    | .string bytes => .ok (writer.extend (quoted bytes))
    | .array entries => do
      let writer := writer.extend ([97, 58] ++ decimalText entries.length ++ [58, 123])
      let writer ← entries.foldlM (fun writer (key, element) =>
        writeValue cells (writeKey writer key) element (depth + 1)) writer
      return writer.extend [125]
    | .object className displayName debugLabels properties =>
      match objectSerializationError env className displayName properties with
      | some error => .error error
      | none => writeObjectProperties (fun writer value => writeValue cells writer value (depth + 1))
          writer displayName debugLabels properties
    | .fiber | .generator | .callable =>
      .error (.new "serialization for this object-like runtime value is not implemented")
    | .resource _ => .ok (writer.extend [105, 58, 48, 59])
    | .reference id =>
      if id ∈ writer.activeReferences then .ok (writer.extend [78, 59])
      else do
        let active := { writer with activeReferences := writer.activeReferences ++ [id] }
        let writer ← writeValue cells active (cells id) (depth + 1)
        return { writer with activeReferences := writer.activeReferences.dropLast }
termination_by defaultMaxDepth + 1 - depth
decreasing_by all_goals omega

def serializeWithPrecision (cells : Nat → Value F) (value : Value F) (serializePrecision : Int) :
    Except SerializationError PhpString :=
  (writeValue env cells ⟨[], [], serializePrecision⟩ value 0).map Serializer.output

def serialize (cells : Nat → Value F) (value : Value F) : Except SerializationError PhpString :=
  serializeWithPrecision env cells value (-1)

/-! ## Reading -/

structure Parser where
  bytes : PhpString
  offset : Nat
  options : UnserializeOptions
  parsedItems : Nat

abbrev ParserM := Reading SerializationError Parser

/-- `left + right` on `usize` -/
def addUsize (left right : Nat) : Option Nat :=
  if left + right < usizeLimit then some (left + right)
  else if env.overflowChecks then none
  else some (left + right - usizeLimit)

/-- `&bytes[start..stop]` -/
def slice (bytes : PhpString) (start stop : Nat) : Option PhpString :=
  if start ≤ stop ∧ stop ≤ bytes.length then some ((bytes.drop start).take (stop - start)) else none

/-- The sign that `parse::<usize>` allows. -/
def stripPlus : PhpString → PhpString
  | 43 :: digits => digits
  | text => text

/-- `text.parse::<usize>().ok()` -/
def parseUsize (text : PhpString) : Option Nat :=
  let digits := stripPlus text
  let value : Nat := digits.foldl (fun n digit => n * 10 + (digit.toNat - 48)) 0
  if digits ≠ [] ∧ digits.all isAsciiDigit = true ∧ value < usizeLimit then some value else none

/-- `self.offset += count` -/
def advance (count : Nat) : ParserM Unit := do
  let parser ← get
  let offset ← Reading.unwrap (addUsize env parser.offset count)
  set { parser with offset }

def takeByte : ParserM UInt8 := do
  let parser ← get
  match parser.bytes[parser.offset]? with
  | none => throw (.new "unexpected end of serialized input")
  | some byte => do
    advance env 1
    return byte

def expect (expected : UInt8) : ParserM Unit := do
  let actual ← takeByte env
  if actual = expected then return ()
  else
    throw ⟨textBytes "expected byte `" ++ [expected] ++ textBytes "` in serialized input"⟩

def takeBool : ParserM Bool := do
  match ← takeByte env with
  | 48 => return false
  | 49 => return true
  | _ => throw (.new "invalid serialized bool")

/-- The loop of `take_ascii_until`, which ends with the input at the latest. -/
def skipUntil (delimiter : UInt8) : Nat → ParserM Unit
  | 0 => return ()
  | remaining + 1 => do
    let parser ← get
    if parser.offset < parser.bytes.length ∧ parser.bytes[parser.offset]? ≠ some delimiter then do
      advance env 1
      skipUntil delimiter remaining
    else return ()

def takeAsciiUntil (delimiter : UInt8) : ParserM PhpString := do
  let start ← get
  skipUntil env delimiter (start.bytes.length - start.offset)
  let parser ← get
  if parser.offset ≥ parser.bytes.length then throw (.new "unterminated serialized scalar")
  else
    let text ← Reading.unwrap (slice parser.bytes start.offset parser.offset)
    if isUtf8 text = true then
      advance env 1
      return text
    else throw (.new "serialized scalar is not ASCII")

def parsed (value : Option α) (message : String) : ParserM α :=
  match value with
  | some value => return value
  | none => throw (.new message)

def takeI64Until (delimiter : UInt8) : ParserM Int := do
  let text ← takeAsciiUntil env delimiter
  parsed (parseI64 text) "invalid serialized integer"

def takeUsizeUntil (delimiter : UInt8) : ParserM Nat := do
  let text ← takeAsciiUntil env delimiter
  parsed (parseUsize text) "invalid serialized length"

def takeF64Until (delimiter : UInt8) : ParserM F := do
  let text ← takeAsciiUntil env delimiter
  parsed (parseF64 env.floats text) "invalid serialized float"

def takeQuotedBytes (length : Nat) : ParserM PhpString := do
  expect env 34
  let parser ← get
  let stop ← Reading.unwrap (addUsize env parser.offset length)
  if stop > parser.bytes.length then throw (.new "serialized string length exceeds input")
  else
    let value ← Reading.unwrap (slice parser.bytes parser.offset stop)
    advance env length
    expect env 34
    return value

def countItems (count : Nat) : ParserM Unit := do
  let parser ← get
  match checkedAdd parser.parsedItems count with
  | none => throw (.new "serialized item count overflow")
  | some parsedItems => do
    set { parser with parsedItems }
    if parsedItems > parser.options.maxItems then
      throw (.new "serialized input exceeds item limit")
    else return ()

def parseString : ParserM PhpString := do
  expect env 58
  let length ← takeUsizeUntil env 58
  let value ← takeQuotedBytes env length
  expect env 59
  return value

/-- How a container takes its entries: the check of a key before its value is read, and the entry
made of both. -/
structure Container (F A : Type) where
  checkKey : Value F → Except SerializationError Unit
  add : A → Value F → Value F → Except SerializationError A

def raise (result : Except SerializationError α) : ParserM α :=
  match result with
  | .ok value => return value
  | .error error => throw error

/-- The loop over the entries of a container. `parse` reads a value one level deeper. -/
def parseEntries (container : Container F A) (parse : ParserM (Value F)) : Nat → A → ParserM A
  | 0, entries => return entries
  | count + 1, entries => do
    let key ← parse
    raise (container.checkKey key)
    let value ← parse
    let entries ← raise (container.add entries key value)
    parseEntries container parse count entries

def arrayContainer : Container F (List (ArrayKey × Value F)) where
  checkKey _ := .ok ()
  add entries key value :=
    match fromValue env key with
    | some key => .ok (insertEntry entries key value)
    | none => .error (.new "invalid serialized array key")

def objectContainer : Container F (List (PhpString × Value F)) where
  checkKey
    | .string _ => .ok ()
    | _ => .error (.new "serialized object property name must be a string")
  add properties name property :=
    match name with
    | .string name => .ok (insertEntry properties (env.fromUtf8Lossy name) property)
    | _ => .error (.new "serialized object property name must be a string")

section
variable (parse : ParserM (Value F))

def parseArray : ParserM (Value F) := do
  expect env 58
  let length ← takeUsizeUntil env 58
  countItems length
  expect env 123
  let entries ← parseEntries (arrayContainer env) parse length []
  expect env 125
  return .array entries

def parseObject : ParserM (Value F) := do
  expect env 58
  let classLen ← takeUsizeUntil env 58
  let className ← takeQuotedBytes env classLen
  expect env 58
  let length ← takeUsizeUntil env 58
  countItems length
  expect env 123
  let properties ← parseEntries (objectContainer env) parse length []
  expect env 125
  let className := env.fromUtf8Lossy className
  return .object (normalizeClassName className) (displayClassName className) [] properties

/-- The record after its type tag. `parse` reads a value one level deeper. -/
def parseTagged (tag : UInt8) : ParserM (Value F) :=
  match tag with
  | 78 => do
    expect env 59
    return .null
  | 98 => do
    expect env 58
    let value ← takeBool env
    expect env 59
    return .bool value
  | 105 => do
    expect env 58
    let value ← takeI64Until env 59
    return .int value
  | 100 => do
    expect env 58
    let value ← takeF64Until env 59
    return .float value
  | 115 => do
    let value ← parseString env
    return .string value
  | 97 => parseArray env parse
  | 79 => parseObject env parse
  | 82 | 114 => throw (.new "serialized reference records are a standard-library known gap")
  | _ => throw (.new "unsupported serialized type tag")

end

/-- `fuel` bounds the nesting. Every level of it reads a byte, so more fuel than bytes are left never
runs out. -/
def parseValue : Nat → Nat → ParserM (Value F)
  | 0, _ => Reading.unwrap none
  | fuel + 1, depth => do
    let parser ← get
    if depth > parser.options.maxDepth then throw (.new "serialized value exceeds depth limit")
    else
      let tag ← takeByte env
      parseTagged env (do
        let depth ← Reading.unwrap (addUsize env depth 1)
        parseValue fuel depth) tag

variable (input : PhpString) (options : UnserializeOptions)

/-- The value at the start of the input and the parser behind it. -/
def parseInput : Option (Except SerializationError (Value F × Parser)) :=
  if input.length > options.maxBytes then
    some (.error (.new "serialized input exceeds byte limit"))
  else parseValue env (input.length + 1) 0 ⟨input, 0, options, 0⟩

def unserialize : Option (Except SerializationError (Value F)) :=
  (parseInput env input options).map fun
    | .error error => .error error
    | .ok (value, parser) =>
      if parser.offset ≠ parser.bytes.length then
        .error (.new "trailing bytes after serialized value")
      else .ok value

def unserializePrefix : Option (Except SerializationError (Value F × Nat)) :=
  (parseInput env input options).map fun
    | .error error => .error error
    | .ok (value, parser) => .ok (value, parser.offset)

end Serialization
end Phrust
