import Phrust.Runtime.PhpArray
import Phrust.Runtime.HtmlEscape

/-!
# Request input arrays

How `$_GET`, `$_POST`, `$_REQUEST` and `$_FILES` are built from the fields of a request. A Rust
string is given by its UTF-8 bytes; the characters that are looked at are ASCII. `none` is a panic.
-/

namespace Phrust

/-- The values that occur in request input. -/
inductive Value where
  | string (bytes : PhpString)
  | int (value : Int)
  | array (array : PhpArray Value)

namespace Value

def isArray : Value → Bool
  | array _ => true
  | _ => false

instance : ValueKind Value where
  isReference _ := false
  isInt
    | int _ => true
    | _ => false

end Value

/-- The integer of a canonical decimal spelling: no sign but `-`, no leading zero, no `-0`. This is
what key classification computes behind its cache. -/
def arrayKeyIntegerBytes (value : PhpString) : Option Int :=
  let (negative, digits) :=
    match value with
    | 45 :: digits => (true, digits)
    | _ => (false, value)
  if digits.isEmpty || !digits.all isAsciiDigit then none
  else if digits.length > 1 && digits.head? == some 48 then none
  else
    let magnitude : Nat := digits.foldl (fun n digit => n * 10 + (digit.toNat - 48)) 0
    let value : Int := if negative then -magnitude else magnitude
    if negative && value == 0 then none
    else if i64Min ≤ value ∧ value ≤ i64Max then some value
    else none

/-- Key classification answers with an `i64`. -/
structure InputEnv extends Env where
  classify_i64 : ∀ name value, classifyArrayKey name = .integer value →
    i64Min ≤ value ∧ value ≤ i64Max

theorem arrayKeyIntegerBytes_i64 (h : arrayKeyIntegerBytes name = some value) :
    i64Min ≤ value ∧ value ≤ i64Max := by
  simp only [arrayKeyIntegerBytes] at h
  split_ifs at h with _ _ _ hrange <;> cases h <;> assumption

/-- Classification without its cache; no key has another owner. -/
def InputEnv.plain : InputEnv where
  classifyArrayKey name :=
    match arrayKeyIntegerBytes name with
    | some value => .integer value
    | none => .string
  isShared _ := false
  soleShapeOwner := true
  classify_i64 name value h := by
    cases hname : arrayKeyIntegerBytes name with
    | none => rw [hname] at h; cases h
    | some key =>
      rw [hname] at h
      cases h
      exact arrayKeyIntegerBytes_i64 hname

inductive RuntimeInputFilter where
  | unsafeRaw
  | stripped
  | specialChars
  deriving DecidableEq, Repr

/-- The options that input arrays depend on. -/
structure RuntimeIniOptions where
  maxInputVars : Nat
  maxInputNestingLevel : Nat
  defaultInputFilter : RuntimeInputFilter
  defaultInputFilterFlags : BitVec 64

structure RuntimeUploadedFile where
  fieldName : PhpString
  clientFilename : PhpString
  contentType : PhpString
  tempPath : PhpString
  error : Int
  size : BitVec 64

inductive InputKeySegment where
  | key (key : ArrayKey)
  | append
  deriving DecidableEq, Repr

/-! ## Value filters -/

/-- `&#NN;` -/
def numericEntity (byte : UInt8) : PhpString := asciiBytes ("&#" ++ toString byte.toNat ++ ";")

/-- The flags are strip low 4, strip high 8, encode low 16, encode high 32, encode `&` 64 and
strip backtick 512. -/
def filterUnsafeRawInput (value : PhpString) (flags : BitVec 64) : PhpString :=
  if flags &&& 636 = 0 then value
  else value.flatMap fun byte =>
    if (flags &&& 4 ≠ 0 ∧ byte < 0x20) ∨ (flags &&& 8 ≠ 0 ∧ byte ≥ 0x7f) ∨
        (flags &&& 512 ≠ 0 ∧ byte = 96) then []
    else if (flags &&& 64 ≠ 0 ∧ byte = 38) ∨ (flags &&& 16 ≠ 0 ∧ byte < 0x20) ∨
        (flags &&& 32 ≠ 0 ∧ byte ≥ 0x7f) then numericEntity byte
    else [byte]

/-- Everything between `<` and `>` goes. -/
def stripInputTags (inTag : Bool) : PhpString → PhpString
  | [] => []
  | byte :: value =>
    if byte = 60 then stripInputTags true value
    else if byte = 62 ∧ inTag then stripInputTags false value
    else if !inTag then byte :: stripInputTags inTag value
    else stripInputTags inTag value

def encodeInputStripped (value : PhpString) : PhpString :=
  (stripInputTags false value).flatMap fun byte =>
    if byte = 34 ∨ byte = 39 then numericEntity byte else [byte]

def encodeInputSpecialChars (value : PhpString) : PhpString :=
  value.flatMap fun byte =>
    if byte = 34 ∨ byte = 39 ∨ byte = 60 ∨ byte = 62 ∨ byte = 38 then numericEntity byte else [byte]

/-! ## Field names -/

section
variable (env : InputEnv)

def stringKey (value : PhpString) : ArrayKey := .string value

/-- `ArrayKey::from_php_string` -/
def inputKey (value : PhpString) : ArrayKey :=
  match env.classifyArrayKey value with
  | .integer key => .int key
  | .string => .string value

/-- Blanks, dots and opening brackets of a root name become underscores. -/
def inputRootKey (value : PhpString) : ArrayKey :=
  inputKey env (value.map fun byte => if byte = 32 ∨ byte = 46 ∨ byte = 91 then 95 else byte)

/-- The bracket loop: `rest` is what is left of the field name. -/
def parseInputKeyLoop (name : PhpString) (maxNestingLevel : Nat) (segments : List InputKeySegment)
    (rest : PhpString) : Option (List InputKeySegment) :=
  match rest with
  | [] => some segments
  | byte :: tail =>
    if byte ≠ 91 then some segments
    else
      match tail.findIdx? (· == 93) with
      | none =>
        if segments.length = 1 then some [.key (inputRootKey env name)] else some segments
      | some close =>
        let part := tail.take close
        let segments := segments ++ [if part.isEmpty then .append else .key (inputKey env part)]
        if segments.length - 1 > maxNestingLevel then none
        else parseInputKeyLoop name maxNestingLevel segments (tail.drop (close + 1))
termination_by rest.length
decreasing_by simp only [List.length_drop, List.length_cons]; omega

def parseInputKeySegments (name : PhpString) (maxNestingLevel : Nat) : Option (List InputKeySegment) :=
  if name.isEmpty then none
  else
    match name.findIdx? (· == 91) with
    | none => some [.key (inputRootKey env name)]
    | some firstBracket =>
      if firstBracket = 0 then none
      else parseInputKeyLoop env name maxNestingLevel
        [.key (inputRootKey env (name.take firstBracket))] (name.drop firstBracket)

/-! ## Nested insertion -/

/-- Borrow the child array at a key and insert into it; a missing child or a child of another kind is
declared unreachable. -/
def withChildArray (array : PhpArray Value) (key : ArrayKey)
    (insert : PhpArray Value → Option (PhpArray Value × ShapeCache)) :
    Option (PhpArray Value × ShapeCache) := do
  match ← array.getMut key with
  | none => none
  | some slot =>
    match ← slot.deref with
    | .array child =>
      let (child, cache) ← insert child
      let array ← (slot.write (.array child)).drop
      return (array, cache)
    | _ => none

/-- Give the key an empty array unless it has an array already. -/
def ensureChildArray (cache : ShapeCache) (array : PhpArray Value) (key : ArrayKey)
    (initial : PhpArray Value) : Option (PhpArray Value × ShapeCache) :=
  match array.get key with
  | some (.array _) => some (array, cache)
  | _ => do
    let (_, array, cache) ← array.insert env.toEnv cache key (.array initial)
    return (array, cache)

def insertInputAt (cache : ShapeCache) (array : PhpArray Value) (value : Value) :
    List InputKeySegment → Option (PhpArray Value × ShapeCache)
  | [] => some (array, cache)
  | [.key key] => do
    let (_, array, cache) ← array.insert env.toEnv cache key value
    return (array, cache)
  | [.append] => do
    let (_, array, cache) ← array.append env.toEnv cache value
    return (array, cache)
  | .key key :: tail => do
    let (array, cache) ← ensureChildArray env cache array key .new
    withChildArray array key fun child => insertInputAt cache child value tail
  | .append :: tail => do
    let (key, array, cache) ← array.append env.toEnv cache (.array .new)
    withChildArray array key fun child => insertInputAt cache child value tail

def insertInputValue (cache : ShapeCache) (array : PhpArray Value) (segments : List InputKeySegment)
    (value : Value) : Option (PhpArray Value × ShapeCache) :=
  insertInputAt env cache array value segments

end

/-! ## The builder -/

structure InputArrayBuilder where
  remainingVars : Nat
  maxInputNestingLevel : Nat
  defaultFilter : RuntimeInputFilter
  defaultFilterFlags : BitVec 64

namespace InputArrayBuilder

def new (ini : RuntimeIniOptions) : InputArrayBuilder :=
  ⟨ini.maxInputVars, ini.maxInputNestingLevel, ini.defaultInputFilter, ini.defaultInputFilterFlags⟩

section
variable (builder : InputArrayBuilder)

/-- `none` when no variable is left. -/
def consumeVar : Option InputArrayBuilder :=
  if builder.remainingVars = 0 then none
  else some { builder with remainingVars := builder.remainingVars - 1 }

def filterValueBytes (value : PhpString) : PhpString :=
  match builder.defaultFilter with
  | .unsafeRaw => filterUnsafeRawInput value builder.defaultFilterFlags
  | .stripped => encodeInputStripped value
  | .specialChars => encodeInputSpecialChars value

def filterValue (value : PhpString) : Value :=
  .string (builder.filterValueBytes value)

end

section
variable (env : InputEnv)

def insertPairs (builder : InputArrayBuilder) (cache : ShapeCache) (array : PhpArray Value) :
    List (PhpString × PhpString) → Option (InputArrayBuilder × PhpArray Value × ShapeCache)
  | [] => some (builder, array, cache)
  | (key, value) :: pairs =>
    match builder.consumeVar with
    | none => some (builder, array, cache)
    | some builder =>
      match parseInputKeySegments env key builder.maxInputNestingLevel with
      | none => insertPairs builder cache array pairs
      | some segments => do
        let (array, cache) ← insertInputValue env cache array segments (builder.filterValue value)
        insertPairs builder cache array pairs

/-- Cookies: names are not parsed, and the first value of a name stays. -/
def insertFlatPairs (seen : List PhpString) (builder : InputArrayBuilder) (cache : ShapeCache)
    (array : PhpArray Value) :
    List (PhpString × PhpString) → Option (InputArrayBuilder × PhpArray Value × ShapeCache)
  | [] => some (builder, array, cache)
  | (key, value) :: pairs =>
    match builder.consumeVar with
    | none => some (builder, array, cache)
    | some builder =>
      if key ∈ seen then insertFlatPairs seen builder cache array pairs
      else do
        let (_, array, cache) ←
          array.insert env.toEnv cache (stringKey key) (builder.filterValue value)
        insertFlatPairs (key :: seen) builder cache array pairs

end
end InputArrayBuilder

section
variable (env : InputEnv) (ini : RuntimeIniOptions)

def inputPairsArray (cache : ShapeCache) (pairs : List (PhpString × PhpString)) :
    Option (PhpArray Value × ShapeCache) := do
  let (_, array, cache) ← (InputArrayBuilder.new ini).insertPairs env cache .new pairs
  return (array, cache)

/-- `$_REQUEST` of an HTTP request: one builder for the three lists. -/
def requestArray (cache : ShapeCache) (parsedGet parsedPost parsedCookie : List (PhpString × PhpString)) :
    Option (PhpArray Value × ShapeCache) := do
  let builder := InputArrayBuilder.new ini
  let (builder, array, cache) ← builder.insertPairs env cache .new parsedGet
  let (builder, array, cache) ← builder.insertPairs env cache array parsedPost
  let (_, array, cache) ← builder.insertFlatPairs env [] cache array parsedCookie
  return (array, cache)

end

/-! ## Uploaded files -/

/-- The attributes of an upload, in order: name, type, tmp_name, error and size. -/
def uploadedFileAttributes (file : RuntimeUploadedFile) : List (PhpString × Value) :=
  [(asciiBytes "name", .string file.clientFilename), (asciiBytes "type", .string file.contentType),
    (asciiBytes "tmp_name", .string file.tempPath), (asciiBytes "error", .int file.error),
    (asciiBytes "size", .int file.size.toInt)]

section
variable (env : InputEnv)

/-- Insert attributes in order. -/
def attributeArray (cache : ShapeCache) (array : PhpArray Value) :
    List (PhpString × Value) → Option (PhpArray Value × ShapeCache)
  | [] => some (array, cache)
  | (name, value) :: attributes => do
    let (_, array, cache) ← array.insert env.toEnv cache (stringKey name) value
    attributeArray cache array attributes

def uploadedFileEntry (cache : ShapeCache) (file : RuntimeUploadedFile) :
    Option (PhpArray Value × ShapeCache) :=
  attributeArray env cache .new (uploadedFileAttributes file)

def uploadedFileGroup (cache : ShapeCache) : Option (PhpArray Value × ShapeCache) :=
  attributeArray env cache .new
    [(asciiBytes "name", .array .new), (asciiBytes "type", .array .new),
      (asciiBytes "tmp_name", .array .new), (asciiBytes "error", .array .new),
      (asciiBytes "size", .array .new)]

def insertUploadedFileAttribute (cache : ShapeCache) (group : PhpArray Value) (name : PhpString)
    (tail : List InputKeySegment) (value : Value) : Option (PhpArray Value × ShapeCache) := do
  let (group, cache) ← ensureChildArray env cache group (stringKey name) .new
  withChildArray group (stringKey name) fun values => insertInputAt env cache values value tail

def insertUploadedFileAttributes (cache : ShapeCache) (group : PhpArray Value)
    (tail : List InputKeySegment) : List (PhpString × Value) → Option (PhpArray Value × ShapeCache)
  | [] => some (group, cache)
  | (name, value) :: attributes => do
    let (group, cache) ← insertUploadedFileAttribute env cache group name tail value
    insertUploadedFileAttributes cache group tail attributes

/-- Give the root key a group of empty attributes unless it has an array already. -/
def ensureUploadedFileGroup (cache : ShapeCache) (array : PhpArray Value) (rootKey : ArrayKey) :
    Option (PhpArray Value × ShapeCache) :=
  match array.get rootKey with
  | some (.array _) => some (array, cache)
  | _ => do
    let (group, cache) ← uploadedFileGroup env cache
    let (_, array, cache) ← array.insert env.toEnv cache rootKey (.array group)
    return (array, cache)

def insertUploadedFile (cache : ShapeCache) (array : PhpArray Value) (file : RuntimeUploadedFile) :
    List InputKeySegment → Option (PhpArray Value × ShapeCache)
  | [] | .append :: _ => some (array, cache)
  | [.key rootKey] => do
    let (entry, cache) ← uploadedFileEntry env cache file
    let (_, array, cache) ← array.insert env.toEnv cache rootKey (.array entry)
    return (array, cache)
  | .key rootKey :: tail => do
    let (array, cache) ← ensureUploadedFileGroup env cache array rootKey
    withChildArray array rootKey fun group =>
      insertUploadedFileAttributes env cache group tail (uploadedFileAttributes file)

def insertUploadedFiles (builder : InputArrayBuilder) (cache : ShapeCache) (array : PhpArray Value) :
    List RuntimeUploadedFile → Option (PhpArray Value × ShapeCache)
  | [] => some (array, cache)
  | file :: files =>
    match builder.consumeVar with
    | none => some (array, cache)
    | some builder =>
      match parseInputKeySegments env file.fieldName builder.maxInputNestingLevel with
      | none => insertUploadedFiles builder cache array files
      | some segments => do
        let (array, cache) ← insertUploadedFile env cache array file segments
        insertUploadedFiles builder cache array files

def uploadedFilesArray (ini : RuntimeIniOptions) (cache : ShapeCache)
    (files : List RuntimeUploadedFile) : Option (PhpArray Value × ShapeCache) :=
  insertUploadedFiles env (.new ini) cache .new files

end

/-! ## Superglobals -/

/-- The parsed fields and files of an HTTP request. -/
structure RuntimeHttpRequest where
  parsedGet : List (PhpString × PhpString)
  parsedPost : List (PhpString × PhpString)
  parsedCookie : List (PhpString × PhpString)
  uploadedFiles : List RuntimeUploadedFile

inductive InputSuperglobal where
  | get
  | post
  | request
  | files
  deriving DecidableEq, Repr

namespace InputSuperglobal
variable (env : InputEnv) (ini : RuntimeIniOptions)

def build (cache : ShapeCache) (request : RuntimeHttpRequest) :
    InputSuperglobal → Option (PhpArray Value × ShapeCache)
  | .get => inputPairsArray env ini cache request.parsedGet
  | .post => inputPairsArray env ini cache request.parsedPost
  | .request => requestArray env ini cache request.parsedGet request.parsedPost request.parsedCookie
  | .files => uploadedFilesArray env ini cache request.uploadedFiles

end InputSuperglobal
end Phrust
