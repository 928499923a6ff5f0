import Phrust.Runtime.NumericText
import Phrust.Theory.Memo
import Phrust.Theory.SharedHeap

/-!
# Classification of numeric strings

`classify` of `numeric_string.rs` and the cache in front of it. The cache is keyed by the address of
the string's storage, its length and a fingerprint of its bytes, so the strings live on a heap here:
handles share storages, a write separates a shared storage and changes an unshared one in place, and
the allocator may hand out the address of a freed storage again.
-/

namespace Phrust

/-! ## The classifier -/

inductive NumericStringValue (F : Type) where
  | int (value : Int)
  | float (value : F)
  deriving DecidableEq, Repr

def NumericStringValue.isFloat : NumericStringValue F → Bool
  | .int _ => false
  | .float _ => true

inductive NumericStringKind where
  | intString | floatString | leadingNumeric | nonNumeric
  deriving DecidableEq, Repr

inductive NumericStringCanonicalKind where
  | none | integer | float
  deriving DecidableEq, Repr

structure NumericString (F : Type) where
  kind : NumericStringKind
  value : Option (NumericStringValue F)
  canonical : NumericStringCanonicalKind
  overflowOrPrecisionSensitive : Bool
  deriving DecidableEq, Repr

/-- The floats, with `f64::is_finite`. -/
structure ParsedFloats (F : Type) extends FloatOps F where
  isFinite : F → Bool

/-- `u8::is_ascii_whitespace`, which the vector kernels follow: `\v` is not one of them. -/
def isAsciiWhitespace (byte : UInt8) : Bool :=
  byte == 32 || byte == 9 || byte == 10 || byte == 12 || byte == 13

section
variable (bytes : PhpString)

def asciiDigitRunLen : Nat := (bytes.takeWhile isAsciiDigit).length

def isSign (byte : Option UInt8) : Bool := byte == some 43 || byte == some 45

def isExponentMarker (byte : UInt8) : Bool := byte == 101 || byte == 69

def nonNumeric : NumericString F := ⟨.nonNumeric, none, .none, false⟩

def numericPrefixLen : Option Nat :=
  let sign := if isSign bytes.head? then 1 else 0
  let integerDigits := asciiDigitRunLen (bytes.drop sign)
  let whole := sign + integerDigits
  let fractionDigits := asciiDigitRunLen (bytes.drop (whole + 1))
  let (digits, index) :=
    if bytes[whole]? = some 46 then (integerDigits + fractionDigits, whole + 1 + fractionDigits)
    else (integerDigits, whole)
  if digits = 0 then none
  else if bytes[index]?.any isExponentMarker then
    let exponentStart := if isSign bytes[index + 1]? then index + 2 else index + 1
    let exponentDigits := asciiDigitRunLen (bytes.drop exponentStart)
    -- a marker without digits is not part of the number
    if exponentDigits = 0 then some index else some (exponentStart + exponentDigits)
  else some index

def significantDigits : Nat :=
  ((bytes.filter isAsciiDigit).dropWhile (· == 48)).length

structure ParsedNumeric (F : Type) where
  value : NumericStringValue F
  overflowOrPrecisionSensitive : Bool

def looksFloat : Bool := bytes.any fun byte => byte == 46 || isExponentMarker byte

/-- The text is ASCII, so `from_utf8` accepts it. -/
def parseNumericPrefix (ops : ParsedFloats F) (bytes : PhpString) : Option (ParsedNumeric F) :=
  if looksFloat bytes then
    (parseF64 ops.toFloatOps bytes).map fun value =>
      ⟨.float value, !ops.isFinite value || decide (15 < significantDigits bytes)⟩
  else
    match parseI64 bytes with
    | some value => some ⟨.int value, false⟩
    | none => (parseF64 ops.toFloatOps bytes).map fun value => ⟨.float value, true⟩

def canonicalIntegerValue (bytes : PhpString) : NumericStringValue F → Option Int
  | .float _ => none
  | .int value =>
    let negative := bytes.head? == some 45
    let digits := if negative then bytes.drop 1 else bytes
    if bytes.head? == some 43 || digits.isEmpty || !digits.all isAsciiDigit then none
    else if 1 < digits.length && digits.head? == some 48 then none
    else if negative && value == 0 then none
    else some value

def canonicalKind (original number : PhpString) (hasSurroundingWhitespace : Bool)
    (value : NumericStringValue F) : NumericStringCanonicalKind :=
  if hasSurroundingWhitespace || original != number then .none
  else if (canonicalIntegerValue number value).isSome then .integer
  else if value.isFloat && looksFloat number then .float
  else .none

def classify (ops : ParsedFloats F) (bytes : PhpString) : NumericString F :=
  let start := (bytes.takeWhile isAsciiWhitespace).length
  let trimmedStart := bytes.drop start
  if trimmedStart.isEmpty then nonNumeric
  else
    match numericPrefixLen trimmedStart with
    | none => nonNumeric
    | some length =>
      match parseNumericPrefix ops (trimmedStart.take length) with
      | none => nonNumeric
      | some parsed =>
        let trailing := trimmedStart.drop length
        if trailing.all isAsciiWhitespace then
          { kind := if parsed.value.isFloat then .floatString else .intString
            value := some parsed.value
            canonical := canonicalKind bytes (trimmedStart.take length)
              (start != 0 || !trailing.isEmpty) parsed.value
            overflowOrPrecisionSensitive := parsed.overflowOrPrecisionSensitive }
        else ⟨.leadingNumeric, some parsed.value, .none, parsed.overflowOrPrecisionSensitive⟩

/-! ## The cache -/

structure NumericStringCacheStats where
  classifyCalls : Nat
  hits : Nat
  misses : Nat
  warningSensitiveFallbacks : Nat
  overflowPrecisionFallbacks : Nat
  deriving DecidableEq, Repr

structure NumericStringCacheKey where
  storageId : Nat
  len : Nat
  fingerprint : UInt64
  deriving DecidableEq, Repr

/-- What a handle shows: the address of its storage and the bytes there. -/
structure StoredString where
  storageId : Nat
  bytes : PhpString
  deriving DecidableEq, Repr

/-- FNV-1a -/
def fingerprint : UInt64 :=
  bytes.foldl (fun hash byte => (hash ^^^ byte.toUInt64) * 0x100000001b3) 0xcbf29ce484222325

end

def StoredString.cacheKey (value : StoredString) : NumericStringCacheKey :=
  ⟨value.storageId, value.bytes.length, fingerprint value.bytes⟩

def cacheLimit : Nat := 4096

/-- The thread's cache and counters, and the gate of the counters. -/
structure ClassificationCache (F : Type) where
  cache : KeyMap NumericStringCacheKey (NumericString F)
  stats : NumericStringCacheStats
  statsEnabled : Bool

namespace ClassificationCache

def record (state : ClassificationCache F) (count : NumericStringCacheStats → NumericStringCacheStats) :
    ClassificationCache F :=
  if state.statsEnabled then { state with stats := count state.stats } else state

def recordSensitiveClassification (classified : NumericString F) (stats : NumericStringCacheStats) :
    NumericStringCacheStats :=
  { stats with
    warningSensitiveFallbacks := stats.warningSensitiveFallbacks +
      if classified.kind = .leadingNumeric then 1 else 0
    overflowPrecisionFallbacks := stats.overflowPrecisionFallbacks +
      if classified.overflowOrPrecisionSensitive then 1 else 0 }

/-- The answer, the cache after it, and whether the cache was full and emptied on the way. -/
def classifyPhpString (ops : ParsedFloats F) (state : ClassificationCache F) (value : StoredString) :
    NumericString F × ClassificationCache F × Bool :=
  let state := state.record fun stats => { stats with classifyCalls := stats.classifyCalls + 1 }
  match state.cache.get value.cacheKey with
  | some classified =>
    (classified, state.record fun stats =>
        recordSensitiveClassification classified { stats with hits := stats.hits + 1 },
      false)
  | none =>
    let classified := classify ops value.bytes
    let full := decide (cacheLimit ≤ state.cache.length)
    let cache := if full then [] else state.cache
    (classified,
      { state with cache := (value.cacheKey, classified) :: cache }.record fun stats =>
        recordSensitiveClassification classified { stats with misses := stats.misses + 1 },
      full)

def resetCacheAndStats (_ : ClassificationCache F) : ClassificationCache F :=
  ⟨[], ⟨0, 0, 0, 0, 0⟩, true⟩

end ClassificationCache

/-- What `classify_array_key` makes of a classification. -/
def NumericString.arrayKey (classified : NumericString F) : NumericStringArrayKey :=
  match classified.canonical, classified.value with
  | .integer, some (.int value) => .integer value
  | _, _ => .string

/-- Only these strings are looked up by `classify_array_key`. -/
def startsLikeInteger (bytes : PhpString) : Bool :=
  bytes.head?.any fun byte => byte == 45 || isAsciiDigit byte

/-- `classify_array_key` without the cache. -/
def uncachedArrayKey (ops : ParsedFloats F) (bytes : PhpString) : NumericStringArrayKey :=
  if startsLikeInteger bytes then (classify ops bytes).arrayKey else .string

/-! ## The heap of strings -/

/-- `PhpString` handles over `CompactBytes`. -/
abbrev StringHeap := SharedHeap PhpString

namespace StringHeap

def read (heap : StringHeap) (handle : Nat) : Option StoredString :=
  (heap.locate handle).map fun (address, cell) => ⟨address, cell.value⟩

def fromBytes (heap : StringHeap) (handle address : Nat) (bytes : PhpString) : Option StringHeap :=
  heap.create handle address bytes

/-- Overwrite the bytes through `bytes_mut`, which keeps the length. -/
def bytesMut (heap : StringHeap) (handle address : Nat) (bytes : PhpString) : Option StringHeap := do
  let value ← StringHeap.read heap handle
  guard (bytes.length = value.bytes.length)
  heap.write handle address bytes

end StringHeap

/-! ## Runs -/

inductive StringOp where
  | fromBytes (handle address : Nat) (bytes : PhpString)
  | clone (handle copy : Nat)
  | drop (handle : Nat)
  | bytesMut (handle address : Nat) (bytes : PhpString)
  | classifyPhpString (handle : Nat)
  | classifyArrayKey (handle : Nat)
  | resetCacheAndStats
  deriving DecidableEq, Repr

structure StringMachine (F : Type) where
  heap : StringHeap
  classifier : ClassificationCache F

namespace StringMachine

abbrev Log (F : Type) := List (MemoEvent StoredString (NumericString F))

/-- A lookup, with what it logs. -/
def classifyPhpString (ops : ParsedFloats F) (machine : StringMachine F) (value : StoredString) :
    NumericString F × StringMachine F × Log F :=
  let (answer, classifier, full) := machine.classifier.classifyPhpString ops value
  (answer, { machine with classifier },
    if full then [.emptied, .answered value answer] else [.answered value answer])

def classifyArrayKey (ops : ParsedFloats F) (machine : StringMachine F) (value : StoredString) :
    NumericStringArrayKey × StringMachine F × Log F :=
  if startsLikeInteger value.bytes then
    let (classified, after) := machine.classifyPhpString ops value
    (classified.arrayKey, after)
  else (.string, machine, [])

/-- One operation, with the lookups it makes and the times the cache is emptied. An operation on a
handle that does not exist, or at an address in use, is not one. -/
def step (ops : ParsedFloats F) (machine : StringMachine F) : StringOp → Option (StringMachine F × Log F)
  | .fromBytes handle address bytes =>
    (StringHeap.fromBytes machine.heap handle address bytes).map fun heap => ({ machine with heap }, [])
  | .clone handle copy => (machine.heap.clone handle copy).map fun heap => ({ machine with heap }, [])
  | .drop handle => (machine.heap.drop handle).map fun heap => ({ machine with heap }, [])
  | .bytesMut handle address bytes =>
    (StringHeap.bytesMut machine.heap handle address bytes).map fun heap => ({ machine with heap }, [])
  | .classifyPhpString handle =>
    (StringHeap.read machine.heap handle).map fun value => (machine.classifyPhpString ops value).2
  | .classifyArrayKey handle =>
    (StringHeap.read machine.heap handle).map fun value => (machine.classifyArrayKey ops value).2
  | .resetCacheAndStats =>
    some ({ machine with classifier := machine.classifier.resetCacheAndStats }, [.emptied])

def run (ops : ParsedFloats F) (machine : StringMachine F) : List StringOp → Option (StringMachine F × Log F)
  | [] => some (machine, [])
  | op :: rest => do
    let (machine, log) ← machine.step ops op
    let (machine, later) ← machine.run ops rest
    some (machine, log ++ later)

end StringMachine
end Phrust
