import Phrust.Runtime.ArrayStorage

/-!
# Names

Source names and their segments. Texts are bytes; a name is cut at `\`, which is an ASCII byte, so that
cutting bytes and cutting characters is the same.
-/

namespace Phrust

def bytesOf (text : String) : PhpString := text.toUTF8.data.toList

/-- `str::to_ascii_lowercase` -/
def lowercase (text : PhpString) : PhpString := text.map toAsciiLowercase

inductive NameKind where
  | classLike
  | function
  | constant
  | namespaceName
  | label
  | variableName
  deriving DecidableEq, Repr

def NameKind.isCaseInsensitive : NameKind → Bool
  | .classLike | .function | .namespaceName | .label => true
  | .constant | .variableName => false

/-- A segment, with the lower case that was computed for it. -/
structure NamePart where
  original : PhpString
  asciiLowercase : PhpString
  lowercased : asciiLowercase = lowercase original
  deriving DecidableEq

namespace NamePart

def new (original : PhpString) : NamePart := ⟨original, lowercase original, rfl⟩

def canonical (kind : NameKind) (part : NamePart) : PhpString :=
  if kind.isCaseInsensitive then part.asciiLowercase else part.original

end NamePart

structure QualifiedName where
  raw : PhpString
  parts : List NamePart
  leadingSlash : Bool
  namespaceRelative : Bool
  deriving DecidableEq

namespace QualifiedName

/-- The segments of a text; empty ones do not count. -/
def rawParts (text : PhpString) : List PhpString := (text.splitOn 92).filter (· ≠ [])

/-- `text.strip_prefix('\\').unwrap_or(&text)` -/
def withoutLeading (text : PhpString) : PhpString := if text.head? == some 92 then text.tail else text

def parse (text : PhpString) : QualifiedName :=
  let leadingSlash := text.head? == some 92
  let rawParts := rawParts (withoutLeading text)
  let namespaceRelative := !leadingSlash && 1 < rawParts.length &&
    rawParts.head?.any fun part => lowercase part == bytesOf "namespace"
  { raw := text
    parts := (if namespaceRelative then rawParts.tail else rawParts).map NamePart.new
    leadingSlash
    namespaceRelative }

end QualifiedName

structure FullyQualifiedName where
  parts : List NamePart
  deriving DecidableEq

namespace FullyQualifiedName

def parse (text : PhpString) : FullyQualifiedName := ⟨(QualifiedName.parse text).parts⟩

def canonical (kind : NameKind) (name : FullyQualifiedName) : PhpString :=
  [92].intercalate (name.parts.map (NamePart.canonical kind))

end FullyQualifiedName
end Phrust
