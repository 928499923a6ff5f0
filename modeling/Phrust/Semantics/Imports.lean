import Phrust.Semantics.Names

/-!
# Imports

The import table of a namespace block, and how the children of a `use` declaration become its entries.
The cursor of `UseCursor` is the list of elements that are left. `none` stands for a loop that has not
come to its end within the fuel.
-/

namespace Phrust

/-- `TextRange` -/
structure TextRange where
  start : Nat
  stop : Nat
  deriving DecidableEq, Repr

def coverRanges (left right : TextRange) : TextRange := ⟨min left.start right.start, max left.stop right.stop⟩

inductive ImportKind where
  | classLike
  | function
  | const
  deriving DecidableEq, Repr

def ImportKind.aliasNameKind : ImportKind → NameKind
  | .classLike => .classLike
  | .function => .function
  | .const => .constant

/-- The spelling under which an alias is stored and looked up. -/
def ImportKind.canonicalAlias (kind : ImportKind) (aliasText : PhpString) : PhpString :=
  if kind.aliasNameKind.isCaseInsensitive then lowercase aliasText else aliasText

structure ImportEntry where
  kind : ImportKind
  name : FullyQualifiedName
  aliasText : PhpString
  aliasCanonical : PhpString
  explicitAlias : Bool
  span : TextRange
  canonical : aliasCanonical = kind.canonicalAlias aliasText
  deriving DecidableEq

def ImportEntry.new (kind : ImportKind) (name : FullyQualifiedName) (aliasText : PhpString) (explicitAlias : Bool)
    (span : TextRange) : ImportEntry :=
  ⟨kind, name, aliasText, kind.canonicalAlias aliasText, explicitAlias, span, rfl⟩

structure DuplicateImportAlias where
  kind : ImportKind
  aliasText : PhpString
  previousSpan : TextRange
  duplicateSpan : TextRange
  deriving DecidableEq

/-- The maps lead from canonical aliases to places in the entries. -/
structure ImportTable where
  entries : List ImportEntry := []
  classLikeAliases : List (PhpString × Nat) := []
  functionAliases : List (PhpString × Nat) := []
  constAliases : List (PhpString × Nat) := []

namespace ImportTable
variable (table : ImportTable)

def aliases : ImportKind → List (PhpString × Nat)
  | .classLike => table.classLikeAliases
  | .function => table.functionAliases
  | .const => table.constAliases

def setAliases (aliases : List (PhpString × Nat)) : ImportKind → ImportTable
  | .classLike => { table with classLikeAliases := aliases }
  | .function => { table with functionAliases := aliases }
  | .const => { table with constAliases := aliases }

/-- An alias that is taken leaves the table as it is. -/
def insert (entry : ImportEntry) : Except DuplicateImportAlias ImportTable :=
  match (table.aliases entry.kind).lookup entry.aliasCanonical with
  | some previousIndex =>
    .error
      { kind := entry.kind
        aliasText := entry.aliasText
        previousSpan := (table.entries[previousIndex]?.map ImportEntry.span).getD entry.span
        duplicateSpan := entry.span }
  | none =>
    let index := table.entries.length
    .ok { table.setAliases ((entry.aliasCanonical, index) :: table.aliases entry.kind) entry.kind with
      entries := table.entries ++ [entry] }

def lookup (kind : ImportKind) (aliasText : PhpString) : Option ImportEntry := do
  let index ← (table.aliases kind).lookup (kind.canonicalAlias aliasText)
  table.entries[index]?

/-- Duplicates are reported and left out. -/
def insertAll (entries : List ImportEntry) : ImportTable :=
  entries.foldl (fun table entry =>
    match table.insert entry with
    | .ok table => table
    | .error _ => table) table

end ImportTable

def appendImportName (base suffix : QualifiedName) : FullyQualifiedName := ⟨base.parts ++ suffix.parts⟩

/-! ## Use declarations -/

structure ParsedImport where
  kind : ImportKind
  name : QualifiedName
  aliasText : PhpString
  explicitAlias : Bool
  span : TextRange

/-- A child of a `use` declaration: a name, or a token by the name of its kind and its text. -/
inductive UseElement where
  | name (name : QualifiedName) (span : TextRange)
  | token (kind : String) (text : PhpString) (span : TextRange)
  deriving DecidableEq

def UseElement.isToken (textOrKind : String) : UseElement → Bool
  | .token kind text _ => kind == textOrKind || text == bytesOf textOrKind
  | .name .. => false

namespace UseCursor

def atToken (textOrKind : String) (elements : List UseElement) : Bool :=
  elements.head?.any (UseElement.isToken textOrKind)

def skipToken (textOrKind : String) (elements : List UseElement) : List UseElement :=
  if atToken textOrKind elements then elements.tail else elements

def takeImportKind (elements : List UseElement) : Option ImportKind × List UseElement :=
  if atToken "T_FUNCTION" elements then (some .function, elements.tail)
  else if atToken "T_CONST" elements then (some .const, elements.tail)
  else (none, elements)

def takeAlias (span : TextRange) (elements : List UseElement) :
    (Option PhpString × Bool × TextRange) × List UseElement :=
  if atToken "T_AS" elements then
    match elements.tail with
    | .token kind text aliasSpan :: rest =>
      if kind = "T_STRING" then ((some text, true, coverRanges span aliasSpan), rest)
      else ((none, true, span), elements.tail)
    | _ => ((none, true, span), elements.tail)
  else ((none, false, span), elements)

def parseSingleClause (defaultKind : ImportKind) (allowItemKind : Bool) (elements : List UseElement) :
    Option ParsedImport × List UseElement :=
  let (kind, elements) :=
    if allowItemKind then
      let (kind, elements) := takeImportKind elements
      (kind.getD defaultKind, elements)
    else (defaultKind, elements)
  match elements with
  | .name name span :: elements =>
    let ((aliasText, explicitAlias, span), elements) := takeAlias span elements
    (some
      { kind, name
        aliasText := aliasText.getD ((name.parts.getLast?.map NamePart.original).getD [])
        explicitAlias, span }, elements)
  | _ => (none, elements)

/-- `parse_clause` inside a group -/
def parseItem (defaultKind : ImportKind) (base : QualifiedName) (elements : List UseElement) :
    List ImportEntry × List UseElement :=
  match parseSingleClause defaultKind true elements with
  | (none, elements) => ([], elements)
  | (some parsed, elements) =>
    ([.new parsed.kind (appendImportName base parsed.name) parsed.aliasText parsed.explicitAlias parsed.span],
      elements)

/-- The items of a group, up to its end. -/
def parseGroup (defaultKind : ImportKind) (base : QualifiedName) :
    Nat → List UseElement → Option (List ImportEntry × List UseElement)
  | 0, _ => none
  | fuel + 1, elements =>
    if elements = [] ∨ atToken "\x7d" elements ∨ atToken ";" elements then some ([], elements)
    else
      let elements := skipToken "," elements
      if atToken "\x7d" elements then some ([], elements)
      else
        let (entries, elements) := parseItem defaultKind base elements
        (parseGroup defaultKind base fuel (skipToken "," elements)).map fun (rest, elements) =>
          (entries ++ rest, elements)

/-- `parse_clause` outside of groups -/
def parseClause (fuel : Nat) (defaultKind : ImportKind) (elements : List UseElement) :
    Option (List ImportEntry × List UseElement) :=
  match parseSingleClause defaultKind false elements with
  | (none, elements) => some ([], elements)
  | (some parsed, elements) =>
    if atToken "\\" elements ∧ atToken "\x7b" elements.tail then
      (parseGroup defaultKind parsed.name fuel (elements.drop 2)).map fun (entries, elements) =>
        (entries, skipToken "\x7d" elements)
    else
      some ([.new parsed.kind ⟨parsed.name.parts⟩ parsed.aliasText parsed.explicitAlias parsed.span], elements)

def parseClauses (groupFuel : Nat) (defaultKind : ImportKind) :
    Nat → List UseElement → Option (List ImportEntry)
  | 0, _ => none
  | fuel + 1, elements =>
    if elements = [] ∨ atToken ";" elements then some []
    else
      let elements := skipToken "," elements
      if elements = [] ∨ atToken ";" elements then some []
      else
        (parseClause groupFuel defaultKind elements).bind fun (entries, elements) =>
          if atToken "," elements then
            (parseClauses groupFuel defaultKind fuel elements).map fun rest => entries ++ rest
          else some entries

end UseCursor

/-- With a fuel for each of its loops. -/
def collectUseImports (fuel : Nat) (elements : List UseElement) : Option (List ImportEntry) :=
  let (defaultKind, elements) := UseCursor.takeImportKind (UseCursor.skipToken "T_USE" elements)
  UseCursor.parseClauses fuel (defaultKind.getD .classLike) fuel elements

end Phrust
