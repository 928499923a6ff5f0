import Phrust.Semantics.Imports

/-!
# The grammar of use declarations

What the parser puts under a `UseDecl` node, with its recovery. Tokens are those without trivia, since
trivia are skipped wherever the grammar looks at a token and are left out again by `UseCursor`. Each
function returns the children it has added and the tokens that are left; the diagnostics are left out.
-/

namespace Phrust

inductive TokenName where
  | use
  | function
  | const
  | as
  | string
  | nameQualified
  | nameFullyQualified
  | nameRelative
  | nsSeparator
  | closeTag
  | other (phpName : String)
  deriving DecidableEq

def TokenName.asPhpName : TokenName → String
  | .use => "T_USE"
  | .function => "T_FUNCTION"
  | .const => "T_CONST"
  | .as => "T_AS"
  | .string => "T_STRING"
  | .nameQualified => "T_NAME_QUALIFIED"
  | .nameFullyQualified => "T_NAME_FULLY_QUALIFIED"
  | .nameRelative => "T_NAME_RELATIVE"
  | .nsSeparator => "T_NS_SEPARATOR"
  | .closeTag => "T_CLOSE_TAG"
  | .other phpName => phpName

/-- `SyntaxTokenKind`; symbols are ASCII. -/
inductive SyntaxTokenKind where
  | named (name : TokenName)
  | symbol (char : Char)
  deriving DecidableEq

def SyntaxTokenKind.name : SyntaxTokenKind → String
  | .named name => name.asPhpName
  | .symbol char => char.toString

structure SourceToken where
  kind : SyntaxTokenKind
  text : PhpString
  span : TextRange
  /-- Where the trivia behind the token end. -/
  triviaStop : Nat
  deriving DecidableEq

namespace SourceToken

def element (token : SourceToken) : UseElement := .token token.kind.name token.text token.span

end SourceToken

namespace UseGrammar

def atNamed (name : TokenName) (tokens : List SourceToken) : Bool :=
  tokens.head?.any fun token => token.kind == .named name

def atSymbol (char : Char) (tokens : List SourceToken) : Bool :=
  tokens.head?.any fun token => token.kind == .symbol char

/-- The tokens behind the first one of a name. -/
def nameTail : List SourceToken → List SourceToken × List SourceToken
  | separator :: token :: tokens =>
    if separator.kind = .named .nsSeparator ∧ token.kind ≠ .symbol '\x7b' then
      if token.kind = .named .string then
        let (taken, tokens) := nameTail tokens
        (separator :: token :: taken, tokens)
      else ([separator], token :: tokens)
    else ([], separator :: token :: tokens)
  | [separator] => if separator.kind = .named .nsSeparator then ([separator], []) else ([], [separator])
  | [] => ([], [])

section
variable (tokens : List SourceToken)

def atNameStart : Bool :=
  atNamed .string tokens || atNamed .nameFullyQualified tokens || atNamed .nameQualified tokens ||
    atNamed .nameRelative tokens

/-- A name node is read by the texts of its tokens. The trivia behind the last one are part of the node. -/
def nameElement (first : SourceToken) (taken : List SourceToken) : UseElement :=
  .name (.parse ((first :: taken).flatMap SourceToken.text)) ⟨first.span.start, (taken.getLastD first).triviaStop⟩

def parseName : Option (UseElement × List SourceToken) :=
  match tokens with
  | [] => none
  | first :: rest =>
    if atNameStart tokens then
      let (taken, rest) := nameTail rest
      some (nameElement first taken, rest)
    else none

/-- Add the tokens up to a boundary. -/
def recover (boundary : SourceToken → Bool) (tokens : List SourceToken) : List UseElement × List SourceToken :=
  ((tokens.takeWhile fun token => !boundary token).map SourceToken.element,
    tokens.dropWhile fun token => !boundary token)

def isStatementRecovery (token : SourceToken) : Bool :=
  token.kind == .symbol ';' || token.kind == .symbol '\x7d' || token.kind == .named .closeTag

/-- `recover_to_use_boundary` -/
def isUseBoundary (token : SourceToken) : Bool := token.kind == .symbol ',' || isStatementRecovery token

/-- `recover_to_group_use_boundary` -/
def isGroupUseBoundary (token : SourceToken) : Bool :=
  token.kind == .symbol ',' || token.kind == .symbol '\x7d' || token.kind == .symbol ';'

def atGroupUseEnd : Bool :=
  tokens.isEmpty || atSymbol '\x7d' tokens || atSymbol ';' tokens || atNamed .closeTag tokens

/-- Add the next token if the condition holds. -/
def bumpIf (condition : Bool) (tokens : List SourceToken) : List UseElement × List SourceToken :=
  if condition then ((tokens.take 1).map SourceToken.element, tokens.drop 1) else ([], tokens)

def parseOptionalUseKind : List UseElement × List SourceToken :=
  bumpIf (atNamed .function tokens || atNamed .const tokens) tokens

def parseOptionalAlias : List UseElement × List SourceToken :=
  if atNamed .as tokens then
    let (keyword, tokens) := bumpIf true tokens
    let (aliasToken, tokens) := bumpIf (atNamed .string tokens) tokens
    (keyword ++ aliasToken, tokens)
  else ([], tokens)

end

mutual

def parseUseImportClause : Nat → Bool → List SourceToken → List UseElement × List SourceToken
  | 0, _, tokens => ([], tokens)
  | fuel + 1, allowItemKind, tokens =>
    let (kind, tokens) := if allowItemKind then parseOptionalUseKind tokens else ([], tokens)
    match parseName tokens with
    | none =>
      let (skipped, tokens) := recover isUseBoundary tokens
      (kind ++ skipped, tokens)
    | some (name, tokens) =>
      if atNamed .nsSeparator tokens && atSymbol '\x7b' tokens.tail then
        let (opened, tokens) := (((tokens.take 2).map SourceToken.element), tokens.drop 2)
        let (items, tokens) := parseGroupUseItems fuel tokens
        let (closed, tokens) := bumpIf (atSymbol '\x7d' tokens) tokens
        (kind ++ name :: opened ++ items ++ closed, tokens)
      else
        let (aliasTokens, tokens) := parseOptionalAlias tokens
        (kind ++ name :: aliasTokens, tokens)

/-- The loop of `parse_group_use_list` -/
def parseGroupUseItems : Nat → List SourceToken → List UseElement × List SourceToken
  | 0, tokens => ([], tokens)
  | fuel + 1, tokens =>
    if atGroupUseEnd tokens then ([], tokens)
    else if atSymbol ',' tokens then
      let (comma, tokens) := bumpIf true tokens
      let (items, tokens) := parseGroupUseItems fuel tokens
      (comma ++ items, tokens)
    else
      let (clause, tokens) := parseUseImportClause fuel true tokens
      let (skipped, tokens) :=
        if atSymbol ',' tokens || atSymbol '\x7d' tokens then ([], tokens) else recover isGroupUseBoundary tokens
      let (comma, tokens) := bumpIf (atSymbol ',' tokens) tokens
      let (items, tokens) := parseGroupUseItems fuel tokens
      (clause ++ skipped ++ comma ++ items, tokens)

end

def parseUseClauses : Nat → List SourceToken → List UseElement × List SourceToken
  | 0, tokens => ([], tokens)
  | fuel + 1, tokens =>
    if atSymbol ',' tokens then
      let (comma, tokens) := bumpIf true tokens
      let (clause, tokens) := parseUseImportClause fuel false tokens
      let (clauses, tokens) := parseUseClauses fuel tokens
      (comma ++ clause ++ clauses, tokens)
    else ([], tokens)

/-- The children of the declaration; every round of a loop takes at least one token. -/
def parseUseDeclaration (tokens : List SourceToken) : List UseElement :=
  let fuel := 2 * tokens.length + 2
  let (keyword, tokens) := bumpIf true tokens
  let (kind, tokens) := parseOptionalUseKind tokens
  let (clause, tokens) := parseUseImportClause fuel false tokens
  let (clauses, tokens) := parseUseClauses fuel tokens
  let (skipped, tokens) := if atSymbol ';' tokens then ([], tokens) else recover isStatementRecovery tokens
  let (semicolon, _) := bumpIf (atSymbol ';' tokens) tokens
  keyword ++ kind ++ clause ++ clauses ++ skipped ++ semicolon

end UseGrammar
end Phrust
