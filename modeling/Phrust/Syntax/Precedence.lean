import Phrust.Theory.OperatorTrees

/-!
# Binding powers and the climbing loop

`binary_operator` of `precedence.rs`, and `parse_expression_bp` on operands with binary operators between
them. A node of the syntax tree holds its operands in a row; it is a `PIPE_EXPR` if there is a `|>` in the
row, and a `BINARY_EXPR` otherwise.
-/

namespace Phrust.Syntax

inductive Associativity where
  | left
  | right
  deriving DecidableEq, Repr

structure BinaryOperator where
  leftBp : Nat
  rightBp : Nat
  associativity : Associativity
  deriving DecidableEq, Repr

def BinaryOperator.left (bp : Nat) : BinaryOperator := ⟨bp, bp + 1, .left⟩

def BinaryOperator.right (bp : Nat) : BinaryOperator := ⟨bp, bp, .right⟩

/-- The tokens that are binary operators. -/
inductive OperatorKind where
  | logicalOr | logicalXor | logicalAnd
  | assign | plusEqual | minusEqual | mulEqual | divEqual | modEqual | concatEqual | andEqual | orEqual
  | xorEqual | slEqual | srEqual | powEqual | coalesceEqual
  | coalesce | booleanOr | booleanAnd | bar | caret
  | ampersand | ampersandFollowedByVarOrVararg | ampersandNotFollowedByVarOrVararg
  | isEqual | isNotEqual | isIdentical | isNotIdentical | instanceof
  | less | greater | isSmallerOrEqual | isGreaterOrEqual | spaceship
  | sl | sr | dot | plus | minus | pipe | star | slash | percent | pow
  deriving DecidableEq, Repr

def binaryOperator : OperatorKind → BinaryOperator
  | .logicalOr => .left 10
  | .logicalXor => .left 20
  | .logicalAnd => .left 30
  | .assign | .plusEqual | .minusEqual | .mulEqual | .divEqual | .modEqual | .concatEqual | .andEqual
  | .orEqual | .xorEqual | .slEqual | .srEqual | .powEqual | .coalesceEqual => .right 35
  | .coalesce => .right 40
  | .booleanOr => .left 50
  | .booleanAnd => .left 60
  | .bar => .left 65
  | .caret => .left 66
  | .ampersand | .ampersandFollowedByVarOrVararg | .ampersandNotFollowedByVarOrVararg => .left 67
  | .isEqual | .isNotEqual | .isIdentical | .isNotIdentical => .left 70
  | .instanceof => .left 126
  | .less | .greater | .isSmallerOrEqual | .isGreaterOrEqual | .spaceship => .left 80
  | .sl | .sr => .left 90
  | .dot => .left 100
  | .plus | .minus => .left 110
  | .pipe => .left 115
  | .star | .slash | .percent => .left 120
  | .pow => .right 130

/-- `binary_expr_kind` and `pipe_input_expr`: a node is grouped from the left, and all operators of a
`PIPE_EXPR` are read as `|>`. -/
def groupNode (first : OperatorTree OperatorKind α) (row : List (OperatorKind × OperatorTree OperatorKind α)) :
    OperatorTree OperatorKind α :=
  let pipe := row.any fun pair => pair.1 = .pipe
  row.foldl (fun left (kind, right) => .binary left (if pipe then .pipe else kind) right) first

/-- The loop of `parse_expression_bp` behind its first operand and the row so far, and the tokens that it
leaves. There is a token for each unit of fuel. -/
def climb : Nat → Nat → OperatorTree OperatorKind α → List (OperatorKind × OperatorTree OperatorKind α) →
    List (OperatorKind × α) → OperatorTree OperatorKind α × List (OperatorKind × α)
  | fuel + 1, minBp, first, row, (kind, operand) :: rest =>
    let operator := binaryOperator kind
    if operator.leftBp < minBp then (groupNode first row, (kind, operand) :: rest)
    else
      let (right, rest) := climb fuel operator.rightBp (.operand operand) [] rest
      climb fuel minBp first (row ++ [(kind, right)]) rest
  | _, _, first, row, rest => (groupNode first row, rest)

def parseExpression (first : α) (rest : List (OperatorKind × α)) :
    OperatorTree OperatorKind α × List (OperatorKind × α) :=
  climb rest.length 0 (.operand first) [] rest

end Phrust.Syntax
