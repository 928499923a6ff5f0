import Phrust.Syntax.Precedence

/-!
# Grouping by the binding powers

The loop derives its row in the grammar of its own table. That is the grouping of PHP 8.5 unless two
operators meet that the tables order differently: `|>` with `.`, `<<`, `>>`, `+` or `-`, `.` with `<<` or
`>>`, and `<=>` with a comparison. A node with a `|>` and another operator is not read as it was parsed.
-/

namespace Phrust.Syntax
open OperatorTree List

def bindingPower (kind : OperatorKind) : Nat := (binaryOperator kind).leftBp

/-- The left associative operators of PHP 8.5, from the loosest to the tightest. -/
def phpStrength : OperatorKind → Option Nat
  | .logicalOr => some 0
  | .logicalXor => some 1
  | .logicalAnd => some 2
  | .booleanOr => some 3
  | .booleanAnd => some 4
  | .bar => some 5
  | .caret => some 6
  | .ampersand | .ampersandFollowedByVarOrVararg | .ampersandNotFollowedByVarOrVararg => some 7
  | .isEqual | .isNotEqual | .isIdentical | .isNotIdentical | .spaceship => some 8
  | .less | .greater | .isSmallerOrEqual | .isGreaterOrEqual => some 9
  | .pipe => some 10
  | .dot => some 11
  | .sl | .sr => some 12
  | .plus | .minus => some 13
  | .star | .slash | .percent => some 14
  | _ => none

def phpPower (kind : OperatorKind) : Nat := (phpStrength kind).getD 0

theorem rightBp_of_phpStrength (h : (phpStrength kind).isSome) :
    (binaryOperator kind).rightBp = bindingPower kind + 1 := by
  cases kind <;> first | rfl | cases h

/-! ## Rows with pipes -/

def hasPipe (tree : OperatorTree OperatorKind α) : Bool := tree.edge.any fun pair => pair.1 = .pipe

/-- A tree whose left edge is read as pipes if `pipe` says so. -/
def readEdge (pipe : Bool) : OperatorTree OperatorKind α → OperatorTree OperatorKind α
  | .operand value => .operand value
  | .binary left op right => .binary (readEdge pipe left) (if pipe then .pipe else op) (readEdge (hasPipe right) right)

/-- What is read of a tree whose left edges have become nodes. -/
def readTree (tree : OperatorTree OperatorKind α) : OperatorTree OperatorKind α := readEdge (hasPipe tree) tree

/-- On every left edge either all operators are `|>` or none is. -/
def PipesApart : OperatorTree OperatorKind α → Prop
  | .operand _ => True
  | .binary left op right => (∀ pair ∈ left.edge, pair.1 = .pipe ↔ op = .pipe) ∧ PipesApart left ∧ PipesApart right

theorem groupNode_edge (tree : OperatorTree OperatorKind α) :
    groupNode (.operand tree.row.1) (tree.edge.map fun pair => (pair.1, readTree pair.2)) = readTree tree := by
  have hfold (pipe : Bool) : (tree.edge.map fun pair => (pair.1, readTree pair.2)).foldl
      (fun left pair => .binary left (if pipe then .pipe else pair.1) pair.2) (.operand tree.row.1) =
      readEdge pipe tree := by
    induction tree with
    | operand => rfl
    | binary left op right ihleft =>
      rw [edge, map_append, foldl_append, row, ihleft]
      rfl
  rw [groupNode, any_map]
  exact hfold _

variable {tree : OperatorTree OperatorKind α}

theorem pipesApart_of_edge (hpipe : hasPipe tree = true → ∀ pair ∈ tree.edge, pair.1 = .pipe)
    (hright : ∀ pair ∈ tree.edge, PipesApart pair.2) : PipesApart tree := by
  have hsame : ∀ pair ∈ tree.edge, pair.1 = .pipe ↔ hasPipe tree = true := fun pair hpair =>
    ⟨fun heq => any_eq_true.mpr ⟨pair, hpair, decide_eq_true heq⟩, fun h => hpipe h pair hpair⟩
  clear hpipe
  generalize (hasPipe tree = true) = p at hsame
  induction tree with
  | operand => trivial
  | binary left op right ihleft =>
    simp only [edge, forall_mem_append, forall_mem_singleton] at hsame hright
    exact ⟨fun pair hpair => (hsame.1 pair hpair).trans hsame.2.symm, ihleft hright.1 hsame.1, hright.2⟩

theorem pipesApart_of_operators (h : ∀ op ∈ tree.operators, op = .pipe ↔ p) : PipesApart tree := by
  induction tree with
  | operand => trivial
  | binary left op right ihleft ihright =>
    simp only [operators_binary, forall_mem_append, forall_mem_cons] at h
    refine ⟨fun pair hpair => (h.1 pair.1 ?_).trans h.2.1.symm, ihleft h.1, ihright h.2.2⟩
    clear * - hpair
    induction left with
    | operand => cases hpair
    | binary left other right ih =>
      rw [operators_binary]
      rcases mem_append.mp hpair with hpair | hpair
      · exact mem_append_left _ (ih hpair)
      · cases mem_singleton.mp hpair
        simp

theorem PipesApart.hasPipe (h : PipesApart tree) (hpipe : hasPipe tree = true) : ∀ pair ∈ tree.edge, pair.1 = .pipe := by
  cases tree with
  | operand => exact nofun
  | binary left op right =>
    simp only [Syntax.hasPipe, edge, any_append, any_cons, any_nil, Bool.or_false, Bool.or_eq_true, any_eq_true,
      decide_eq_true_eq] at hpipe
    have hop : op = .pipe := hpipe.elim (fun ⟨pair, hpair, heq⟩ => (h.1 pair hpair).mp heq) id
    simp only [edge, forall_mem_append, forall_mem_singleton]
    exact ⟨fun pair hpair => (h.1 pair hpair).mpr hop, hop⟩

theorem readEdge_eq (h : PipesApart tree) (hpipe : pipe = true → ∀ pair ∈ tree.edge, pair.1 = .pipe) :
    readEdge pipe tree = tree := by
  induction tree generalizing pipe with
  | operand => rfl
  | binary left op right ihleft ihright =>
    simp only [edge, forall_mem_append, forall_mem_singleton] at hpipe
    rw [readEdge, ihleft h.2.1 fun hpipe' => (hpipe hpipe').1, ihright h.2.2 h.2.2.hasPipe]
    cases pipe with
    | false => rfl
    | true => rw [(hpipe rfl).2]; rfl

theorem length_operators_readEdge (pipe : Bool) (tree : OperatorTree OperatorKind α) :
    (readEdge pipe tree).operators.length = tree.operators.length := by
  induction tree generalizing pipe with
  | operand => rfl
  | binary left op right ihleft ihright =>
    simp only [readEdge, operators_binary, length_append, length_cons, ihleft, ihright]

theorem edge_of_readEdge (h : (readEdge pipe tree).operators = tree.operators) :
    (pipe = true → ∀ pair ∈ tree.edge, pair.1 = .pipe) ∧ ∀ pair ∈ tree.edge, PipesApart pair.2 := by
  induction tree generalizing pipe with
  | operand => exact ⟨fun _ => nofun, nofun⟩
  | binary left op right ihleft ihright =>
    rw [readEdge, operators_binary, operators_binary] at h
    obtain ⟨hleft, hrest⟩ := append_inj h (length_operators_readEdge pipe left)
    obtain ⟨hop, hright⟩ := cons.inj hrest
    obtain ⟨hedge, hapart⟩ := ihleft hleft
    obtain ⟨hpipe, hrights⟩ := ihright hright
    simp only [edge, forall_mem_append, forall_mem_singleton]
    exact ⟨fun h => ⟨hedge h, by rw [← hop, if_pos h]⟩, hapart, pipesApart_of_edge hpipe hrights⟩

theorem readTree_eq_iff : (readTree tree).row = tree.row ↔ PipesApart tree := by
  constructor
  · intro h
    obtain ⟨hpipe, hrights⟩ := edge_of_readEdge (congrArg (fun row => row.2.map Prod.fst) h)
    exact pipesApart_of_edge hpipe hrights
  · exact fun h => congrArg row (readEdge_eq h h.hasPipe)

/-! ## The loop -/

/-- The loop consumes what binds at least as tight as asked for; its nodes are the left edges of a derivation
in its own table. -/
theorem climb_spec {left : OperatorTree OperatorKind α} {rest : List (OperatorKind × α)}
    (hfuel : rest.length ≤ fuel) (hrest : ∀ pair ∈ rest, (phpStrength pair.1).isSome)
    (hmin : left.Derives bindingPower minBp)
    (hhead : ∀ pair ∈ rest.head?, left.Derives bindingPower (bindingPower pair.1)) :
    ∃ tree consumed rest', climb fuel minBp (.operand left.row.1)
        (left.edge.map fun pair => (pair.1, readTree pair.2)) rest = (readTree tree, rest') ∧
      rest = consumed ++ rest' ∧ tree.row = (left.row.1, left.row.2 ++ consumed) ∧ tree.Derives bindingPower minBp ∧
        ∀ pair ∈ rest'.head?, bindingPower pair.1 < minBp := by
  induction fuel generalizing minBp left rest with
  | zero =>
    obtain rfl := length_eq_zero_iff.mp (Nat.le_zero.mp hfuel)
    exact ⟨left, [], [], by rw [climb, groupNode_edge]; nofun, rfl, by simp, hmin, nofun⟩
  | succ fuel ih =>
    cases rest with
    | nil => exact ⟨left, [], [], by rw [climb, groupNode_edge]; nofun, rfl, by simp, hmin, nofun⟩
    | cons pair rest =>
      obtain ⟨kind, operand⟩ := pair
      rw [climb, groupNode_edge]
      change ∃ tree consumed rest', (if bindingPower kind < minBp then _ else _) = _ ∧ _
      split
      · next hlt => exact ⟨left, [], _, rfl, rfl, by simp, hmin, by simpa using hlt⟩
      · next hle =>
        rw [forall_mem_cons] at hrest
        obtain ⟨right, consumed, rest₁, hright, rfl, hrow, hderives, hstop⟩ :=
          @ih (bindingPower kind + 1) (.operand operand) rest (Nat.le_of_succ_le_succ hfuel) hrest.2
            .operand fun _ _ => .operand
        have hbinary : ∀ k ≤ bindingPower kind, (binary left kind right).Derives bindingPower k :=
          fun k hk => .binary hk (hhead _ rfl) hderives
        rw [length_cons, length_append] at hfuel
        obtain ⟨tree, consumed', rest', htree, rfl, hrow', hderives', hstop'⟩ :=
          @ih minBp (.binary left kind right) rest₁ (by omega)
            (fun pair hpair => hrest.2 pair (mem_append_right _ hpair))
            (hbinary _ (Nat.le_of_not_lt hle))
            fun pair hpair => hbinary _ (Nat.le_of_lt_succ (hstop pair hpair))
        rw [edge, map_append] at htree
        refine ⟨tree, (kind, operand) :: (consumed ++ consumed'), rest', ?_, by simp, ?_, hderives', hstop'⟩
        · rw [rightBp_of_phpStrength hrest.1]
          simp only [row, edge, map_nil] at hright
          rw [hright]
          exact htree
        · rw [hrow', row, hrow]
          simp [row]

end Phrust.Syntax
