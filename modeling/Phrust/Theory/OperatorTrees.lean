import Mathlib.Data.List.Basic

/-!
# Trees of left associative operators

A table of strengths says how a row of operands and operators is grouped. Two tables group it alike if
they agree on the operators that meet: those between which all others bind tighter.
-/

namespace Phrust
open List

inductive OperatorTree (O α : Type) where
  | operand (value : α)
  | binary (left : OperatorTree O α) (op : O) (right : OperatorTree O α)
  deriving DecidableEq

namespace OperatorTree
variable {O α : Type}

/-- The first operand, and each operator with the operand behind it. -/
def row : OperatorTree O α → α × List (O × α)
  | .operand value => (value, [])
  | .binary left op right => (left.row.1, left.row.2 ++ (op, right.row.1) :: right.row.2)

def operators (tree : OperatorTree O α) : List O := tree.row.2.map Prod.fst

theorem operators_binary : (binary left op right : OperatorTree O α).operators =
    left.operators ++ op :: right.operators := by
  rw [operators, row, map_append, map_cons]
  rfl

variable {strength strength' : O → Nat}

/-- The grammar with a rule `e ::= e op e'` for each strength, where `e'` is of the next one. -/
inductive Derives (strength : O → Nat) : Nat → OperatorTree O α → Prop where
  | operand : Derives strength k (.operand value)
  | binary : k ≤ strength op → Derives strength (strength op) left →
    Derives strength (strength op + 1) right → Derives strength k (.binary left op right)

variable {tree : OperatorTree O α}

theorem Derives.le (h : tree.Derives strength k) : ∀ op ∈ tree.operators, k ≤ strength op := by
  induction h with
  | operand => exact nofun
  | binary hop _ _ ihleft ihright =>
    intro other hother
    rw [operators_binary, mem_append, mem_cons] at hother
    rcases hother with hother | rfl | hother
    · exact Nat.le_trans hop (ihleft other hother)
    · exact hop
    · exact Nat.le_trans hop (Nat.le_of_succ_le (ihright other hother))

/-- The grammar groups a row in one way only. -/
theorem Derives.unique {tree tree' : OperatorTree O α} (h : tree.Derives strength k)
    (h' : tree'.Derives strength k') (hrow : tree.row = tree'.row) : tree = tree' := by
  induction tree generalizing tree' k k' with
  | operand value =>
    cases tree' with
    | operand => rw [(Prod.mk.inj hrow).1]
    | binary => simp [row] at hrow
  | binary left op right ihleft ihright =>
    cases tree' with
    | operand => simp [row] at hrow
    | binary left' op' right' =>
      obtain _ | ⟨-, hleft, hright⟩ := h
      obtain _ | ⟨-, hleft', hright'⟩ := h'
      obtain ⟨hfirst, hrest⟩ := Prod.mk.inj hrow
      -- The root is the last of the loosest operators, so neither root lies in an operand of the other.
      rcases append_eq_append_iff.mp hrest with ⟨between, hl, hr⟩ | ⟨between, hl, hr⟩
      all_goals obtain _ | ⟨pair, between⟩ := between
      · obtain ⟨hpair, htail⟩ := cons.inj hr
        obtain ⟨rfl, hvalue⟩ := Prod.mk.inj hpair
        rw [append_nil] at hl
        rw [ihleft hleft hleft' (Prod.ext hfirst hl.symm), ihright hright hright' (Prod.ext hvalue htail)]
      · obtain ⟨rfl, htail⟩ := cons.inj hr
        have hle := hleft'.le op (by rw [operators, hl]; simp)
        have hlt := hright.le op' (by rw [operators, htail]; simp)
        omega
      · obtain ⟨hpair, htail⟩ := cons.inj hr
        obtain ⟨rfl, hvalue⟩ := Prod.mk.inj hpair
        rw [append_nil] at hl
        rw [ihleft hleft hleft' (Prod.ext hfirst hl), ihright hright hright' (Prod.ext hvalue.symm htail.symm)]
      · obtain ⟨rfl, htail⟩ := cons.inj hr
        have hle := hleft.le op' (by rw [operators, hl]; simp)
        have hlt := hright'.le op (by rw [operators, htail]; simp)
        omega

/-- The operators that have the first operand on their left, with their right operands. -/
def edge : OperatorTree O α → List (O × OperatorTree O α)
  | .operand _ => []
  | .binary left op right => left.edge ++ [(op, right)]

/-- Two operators of a row with only tighter ones between them. -/
def Meets (strength : O → Nat) (first second : O) (ops : List O) : Prop :=
  ∃ before between after, ops = before ++ first :: (between ++ second :: after) ∧
    ∀ op ∈ between, strength first < strength op ∧ strength second ≤ strength op

theorem Meets.append_left (h : Meets strength first second ops) (front : List O) :
    Meets strength first second (front ++ ops) := by
  obtain ⟨before, between, after, rfl, hbetween⟩ := h
  exact ⟨front ++ before, between, after, by simp, hbetween⟩

theorem Meets.append_right (h : Meets strength first second ops) (back : List O) :
    Meets strength first second (ops ++ back) := by
  obtain ⟨before, between, after, rfl, hbetween⟩ := h
  exact ⟨before, between, after ++ back, by simp, hbetween⟩

theorem Meets.split (h : Meets strength first second (ops ++ op :: ops')) :
    Meets strength first second ops ∨ Meets strength first second ops' ∨ first ∈ ops ∧ second = op ∨
      first = op ∧ second ∈ ops' ∨ first ∈ ops ∧ strength first < strength op := by
  obtain ⟨before, between, after, hops, hbetween⟩ := h
  rcases append_eq_append_iff.mp hops with ⟨rest, rfl, hrest⟩ | ⟨rest, rfl, hrest⟩
  · cases rest with
    | nil =>
      cases hrest
      exact .inr (.inr (.inr (.inl ⟨rfl, by simp⟩)))
    | cons _ rest =>
      cases hrest
      exact .inr (.inl ⟨rest, between, after, rfl, hbetween⟩)
  · cases rest with
    | nil =>
      cases hrest
      exact .inr (.inr (.inr (.inl ⟨rfl, by simp⟩)))
    | cons _ rest =>
      rw [cons_append, cons.injEq] at hrest
      obtain ⟨rfl, hrest⟩ := hrest
      have hfirst : first ∈ before ++ first :: rest := by simp
      rcases append_eq_append_iff.mp hrest with ⟨rest', rfl, hrest'⟩ | ⟨rest', rfl, hrest'⟩
      · cases rest' with
        | nil => exact .inr (.inr (.inl ⟨hfirst, (cons.inj hrest').1⟩))
        | cons _ rest' =>
          obtain ⟨rfl, -⟩ := cons.inj hrest'
          exact .inl ⟨before, between, rest', rfl, hbetween⟩
      · cases rest' with
        | nil => exact .inr (.inr (.inl ⟨hfirst, (cons.inj hrest').1.symm⟩))
        | cons _ rest' =>
          obtain ⟨rfl, -⟩ := cons.inj hrest'
          exact .inr (.inr (.inr (.inr ⟨hfirst, (hbetween op (by simp)).1⟩)))

/-- The two tables order the operators alike. -/
def Agree (strength strength' : O → Nat) (first second : O) : Prop :=
  strength second ≤ strength first ↔ strength' second ≤ strength' first

theorem Derives.agree (h : tree.Derives strength k)
    (h' : tree.Derives strength' k') (hmeets : Meets strength first second tree.operators) :
    Agree strength strength' first second := by
  induction tree generalizing k k' with
  | operand => obtain ⟨before, _, _, hrow, -⟩ := hmeets; cases before <;> cases hrow
  | binary left op right ihleft ihright =>
    obtain _ | ⟨-, hleft, hright⟩ := h
    obtain _ | ⟨-, hleft', hright'⟩ := h'
    rw [operators_binary] at hmeets
    rcases hmeets.split with hmeets | hmeets | ⟨hfirst, rfl⟩ | ⟨rfl, hsecond⟩ | ⟨hfirst, hlt⟩
    · exact ihleft hleft hleft' hmeets
    · exact ihright hright hright' hmeets
    · exact iff_of_true (hleft.le _ hfirst) (hleft'.le _ hfirst)
    · exact iff_of_false (Nat.not_le_of_lt (hright.le _ hsecond)) (Nat.not_le_of_lt (hright'.le _ hsecond))
    · exact absurd (hleft.le _ hfirst) (Nat.not_le_of_lt hlt)

/-- A derivation in one table is one in the other table if the tables agree on what meets. -/
theorem Derives.derives_iff (h : tree.Derives strength k) :
    tree.Derives strength' 0 ↔ ∀ first second, Meets strength first second tree.operators →
      Agree strength strength' first second := by
  refine ⟨fun h' first second hmeets => h.agree h' hmeets, fun hagree => ?_⟩
  induction tree generalizing k with
  | operand => exact .operand
  | binary left op right ihleft ihright =>
    obtain _ | ⟨-, hleft, hright⟩ := h
    rw [operators_binary] at hagree
    have hleft' := ihleft hleft fun first second hmeets =>
      hagree first second (hmeets.append_right _)
    have hright' := ihright hright fun first second hmeets =>
      hagree first second (List.append_cons .. ▸ hmeets.append_left _)
    refine .binary (Nat.zero_le _) ?_ ?_
    · -- the root of the left tree meets the operator over the right part of that tree
      cases hleft' with
      | operand => exact .operand
      | @binary _ root l r _ hl hr =>
        have hlower := hleft.le
        obtain _ | ⟨hroot, hl₁, hr₁⟩ := hleft
        refine .binary ((hagree root op ⟨l.operators, r.operators, right.operators, ?_, ?_⟩).mp hroot) hl hr
        · rw [operators_binary, append_assoc, cons_append]
        · intro other hother
          exact ⟨hr₁.le other hother, hlower other (by rw [operators_binary]; simp [hother])⟩
    · cases hright' with
      | operand => exact .operand
      | @binary _ root l r _ hl hr =>
        obtain _ | ⟨hroot, hl₁, hr₁⟩ := hright
        have hnot := (hagree op root ⟨left.operators, l.operators, r.operators, ?_, ?_⟩).not
        · refine .binary ?_ hl hr
          omega
        · rw [operators_binary]
        · intro other hother
          have := hl₁.le other hother
          exact ⟨by omega, this⟩

end OperatorTree
end Phrust
