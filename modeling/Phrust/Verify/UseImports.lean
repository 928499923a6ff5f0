import Phrust.Syntax.UseDeclaration

/-!
# When the imports of a use declaration are collected

The loop over the items of a group makes no progress at a token that is neither punctuation of a group
nor part of an item. `Place` says where in a declaration the collector is and `returnsFrom` reads the
children once: the collector returns exactly if it never stands at such a token.
-/

namespace Phrust
open Option List Nat
namespace UseCursor

def Returns (elements : List UseElement) : Prop := ∃ fuel entries, collectUseImports fuel elements = some entries

/-! ## Reading the children once -/

inductive Place where
  | use
  | kind
  | clause
  | clauseComma
  | clauseNamed
  | clauseAliased
  | clauseEnd
  | brace
  /-- The head of the loop over a group, behind its comma, and inside of an item. -/
  | head
  | comma
  | kinded
  | named
  | aliased
  | ended
  | closed
  deriving DecidableEq

inductive Verdict where
  | returns
  | stuck
  | go (place : Place)

section
variable (element : UseElement)

def isName : Bool :=
  match element with
  | .name .. => true
  | .token .. => false

def isKind : Bool := element.isToken "T_FUNCTION" || element.isToken "T_CONST"

def isAlias : Bool :=
  match element with
  | .token kind .. => kind == "T_STRING"
  | .name .. => false

def headNext : Verdict :=
  if element.isToken "\x7d" then .go .closed
  else if element.isToken ";" then .returns
  else if element.isToken "," then .go .comma
  else if isKind element then .go .kinded
  else if isName element then .go .named
  else .stuck

def endedNext : Verdict := if element.isToken "," then .go .head else headNext element

def commaNext : Verdict :=
  if element.isToken "\x7d" then .go .closed
  else if isKind element then .go .kinded
  else if isName element then .go .named
  else endedNext element

def clauseNext : Verdict :=
  if element.isToken ";" then .returns
  else if element.isToken "," then .go .clauseComma
  else if isName element then .go .clauseNamed
  else .returns

def continueNext : Verdict := if element.isToken "," then clauseNext element else .returns

def clauseEndNext (rest : List UseElement) : Verdict :=
  if element.isToken "\\" ∧ atToken "\x7b" rest then .go .brace else continueNext element

def Place.next (rest : List UseElement) : Place → Verdict
  | .use =>
    if element.isToken "T_USE" then .go .kind
    else if isKind element then .go .clause
    else clauseNext element
  | .kind => if isKind element then .go .clause else clauseNext element
  | .clause => clauseNext element
  | .clauseComma =>
    if element.isToken ";" then .returns
    else if isName element then .go .clauseNamed
    else continueNext element
  | .clauseNamed => if element.isToken "T_AS" then .go .clauseAliased else clauseEndNext element rest
  | .clauseAliased => if isAlias element then .go .clauseEnd else clauseEndNext element rest
  | .clauseEnd => clauseEndNext element rest
  | .brace => .go .head
  | .head => headNext element
  | .comma => commaNext element
  | .kinded => if isName element then .go .named else endedNext element
  | .named => if element.isToken "T_AS" then .go .aliased else endedNext element
  | .aliased => if isAlias element then .go .ended else endedNext element
  | .ended => endedNext element
  | .closed => continueNext element

end

def returnsFrom : Place → List UseElement → Bool
  | _, [] => true
  | place, element :: rest =>
    match place.next element rest with
    | .returns => true
    | .stuck => false
    | .go place => returnsFrom place rest

section
variable {place place' : Place} {element : UseElement} {rest : List UseElement}

@[simp] theorem returnsFrom_nil (place : Place) : returnsFrom place [] = true := by
  cases place <;> rfl

theorem returnsFrom_congr (h : place.next element rest = place'.next element rest) :
    returnsFrom place (element :: rest) = returnsFrom place' (element :: rest) := by
  rw [returnsFrom, returnsFrom, h]

theorem returnsFrom_go (h : place.next element rest = .go place') : returnsFrom place (element :: rest) = returnsFrom place' rest := by
  rw [returnsFrom, h]

end

/-! ## Items of a group -/

@[simp] theorem atToken_cons (element : UseElement) (rest : List UseElement) :
    atToken what (element :: rest) = element.isToken what := rfl

theorem skipToken_cons (element : UseElement) (rest : List UseElement) :
    skipToken what (element :: rest) = if element.isToken what then rest else element :: rest := rfl

theorem length_skipToken_le (what : String) (elements : List UseElement) :
    (skipToken what elements).length ≤ elements.length := by
  rw [skipToken]
  split
  · rw [length_tail]
    exact sub_le _ _
  · exact Nat.le_refl _

/-- A token that only leads to the other place is skipped. -/
theorem returnsFrom_skipToken {place place' : Place} (hnext : ∀ element rest, place.next element rest =
      if element.isToken what then .go place' else place'.next element rest) (elements : List UseElement) :
    returnsFrom place elements = returnsFrom place' (skipToken what elements) := by
  cases elements with
  | nil => exact (returnsFrom_nil _).trans (returnsFrom_nil _).symm
  | cons element rest =>
    rw [skipToken_cons]
    split
    · next hskip => exact returnsFrom_go ((hnext element rest).trans (if_pos hskip))
    · next hskip => exact returnsFrom_congr ((hnext element rest).trans (if_neg hskip))

theorem returnsFrom_ended (elements : List UseElement) :
    returnsFrom .ended elements = returnsFrom .head (skipToken "," elements) :=
  returnsFrom_skipToken (fun _ _ => rfl) elements

/-- An alias is read in the same way outside and inside of groups. -/
theorem takeAlias_spec (span : TextRange) (hstart : ∀ element rest, start.next element rest =
      if element.isToken "T_AS" then .go behind else finish.next element rest)
    (hbehind : ∀ element rest, behind.next element rest =
      if isAlias element then .go finish else finish.next element rest) (elements : List UseElement) :
    returnsFrom start elements = returnsFrom finish (takeAlias span elements).2 ∧
      (takeAlias span elements).2.length ≤ elements.length := by
  cases elements with
  | nil => exact ⟨(returnsFrom_nil _).trans (returnsFrom_nil _).symm, Nat.le_refl _⟩
  | cons element rest =>
    rw [takeAlias, atToken_cons]
    by_cases has : element.isToken "T_AS" = true
    · rw [if_pos has, tail_cons, returnsFrom_go ((hstart element rest).trans (if_pos has))]
      cases rest with
      | nil => exact ⟨(returnsFrom_nil _).trans (returnsFrom_nil _).symm, zero_le _⟩
      | cons second rest =>
        cases second with
        | name name span' =>
          exact ⟨returnsFrom_congr ((hbehind _ _).trans (if_neg Bool.false_ne_true)), le_succ _⟩
        | token kind text span' =>
          by_cases hstring : kind = "T_STRING"
          · simp only [if_pos hstring]
            exact ⟨returnsFrom_go ((hbehind _ _).trans (if_pos (beq_iff_eq.mpr hstring))),
              le_succ_of_le (le_succ _)⟩
          · simp only [if_neg hstring]
            exact ⟨returnsFrom_congr ((hbehind _ _).trans (if_neg fun h => hstring (beq_iff_eq.mp h))),
              le_succ _⟩
    · rw [if_neg has]
      exact ⟨returnsFrom_congr ((hstart element rest).trans (if_neg has)), Nat.le_refl _⟩

theorem takeAlias_group (span : TextRange) (elements : List UseElement) :
    returnsFrom .named elements = returnsFrom .ended (takeAlias span elements).2 ∧
      (takeAlias span elements).2.length ≤ elements.length :=
  takeAlias_spec span (fun _ _ => rfl) (fun _ _ => rfl) elements

theorem takeAlias_clause (span : TextRange) (elements : List UseElement) :
    returnsFrom .clauseNamed elements = returnsFrom .clauseEnd (takeAlias span elements).2 ∧
      (takeAlias span elements).2.length ≤ elements.length :=
  takeAlias_spec span (fun _ _ => rfl) (fun _ _ => rfl) elements

section
variable (defaultKind : ImportKind)

theorem parseItem_snd (base : QualifiedName) (elements : List UseElement) :
    (parseItem defaultKind base elements).2 = (parseSingleClause defaultKind true elements).2 := by
  rw [parseItem]
  split <;> next h => rw [h]

/-- What is left behind a name and its alias, if there is a name. -/
theorem parseSingleClause_named (elements : List UseElement) :
    ∃ span, (parseSingleClause defaultKind false elements).2 =
      match elements with
      | .name _ _ :: rest => (takeAlias span rest).2
      | elements => elements := by
  cases elements with
  | nil => exact ⟨⟨0, 0⟩, rfl⟩
  | cons element rest =>
    cases element with
    | name name span => exact ⟨span, rfl⟩
    | token => exact ⟨⟨0, 0⟩, rfl⟩

theorem parseSingleClause_kind (element : UseElement) (rest : List UseElement) :
    ∃ kind, (parseSingleClause defaultKind true (element :: rest)).2 =
      (parseSingleClause kind false (if isKind element then rest else element :: rest)).2 := by
  simp only [parseSingleClause, if_true, Bool.false_eq_true, if_false, takeImportKind, atToken_cons, isKind,
    tail_cons]
  by_cases hfunction : element.isToken "T_FUNCTION" = true
  · refine ⟨.function, ?_⟩
    simp [hfunction]
  by_cases hconst : element.isToken "T_CONST" = true
  · refine ⟨.const, ?_⟩
    simp [hfunction, hconst]
  · refine ⟨defaultKind, ?_⟩
    simp [hfunction, hconst]

variable (base : QualifiedName)

/-- An item is read from any place that goes on at a kind or a name and otherwise as if it were read. -/
theorem parseItem_returns {place : Place} {element : UseElement} {rest : List UseElement}
    (hnext : place.next element rest = if isKind element then .go .kinded
      else if isName element then .go .named else endedNext element) :
    returnsFrom place (element :: rest) = returnsFrom .ended (parseItem defaultKind base (element :: rest)).2 ∧
      (parseItem defaultKind base (element :: rest)).2.length ≤
        if isKind element || isName element then rest.length else rest.length + 1 := by
  obtain ⟨kind, hleft⟩ := parseSingleClause_kind defaultKind element rest
  rw [parseItem_snd, hleft]
  cases hkind : isKind element with
  | true =>
    obtain ⟨span, hclause⟩ := parseSingleClause_named kind rest
    simp only [if_true, Bool.true_or]
    rw [hclause, returnsFrom_go (hnext.trans (if_pos hkind))]
    cases rest with
    | nil => exact ⟨rfl, Nat.le_refl _⟩
    | cons second rest =>
      cases second with
      | name name span' =>
        obtain ⟨hreturns, hlength⟩ := takeAlias_group span rest
        exact ⟨(returnsFrom_go rfl).trans hreturns, le_succ_of_le hlength⟩
      | token => exact ⟨returnsFrom_congr rfl, Nat.le_refl _⟩
  | false =>
    obtain ⟨span, hclause⟩ := parseSingleClause_named kind (element :: rest)
    rw [if_neg (Bool.eq_false_iff.mp hkind)] at hnext
    simp only [Bool.false_eq_true, if_false, Bool.false_or]
    rw [hclause]
    cases element with
    | name name span' =>
      rw [returnsFrom_go hnext]
      exact takeAlias_group span rest
    | token => exact ⟨returnsFrom_congr hnext, Nat.le_refl _⟩

theorem parseItem_comma (hbrace : atToken "\x7d" elements = false) :
    returnsFrom .comma elements = returnsFrom .ended (parseItem defaultKind base elements).2 ∧
      (parseItem defaultKind base elements).2.length ≤ elements.length := by
  cases elements with
  | nil => exact ⟨rfl, Nat.le_refl _⟩
  | cons element rest =>
    have hnext : Place.next element rest .comma = _ := if_neg (Bool.eq_false_iff.mp hbrace)
    obtain ⟨hreturns, hlength⟩ := parseItem_returns defaultKind base hnext
    refine ⟨hreturns, Nat.le_trans hlength ?_⟩
    split
    · exact Nat.le_succ _
    · exact Nat.le_refl _

/-- At the head of the loop nothing is read only at a token where the loop is stuck. -/
theorem parseItem_head {element : UseElement}
    {rest : List UseElement} (hbrace : element.isToken "\x7d" = false) (hsemicolon : element.isToken ";" = false)
    (hcomma : element.isToken "," = false) :
    returnsFrom .head (element :: rest) =
        returnsFrom .ended (parseItem defaultKind base (element :: rest)).2 ∧
      (parseItem defaultKind base (element :: rest)).2.length ≤ (element :: rest).length ∧
      (returnsFrom .head (element :: rest) = true →
        (parseItem defaultKind base (element :: rest)).2.length < (element :: rest).length) := by
  have hnext : Place.next element rest .head =
      if isKind element then .go .kinded else if isName element then .go .named else .stuck := by
    simp only [Place.next, headNext, hbrace, hsemicolon, hcomma, Bool.false_eq_true, if_false]
  have hitem : Place.next element rest .head = if isKind element then .go .kinded
      else if isName element then .go .named else endedNext element := by
    have hended : endedNext element = Place.next element rest .head :=
      if_neg (Bool.eq_false_iff.mp hcomma)
    rw [hended, hnext]
    split_ifs <;> rfl
  obtain ⟨hreturns, hlength⟩ := parseItem_returns defaultKind base hitem
  refine ⟨hreturns, ?_, fun h => ?_⟩
  · refine Nat.le_trans hlength ?_
    split
    · exact Nat.le_succ _
    · exact Nat.le_refl _
  · split at hlength
    · exact lt_succ_of_le hlength
    · next hneither =>
      rw [Bool.or_eq_true, not_or, Bool.not_eq_true, Bool.not_eq_true] at hneither
      rw [returnsFrom, hnext, hneither.1, hneither.2] at h
      cases h

/-- One round of the loop over a group: where it goes on, and that it has moved unless it is stuck. -/
theorem returnsFrom_head (hcontinue : ¬(elements = [] ∨ atToken "\x7d" elements ∨ atToken ";" elements)) :
    (atToken "\x7d" (skipToken "," elements) = true →
      returnsFrom .head elements = returnsFrom .closed (skipToken "," elements).tail) ∧
    (atToken "\x7d" (skipToken "," elements) = false →
      returnsFrom .head elements = returnsFrom .ended (parseItem defaultKind base (skipToken "," elements)).2 ∧
        (parseItem defaultKind base (skipToken "," elements)).2.length ≤ elements.length ∧
        (returnsFrom .head elements = true →
          (parseItem defaultKind base (skipToken "," elements)).2.length < elements.length)) := by
  cases elements with
  | nil => exact absurd (.inl rfl) hcontinue
  | cons element rest =>
    simp only [reduceCtorEq, atToken_cons, false_or, not_or, Bool.not_eq_true] at hcontinue
    obtain ⟨hbrace, hsemicolon⟩ := hcontinue
    rw [skipToken_cons]
    by_cases hcomma : element.isToken "," = true
    · rw [if_pos hcomma]
      have hgo : returnsFrom .head (element :: rest) = returnsFrom .comma rest :=
        returnsFrom_go (by simp only [Place.next, headNext, hbrace, hsemicolon, hcomma, Bool.false_eq_true, if_false,
          if_true])
      rw [hgo]
      refine ⟨fun hend => ?_, fun hend => ?_⟩
      · cases rest with
        | nil => cases hend
        | cons second rest => exact returnsFrom_go (if_pos hend)
      · obtain ⟨hreturns, hlength⟩ := parseItem_comma defaultKind base hend
        exact ⟨hreturns, le_succ_of_le hlength, fun _ => lt_succ_of_le hlength⟩
    · rw [if_neg hcomma, atToken_cons, hbrace]
      rw [Bool.not_eq_true] at hcomma
      exact ⟨nofun, fun _ => parseItem_head defaultKind base hbrace hsemicolon hcomma⟩

end

/-! ## Groups and clauses -/

/-- What happens behind a clause. -/
def continueFrom (elements : List UseElement) : Bool :=
  if atToken "," elements then returnsFrom .clause elements else true

theorem returnsFrom_closed (elements : List UseElement) : returnsFrom .closed elements = continueFrom elements := by
  cases elements with
  | nil => rfl
  | cons element rest =>
    rw [continueFrom, atToken_cons]
    by_cases hcomma : element.isToken "," = true
    · rw [if_pos hcomma]
      exact returnsFrom_congr (if_pos hcomma)
    · rw [if_neg hcomma, returnsFrom, Place.next, continueNext, if_neg hcomma]

/-- Where the loop over a group ends, the clauses go on. -/
theorem returnsFrom_groupEnd (hend : elements = [] ∨ atToken "\x7d" elements ∨ atToken ";" elements) :
    returnsFrom .head elements = continueFrom (skipToken "\x7d" elements) := by
  cases elements with
  | nil => rfl
  | cons element rest =>
    simp only [reduceCtorEq, atToken_cons, false_or] at hend
    rw [skipToken_cons]
    by_cases hbrace : element.isToken "\x7d" = true
    · rw [if_pos hbrace, ← returnsFrom_closed]
      exact returnsFrom_go (if_pos hbrace)
    · have hsemicolon := hend.resolve_left hbrace
      rw [if_neg hbrace, continueFrom, returnsFrom, returnsFrom, Place.next, Place.next, headNext, clauseNext,
        if_neg hbrace, if_pos hsemicolon, if_pos hsemicolon, ite_self]

/-- The loop over a group ends where `returnsFrom` says. With enough fuel it fails only if it is stuck. -/
theorem parseGroup_spec (defaultKind : ImportKind) (base : QualifiedName) (fuel : Nat)
    (elements : List UseElement) :
    match parseGroup defaultKind base fuel elements with
    | some (_, left) =>
      returnsFrom .head elements = continueFrom (skipToken "\x7d" left) ∧ left.length ≤ elements.length
    | none => elements.length < fuel → returnsFrom .head elements = false := by
  induction fuel generalizing elements with
  | zero => exact fun h => absurd h (not_lt_zero _)
  | succ fuel ih =>
    rw [parseGroup]
    by_cases hend : elements = [] ∨ atToken "\x7d" elements ∨ atToken ";" elements
    · rw [if_pos hend]
      exact ⟨returnsFrom_groupEnd hend, Nat.le_refl _⟩
    obtain ⟨hclose, hround⟩ := returnsFrom_head defaultKind base hend
    rw [if_neg hend]
    by_cases hbrace : atToken "\x7d" (skipToken "," elements) = true
    · simp only [if_pos hbrace]
      rw [hclose hbrace, returnsFrom_closed, skipToken.eq_def "\x7d", if_pos hbrace]
      exact ⟨rfl, length_skipToken_le _ _⟩
    obtain ⟨hgo, hle, hlt⟩ := hround (Bool.eq_false_iff.mpr hbrace)
    rw [returnsFrom_ended] at hgo
    have hskip := length_skipToken_le "," (parseItem defaultKind base (skipToken "," elements)).2
    have hrest := ih (skipToken "," (parseItem defaultKind base (skipToken "," elements)).2)
    simp only [if_neg hbrace]
    split at hrest
    · next heq =>
      rw [heq]
      exact ⟨hgo.trans hrest.1, Nat.le_trans hrest.2 (Nat.le_trans hskip hle)⟩
    · next heq =>
      rw [heq]
      refine fun hfuel => eq_false_of_ne_true fun h => ?_
      have hlt := hlt h
      rw [hgo, hrest (by omega)] at h
      cases h

theorem returnsFrom_clause_comma {element : UseElement} (rest : List UseElement)
    (hsemicolon : ¬element.isToken ";") (hcomma : element.isToken ",") :
    returnsFrom .clause (element :: rest) = returnsFrom .clauseComma rest :=
  returnsFrom_go ((if_neg hsemicolon).trans (if_pos hcomma))

/-- From the place of a clause. -/
def clauseFrom : List UseElement → Bool
  | .name _ _ :: rest => returnsFrom .clauseNamed rest
  | elements => continueFrom elements

abbrev clausesEnd (elements : List UseElement) : Prop := elements = [] ∨ atToken ";" elements

theorem returnsFrom_clause (elements : List UseElement) (hcontinue : ¬clausesEnd elements) :
    (clausesEnd (skipToken "," elements) → returnsFrom .clause elements = true) ∧
      (¬clausesEnd (skipToken "," elements) →
        returnsFrom .clause elements = clauseFrom (skipToken "," elements)) := by
  cases elements with
  | nil => exact absurd (.inl rfl) hcontinue
  | cons element rest =>
    simp only [clausesEnd, reduceCtorEq, atToken_cons, false_or] at hcontinue ⊢
    rw [skipToken_cons]
    by_cases hcomma : element.isToken "," = true
    · rw [if_pos hcomma, returnsFrom_clause_comma rest hcontinue hcomma]
      cases rest with
      | nil => exact ⟨fun _ => rfl, fun h => absurd (.inl rfl) h⟩
      | cons second rest =>
        simp only [reduceCtorEq, atToken_cons, false_or]
        refine ⟨fun hend => by rw [returnsFrom, Place.next, if_pos hend], fun hcontinue' => ?_⟩
        cases second with
        | name => exact returnsFrom_go rfl
        | token kind text span =>
          rw [clauseFrom, ← returnsFrom_closed]
          · exact returnsFrom_congr (if_neg hcontinue')
          · exact nofun
    · rw [if_neg hcomma]
      simp only [reduceCtorEq, atToken_cons, false_or]
      refine ⟨fun hend => absurd hend hcontinue, fun _ => ?_⟩
      have hnext : Place.next element rest .clause =
          if isName element then .go .clauseNamed else .returns := (if_neg hcontinue).trans (if_neg hcomma)
      cases element with
      | name => exact returnsFrom_go hnext
      | token kind text span =>
        rw [clauseFrom, continueFrom, atToken_cons, if_neg hcomma, returnsFrom, hnext]
        · rfl
        · exact nofun

theorem returnsFrom_clauseEnd (elements : List UseElement) :
    returnsFrom .clauseEnd elements =
      if atToken "\\" elements ∧ atToken "\x7b" elements.tail then returnsFrom .head (elements.drop 2)
      else continueFrom elements := by
  cases elements with
  | nil => rfl
  | cons element rest =>
    by_cases hgroup : element.isToken "\\" ∧ atToken "\x7b" rest
    · rw [atToken_cons, tail_cons, if_pos hgroup]
      have hgo : returnsFrom .clauseEnd (element :: rest) = returnsFrom .brace rest := returnsFrom_go (if_pos hgroup)
      rw [hgo]
      cases rest with
      | nil => cases hgroup.2
      | cons second rest => exact returnsFrom_go rfl
    · rw [atToken_cons, tail_cons, if_neg hgroup, ← returnsFrom_closed]
      exact returnsFrom_congr (if_neg hgroup)

theorem parseClause_spec (defaultKind : ImportKind) (fuel : Nat) (elements : List UseElement) :
    match parseClause fuel defaultKind elements with
    | some (_, left) => clauseFrom elements = continueFrom left ∧ left.length ≤ elements.length ∧
      ((∃ name span rest, elements = .name name span :: rest) → left.length < elements.length) ∧
      ((¬∃ name span rest, elements = .name name span :: rest) → left = elements)
    | none => elements.length ≤ fuel → clauseFrom elements = false := by
  cases elements with
  | nil => exact ⟨rfl, Nat.le_refl _, nofun, fun _ => rfl⟩
  | cons element rest =>
    cases element with
    | token kind text span => exact ⟨rfl, Nat.le_refl _, nofun, fun _ => rfl⟩
    | name name span =>
      obtain ⟨halias, hlength⟩ := takeAlias_clause span rest
      rw [parseClause, parseSingleClause, clauseFrom, halias, returnsFrom_clauseEnd]
      simp only [Bool.false_eq_true, if_false]
      by_cases hgroup : atToken "\\" (takeAlias span rest).2 ∧ atToken "\x7b" (takeAlias span rest).2.tail
      · have hspec := parseGroup_spec defaultKind name fuel ((takeAlias span rest).2.drop 2)
        rw [length_drop] at hspec
        simp only [if_pos hgroup]
        split at hspec
        · next left heq =>
          rw [heq]
          have hskip := length_skipToken_le "\x7d" left
          have hlt : (skipToken "\x7d" left).length < (UseElement.name name span :: rest).length :=
            lt_succ_of_le (by omega)
          exact ⟨hspec.1, Nat.le_of_lt hlt, fun _ => hlt, fun hne => absurd ⟨name, span, rest, rfl⟩ hne⟩
        · next heq =>
          rw [heq]
          exact fun hfuel => hspec (by rw [length_cons] at hfuel; omega)
      · simp only [if_neg hgroup]
        exact ⟨trivial, le_succ_of_le hlength, fun _ => lt_succ_of_le hlength,
          fun hne => absurd ⟨name, span, rest, rfl⟩ hne⟩

theorem parseClauses_spec (groupFuel : Nat) (defaultKind : ImportKind) (fuel : Nat)
    (elements : List UseElement) :
    match parseClauses groupFuel defaultKind fuel elements with
    | some _ => returnsFrom .clause elements = true
    | none => elements.length ≤ groupFuel → elements.length < fuel → returnsFrom .clause elements = false := by
  induction fuel generalizing elements with
  | zero => exact fun _ h => absurd h (not_lt_zero _)
  | succ fuel ih =>
    rw [parseClauses]
    by_cases hend : clausesEnd elements
    · rw [if_pos hend]
      cases elements with
      | nil => rfl
      | cons element rest =>
        simp only [clausesEnd, reduceCtorEq, atToken_cons, false_or] at hend
        simp only [returnsFrom, Place.next, clauseNext, if_pos hend]
    · obtain ⟨hclosed, hclause⟩ := returnsFrom_clause elements hend
      rw [if_neg hend]
      by_cases hend' : clausesEnd (skipToken "," elements)
      · simp [if_pos hend', hclosed hend']
      have hskip := length_skipToken_le "," elements
      have hspec := parseClause_spec defaultKind groupFuel (skipToken "," elements)
      simp only [if_neg hend', hclause hend']
      split at hspec
      · next left heq =>
        obtain ⟨hreturns, hle, hnamed, hsame⟩ := hspec
        rw [heq, bind_some, hreturns, continueFrom]
        simp only
        by_cases hcomma : atToken "," left = true
        · -- A comma in front, or a name: one of them has been read.
          have hlt : left.length < elements.length := by
            cases elements with
            | nil => exact absurd (.inl rfl) hend
            | cons element rest =>
              rw [skipToken_cons] at hle hnamed hsame
              by_cases hfirst : element.isToken "," = true
              · rw [if_pos hfirst] at hle
                exact lt_succ_of_le hle
              rw [if_neg hfirst] at hnamed hsame
              cases element with
              | name name span => exact hnamed ⟨name, span, rest, rfl⟩
              | token =>
                rw [hsame nofun] at hcomma
                exact absurd hcomma hfirst
          have hrest := ih left
          rw [if_pos hcomma, if_pos hcomma]
          split at hrest
          · next heq => rw [heq]; exact hrest
          · next heq =>
            rw [heq]
            exact fun hgroup hfuel => hrest (by omega) (by omega)
        · rw [if_neg hcomma, if_neg hcomma]
      · next heq =>
        rw [heq]
        exact fun hgroup _ => hspec (by omega)

/-! ## Declarations -/

theorem returnsFrom_use (elements : List UseElement) :
    returnsFrom .use elements = returnsFrom .clause (takeImportKind (skipToken "T_USE" elements)).2 := by
  have hkind (elements : List UseElement) :
      returnsFrom .kind elements = returnsFrom .clause (takeImportKind elements).2 := by
    cases elements with
    | nil => rfl
    | cons element rest =>
      rw [takeImportKind, atToken_cons, atToken_cons]
      by_cases hfunction : element.isToken "T_FUNCTION" = true
      · rw [if_pos hfunction]
        exact returnsFrom_go (by rw [Place.next, isKind, hfunction]; rfl)
      by_cases hconst : element.isToken "T_CONST" = true
      · rw [if_neg hfunction, if_pos hconst]
        exact returnsFrom_go (by rw [Place.next, isKind, hconst, Bool.or_true]; rfl)
      rw [if_neg hfunction, if_neg hconst]
      refine returnsFrom_congr (if_neg ?_)
      rw [isKind, Bool.or_eq_true, not_or]
      exact ⟨hfunction, hconst⟩
  rw [← hkind]
  exact returnsFrom_skipToken (fun _ _ => rfl) elements

theorem collectUseImports_spec (fuel : Nat) (elements : List UseElement) :
    match collectUseImports fuel elements with
    | some _ => returnsFrom .use elements = true
    | none => (takeImportKind (skipToken "T_USE" elements)).2.length < fuel →
      returnsFrom .use elements = false := by
  rw [returnsFrom_use, collectUseImports]
  have hspec := parseClauses_spec fuel ((takeImportKind (skipToken "T_USE" elements)).1.getD .classLike) fuel
    (takeImportKind (skipToken "T_USE" elements)).2
  split at hspec
  · next heq => simp [heq, hspec]
  · next heq =>
    simp only [heq]
    exact fun hfuel => hspec (Nat.le_of_lt hfuel) hfuel

/-- The collector returns if and only if it never stands at a token that stops it. -/
theorem collectUseImports_returns_iff (elements : List UseElement) :
    Returns elements ↔ returnsFrom .use elements = true := by
  constructor
  · rintro ⟨fuel, entries, h⟩
    have hspec := collectUseImports_spec fuel elements
    rwa [h] at hspec
  intro h
  have hspec := collectUseImports_spec ((takeImportKind (skipToken "T_USE" elements)).2.length + 1) elements
  split at hspec
  · next entries hentries => exact ⟨_, entries, hentries⟩
  · rw [hspec (lt_succ_self _)] at h
    cases h

/-- `use A\{B as class};` -/
def reservedAlias : List SourceToken := [
  ⟨.named .use, bytesOf "use", ⟨0, 3⟩, 4⟩,
  ⟨.named .string, bytesOf "A", ⟨4, 5⟩, 5⟩,
  ⟨.named .nsSeparator, bytesOf "\\", ⟨5, 6⟩, 6⟩,
  ⟨.symbol '\x7b', bytesOf "\x7b", ⟨6, 7⟩, 7⟩,
  ⟨.named .string, bytesOf "B", ⟨7, 8⟩, 9⟩,
  ⟨.named .as, bytesOf "as", ⟨9, 11⟩, 12⟩,
  ⟨.named (.other "T_CLASS"), bytesOf "class", ⟨12, 17⟩, 17⟩,
  ⟨.symbol '\x7d', bytesOf "\x7d", ⟨17, 18⟩, 18⟩,
  ⟨.symbol ';', bytesOf ";", ⟨18, 19⟩, 19⟩]

/-- The parser leaves the reserved word between the braces, and the collector does not return. -/
theorem reservedAlias_stuck :
    UseGrammar.parseUseDeclaration reservedAlias = [ .token "T_USE" (bytesOf "use") ⟨0, 3⟩,
        .name (.parse (bytesOf "A")) ⟨4, 5⟩, .token "T_NS_SEPARATOR" (bytesOf "\\") ⟨5, 6⟩,
        .token "\x7b" (bytesOf "\x7b") ⟨6, 7⟩, .name (.parse (bytesOf "B")) ⟨7, 9⟩,
        .token "T_AS" (bytesOf "as") ⟨9, 11⟩, .token "T_CLASS" (bytesOf "class") ⟨12, 17⟩,
        .token "\x7d" (bytesOf "\x7d") ⟨17, 18⟩, .token ";" (bytesOf ";") ⟨18, 19⟩] ∧
      ¬Returns (UseGrammar.parseUseDeclaration reservedAlias) := by
  refine ⟨by decide, fun h => ?_⟩
  obtain ⟨fuel, entries, h⟩ := h
  have hspec := collectUseImports_spec fuel (UseGrammar.parseUseDeclaration reservedAlias)
  rw [h] at hspec
  have hstuck : returnsFrom .use (UseGrammar.parseUseDeclaration reservedAlias) = false := by decide
  cases hstuck.symm.trans hspec

end UseCursor
end Phrust
