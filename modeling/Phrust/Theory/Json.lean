import Mathlib.Algebra.Order.Ring.Int
import Mathlib.Data.List.Basic

/-!
# JSON texts

Trees, the texts of RFC 8259 that denote them, and a writer with a parameter for the text of a
string. A change to a written text that keeps the characters outside the strings is a change of that
parameter (`render_scan`), so that it is enough to look at it string by string.
-/

namespace Phrust
open List

/-! ## Trees -/

namespace Json
variable (text : List Char)

/-- One or more digits. -/
def IsDigits : Prop := text ≠ [] ∧ ∀ c ∈ text, c.isDigit = true

def IsInteger : Prop := text = ['0'] ∨ IsDigits text ∧ text.head? ≠ some '0'

def IsFraction : Prop :=
  text = [] ∨ ∃ digits, IsDigits digits ∧ text = '.' :: digits

def IsExponent : Prop :=
  text = [] ∨ ∃ mark sign digits, (mark = 'e' ∨ mark = 'E') ∧
    (sign = [] ∨ sign = ['+'] ∨ sign = ['-']) ∧ IsDigits digits ∧ text = mark :: (sign ++ digits)

/-- RFC 8259, section 6 -/
def IsNumber : Prop :=
  ∃ minus integer fraction exponent, (minus = [] ∨ minus = ['-']) ∧ IsInteger integer ∧
    IsFraction fraction ∧ IsExponent exponent ∧ text = minus ++ (integer ++ (fraction ++ exponent))

end Json

/-- A number is its text. -/
structure JsonNumber where
  text : List Char
  isNumber : Json.IsNumber text

inductive Json where
  | null
  | bool (value : Bool)
  | number (value : JsonNumber)
  | string (value : List Char)
  | array (elements : List Json)
  | object (members : List (List Char × Json))

namespace Json

@[elab_as_elim]
theorem induction {P : Json → Prop} (null : P .null) (bool : ∀ value, P (.bool value))
    (number : ∀ value, P (.number value)) (string : ∀ value, P (.string value))
    (array : ∀ elements, (∀ element ∈ elements, P element) → P (.array elements))
    (object : ∀ members, (∀ member ∈ members, P member.2) → P (.object members)) : ∀ json, P json :=
  @Json.rec P (fun elements => ∀ element ∈ elements, P element)
    (fun members => ∀ member ∈ members, P member.2) (fun member => P member.2)
    null bool number string array object nofun (fun _ _ h hs => forall_mem_cons.mpr ⟨h, hs⟩)
    nofun (fun _ _ h hs => forall_mem_cons.mpr ⟨h, hs⟩) fun _ _ h => h

mutual

/-- The strings of a tree, keys included, from left to right. -/
def strings : Json → List (List Char)
  | .string value => [value]
  | .array elements => elementStrings elements
  | .object members => memberStrings members
  | _ => []

def elementStrings : List Json → List (List Char)
  | [] => []
  | element :: elements => element.strings ++ elementStrings elements

def memberStrings : List (List Char × Json) → List (List Char)
  | [] => []
  | (key, value) :: members => key :: (value.strings ++ memberStrings members)

end

/-! ## Texts -/

/-- RFC 8259, section 2: `ws` -/
def Blank (text : List Char) : Prop := ∀ c ∈ text, c = ' ' ∨ c = '\t' ∨ c = '\n' ∨ c = '\r'

def hexValue (c : Char) : Option Nat :=
  if c.isDigit then some (c.toNat - 48)
  else if 'a' ≤ c ∧ c ≤ 'f' then some (c.toNat - 87)
  else if 'A' ≤ c ∧ c ≤ 'F' then some (c.toNat - 55)
  else none

/-- The escape with four hexadecimal digits. -/
inductive Unit16 : Nat → List Char → Prop where
  | mk {a b c d : Char} {v w x y : Nat} : hexValue a = some v → hexValue b = some w →
    hexValue c = some x → hexValue d = some y →
    Unit16 (((v * 16 + w) * 16 + x) * 16 + y) ['\\', 'u', a, b, c, d]

/-- RFC 8259, section 7: the texts of one character in a string -/
inductive CharText : Char → List Char → Prop where
  | plain {c : Char} : 32 ≤ c.toNat → c ≠ '"' → c ≠ '\\' → CharText c [c]
  | quote : CharText '"' ['\\', '"']
  | backslash : CharText '\\' ['\\', '\\']
  | slash : CharText '/' ['\\', '/']
  | backspace : CharText '\x08' ['\\', 'b']
  | formFeed : CharText '\x0c' ['\\', 'f']
  | lineFeed : CharText '\n' ['\\', 'n']
  | carriageReturn : CharText '\r' ['\\', 'r']
  | tab : CharText '\t' ['\\', 't']
  | unit {c : Char} {text : List Char} : Unit16 c.toNat text → CharText c text
  | pair {c : Char} {high low : Nat} {text text' : List Char} : high < 1024 → low < 1024 →
    c.toNat = 0x10000 + high * 1024 + low → Unit16 (0xD800 + high) text →
    Unit16 (0xDC00 + low) text' → CharText c (text ++ text')

/-- The texts between the quotes of a string. -/
inductive Spells : List Char → List Char → Prop where
  | nil : Spells [] []
  | cons {c : Char} {s text rest : List Char} : CharText c text → Spells s rest →
    Spells (c :: s) (text ++ rest)

def StringText (s text : List Char) : Prop := ∃ body, Spells s body ∧ text = '"' :: (body ++ ['"'])

/-- What stands between two values of a list, or in front of the first one. -/
def Separator (first : Bool) (text : List Char) : Prop :=
  if first then text = [] else ∃ blank, Blank blank ∧ text = blank ++ [',']

mutual

/-- RFC 8259, section 3: `value` -/
def Denotes : Json → List Char → Prop
  | .null, text => text = ['n', 'u', 'l', 'l']
  | .bool true, text => text = ['t', 'r', 'u', 'e']
  | .bool false, text => text = ['f', 'a', 'l', 's', 'e']
  | .number value, text => text = value.text
  | .string value, text => StringText value text
  | .array elements, text => ∃ body, ElementsText elements true body ∧ text = '[' :: (body ++ [']'])
  | .object members, text => ∃ body, MembersText members true body ∧ text = '{' :: (body ++ ['}'])

def ElementsText : List Json → Bool → List Char → Prop
  | [], _, body => Blank body
  | element :: elements, first, body => ∃ separator blank text rest, Separator first separator ∧
      Blank blank ∧ element.Denotes text ∧ ElementsText elements false rest ∧
      body = separator ++ (blank ++ (text ++ rest))

def MembersText : List (List Char × Json) → Bool → List Char → Prop
  | [], _, body => Blank body
  | (key, value) :: members, first, body => ∃ separator blank keyText colon text rest,
      Separator first separator ∧ Blank blank ∧ StringText key keyText ∧
      (∃ before after, Blank before ∧ Blank after ∧ colon = before ++ ':' :: after) ∧
      value.Denotes text ∧ MembersText members false rest ∧
      body = separator ++ (blank ++ (keyText ++ (colon ++ (text ++ rest))))

end

/-- RFC 8259, section 2: the text is well formed and its value is the tree. -/
def IsText (json : Json) (text : List Char) : Prop :=
  ∃ before value after, Blank before ∧ json.Denotes value ∧ Blank after ∧
    text = before ++ (value ++ after)

/-! ### Quotes -/

theorem StringText.quotes (h : StringText s text) : 2 ≤ text.count '"' := by
  obtain ⟨body, -, rfl⟩ := h
  simp only [count_cons_self, count_append]
  simp

theorem quotes_elements (ih : ∀ element ∈ elements, ∀ {text},
      element.Denotes text → 2 * element.strings.length ≤ text.count '"')
    (h : ElementsText elements first body) : 2 * (elementStrings elements).length ≤ body.count '"' := by
  induction elements generalizing first body with
  | nil => simp [elementStrings]
  | cons element elements ih' =>
    obtain ⟨separator, blank, text, rest, -, -, htext, hrest, rfl⟩ := h
    have helement := ih element mem_cons_self htext
    have helements := ih' (forall_mem_cons.mp ih).2 hrest
    simp only [elementStrings, length_append, count_append]
    omega

theorem quotes_members (ih : ∀ member ∈ members, ∀ {text},
      member.2.Denotes text → 2 * member.2.strings.length ≤ text.count '"')
    (h : MembersText members first body) : 2 * (memberStrings members).length ≤ body.count '"' := by
  induction members generalizing first body with
  | nil => simp [memberStrings]
  | cons member members ih' =>
    obtain ⟨separator, blank, keyText, colon, text, rest, -, -, hkey, -, htext, hrest, rfl⟩ := h
    have hquotes := hkey.quotes
    have hvalue := ih _ mem_cons_self htext
    have hmembers := ih' (forall_mem_cons.mp ih).2 hrest
    simp only [memberStrings, length_cons, length_append, count_append] at hvalue ⊢
    omega

theorem Denotes.quotes {json : Json} (h : json.Denotes text) : 2 * json.strings.length ≤ text.count '"' := by
  induction json using Json.induction generalizing text with
  | string value =>
    have := StringText.quotes h
    simpa [strings] using this
  | array elements ih =>
    obtain ⟨body, hbody, rfl⟩ := h
    have := quotes_elements ih hbody
    simp only [strings, count_cons, count_append]
    omega
  | object members ih =>
    obtain ⟨body, hbody, rfl⟩ := h
    have := quotes_members ih hbody
    simp only [strings, count_cons, count_append]
    omega
  | _ => simp [strings]

theorem IsText.quotes {json : Json} (h : json.IsText text) : 2 * json.strings.length ≤ text.count '"' := by
  obtain ⟨before, value, after, -, hvalue, -, rfl⟩ := h
  have := hvalue.quotes
  simp only [count_append]
  omega

/-! ## Writing -/

/-- Without blanks, or with a line for each value, indented by `unit` for each level. -/
inductive Layout where
  | compact
  | pretty (unit : Nat)

namespace Layout

def newline : Layout → Nat → List Char
  | .compact, _ => []
  | .pretty unit, level => '\n' :: List.replicate (unit * level) ' '

def colon : Layout → List Char
  | .compact => [':']
  | .pretty _ => [':', ' ']

variable (layout : Layout) (level : Nat)

theorem blank_newline : Blank (layout.newline level) := by
  intro c hc
  cases layout with
  | compact => cases hc
  | pretty unit =>
    rcases mem_cons.mp hc with rfl | hc
    · exact .inr (.inr (.inl rfl))
    · exact .inl (eq_of_mem_replicate hc)

/-- In front of the closing bracket. -/
def closing (isEmpty : Bool) : List Char :=
  if isEmpty then [] else layout.newline level

/-- In front of a value of a list. -/
def opening (first : Bool) : List Char :=
  (if first then [] else [',']) ++ layout.newline level

end Layout

mutual

/-- The text of a tree at a level, with `str` for the strings. -/
def render (layout : Layout) (str : List Char → List Char) : Nat → Json → List Char
  | _, .null => ['n', 'u', 'l', 'l']
  | _, .bool true => ['t', 'r', 'u', 'e']
  | _, .bool false => ['f', 'a', 'l', 's', 'e']
  | _, .number value => value.text
  | _, .string value => str value
  | level, .array elements => '[' :: (renderElements layout str (level + 1) elements true ++
      (layout.closing level elements.isEmpty ++ [']']))
  | level, .object members => '{' :: (renderMembers layout str (level + 1) members true ++
      (layout.closing level members.isEmpty ++ ['}']))

def renderElements (layout : Layout) (str : List Char → List Char) : Nat → List Json → Bool → List Char
  | _, [], _ => []
  | level, element :: elements, first => layout.opening level first ++
      (render layout str level element ++ renderElements layout str level elements false)

def renderMembers (layout : Layout) (str : List Char → List Char) :
    Nat → List (List Char × Json) → Bool → List Char
  | _, [], _ => []
  | level, (key, value) :: members, first => layout.opening level first ++
      (str key ++ (layout.colon ++ (render layout str level value ++
        renderMembers layout str level members false)))

end

/-! ### What is written denotes the tree -/

theorem blank_nil : Blank [] := nofun

theorem Layout.separator_opening (layout : Layout) (level : Nat) (first : Bool) :
    ∃ separator, Separator first separator ∧
      layout.opening level first = separator ++ layout.newline level := by
  cases first with
  | true => exact ⟨[], rfl, rfl⟩
  | false => exact ⟨[','], ⟨[], blank_nil, rfl⟩, rfl⟩

theorem Layout.blank_colon (layout : Layout) :
    ∃ before after, Blank before ∧ Blank after ∧ layout.colon = before ++ ':' :: after := by
  cases layout with
  | compact => exact ⟨[], [], blank_nil, blank_nil, rfl⟩
  | pretty unit =>
    refine ⟨[], [' '], blank_nil, fun c hc => ?_, rfl⟩
    exact .inl (mem_singleton.mp hc)

theorem Layout.blank_closing (layout : Layout) (level : Nat) (isEmpty : Bool) :
    Blank (layout.closing level isEmpty) := by
  cases isEmpty with
  | true => exact blank_nil
  | false => exact layout.blank_newline level

section
variable {layout layout' : Layout} {str str' : List Char → List Char}

theorem elementsText_render (hblank : Blank blank)
    (h : ∀ element ∈ elements, element.Denotes (render layout str level element)) :
    ElementsText elements first (renderElements layout str level elements first ++ blank) := by
  induction elements generalizing first with
  | nil => exact hblank
  | cons element elements ih =>
    obtain ⟨separator, hseparator, hopening⟩ := layout.separator_opening level first
    refine ⟨separator, _, _, _, hseparator, layout.blank_newline level, h element mem_cons_self,
      ih (forall_mem_cons.mp h).2, ?_⟩
    simp [renderElements, hopening]

theorem membersText_render
    (hblank : Blank blank) (hkeys : ∀ member ∈ members, StringText member.1 (str member.1))
    (h : ∀ member ∈ members, member.2.Denotes (render layout str level member.2)) :
    MembersText members first (renderMembers layout str level members first ++ blank) := by
  induction members generalizing first with
  | nil => exact hblank
  | cons member members ih =>
    obtain ⟨separator, hseparator, hopening⟩ := layout.separator_opening level first
    refine ⟨separator, _, _, _, _, _, hseparator, layout.blank_newline level,
      hkeys member mem_cons_self, layout.blank_colon, h member mem_cons_self,
      ih (forall_mem_cons.mp hkeys).2
        (forall_mem_cons.mp h).2, ?_⟩
    simp [renderMembers, hopening]

theorem mem_elementStrings (hmem : element ∈ elements)
    (h : s ∈ element.strings) : s ∈ elementStrings elements := by
  induction elements with
  | nil => cases hmem
  | cons other elements ih =>
    rw [elementStrings, mem_append]
    rcases mem_cons.mp hmem with rfl | hmem
    · exact .inl h
    · exact .inr (ih hmem)

theorem mem_memberStrings (hmem : member ∈ members)
    (h : s = member.1 ∨ s ∈ member.2.strings) : s ∈ memberStrings members := by
  induction members with
  | nil => cases hmem
  | cons other members ih =>
    rw [memberStrings, mem_cons, mem_append]
    rcases mem_cons.mp hmem with rfl | hmem
    · exact h.imp_right .inl
    · exact .inr (.inr (ih hmem))

theorem denotes_render {json : Json} (h : ∀ s ∈ json.strings, StringText s (str s)) :
    json.Denotes (render layout str level json) := by
  induction json using Json.induction generalizing level with
  | null => rfl
  | bool value => cases value <;> rfl
  | number value => rfl
  | string value => exact h value mem_cons_self
  | array elements ih =>
    rw [render, ← append_assoc]
    refine ⟨_, elementsText_render (layout.blank_closing level _) fun element hmem => ?_, rfl⟩
    exact ih element hmem fun s hs => h s (mem_elementStrings hmem hs)
  | object members ih =>
    rw [render, ← append_assoc]
    refine ⟨_, membersText_render (layout.blank_closing level _) (fun member hmem => ?_)
      fun member hmem => ?_, rfl⟩
    · exact h _ (mem_memberStrings hmem (.inl rfl))
    · exact ih member hmem fun s hs => h s (mem_memberStrings hmem (.inr hs))

theorem isText_render {json : Json} (h : ∀ s ∈ json.strings, StringText s (str s)) :
    json.IsText (render layout str level json) :=
  ⟨[], _, [], blank_nil, denotes_render h, blank_nil, by rw [append_nil, nil_append]⟩

/-! ### Rewriting a written text -/

/-- The characters that are written outside the strings, without the blanks. -/
def Outside (c : Char) : Prop :=
  c.isDigit = true ∨ c ∈ ['n', 'u', 'l', 't', 'r', 'e', 'f', 'a', 's', 'E', '+', '-', '.', '[', ']', '{',
    '}', ',', ':']

theorem IsDigits.outside (h : IsDigits text) : ∀ c ∈ text, Outside c := fun c hc => .inl (h.2 c hc)

theorem IsNumber.outside (h : IsNumber text) : ∀ c ∈ text, Outside c := by
  obtain ⟨minus, integer, fraction, exponent, hminus, hinteger, hfraction, hexponent, rfl⟩ := h
  have hpart {part : List Char} (hpart : part = [] ∨ part = ['+'] ∨ part = ['-']) :
      ∀ c ∈ part, Outside c := by
    rcases hpart with rfl | rfl | rfl <;> simp [Outside]
  simp only [forall_mem_append]
  refine ⟨hpart (hminus.imp_right .inr), ?_, ?_, ?_⟩
  · rcases hinteger with rfl | hinteger
    · simp [Outside]
    · exact hinteger.1.outside
  · rcases hfraction with rfl | ⟨digits, hdigits, rfl⟩
    · simp
    · exact forall_mem_cons.mpr ⟨.inr (by simp), hdigits.outside⟩
  · rcases hexponent with rfl | ⟨mark, sign, digits, hmark, hsign, hdigits, rfl⟩
    · simp
    · refine forall_mem_cons.mpr ⟨.inr ?_, ?_⟩
      · rcases hmark with rfl | rfl <;> simp
      · exact forall_mem_append.mpr ⟨hpart hsign, hdigits.outside⟩

theorem IsNumber.ne_nil (h : IsNumber text) : text ≠ [] := by
  obtain ⟨minus, integer, fraction, exponent, -, hinteger, -, -, rfl⟩ := h
  have hne : integer ≠ [] := by
    rcases hinteger with rfl | hinteger
    · simp
    · exact hinteger.1.1
  simp [hne]

/-- A rewriting from left to right that keeps the characters outside the strings. It knows if it is at
the beginning of a line, and may change the layout there. -/
structure Rewrites (g : Bool → List Char → List Char) (layout layout' : Layout)
    (str str' : List Char → List Char) : Prop where
  outside {start : Bool} {c : Char} (rest : List Char) : Outside c →
    g start (c :: rest) = c :: g false rest
  colon (rest : List Char) : g false (layout.colon ++ rest) = layout'.colon ++ g false rest
  newline (start : Bool) (level : Nat) : ∃ start', ∀ rest,
    g start (layout.newline level ++ rest) = layout'.newline level ++ g start' rest
  string (start : Bool) (s rest : List Char) : g start (str s ++ rest) = str' s ++ g false rest

namespace Rewrites
variable {g : Bool → List Char → List Char} (H : Rewrites g layout layout' str str')
include H

theorem token {token : List Char} (hne : token ≠ []) (h : ∀ c ∈ token, Outside c) :
    g start (token ++ rest) = token ++ g false rest := by
  induction token generalizing start with
  | nil => exact absurd rfl hne
  | cons c token ih =>
    rw [cons_append, H.outside _ (h c mem_cons_self), cons_append]
    by_cases htoken : token = []
    · rw [htoken, nil_append, nil_append]
    · rw [ih htoken fun x hx => h x (mem_cons_of_mem _ hx)]

theorem opening (start : Bool) (level : Nat) (first : Bool) : ∃ start', ∀ rest,
    g start (layout.opening level first ++ rest) = layout'.opening level first ++ g start' rest := by
  cases first with
  | true => exact H.newline start level
  | false =>
    obtain ⟨start', h⟩ := H.newline false level
    refine ⟨start', fun rest => ?_⟩
    show g start (',' :: (layout.newline level ++ rest)) = ',' :: (layout'.newline level ++ _)
    rw [H.outside _ (.inr (by simp)), h]

theorem closing (level : Nat) (isEmpty : Bool) (h : Outside bracket) :
    g start (layout.closing level isEmpty ++ (bracket :: rest)) =
      layout'.closing level isEmpty ++ (bracket :: g false rest) := by
  cases isEmpty with
  | true => exact H.outside rest h
  | false =>
    obtain ⟨start', hnewline⟩ := H.newline start level
    rw [Layout.closing, Layout.closing, if_neg Bool.false_ne_true, if_neg Bool.false_ne_true, hnewline,
      H.outside rest h]

theorem elements {elements : List Json} (ih : ∀ element ∈ elements, ∀ start level rest,
      g start (render layout str level element ++ rest) = render layout' str' level element ++ g false rest) :
    ∀ start first, ∃ start', ∀ rest,
      g start (renderElements layout str level elements first ++ rest) =
        renderElements layout' str' level elements first ++ g start' rest := by
  induction elements with
  | nil => exact fun start _ => ⟨start, fun _ => rfl⟩
  | cons element elements ih' =>
    intro start first
    obtain ⟨start₁, hopening⟩ := H.opening start level first
    obtain ⟨start₂, helements⟩ := ih' (forall_mem_cons.mp ih).2 false false
    refine ⟨start₂, fun rest => ?_⟩
    simp only [renderElements, append_assoc]
    rw [hopening, ih element mem_cons_self, helements]

theorem members {members : List (List Char × Json)} (ih : ∀ member ∈ members, ∀ start level rest,
      g start (render layout str level member.2 ++ rest) =
        render layout' str' level member.2 ++ g false rest) : ∀ start first, ∃ start', ∀ rest,
      g start (renderMembers layout str level members first ++ rest) =
        renderMembers layout' str' level members first ++ g start' rest := by
  induction members with
  | nil => exact fun start _ => ⟨start, fun _ => rfl⟩
  | cons member members ih' =>
    intro start first
    obtain ⟨start₁, hopening⟩ := H.opening start level first
    obtain ⟨start₂, hmembers⟩ := ih' (forall_mem_cons.mp ih).2 false false
    refine ⟨start₂, fun rest => ?_⟩
    simp only [renderMembers, append_assoc]
    rw [hopening, H.string, H.colon, ih member mem_cons_self, hmembers]

/-- The rewritten text is written with the rewritten strings and the other layout. -/
theorem render (json : Json) (start : Bool) (level : Nat) (rest : List Char) :
    g start (json.render layout str level ++ rest) = json.render layout' str' level ++ g false rest := by
  induction json using Json.induction generalizing start level rest with
  | null =>
    simp only [Json.render]
    exact H.token (by simp) (by simp [Outside])
  | bool value =>
    cases value
    all_goals
      simp only [Json.render]
      exact H.token (by simp) (by simp [Outside])
  | number value => exact H.token value.isNumber.ne_nil value.isNumber.outside
  | string value => exact H.string start value rest
  | array elements ih =>
    obtain ⟨start', helements⟩ := H.elements ih false true
    simp only [Json.render, cons_append, append_assoc, nil_append]
    rw [H.outside _ (.inr (by simp)), helements, H.closing _ _ (.inr (by simp))]
  | object members ih =>
    obtain ⟨start', hmembers⟩ := H.members ih false true
    simp only [Json.render, cons_append, append_assoc, nil_append]
    rw [H.outside _ (.inr (by simp)), hmembers, H.closing _ _ (.inr (by simp))]

end Rewrites

/-! ### The quotes of a written text -/

theorem Outside.ne_quote (h : Outside c) : c ≠ '"' := by
  rintro rfl
  revert h
  simp [Outside]

section
variable (layout : Layout) (level : Nat)

theorem count_newline : (layout.newline level).count '"' = 0 := by
  cases layout with
  | compact => rfl
  | pretty unit => simp [Layout.newline, count_replicate]

theorem count_opening (first : Bool) : (layout.opening level first).count '"' = 0 := by
  cases first <;> simp [Layout.opening, count_newline]

theorem count_closing (isEmpty : Bool) : (layout.closing level isEmpty).count '"' = 0 := by
  cases isEmpty
  · exact count_newline layout level
  · rfl

end

theorem count_colon (layout : Layout) : layout.colon.count '"' = 0 := by
  cases layout <;> rfl

theorem count_elements (ih : ∀ element ∈ elements, ∀ level,
      (element.render layout str level).count '"' =
        (element.strings.map fun s => (str s).count '"').sum) (first : Bool) :
    (renderElements layout str level elements first).count '"' =
      ((elementStrings elements).map fun s => (str s).count '"').sum := by
  induction elements generalizing first with
  | nil => rfl
  | cons element elements ih' =>
    have hrest := ih' (forall_mem_cons.mp ih).2 false
    simp only [renderElements, elementStrings, count_append, map_append, sum_append,
      count_opening, ih element mem_cons_self, hrest, Nat.zero_add]

theorem count_members (ih : ∀ member ∈ members, ∀ level,
      (member.2.render layout str level).count '"' =
        (member.2.strings.map fun s => (str s).count '"').sum) (first : Bool) :
    (renderMembers layout str level members first).count '"' =
      ((memberStrings members).map fun s => (str s).count '"').sum := by
  induction members generalizing first with
  | nil => rfl
  | cons member members ih' =>
    have hvalue := ih member mem_cons_self
    have hrest := ih' (forall_mem_cons.mp ih).2 false
    simp only [renderMembers, memberStrings, count_append, map_cons, map_append,
      sum_cons, sum_append, count_opening, count_colon, hvalue, hrest, Nat.zero_add]

theorem count_render (json : Json) (level : Nat) : (json.render layout str level).count '"' =
    (json.strings.map fun s => (str s).count '"').sum := by
  induction json using Json.induction generalizing level with
  | null => rfl
  | bool value => cases value <;> rfl
  | number value =>
    exact count_eq_zero.mpr fun h => (value.isNumber.outside _ h).ne_quote rfl
  | string value => simp [Json.render, strings]
  | array elements ih =>
    simp [Json.render, strings, count_elements ih, count_closing]
  | object members ih =>
    simp [Json.render, strings, count_members ih, count_closing]

end
end Json
end Phrust
