import Phrust.Runtime.NumericString
import Phrust.Runtime.Serialization
import Phrust.Verify.Utf8

/-!
# What `unserialize` accepts

The wire format as a relation between texts and values, and the inputs on which the parser panics:
those in which an open sequence of records leads to a declared length that overflows when it is added
to its offset. `parseValue` returns exactly the values of accepted texts and panics exactly on
overflowing ones.
-/

namespace Phrust
namespace Serialization
open List Reading Nat
variable {F : Type} (env : Env F) (options : UnserializeOptions)

/-! ## The wire format -/

/-- Text that `take_ascii_until` reads up to the delimiter. -/
structure Scalar (delimiter : UInt8) (text : PhpString) : Prop where
  free : delimiter ∉ text
  utf8 : isUtf8 text = true

/-- A relation between the number of items counted so far, a text, its value and the number of items
counted then. -/
abbrev Relation (F : Type) := Nat → PhpString → Value F → Nat → Prop

/-- The entries of a container, read one after the other into `entries`. -/
inductive Entries (container : Container F A) (R : Relation F) :
    Nat → Nat → A → PhpString → A → Nat → Prop where
  | nil {items : Nat} {entries : A} : Entries container R items 0 entries [] entries items
  | cons {items items₁ items₂ items' count : Nat} {entries entries₁ entries' : A}
    {keyText valueText text : PhpString} {key value : Value F} :
    R items keyText key items₁ → container.checkKey key = .ok () → R items₁ valueText value items₂ →
    container.add entries key value = .ok entries₁ →
    Entries container R items₂ count entries₁ text entries' items' →
    Entries container R items (count + 1) entries (keyText ++ (valueText ++ text)) entries' items'

/-- One record whose nested records are those of `R`. -/
inductive Record (R : Relation F) (items : Nat) : PhpString → Value F → Nat → Prop where
  | null : Record R items [78, 59] .null items
  | bool (value : Bool) :
    Record R items [98, 58, if value then 49 else 48, 59] (.bool value) items
  | int {text : PhpString} {value : Int} : Scalar 59 text → parseI64 text = some value →
    Record R items ([105, 58] ++ (text ++ [59])) (.int value) items
  | float {text : PhpString} {value : F} : Scalar 59 text → parseF64 env.floats text = some value →
    Record R items ([100, 58] ++ (text ++ [59])) (.float value) items
  | string {text bytes : PhpString} : Scalar 58 text → parseUsize text = some bytes.length →
    Record R items ([115, 58] ++ (text ++ ([58, 34] ++ (bytes ++ [34, 59])))) (.string bytes) items
  | array {text body : PhpString} {count items' : Nat} {entries : List (ArrayKey × Value F)} :
    Scalar 58 text → parseUsize text = some count → items + count ≤ options.maxItems →
    Entries (arrayContainer env) R (items + count) count [] body entries items' →
    Record R items ([97, 58] ++ (text ++ ([58, 123] ++ (body ++ [125])))) (.array entries) items'
  | object {classText className text body : PhpString} {count items' : Nat}
    {properties : List (PhpString × Value F)} :
    Scalar 58 classText → parseUsize classText = some className.length →
    Scalar 58 text → parseUsize text = some count → items + count ≤ options.maxItems →
    Entries (objectContainer env) R (items + count) count [] body properties items' →
    Record R items ([79, 58] ++ (classText ++ ([58, 34] ++ (className ++ ([34, 58] ++ (text ++
      ([58, 123] ++ (body ++ [125]))))))))
      (.object (normalizeClassName (env.fromUtf8Lossy className))
        (displayClassName (env.fromUtf8Lossy className)) [] properties) items'

/-- The records at a depth, with fewer than `height` levels below them. -/
def Accepts : Nat → Nat → Relation F
  | 0, _ => fun _ _ _ _ => False
  | height + 1, depth => fun items text value items' => depth ≤ options.maxDepth ∧
      Record env options (Accepts height (depth + 1)) items text value items'

/-! ## Overflowing inputs -/

/-- Complete entries, and then a record of `O`. `O` gets the items counted so far, the offset of the
record and the rest of the input from there on. -/
inductive EntriesOverflow (container : Container F A) (R : Relation F)
    (O : Nat → Nat → PhpString → Prop) : Nat → Nat → Nat → A → PhpString → Prop where
  | key {items offset count : Nat} {entries : A} {rest : PhpString} : O items offset rest →
    EntriesOverflow container R O items offset (count + 1) entries rest
  | value {items items₁ offset count : Nat} {entries : A} {keyText rest : PhpString}
    {key : Value F} : R items keyText key items₁ → container.checkKey key = .ok () →
    O items₁ (offset + keyText.length) rest →
    EntriesOverflow container R O items offset (count + 1) entries (keyText ++ rest)
  | later {items items₁ items₂ offset count : Nat} {entries entries₁ : A}
    {keyText valueText rest : PhpString} {key value : Value F} :
    R items keyText key items₁ → container.checkKey key = .ok () → R items₁ valueText value items₂ →
    container.add entries key value = .ok entries₁ →
    EntriesOverflow container R O items₂ (offset + keyText.length + valueText.length) count entries₁
      rest →
    EntriesOverflow container R O items offset (count + 1) entries (keyText ++ (valueText ++ rest))

/-- A string or class name whose declared length overflows with the offset behind its opening quote,
in the record itself or in a nested one. -/
inductive RecordOverflow (R : Relation F) (O : Nat → Nat → PhpString → Prop) (items offset : Nat) :
    PhpString → Prop where
  | string {text rest : PhpString} {length : Nat} : Scalar 58 text → parseUsize text = some length →
    usizeLimit ≤ offset + (text.length + 4) + length →
    RecordOverflow R O items offset ([115, 58] ++ (text ++ ([58, 34] ++ rest)))
  | className {text rest : PhpString} {length : Nat} : Scalar 58 text →
    parseUsize text = some length → usizeLimit ≤ offset + (text.length + 4) + length →
    RecordOverflow R O items offset ([79, 58] ++ (text ++ ([58, 34] ++ rest)))
  | array {text rest : PhpString} {count : Nat} : Scalar 58 text → parseUsize text = some count →
    items + count ≤ options.maxItems →
    EntriesOverflow (arrayContainer env) R O (items + count) (offset + (text.length + 4)) count []
      rest →
    RecordOverflow R O items offset ([97, 58] ++ (text ++ ([58, 123] ++ rest)))
  | object {classText className text rest : PhpString} {count : Nat} :
    Scalar 58 classText → parseUsize classText = some className.length →
    Scalar 58 text → parseUsize text = some count → items + count ≤ options.maxItems →
    EntriesOverflow (objectContainer env) R O (items + count)
      (offset + (classText.length + className.length + text.length + 8)) count [] rest →
    RecordOverflow R O items offset ([79, 58] ++ (classText ++ ([58, 34] ++ (className ++
      ([34, 58] ++ (text ++ ([58, 123] ++ rest)))))))

/-- The inputs with an overflowing length at a depth, at most `height` levels down. -/
def Overflows : Nat → Nat → Nat → Nat → PhpString → Prop
  | 0, _ => fun _ _ _ => False
  | height + 1, depth => fun items offset rest => depth ≤ options.maxDepth ∧
      RecordOverflow env options (Accepts env options height (depth + 1))
        (Overflows height (depth + 1)) items offset rest

/-- An open sequence of records leads to an overflowing length. No input nests deeper than it is
long. -/
def Overflowing (input : PhpString) : Prop := Overflows env options (input.length + 1) 0 0 0 input

/-! ## Moving through the input -/

namespace Parser

def remaining (parser : Parser) : PhpString := parser.bytes.drop parser.offset

def behind (parser : Parser) (text : PhpString) (items : Nat) : Parser :=
  { parser with offset := parser.offset + text.length, parsedItems := items }

/-- The parser's input is addressable. -/
def Fits (parser : Parser) : Prop := parser.bytes.length < usizeLimit

/-- The parser stands at the text, and `parser'` is behind it. -/
structure Reads (parser : Parser) (text : PhpString) (items : Nat) (parser' : Parser) : Prop where
  state : parser' = parser.behind text items
  remaining_eq : parser.remaining = text ++ parser'.remaining

variable {parser parser' parser₁ : Parser} {text text' tail : PhpString} {count count₁ : Nat}

theorem remaining_behind (parser : Parser) (text : PhpString) (count : Nat) :
    (parser.behind text count).remaining = parser.remaining.drop text.length := by
  simp [remaining, behind]

theorem reads_of_remaining (h : parser.remaining = text ++ tail) (count : Nat) :
    parser.Reads text count (parser.behind text count) := by
  refine ⟨rfl, ?_⟩
  rw [remaining_behind, h, drop_left]

theorem reads_byte (h : parser.remaining = byte :: tail) (count : Nat) :
    parser.Reads [byte] count (parser.behind [byte] count) :=
  reads_of_remaining (show parser.remaining = [byte] ++ tail from h) count

namespace Reads

theorem append (H : parser.Reads text count₁ parser₁) (H' : parser₁.Reads text' count parser') :
    parser.Reads (text ++ text') count parser' := by
  obtain ⟨rfl, h⟩ := H
  obtain ⟨rfl, h'⟩ := H'
  refine ⟨?_, ?_⟩
  · simp [behind, Nat.add_assoc]
  · rw [h, h', append_assoc]

/-- The way back: any count may be put in between. -/
theorem split (H : parser.Reads (text ++ text') count parser') (count₁ : Nat) :
    ∃ parser₁, parser.Reads text count₁ parser₁ ∧ parser₁.Reads text' count parser' := by
  obtain ⟨rfl, h⟩ := H
  rw [append_assoc] at h
  refine ⟨_, reads_of_remaining h count₁, ?_, ?_⟩
  · simp [behind, Nat.add_assoc]
  · rw [remaining_behind, h, drop_left]

section
variable (H : parser.Reads text count parser')
include H

theorem fits (hfits : parser.Fits) : parser'.Fits := by
  obtain ⟨rfl, -⟩ := H
  exact hfits

theorem items_eq : parser'.parsedItems = count := by
  obtain ⟨rfl, -⟩ := H
  rfl

theorem offset_eq : parser'.offset = parser.offset + text.length := by
  obtain ⟨rfl, -⟩ := H
  rfl

theorem bytes_eq : parser'.bytes = parser.bytes := by
  obtain ⟨rfl, -⟩ := H
  rfl

theorem options_eq : parser'.options = parser.options := by
  obtain ⟨rfl, -⟩ := H
  rfl

/-- A text that is not empty lies inside the input. -/
theorem offset_le (htext : text ≠ []) : parser.offset + text.length ≤ parser.bytes.length := by
  have hlen := congrArg List.length H.remaining_eq
  simp only [remaining, length_drop, length_append] at hlen
  have := length_pos_iff.mpr htext
  omega

end
end Reads
end Parser

open Phrust.Serialization.Parser (remaining reads_of_remaining reads_byte)
variable {env options} {parser parser' parser₁ : Parser} {low high count length : Nat}

/-! ## Specifications of readers -/

/-- The parsers on which a reader is specified: `low` bounds the offset from below and `high` the
bytes that are left from above. -/
structure Parser.Within (options : UnserializeOptions) (low high : Nat) (parser : Parser) : Prop where
  fits : parser.Fits
  options_eq : parser.options = options
  low_le : low ≤ parser.offset
  lt_high : parser.remaining.length < high
  inside : parser.offset ≤ parser.bytes.length

theorem Parser.Within.reads (W : parser.Within options low high) (H : parser.Reads text items parser') :
    parser'.Within options (low + text.length) (high - text.length) := by
  have hlen := congrArg List.length H.remaining_eq
  have hhigh := W.lt_high
  have hinside := W.inside
  rw [length_append] at hlen
  refine ⟨H.fits W.fits, H.options_eq.trans W.options_eq, ?_, by omega, ?_⟩
  · rw [H.offset_eq]
    exact Nat.add_le_add_right W.low_le _
  · rw [remaining, length_drop] at hlen
    rw [H.offset_eq, H.bytes_eq]
    omega

/-- Texts with their values, and the items counted before and behind them. -/
abbrev Grammar (α : Type) := Nat → PhpString → α → Nat → Prop

/-- A reader returns the values of the texts of `R` and panics on `O`. -/
structure Spec (options : UnserializeOptions) (low high : Nat) (parse : ParserM α) (R : Grammar α)
    (O : Nat → Nat → PhpString → Prop) : Prop where
  returns_iff {parser parser' : Parser} {value : α} : parser.Within options low high →
    (parse.Returns parser value parser' ↔ ∃ text items, R parser.parsedItems text value items ∧
      parser.Reads text items parser')
  panics_iff {parser : Parser} : parser.Within options low high →
    (parse.Panics parser ↔ O parser.parsedItems parser.offset parser.remaining)

/-- A text of `R` and then one of the grammar that belongs to its value. -/
inductive Seq (R : Grammar α) (R' : α → Grammar β) (items : Nat) (text : PhpString) (b : β)
    (items' : Nat) : Prop where
  | mk {items₁ : Nat} {text₁ text₂ : PhpString} (a : α) : R items text₁ a items₁ →
    R' a items₁ text₂ b items' → text = text₁ ++ text₂ → Seq R R' items text b items'

/-- An overflow at once, or behind a text of `R`. -/
inductive SeqOverflow (R : Grammar α) (O : Nat → Nat → PhpString → Prop)
    (O' : α → Nat → Nat → PhpString → Prop) (items offset : Nat) (rest : PhpString) : Prop where
  | first : O items offset rest → SeqOverflow R O O' items offset rest
  | next {items₁ : Nat} {text rest₁ : PhpString} (a : α) : R items text a items₁ →
    O' a items₁ (offset + text.length) rest₁ → rest = text ++ rest₁ →
    SeqOverflow R O O' items offset rest

/-- No overflow at all. -/
def Never : Nat → Nat → PhpString → Prop := fun _ _ _ => False

/-- No text, but a check of the items and the value. -/
inductive Checked (P : Nat → α → Nat → Prop) : Nat → PhpString → α → Nat → Prop where
  | mk {items items' : Nat} {a : α} : P items a items' → Checked P items [] a items'

/-- A text of `R`, and what is made of its value. -/
def Made (R : Grammar α) (make : α → β) : Grammar β := fun items text b items' =>
  ∃ a, R items text a items' ∧ make a = b

/-- One byte that stands for the value. -/
inductive OneByte (P : UInt8 → α → Prop) : Nat → PhpString → α → Nat → Prop where
  | mk {items : Nat} {byte : UInt8} {a : α} : P byte a → OneByte P items [byte] a items

inductive Number (delimiter : UInt8) (parse : PhpString → Option α) : Nat → PhpString → α → Nat → Prop where
  | mk {items : Nat} {text : PhpString} {a : α} : Scalar delimiter text → parse text = some a →
    Number delimiter parse items (text ++ [delimiter]) a items

/-- As many bytes as declared, in quotes. -/
inductive Quoted (length : Nat) : Nat → PhpString → PhpString → Nat → Prop where
  | mk {items : Nat} {bytes : PhpString} : bytes.length = length →
    Quoted length items ([34] ++ (bytes ++ [34])) bytes items

inductive QuotedOverflow (length : Nat) : Nat → Nat → PhpString → Prop where
  | mk {items offset : Nat} {rest : PhpString} : usizeLimit ≤ offset + 1 + length →
    QuotedOverflow length items offset (34 :: rest)

theorem Spec.congr (S : Spec options low high parse R O)
    (hR : ∀ items text a items', R items text a items' ↔ R' items text a items')
    (hO : ∀ items offset rest, low ≤ offset → (O items offset rest ↔ O' items offset rest)) :
    Spec options low high parse R' O' where
  returns_iff W := (S.returns_iff W).trans <|
    exists_congr fun text => exists_congr fun items => and_congr_left fun _ => hR _ text _ items
  panics_iff W := (S.panics_iff W).trans (hO _ _ _ W.low_le)

/-- A reader of the same results on the specified parsers. -/
theorem Spec.of_eq (S : Spec options low high parse R O)
    (h : ∀ {parser}, parser.Within options low high → parse' parser = parse parser) :
    Spec options low high parse' R O where
  returns_iff W := by
    rw [Returns, h W]
    exact S.returns_iff W
  panics_iff W := by
    rw [Panics, h W]
    exact S.panics_iff W

section
variable {parse : ParserM α} {next : α → ParserM β} (S : Spec options low high parse R O)
include S

/-- Readers in sequence. The second one starts behind a text of the first. -/
theorem Spec.bind_behind (hnext : ∀ {items text a items'}, R items text a items' →
      Spec options (low + text.length) (high - text.length) (next a) (R' a) (O' a)) :
    Spec options low high (parse >>= next) (Seq R R') (SeqOverflow R O O') where
  returns_iff W := by
    rw [returns_bind]
    constructor
    · rintro ⟨a, parser₁, hparse, h⟩
      obtain ⟨text₁, items₁, hR, H₁⟩ := (S.returns_iff W).mp hparse
      obtain ⟨text₂, items₂, hR', H₂⟩ := ((hnext hR).returns_iff (W.reads H₁)).mp h
      rw [H₁.items_eq] at hR'
      exact ⟨_, _, ⟨a, hR, hR', rfl⟩, H₁.append H₂⟩
    · rintro ⟨_, items', ⟨a, hR, hR', rfl⟩, H⟩
      obtain ⟨parser₁, H₁, H₂⟩ := H.split _
      refine ⟨a, parser₁, (S.returns_iff W).mpr ⟨_, _, hR, H₁⟩,
        ((hnext hR).returns_iff (W.reads H₁)).mpr ⟨_, _, ?_, H₂⟩⟩
      rwa [H₁.items_eq]
  panics_iff W := by
    rw [panics_bind]
    constructor
    · rintro (h | ⟨a, parser₁, hparse, h⟩)
      · exact .first ((S.panics_iff W).mp h)
      obtain ⟨text₁, items₁, hR, H₁⟩ := (S.returns_iff W).mp hparse
      have hO := ((hnext hR).panics_iff (W.reads H₁)).mp h
      rw [H₁.items_eq, H₁.offset_eq] at hO
      exact .next a hR hO H₁.remaining_eq
    · rintro (hO | @⟨items₁, _, _, a, hR, hO, hrest⟩)
      · exact .inl ((S.panics_iff W).mpr hO)
      have H₁ := reads_of_remaining hrest items₁
      refine .inr ⟨a, _, (S.returns_iff W).mpr ⟨_, _, hR, H₁⟩, ((hnext hR).panics_iff (W.reads H₁)).mpr ?_⟩
      rwa [H₁.items_eq, H₁.offset_eq, Parser.remaining_behind, hrest, drop_left]

theorem Spec.bind (hnext : ∀ {items text a items'}, R items text a items' →
      Spec options low high (next a) (R' a) (O' a)) :
    Spec options low high (parse >>= next) (Seq R R') (SeqOverflow R O O') := by
  have hwithin {parser : Parser} {n : Nat} (W : parser.Within options (low + n) (high - n)) :
      parser.Within options low high :=
    ⟨W.fits, W.options_eq, le_of_add_right_le W.low_le, lt_of_lt_of_le W.lt_high (sub_le ..), W.inside⟩
  exact S.bind_behind fun hR =>
    ⟨fun W => (hnext hR).returns_iff (hwithin W), fun W => (hnext hR).panics_iff (hwithin W)⟩

end

theorem pure_spec (a : α) : Spec options low high (pure a)
    (Checked fun items b items' => a = b ∧ items = items') Never where
  returns_iff _ := by
    refine returns_pure.trans ⟨?_, ?_⟩
    · rintro ⟨rfl, rfl⟩
      exact ⟨[], _, ⟨rfl, rfl⟩, reads_of_remaining rfl _⟩
    · rintro ⟨_, _, ⟨rfl, rfl⟩, H⟩
      exact ⟨rfl, H.state.symm⟩
  panics_iff _ := iff_of_false not_panics_pure id

theorem throw_spec (error : SerializationError) :
    Spec options low high (throw error : ParserM α) (fun _ _ _ _ => False) Never where
  returns_iff _ := ⟨fun h => (not_returns_throw h).elim, nofun⟩
  panics_iff _ := iff_of_false not_panics_throw id

theorem raise_spec (result : Except SerializationError α) : Spec options low high (raise result)
    (Checked fun items a items' => result = .ok a ∧ items = items') Never := by
  cases result with
  | error e =>
    exact (throw_spec e).congr (fun _ _ _ _ => ⟨nofun, fun ⟨h, _⟩ => nomatch h⟩) fun _ _ _ _ => .rfl
  | ok b =>
    simp only [Except.ok.injEq]
    exact pure_spec b

/-- A check in front of a reader. -/
theorem Spec.after_check {next : α → ParserM β} {R' : α → Grammar β} {O' : α → Nat → Nat → PhpString → Prop}
    (S : Spec options low high check (Checked P) Never)
    (hnext : ∀ {items a items'}, P items a items' → Spec options low high (next a) (R' a) (O' a)) :
    Spec options low high (check >>= next)
      (fun items text b items' => ∃ a items₁, P items a items₁ ∧ R' a items₁ text b items')
      (fun items offset rest => ∃ a items₁, P items a items₁ ∧ O' a items₁ offset rest) := by
  have hchecked : ∀ {items text a items'}, Checked P items text a items' →
      Spec options low high (next a) (R' a) (O' a) := by
    rintro _ _ _ _ ⟨hP⟩
    exact hnext hP
  refine (S.bind hchecked).congr (fun _ _ _ _ => ⟨?_, ?_⟩) fun _ _ _ _ => ⟨?_, ?_⟩
  · rintro ⟨a, ⟨hP⟩, h, rfl⟩
    exact ⟨a, _, hP, h⟩
  · rintro ⟨a, _, hP, h⟩
    exact ⟨a, ⟨hP⟩, h, rfl⟩
  · rintro (⟨⟨⟩⟩ | ⟨a, ⟨hP⟩, h, rfl⟩)
    exact ⟨a, _, hP, h⟩
  · rintro ⟨a, _, hP, h⟩
    exact .next a ⟨hP⟩ h rfl

theorem Spec.map (S : Spec options low high parse R O) :
    Spec options low high (parse >>= fun a => pure (make a)) (Made R make) O := by
  refine (S.bind fun _ => pure_spec _).congr (fun _ _ _ _ => ⟨?_, ?_⟩) fun _ _ _ _ => ⟨?_, .first⟩
  · rintro ⟨a, hR, ⟨rfl, rfl⟩, rfl⟩
    rw [append_nil]
    exact ⟨a, hR, rfl⟩
  · rintro ⟨a, hR, rfl⟩
    exact ⟨a, hR, ⟨rfl, rfl⟩, (append_nil _).symm⟩
  · rintro (hO | ⟨_, -, ⟨⟩, -⟩)
    exact hO

/-! ## Primitives -/

theorem addUsize_eq (h : left + right < usizeLimit) : addUsize env left right = some (left + right) := by
  rw [addUsize, if_pos h]

theorem advance_returns (h : parser.offset + count < usizeLimit) :
    (advance env count).Returns parser () { parser with offset := parser.offset + count } := by
  rw [advance, returns_get_bind, returns_bind]
  exact ⟨_, _, returns_unwrap.mpr ⟨addUsize_eq h, rfl⟩, returns_set.mpr rfl⟩

theorem takeByte_cons (env : Env F) (hfits : parser.Fits) (h : parser.remaining = byte :: rest) :
    (takeByte env).Returns parser byte (parser.behind [byte] parser.parsedItems) := by
  have hbyte : parser.bytes[parser.offset]? = some byte := by
    rw [← head?_drop, ← remaining, h]
    rfl
  have hle := (reads_byte h parser.parsedItems).offset_le (by simp)
  rw [takeByte, returns_get_bind, hbyte]
  exact (advance_returns (lt_of_le_of_lt hle hfits)).returns_bind_iff.mpr
    (returns_pure.mpr ⟨rfl, rfl⟩)

theorem takeByte_nil (h : parser.remaining = []) :
    takeByte env parser = some (.error (.new "unexpected end of serialized input")) := by
  have hbyte : parser.bytes[parser.offset]? = none := by
    rw [← head?_drop, ← remaining, h]
    rfl
  simp only [takeByte, get_bind, hbyte]
  rfl

theorem takeByte_spec : Spec options low high (takeByte env) (OneByte (· = ·)) Never where
  returns_iff {parser parser' byte} W := by
    constructor
    · intro h
      cases hrest : parser.remaining with
      | nil => cases h.symm.trans (takeByte_nil hrest)
      | cons first rest =>
        obtain ⟨rfl, rfl⟩ := h.inj (takeByte_cons env W.fits hrest)
        exact ⟨_, _, ⟨rfl⟩, reads_byte hrest _⟩
    · rintro ⟨_, _, ⟨rfl⟩, H⟩
      have h := takeByte_cons env W.fits H.remaining_eq
      rwa [← H.state] at h
  panics_iff {parser} W := by
    refine iff_of_false (fun h => ?_) id
    cases hrest : parser.remaining with
    | nil => cases h.symm.trans (takeByte_nil hrest)
    | cons first rest => exact (takeByte_cons env W.fits hrest).not_panics h

/-- A byte and what is made of it: a value, or an error. -/
theorem byte_spec {next : UInt8 → ParserM α} (h : ∀ byte, (∃ a, next byte = pure a ∧ ∀ b, P byte b ↔ a = b) ∨
      ∃ e, next byte = throw e ∧ ∀ b, ¬P byte b) :
    Spec options low high (takeByte env >>= next) (OneByte P) Never := by
  have hnext : ∀ byte, Spec options low high (next byte)
      (Checked fun items b items' => P byte b ∧ items = items') Never := by
    intro byte
    rcases h byte with ⟨a, hpure, hP⟩ | ⟨e, hthrow, hP⟩
    · rw [hpure, funext fun b => propext (hP b)]
      exact pure_spec a
    · rw [hthrow]
      exact (throw_spec e).congr (fun _ _ _ _ => ⟨nofun, fun ⟨hb, _⟩ => hP _ hb⟩)
        fun _ _ _ _ => .rfl
  refine (takeByte_spec.bind fun {_ _ byte _} _ => hnext byte).congr (fun _ _ _ _ => ⟨?_, ?_⟩)
    fun _ _ _ _ => ⟨?_, nofun⟩
  · rintro ⟨_, ⟨rfl⟩, ⟨hP, rfl⟩, rfl⟩
    exact ⟨hP⟩
  · rintro ⟨hP⟩
    exact ⟨_, ⟨rfl⟩, ⟨hP, rfl⟩, rfl⟩
  · rintro (h | ⟨_, -, h, -⟩) <;> exact h

theorem expect_spec (expected : UInt8) :
    Spec options low high (expect env expected) (OneByte fun byte _ => byte = expected) Never := by
  refine byte_spec fun byte => ?_
  by_cases h : byte = expected
  · exact .inl ⟨(), if_pos h, fun _ => iff_of_true h rfl⟩
  · exact .inr ⟨_, if_neg h, fun _ => h⟩

theorem takeBool_spec : Spec options low high (takeBool env)
    (OneByte fun byte value => byte = if value then 49 else 48) Never := by
  refine byte_spec fun byte => ?_
  split
  · exact .inl ⟨false, rfl, by decide⟩
  · exact .inl ⟨true, rfl, by decide⟩
  · next h0 h1 => exact .inr ⟨_, rfl, fun b hb => by cases b <;> [exact h0 hb; exact h1 hb]⟩

/-- The loop of `take_ascii_until` stops in front of the delimiter or at the end. -/
theorem skipUntil_returns (env : Env F) (delimiter : UInt8) (hfits : parser.Fits)
    (hcount : parser.bytes.length - parser.offset ≤ count) : (skipUntil env delimiter count).Returns parser ()
      (parser.behind (parser.remaining.takeWhile (· != delimiter)) parser.parsedItems) := by
  induction count generalizing parser with
  | zero =>
    have hrest : parser.remaining = [] := drop_eq_nil_of_le (by omega)
    rw [hrest]
    exact returns_pure.mpr ⟨rfl, rfl⟩
  | succ count ih =>
    rw [skipUntil, returns_get_bind]
    cases hrest : parser.remaining with
    | nil =>
      have hle : parser.bytes.length ≤ parser.offset := drop_eq_nil_iff.mp hrest
      rw [if_neg (by omega)]
      exact returns_pure.mpr ⟨rfl, rfl⟩
    | cons byte rest =>
      have hbyte : parser.bytes[parser.offset]? = some byte := by
        rw [← head?_drop, ← remaining, hrest]
        rfl
      have hle := (reads_byte hrest parser.parsedItems).offset_le (by simp)
      rw [length_singleton] at hle
      by_cases hdelimiter : byte = delimiter
      · rw [if_neg (by rw [hbyte, hdelimiter]; simp), takeWhile_cons_of_neg (by simp [hdelimiter])]
        exact returns_pure.mpr ⟨rfl, rfl⟩
      rw [if_pos ⟨by omega, by rw [hbyte]; simpa using hdelimiter⟩]
      refine (advance_returns (lt_of_le_of_lt hle hfits)).returns_bind_iff.mpr ?_
      have hstep : remaining { parser with offset := parser.offset + 1 } = rest := by
        rw [remaining, ← tail_drop, ← remaining, hrest]
        rfl
      have h := ih (show Parser.Fits { parser with offset := parser.offset + 1 } from hfits)
        (by show parser.bytes.length - (parser.offset + 1) ≤ count; omega)
      rw [hstep] at h
      rw [takeWhile_cons_of_pos (by simpa using hdelimiter)]
      convert h using 1
      simp [Parser.behind, Nat.add_assoc, Nat.add_comm 1]

theorem takeAsciiUntil_found (env : Env F) (hfits : parser.Fits)
    (h : parser.remaining = text ++ delimiter :: rest) (hfree : delimiter ∉ text) :
    takeAsciiUntil env delimiter parser =
      if isUtf8 text = true then some (.ok (text, parser.behind (text ++ [delimiter]) parser.parsedItems))
      else some (.error (.new "serialized scalar is not ASCII")) := by
  have htake : parser.remaining.takeWhile (· != delimiter) = text := by
    rw [h, takeWhile_append_of_pos (by
      intro byte hbyte
      simpa using fun heq : byte = delimiter => hfree (heq ▸ hbyte))]
    simp
  have hskip := skipUntil_returns env delimiter hfits (le_refl _)
  rw [htake] at hskip
  have H := reads_of_remaining (show parser.remaining = (text ++ [delimiter]) ++ rest by simpa using h)
    parser.parsedItems
  have hle := H.offset_le (by simp)
  rw [length_append, length_singleton] at hle
  have hslice : slice parser.bytes parser.offset (parser.offset + text.length) = some text := by
    rw [slice, if_pos (by omega), Nat.add_sub_cancel_left, ← remaining, h, take_left]
  have hbehind : ¬(parser.behind text parser.parsedItems).offset ≥
      (parser.behind text parser.parsedItems).bytes.length := by
    show ¬parser.offset + text.length ≥ parser.bytes.length
    omega
  have hlt : (parser.behind text parser.parsedItems).offset + 1 < usizeLimit :=
    lt_of_le_of_lt hle hfits
  rw [takeAsciiUntil, get_bind, hskip.bind, get_bind, if_neg hbehind]
  change (unwrap (slice parser.bytes parser.offset (parser.offset + text.length)) >>= _) _ = _
  rw [hslice, unwrap_bind]
  split
  · rw [(advance_returns hlt).bind]
    simp only [Parser.behind, length_append, length_singleton, ← Nat.add_assoc]
    rfl
  · rfl

theorem takeAsciiUntil_missing (env : Env F) (hfits : parser.Fits)
    (h : delimiter ∉ parser.remaining) : takeAsciiUntil env delimiter parser =
      some (.error (.new "unterminated serialized scalar")) := by
  have htake : parser.remaining.takeWhile (· != delimiter) = parser.remaining := by
    refine takeWhile_eq_self_iff.mpr fun byte hbyte => ?_
    simpa using fun heq : byte = delimiter => h (heq ▸ hbyte)
  have hskip := skipUntil_returns env delimiter hfits (le_refl _)
  rw [htake] at hskip
  have hend : (parser.behind parser.remaining parser.parsedItems).offset ≥
      (parser.behind parser.remaining parser.parsedItems).bytes.length := by
    simp only [Parser.behind, remaining, length_drop]
    omega
  rw [takeAsciiUntil, get_bind, hskip.bind, get_bind, if_pos hend]
  rfl

theorem takeAsciiUntil_spec (delimiter : UInt8) :
    Spec options low high (takeAsciiUntil env delimiter) (Number delimiter some) Never where
  returns_iff {parser parser' text} W := by
    constructor
    · intro h
      by_cases hmem : delimiter ∈ parser.remaining
      · obtain ⟨found, rest, hrest, hfree⟩ := eq_append_cons_of_mem hmem
        have hfound := takeAsciiUntil_found env W.fits hrest hfree
        split at hfound
        · next hutf8 =>
          obtain ⟨rfl, rfl⟩ := h.inj hfound
          exact ⟨_, _, ⟨⟨hfree, hutf8⟩, rfl⟩, reads_of_remaining (by simpa using hrest) _⟩
        · cases h.symm.trans hfound
      · cases h.symm.trans (takeAsciiUntil_missing env W.fits hmem)
    · rintro ⟨_, _, ⟨hscalar, ⟨⟩⟩, H⟩
      have hrest := H.remaining_eq
      rw [append_assoc] at hrest
      have h := takeAsciiUntil_found env W.fits hrest hscalar.free
      rwa [if_pos hscalar.utf8, ← H.state] at h
  panics_iff {parser} W := by
    refine iff_of_false (fun h => ?_) id
    by_cases hmem : delimiter ∈ parser.remaining
    · obtain ⟨found, rest, hrest, hfree⟩ := eq_append_cons_of_mem hmem
      have hfound := takeAsciiUntil_found env W.fits hrest hfree
      split at hfound
      · cases h.symm.trans hfound
      · cases h.symm.trans hfound
    · cases h.symm.trans (takeAsciiUntil_missing env W.fits hmem)

theorem number_spec (delimiter : UInt8) (parse : PhpString → Option α) (message : String) :
    Spec options low high (takeAsciiUntil env delimiter >>= fun text => parsed (parse text) message)
      (Number delimiter parse) Never := by
  have hparsed : ∀ text, Spec options low high (parsed (parse text) message)
      (Checked fun items a items' => parse text = some a ∧ items = items') Never := by
    intro text
    cases parse text with
    | none =>
      exact (throw_spec _).congr (fun _ _ _ _ => ⟨nofun, fun ⟨h, _⟩ => nomatch h⟩)
        fun _ _ _ _ => .rfl
    | some b =>
      simp only [Option.some.injEq]
      exact pure_spec b
  refine ((takeAsciiUntil_spec delimiter).bind fun {_ _ text _} _ => hparsed text).congr
    (fun _ _ _ _ => ⟨?_, ?_⟩) fun _ _ _ _ => ⟨?_, nofun⟩
  · rintro ⟨_, ⟨hscalar, ⟨⟩⟩, ⟨hparse, rfl⟩, rfl⟩
    rw [append_nil]
    exact ⟨hscalar, hparse⟩
  · rintro ⟨hscalar, hparse⟩
    exact ⟨_, ⟨hscalar, rfl⟩, ⟨hparse, rfl⟩, (append_nil _).symm⟩
  · rintro (h | ⟨_, -, h, -⟩) <;> exact h

/-! ## Quoted bytes -/

/-- The part of `take_quoted_bytes` between the quotes. -/
def takeBytes (env : Env F) (length : Nat) : ParserM PhpString := do
  let parser ← get
  let stop ← unwrap (addUsize env parser.offset length)
  if stop > parser.bytes.length then throw (.new "serialized string length exceeds input")
  else
    let value ← unwrap (slice parser.bytes parser.offset stop)
    advance env length
    return value

theorem takeQuotedBytes_eq (env : Env F) (length : Nat) : takeQuotedBytes env length =
    expect env 34 >>= fun _ => takeBytes env length >>= fun value =>
      expect env 34 >>= fun _ => pure value := by
  simp only [takeQuotedBytes, takeBytes, bind_assoc]
  congr! 7
  split
  · rfl
  · simp

/-- A length that overflows panics in every build: where the addition wraps round, the slice ends
before it starts. -/
theorem takeBytes_overflow (env : Env F) (W : parser.Within options low high)
    (hlength : length < usizeLimit) (h : usizeLimit ≤ parser.offset + length) :
    (takeBytes env length).Panics parser := by
  have hinside := W.inside
  rw [takeBytes, panics_get_bind, addUsize, if_neg (by omega)]
  split
  · exact panics_bind.mpr (.inl (panics_unwrap.mpr rfl))
  refine panics_bind.mpr (.inr ⟨_, _, returns_unwrap.mpr ⟨rfl, rfl⟩, ?_⟩)
  rw [if_neg (by omega)]
  refine panics_bind.mpr (.inl (panics_unwrap.mpr ?_))
  rw [slice, if_neg (by omega)]

theorem takeBytes_within (env : Env F) (W : parser.Within options low high)
    (hlt : parser.offset + length < usizeLimit) : takeBytes env length parser =
      if parser.remaining.length < length then some (.error (.new "serialized string length exceeds input"))
      else some (.ok (parser.remaining.take length,
        parser.behind (parser.remaining.take length) parser.parsedItems)) := by
  have hinside := W.inside
  have hlen : parser.remaining.length = parser.bytes.length - parser.offset := length_drop ..
  rw [takeBytes, get_bind, addUsize_eq hlt, unwrap_bind]
  by_cases hshort : parser.remaining.length < length
  · rw [if_pos (by omega), if_pos hshort]
    rfl
  have hslice : slice parser.bytes parser.offset (parser.offset + length) =
      some (parser.remaining.take length) := by
    rw [slice, if_pos (by omega), Nat.add_sub_cancel_left, ← remaining]
  have htake : (parser.remaining.take length).length = length := by
    rw [length_take]
    omega
  rw [if_neg (by omega), if_neg hshort, hslice, unwrap_bind, (advance_returns hlt).bind, Parser.behind, htake]
  rfl

theorem takeBytes_spec (hlength : length < usizeLimit) : Spec options low high (takeBytes env length)
    (fun items text bytes items' => bytes.length = length ∧ text = bytes ∧ items = items')
    (fun _ offset _ => usizeLimit ≤ offset + length) where
  returns_iff {parser parser' bytes} W := by
    by_cases hlt : parser.offset + length < usizeLimit
    · have heq := takeBytes_within env W hlt
      constructor
      · intro h
        split at heq
        · cases h.symm.trans heq
        · next hshort =>
          obtain ⟨rfl, rfl⟩ := h.inj heq
          refine ⟨_, _, ⟨?_, rfl, rfl⟩, reads_of_remaining (take_append_drop ..).symm _⟩
          rw [length_take]
          omega
      · rintro ⟨_, _, ⟨rfl, rfl, rfl⟩, H⟩
        rw [H.remaining_eq, take_left, if_neg (by simp), ← H.state] at heq
        exact heq
    · refine iff_of_false (fun h => h.not_panics (takeBytes_overflow env W hlength (by omega))) ?_
      rintro ⟨_, _, ⟨rfl, rfl, rfl⟩, H⟩
      have hinside := (W.reads H).inside
      have hfits : parser.bytes.length < usizeLimit := W.fits
      rw [H.offset_eq, H.bytes_eq] at hinside
      omega
  panics_iff {parser} W := by
    refine ⟨fun h => Nat.le_of_not_lt fun hlt => ?_, takeBytes_overflow env W hlength⟩
    have heq := takeBytes_within env W hlt
    split at heq <;> cases h.symm.trans heq

theorem parseUsize_lt (h : parseUsize text = some value) : value < usizeLimit := by
  simp only [parseUsize, Option.ite_none_right_eq_some, Option.some.injEq] at h
  obtain ⟨⟨-, -, hlt⟩, rfl⟩ := h
  exact hlt

theorem takeQuotedBytes_spec (hlength : length < usizeLimit) :
    Spec options low high (takeQuotedBytes env length) (Quoted length) (QuotedOverflow length) := by
  rw [takeQuotedBytes_eq]
  refine ((expect_spec 34).bind fun _ => (takeBytes_spec hlength).bind fun _ =>
    (expect_spec 34).map).congr (fun _ _ _ _ => ⟨?_, ?_⟩) fun _ _ _ _ => ⟨?_, ?_⟩
  · rintro ⟨_, ⟨rfl⟩, ⟨_, ⟨hbytes, rfl, rfl⟩, ⟨_, ⟨rfl⟩, rfl⟩, rfl⟩, rfl⟩
    exact ⟨hbytes⟩
  · rintro ⟨hbytes⟩
    exact ⟨(), ⟨rfl⟩, ⟨_, ⟨hbytes, rfl, rfl⟩, ⟨(), ⟨rfl⟩, rfl⟩, rfl⟩, rfl⟩
  · rintro (⟨⟨⟩⟩ | ⟨_, ⟨rfl⟩, hoverflow | ⟨_, -, ⟨⟩, -⟩, rfl⟩)
    exact ⟨hoverflow⟩
  · rintro ⟨hoverflow⟩
    exact .next () ⟨rfl⟩ (.first hoverflow) rfl

/-- Counting is bounded by the limit on items, so it does not overflow. -/
theorem countItems_spec (count : Nat) : Spec options low high (countItems count)
    (Checked fun items _ items' => items + count ≤ options.maxItems ∧ items + count = items') Never where
  returns_iff {parser parser' u} W := by
    have hread : (∃ text items, Checked (fun items _ items' => items + count ≤ options.maxItems ∧
          items + count = items') parser.parsedItems text u items ∧ parser.Reads text items parser') ↔
        parser.parsedItems + count ≤ options.maxItems ∧
          parser' = { parser with parsedItems := parser.parsedItems + count } := by
      constructor
      · rintro ⟨_, _, ⟨hmax, rfl⟩, H⟩
        exact ⟨hmax, H.state⟩
      · rintro ⟨hmax, rfl⟩
        exact ⟨_, _, ⟨hmax, rfl⟩, reads_of_remaining rfl _⟩
    have hlimit := options.isUsize.2.1
    rw [countItems, returns_get_bind, hread, checkedAdd, W.options_eq]
    by_cases hsum : parser.parsedItems + count < usizeLimit
    · rw [if_pos hsum]
      refine (returns_set.mpr rfl : Returns (set _) _ PUnit.unit _).returns_bind_iff.trans ?_
      by_cases hmax : parser.parsedItems + count > options.maxItems
      · rw [if_pos hmax]
        exact ⟨fun h => (not_returns_throw h).elim, fun h => by omega⟩
      · rw [if_neg hmax, returns_pure]
        exact ⟨fun h => ⟨by omega, h.2.symm⟩, fun h => ⟨rfl, h.2.symm⟩⟩
    · rw [if_neg hsum]
      exact ⟨fun h => (not_returns_throw h).elim, fun h => by omega⟩
  panics_iff {parser} W := by
    refine iff_of_false (fun h => ?_) id
    rw [countItems, panics_get_bind, checkedAdd] at h
    split at h
    · exact not_panics_throw h
    rcases panics_bind.mp h with h | ⟨u, parser₁, -, h⟩
    · exact not_panics_set h
    · split at h
      · exact not_panics_throw h
      · exact not_panics_pure h

/-! ## Containers and records -/

/-- A length between colons and then a text of the grammar for it. -/
inductive Sized (R : Nat → Grammar α) (items : Nat) (text : PhpString) (a : α) (items' : Nat) : Prop where
  | mk {length : Nat} {digits rest : PhpString} : Scalar 58 digits →
    parseUsize digits = some length → R length items rest a items' →
    text = [58] ++ (digits ++ ([58] ++ rest)) → Sized R items text a items'

inductive SizedOverflow (O : Nat → Nat → Nat → PhpString → Prop) (items offset : Nat)
    (text : PhpString) : Prop where
  | mk {length : Nat} {digits rest : PhpString} : Scalar 58 digits →
    parseUsize digits = some length → O length items (offset + (digits.length + 2)) rest →
    text = [58] ++ (digits ++ ([58] ++ rest)) → SizedOverflow O items offset text

theorem Spec.sized {next : Nat → ParserM α} (S : ∀ {length}, length < usizeLimit →
      Spec options low high (next length) (R length) (O length)) :
    Spec options low high (expect env 58 >>= fun _ => takeUsizeUntil env 58 >>= next) (Sized R)
      (SizedOverflow O) := by
  have hnext : ∀ {items text length items'}, Number 58 parseUsize items text length items' →
      Spec options low high (next length) (R length) (O length) := by
    rintro _ _ _ _ ⟨-, hparse⟩
    exact S (parseUsize_lt hparse)
  refine ((expect_spec 58).bind fun _ => (number_spec 58 parseUsize _).bind hnext).congr
    (fun _ _ _ _ => ⟨?_, ?_⟩) fun _ _ _ _ => ⟨?_, ?_⟩
  · rintro ⟨_, ⟨rfl⟩, ⟨_, ⟨hscalar, hparse⟩, hR, rfl⟩, rfl⟩
    exact ⟨hscalar, hparse, hR, by simp⟩
  · rintro ⟨hscalar, hparse, hR, rfl⟩
    exact ⟨(), ⟨rfl⟩, ⟨_, ⟨hscalar, hparse⟩, hR, rfl⟩, by simp⟩
  · rintro (⟨⟨⟩⟩ | ⟨_, ⟨rfl⟩, ⟨⟨⟩⟩ | ⟨_, ⟨hscalar, hparse⟩, hO, rfl⟩, rfl⟩)
    rw [append_assoc]
    refine ⟨hscalar, hparse, ?_, rfl⟩
    convert hO using 1
    simp only [length_append, length_singleton]
    omega
  · rintro ⟨hscalar, hparse, hO, rfl⟩
    refine .next () ⟨rfl⟩ (.next _ ⟨hscalar, hparse⟩ ?_ (append_assoc ..).symm) rfl
    convert hO using 1
    simp only [length_append, length_singleton]
    omega

variable {parse : ParserM (Value F)} {R : Relation F} {O : Nat → Nat → PhpString → Prop}

theorem parseEntries_spec (container : Container F A) (S : Spec options low high parse R O)
    (count : Nat) (entries : A) : Spec options low high (parseEntries container parse count entries)
      (fun items text entries' => Entries container R items count entries text entries')
      (fun items offset => EntriesOverflow container R O items offset count entries) := by
  induction count generalizing entries with
  | zero =>
    refine (pure_spec entries).congr (fun _ _ _ _ => ⟨?_, ?_⟩) fun _ _ _ _ => ⟨nofun, nofun⟩
    · rintro ⟨rfl, rfl⟩
      exact .nil
    · rintro ⟨⟩
      exact ⟨rfl, rfl⟩
  | succ count ih =>
    refine (S.bind fun {_ _ key _} _ => (raise_spec (container.checkKey key)).after_check fun _ =>
      S.bind fun {_ _ value _} _ => (raise_spec (container.add entries key value)).after_check
        fun {_ entries _} _ => ih entries).congr (fun _ _ _ _ => ⟨?_, ?_⟩)
      fun _ _ _ _ => ⟨?_, ?_⟩
    · rintro ⟨_, hR₁, ⟨_, _, ⟨hcheck, rfl⟩, _, hR₂, ⟨_, _, ⟨hadd, rfl⟩, E⟩, rfl⟩, rfl⟩
      exact .cons hR₁ hcheck hR₂ hadd E
    · rintro (_ | ⟨hR₁, hcheck, hR₂, hadd, E⟩)
      exact ⟨_, hR₁, ⟨_, _, ⟨hcheck, rfl⟩, _, hR₂, ⟨_, _, ⟨hadd, rfl⟩, E⟩, rfl⟩, rfl⟩
    · rintro (hO | ⟨_, hR₁, ⟨_, _, ⟨hcheck, rfl⟩, hO | ⟨_, hR₂, ⟨_, _, ⟨hadd, rfl⟩, E⟩, rfl⟩⟩, rfl⟩)
      · exact .key hO
      · exact .value hR₁ hcheck hO
      · exact .later hR₁ hcheck hR₂ hadd E
    · rintro (hO | ⟨hR₁, hcheck, hO⟩ | ⟨hR₁, hcheck, hR₂, hadd, E⟩)
      · exact .first hO
      · exact .next _ hR₁ ⟨_, _, ⟨hcheck, rfl⟩, .first hO⟩ rfl
      · exact .next _ hR₁ ⟨_, _, ⟨hcheck, rfl⟩, .next _ hR₂ ⟨_, _, ⟨hadd, rfl⟩, E⟩ rfl⟩ rfl

/-- The record behind its tag. The grammars of the parts are put together in the order in which the
parser reads them. -/
theorem parseTagged_spec (S : Spec options (low + 1) high parse R O) (tag : UInt8) :
    Spec options (low + 1) high (parseTagged env parse tag)
      (fun items text => Record env options R items (tag :: text))
      (fun items offset rest => RecordOverflow env options R O items (offset - 1) (tag :: rest)) := by
  rw [parseTagged.eq_def]
  split
  · refine (expect_spec 59).map.congr (fun _ _ _ _ => ⟨?_, fun h => ?_⟩)
      fun _ _ _ _ => ⟨nofun, nofun⟩
    · rintro ⟨_, ⟨rfl⟩, rfl⟩
      exact .null
    cases h with
    | null => exact ⟨(), ⟨rfl⟩, rfl⟩
  · refine ((expect_spec 58).bind fun _ => takeBool_spec.bind fun {_ _ value _} _ =>
      (expect_spec 59).map).congr (fun _ _ _ _ => ⟨?_, fun h => ?_⟩)
      fun _ _ _ _ => ⟨?_, nofun⟩
    · rintro ⟨_, ⟨rfl⟩, ⟨_, ⟨rfl⟩, ⟨_, ⟨rfl⟩, rfl⟩, rfl⟩, rfl⟩
      exact .bool _
    · cases h with
      | bool value =>
        exact ⟨(), ⟨rfl⟩, ⟨value, ⟨rfl⟩, ⟨(), ⟨rfl⟩, rfl⟩, rfl⟩, rfl⟩
    · rintro (⟨⟨⟩⟩ | ⟨_, -, ⟨⟨⟩⟩ | ⟨_, -, ⟨⟩, -⟩, -⟩)
  · refine ((expect_spec 58).bind fun _ => (number_spec 59 parseI64 _).map).congr
      (fun _ _ _ _ => ⟨?_, fun h => ?_⟩) fun _ _ _ _ => ⟨?_, nofun⟩
    · rintro ⟨_, ⟨rfl⟩, ⟨_, ⟨hscalar, hparse⟩, rfl⟩, rfl⟩
      exact .int hscalar hparse
    · cases h with
      | int hscalar hparse => exact ⟨(), ⟨rfl⟩, ⟨_, ⟨hscalar, hparse⟩, rfl⟩, rfl⟩
    · rintro (⟨⟨⟩⟩ | ⟨_, -, ⟨⟩, -⟩)
  · refine ((expect_spec 58).bind fun _ => (number_spec 59 (parseF64 env.floats) _).map).congr
      (fun _ _ _ _ => ⟨?_, fun h => ?_⟩) fun _ _ _ _ => ⟨?_, nofun⟩
    · rintro ⟨_, ⟨rfl⟩, ⟨_, ⟨hscalar, hparse⟩, rfl⟩, rfl⟩
      exact .float hscalar hparse
    · cases h with
      | float hscalar hparse => exact ⟨(), ⟨rfl⟩, ⟨_, ⟨hscalar, hparse⟩, rfl⟩, rfl⟩
    · rintro (⟨⟨⟩⟩ | ⟨_, -, ⟨⟩, -⟩)
  · refine (Spec.map (.sized fun hlength => (takeQuotedBytes_spec hlength).bind fun _ =>
      (expect_spec 59).map)).congr (fun _ _ _ _ => ⟨?_, fun h => ?_⟩)
      fun _ _ _ hlow => ⟨?_, fun h => ?_⟩
    · rintro ⟨_, ⟨hscalar, hparse, ⟨_, ⟨rfl⟩, ⟨_, ⟨rfl⟩, rfl⟩, rfl⟩, rfl⟩, rfl⟩
      simpa using @Record.string F env options R _ _ _ hscalar hparse
    · cases h with
      | string hscalar hparse =>
        exact ⟨_, ⟨hscalar, hparse, ⟨_, ⟨rfl⟩, ⟨(), ⟨rfl⟩, rfl⟩, rfl⟩, by simp⟩, rfl⟩
    · rintro ⟨hscalar, hparse, ⟨⟨hoverflow⟩⟩ | ⟨_, -, ⟨⟩, -⟩, rfl⟩
      refine .string hscalar hparse ?_
      omega
    · cases h with
      | string hscalar hparse hoverflow =>
        exact ⟨hscalar, hparse, .first ⟨by omega⟩, rfl⟩
  · refine (Spec.sized fun {count} _ => (countItems_spec count).after_check fun _ =>
      (expect_spec 123).bind fun _ => (parseEntries_spec _ S count []).bind fun {_ _ entries _} _ =>
        (expect_spec 125).map).congr (fun _ _ _ _ => ⟨?_, fun h => ?_⟩)
      fun _ _ _ hlow => ⟨?_, fun h => ?_⟩
    · rintro ⟨hscalar, hparse, ⟨_, _, ⟨hmax, rfl⟩, _, ⟨rfl⟩, ⟨_, E, ⟨_, ⟨rfl⟩, rfl⟩, rfl⟩, rfl⟩, rfl⟩
      exact .array hscalar hparse hmax E
    · cases h with
      | array hscalar hparse hmax E =>
        exact ⟨hscalar, hparse, ⟨(), _, ⟨hmax, rfl⟩, (), ⟨rfl⟩, ⟨_, E, ⟨(), ⟨rfl⟩, rfl⟩, rfl⟩, rfl⟩, rfl⟩
    · rintro ⟨hscalar, hparse, ⟨_, _, ⟨hmax, rfl⟩, ⟨⟨⟩⟩ | ⟨_, ⟨rfl⟩, E | ⟨_, -, ⟨⟩, -⟩, rfl⟩⟩, rfl⟩
      refine .array hscalar hparse hmax ?_
      convert E using 1
      simp only [length_singleton]
      omega
    · cases h with
      | array hscalar hparse hmax E =>
        refine ⟨hscalar, hparse, ⟨(), _, ⟨hmax, rfl⟩, .next () ⟨rfl⟩ (.first ?_) rfl⟩, rfl⟩
        convert E using 1
        simp only [length_singleton]
        omega
  · refine (Spec.sized fun hlength => (takeQuotedBytes_spec hlength).bind fun _ =>
      .sized fun {count} _ => (countItems_spec count).after_check fun _ =>
      (expect_spec 123).bind fun _ => (parseEntries_spec _ S count []).bind fun {_ _ properties _} _ =>
        (expect_spec 125).map).congr (fun _ _ _ _ => ⟨?_, fun h => ?_⟩)
      fun _ _ _ hlow => ⟨?_, fun h => ?_⟩
    · rintro ⟨hclass, hlength, ⟨_, ⟨rfl⟩, ⟨hscalar, hparse, ⟨_, _, ⟨hmax, rfl⟩, _, ⟨rfl⟩,
        ⟨_, E, ⟨_, ⟨rfl⟩, rfl⟩, rfl⟩, rfl⟩, rfl⟩, rfl⟩, rfl⟩
      simpa using @Record.object F env options R _ _ _ _ _ _ _ _ hclass hlength hscalar hparse hmax E
    · cases h with
      | object hclass hlength hscalar hparse hmax E =>
        exact ⟨hclass, hlength, ⟨_, ⟨rfl⟩, ⟨hscalar, hparse, ⟨(), _, ⟨hmax, rfl⟩, (), ⟨rfl⟩,
          ⟨_, E, ⟨(), ⟨rfl⟩, rfl⟩, rfl⟩, rfl⟩, rfl⟩, rfl⟩, by simp⟩
    · rintro ⟨hclass, hlength, ⟨⟨hoverflow⟩⟩ | ⟨_, ⟨rfl⟩, ⟨hscalar, hparse, ⟨_, _, ⟨hmax, rfl⟩,
        ⟨⟨⟩⟩ | ⟨_, ⟨rfl⟩, E | ⟨_, -, ⟨⟩, -⟩, rfl⟩⟩, rfl⟩, rfl⟩, rfl⟩
      · refine .className hclass hlength ?_
        omega
      rw [append_assoc, append_assoc]
      refine .object hclass hlength hscalar hparse hmax ?_
      convert E using 1
      simp only [length_append, length_singleton]
      omega
    · cases h with
      | className hclass hlength hoverflow =>
        exact ⟨hclass, hlength, .first ⟨by omega⟩, rfl⟩
      | @object _ _ text rest _ hclass hlength hscalar hparse hmax E =>
        refine ⟨hclass, hlength, .next _ ⟨rfl⟩ ⟨hscalar, hparse, ⟨(), _, ⟨hmax, rfl⟩,
          .next () ⟨rfl⟩ (.first ?_) rfl⟩, rfl⟩
          (show _ = _ ++ ([58] ++ (text ++ ([58] ++ ([123] ++ rest)))) by simp), rfl⟩
        convert E using 1
        simp only [length_append, length_singleton]
        omega
  all_goals
    refine (throw_spec _).congr (fun _ _ _ _ => ⟨nofun, fun h => ?_⟩)
      fun _ _ _ _ => ⟨nofun, fun h => ?_⟩
  all_goals cases h <;> contradiction

/-! ## Values -/

theorem Record.exists_cons (h : Record env options R items text value items') :
    ∃ tag tail, text = tag :: tail := by
  cases h <;> exact ⟨_, _, rfl⟩

theorem RecordOverflow.exists_cons (h : RecordOverflow env options R O items offset text) :
    ∃ tag tail, text = tag :: tail := by
  cases h <;> exact ⟨_, _, rfl⟩

/-- With more fuel than bytes the parser returns the accepted values and panics on the overflowing
inputs. A nested record starts behind a byte of its own, so the fuel suffices for it too, and its
depth stays below the offset. -/
theorem parseValue_spec (env : Env F) (options : UnserializeOptions) (fuel depth : Nat) :
    Spec options depth fuel (parseValue env fuel depth) (Accepts env options fuel depth)
      (Overflows env options fuel depth) := by
  induction fuel generalizing depth with
  | zero => exact ⟨fun W => absurd W.lt_high (not_lt_zero _), fun W => absurd W.lt_high (not_lt_zero _)⟩
  | succ fuel ih =>
    have hadd {parser : Parser} (W : parser.Within options (depth + 1) fuel) :
        addUsize env depth 1 = some (depth + 1) :=
      addUsize_eq (lt_of_le_of_lt (le_trans W.low_le W.inside) W.fits)
    have htagged (tag : UInt8) : Spec options (depth + 1) fuel
        (parseTagged env (unwrap (addUsize env depth 1) >>= parseValue env fuel) tag) _ _ :=
      parseTagged_spec ((ih (depth + 1)).of_eq fun W => by rw [hadd W, unwrap_bind]) tag
    have hbyte : Spec options depth (fuel + 1) (takeByte env >>= _) _ _ :=
      takeByte_spec.bind_behind fun {_ _ tag _} ⟨_⟩ => htagged tag
    suffices hparse : Spec options depth (fuel + 1)
        (if depth > options.maxDepth then throw _ else takeByte env >>= _) _ _ from
      hparse.of_eq fun W => by rw [parseValue, get_bind, W.options_eq]
    split
    · exact (throw_spec _).congr (fun _ _ _ _ => ⟨nofun, fun h => absurd h.1 (by omega)⟩)
        fun _ _ _ _ => ⟨nofun, fun h => absurd h.1 (by omega)⟩
    · refine hbyte.congr (fun _ _ _ _ => ⟨?_, ?_⟩) fun _ _ _ _ => ⟨?_, ?_⟩
      · rintro ⟨tag, ⟨rfl⟩, hrecord, rfl⟩
        exact ⟨by omega, hrecord⟩
      · rintro ⟨-, hrecord⟩
        obtain ⟨tag, tail, rfl⟩ := hrecord.exists_cons
        exact ⟨tag, ⟨rfl⟩, hrecord, rfl⟩
      · rintro (⟨⟨⟩⟩ | ⟨tag, ⟨rfl⟩, hoverflow, rfl⟩)
        exact ⟨by omega, hoverflow⟩
      · rintro ⟨-, hoverflow⟩
        obtain ⟨tag, tail, rfl⟩ := hoverflow.exists_cons
        exact .next tag ⟨rfl⟩ hoverflow rfl

/-! ## Inputs -/

theorem parseInput_eq (h : input.length ≤ options.maxBytes) : parseInput env input options =
    parseValue env (input.length + 1) 0 ⟨input, 0, options, 0⟩ :=
  if_neg (Nat.not_lt_of_le h)

theorem within_input (h : input.length ≤ options.maxBytes) :
    Parser.Within options 0 (input.length + 1) ⟨input, 0, options, 0⟩ where
  fits := lt_of_le_of_lt h options.isUsize.2.2
  options_eq := rfl
  low_le := le_refl 0
  lt_high := lt_succ_self _
  inside := zero_le _

/-- `unserialize` and `unserialize_prefix` return a result, on every input, exactly if the input does
not lead to an overflowing length within the limits. -/
theorem unserialize_returns_iff (env : Env F) (input : PhpString) (options : UnserializeOptions) :
    ((unserialize env input options).isSome = true ∧ (unserializePrefix env input options).isSome = true) ↔
      ¬(input.length ≤ options.maxBytes ∧ Overflowing env options input) := by
  rw [unserialize, unserializePrefix, Option.isSome_map, Option.isSome_map, and_self]
  by_cases hlen : input.length ≤ options.maxBytes
  · have hpanics := (parseValue_spec env options (input.length + 1) 0).panics_iff (within_input hlen)
    rw [parseInput_eq hlen, Overflowing, ← Option.not_isNone, Bool.not_eq_true',
      ← Bool.not_eq_true, Option.isNone_iff_eq_none]
    exact not_congr (hpanics.trans (and_iff_right hlen).symm)
  · have hlimit : parseInput env input options =
        some (.error (.new "serialized input exceeds byte limit")) := if_pos (Nat.lt_of_not_le hlen)
    rw [hlimit]
    exact ⟨fun _ h => hlen h.1, fun _ => rfl⟩

/-- Floats that are integers, classification without its cache, and lossless text. -/
def Env.plain (overflowChecks : Bool) : Env (Option Int) where
  overflowChecks
  classifyArrayKey := uncachedArrayKey ⟨FloatOps.integral, Option.isSome⟩
  floats := FloatOps.integral
  serializeFloat _ _ := []
  phpFloatToInt number := number.getD 0
  fromUtf8Lossy := id

/-- `18446744073709551615` -/
def usizeMaxText : PhpString :=
  [49, 56, 52, 52, 54, 55, 52, 52, 48, 55, 51, 55, 48, 57, 53, 53, 49, 54, 49, 53]

/-- `s:18446744073709551615:"` -/
def overflowingInput : PhpString := [115, 58] ++ (usizeMaxText ++ ([58, 34] ++ []))

theorem parseInput_overflowingInput (overflowChecks : Bool) :
    parseInput (Env.plain overflowChecks) overflowingInput .default = none := by
  have hscalar : Scalar 58 usizeMaxText := ⟨by decide, isUtf8_of_ascii (by simp [usizeMaxText])⟩
  have hoverflow : Overflowing (Env.plain overflowChecks) .default overflowingInput :=
    ⟨by decide, .string hscalar
      (show parseUsize usizeMaxText = some 18446744073709551615 by decide) (by decide)⟩
  exact ((parseValue_spec (Env.plain overflowChecks) .default
    (overflowingInput.length + 1) 0).panics_iff (within_input (by decide))).mpr hoverflow

/-- A declared length of `usize::MAX` panics, with and without overflow checks. -/
theorem unserialize_panics : (unserialize (Env.plain true) overflowingInput .default = none ∧
      unserializePrefix (Env.plain true) overflowingInput .default = none) ∧
    (unserialize (Env.plain false) overflowingInput .default = none ∧
      unserializePrefix (Env.plain false) overflowingInput .default = none) := by
  simp [unserialize, unserializePrefix, parseInput_overflowingInput]

end Serialization
end Phrust
