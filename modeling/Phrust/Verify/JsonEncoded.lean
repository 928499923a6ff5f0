import Mathlib.Data.Bool.AllAny
import Mathlib.Algebra.Order.BigOperators.Group.List
import Mathlib.Algebra.Order.Group.Nat
import Phrust.Runtime.JsonEncoded

/-!
# The flags keep the document

Each replacement of `normalize_json_encoded` acts on the strings of the written text alone, and there
on the text of single characters, so that the result is a written text with another escaping. The
exception is the replacement of `\"`: it also finds the second half of an escaped backslash together
with the closing quote.
-/

namespace Phrust
namespace JsonEncode
open List Json Nat

/-! ## Indentation -/

/-- `json_pretty_indent_for_php` character by character: `start` is the beginning of a line with its
blanks. -/
def indentFrom : Bool → List Char → List Char
  | _, [] => []
  | start, c :: rest =>
    if c = '\n' then c :: indentFrom true rest
    else if c = ' ' ∧ start = true then ' ' :: ' ' :: indentFrom true rest
    else c :: indentFrom false rest

theorem doubleIndent_space (line : List Char) :
    doubleIndent (' ' :: line) = ' ' :: ' ' :: doubleIndent line := by
  have hlength : (List.takeWhile (· = ' ') (' ' :: line)).length =
      (List.takeWhile (· = ' ') line).length + 1 := by simp
  rw [doubleIndent, hlength, succ_mul, add_comm, replicate_add]
  rfl

variable {c : Char}

theorem doubleIndent_cons (h : c ≠ ' ') (line : List Char) : doubleIndent (c :: line) = c :: line := by
  simp [doubleIndent, h]

theorem intercalate_head (c : α) (separator first : List α) (rest : List (List α)) :
    separator.intercalate ((c :: first) :: rest) = c :: separator.intercalate (first :: rest) := by
  cases rest with
  | nil => simp [List.intercalate]
  | cons second rest => simp

/-- The lines are followed character by character: at the beginning of the first line, or inside it. -/
theorem intercalate_lines (text : List Char) : ∃ line lines, text.splitOn '\n' = line :: lines ∧
    ['\n'].intercalate (doubleIndent line :: lines.map doubleIndent) = indentFrom true text ∧
    ['\n'].intercalate (line :: lines.map doubleIndent) = indentFrom false text := by
  induction text with
  | nil => exact ⟨[], [], rfl, rfl, rfl⟩
  | cons c text ih =>
    obtain ⟨line, lines, hsplit, hstart, hinside⟩ := ih
    have hcons : (c :: text).splitOn '\n' =
        if c = '\n' then [] :: line :: lines else (c :: line) :: lines := by
      rw [List.splitOn, splitOnP_cons_eq_if_modifyHead, ← List.splitOn, hsplit]
      simp
    by_cases hline : c = '\n'
    · refine ⟨[], line :: lines, by rw [hcons, if_pos hline], ?_, ?_⟩
      · rw [map_cons, intercalate_cons_cons, hstart, indentFrom, if_pos hline, hline]
        rfl
      · rw [map_cons, intercalate_cons_cons, hstart, indentFrom, if_pos hline, hline]
        rfl
    · refine ⟨c :: line, lines, by rw [hcons, if_neg hline], ?_, ?_⟩
      · by_cases hspace : c = ' '
        · rw [hspace, doubleIndent_space, intercalate_head, intercalate_head, hstart]
          rfl
        · rw [doubleIndent_cons hspace, intercalate_head, hinside, indentFrom, if_neg hline,
            if_neg fun h => hspace h.1]
      · rw [intercalate_head, hinside, indentFrom, if_neg hline, if_neg fun h => nomatch h.2]

theorem jsonPrettyIndentForPhp_eq (text : List Char) :
    jsonPrettyIndentForPhp text = indentFrom true text := by
  obtain ⟨line, lines, hsplit, hstart, -⟩ := intercalate_lines text
  rw [jsonPrettyIndentForPhp, hsplit, map_cons, hstart]

theorem indentFrom_inside (h : '\n' ∉ text) (rest : List Char) :
    indentFrom false (text ++ rest) = text ++ indentFrom false rest := by
  induction text with
  | nil => rfl
  | cons c text ih =>
    have hc : c ≠ '\n' := fun hc => h (hc ▸ mem_cons_self)
    rw [cons_append, indentFrom, if_neg hc, if_neg (fun hstart => nomatch hstart.2),
      ih fun hmem => h (mem_cons_of_mem _ hmem), cons_append]

theorem indentFrom_spaces (n : Nat) (rest : List Char) :
    indentFrom true (List.replicate n ' ' ++ rest) = List.replicate (2 * n) ' ' ++ indentFrom true rest := by
  induction n with
  | zero => rfl
  | succ n ih =>
    rw [replicate_succ, cons_append, indentFrom, if_neg (by decide), if_pos ⟨rfl, rfl⟩, ih]
    rfl

/-- Twice the indentation. -/
def doubled : Layout → Layout
  | .compact => .compact
  | .pretty unit => .pretty (2 * unit)

theorem Outside.ne_blank (h : Outside c) : c ≠ ' ' ∧ c ≠ '\n' := by
  constructor
  all_goals
    rintro rfl
    revert h
    simp [Outside]

theorem rewrites_indentFrom (h : ∀ c, '\n' ∉ escape c) (layout : Layout) :
    Rewrites indentFrom layout (doubled layout) (quoteWith escape) (quoteWith escape) where
  outside rest hc := by
    obtain ⟨hspace, hline⟩ := Outside.ne_blank hc
    rw [indentFrom, if_neg hline, if_neg fun h => hspace h.1]
  colon rest := by
    cases layout with
    | compact => rfl
    | pretty unit => rfl
  newline start level := by
    cases layout with
    | compact => exact ⟨start, fun _ => rfl⟩
    | pretty unit =>
      refine ⟨true, fun rest => ?_⟩
      show indentFrom start ('\n' :: (List.replicate (unit * level) ' ' ++ rest)) =
        '\n' :: (List.replicate (2 * unit * level) ' ' ++ indentFrom true rest)
      rw [indentFrom, if_pos rfl, indentFrom_spaces, mul_assoc]
  string start s rest := by
    have hbody : '\n' ∉ s.flatMap escape ++ ['"'] := by
      simp only [mem_append, mem_flatMap, mem_singleton, not_or, not_exists, not_and]
      exact ⟨fun c _ => h c, by decide⟩
    show indentFrom start ('"' :: (s.flatMap escape ++ ['"'] ++ rest)) = _
    rw [indentFrom, if_neg (by decide), if_neg (by simp), indentFrom_inside hbody]
    rfl

/-! ## Escapes -/

/-- A character that the replacements after the first one keep. -/
def Inert (c : Char) : Prop := c.toNat < 128 ∧ c ∉ ['<', '>', '&', '\'']

instance : DecidablePred Inert := fun c =>
  inferInstanceAs (Decidable (c.toNat < 128 ∧ c ∉ ['<', '>', '&', '\'']))

theorem Outside.inert (h : Outside c) : Inert c ∧ c ≠ '/' := by
  rcases h with h | h
  · have hrange : 48 ≤ c.toNat ∧ c.toNat ≤ 57 := by
      simpa [Char.isDigit, UInt32.le_iff_toNat_le] using h
    refine ⟨⟨by omega, fun hmem => ?_⟩, ?_⟩
    · simp only [mem_cons, not_mem_nil, or_false] at hmem
      rcases hmem with rfl | rfl | rfl | rfl
      all_goals exact absurd h (by decide)
    · rintro rfl
      exact absurd h (by decide)
  · exact (all_iff_forall_prop (p := fun c => Inert c ∧ c ≠ '/')).mp rfl c h

/-- The escaping is one of RFC 8259. What is escaped stays as it is, and the quote and the backslash
have their short escapes. -/
structure Spelling (escape : Char → List Char) : Prop where
  spells (c : Char) : (escape c = [c] ∧ 32 ≤ c.toNat ∧ c ≠ '"' ∧ c ≠ '\\') ∨
    CharText c (escape c) ∧ ∀ x ∈ escape c, Inert x
  quote : escape '"' = ['\\', '"']
  backslash : escape '\\' = ['\\', '\\']

/-- A replacement of single characters by their escapes. -/
structure Respelling (f : Char → List Char) : Prop where
  inert {c : Char} : Inert c → f c = [c]
  respells (c : Char) : f c = [c] ∨ CharText c (f c) ∧ ∀ x ∈ f c, Inert x

theorem flatMap_inert {text : List Char} (h : ∀ c ∈ text, f c = [c]) : text.flatMap f = text := by
  rw [flatMap_congr h]
  exact flatMap_singleton' text

theorem inert_of_mem : ∀ c ∈ [' ', '\n', '"', '\\'], Inert c :=
  all_iff_forall_prop.mp rfl

theorem Spelling.charText (H : Spelling escape) (c : Char) : CharText c (escape c) := by
  rcases H.spells c with ⟨h, hprint, hquote, hbackslash⟩ | ⟨h, -⟩
  · rw [h]
    exact .plain hprint hquote hbackslash
  · exact h

theorem Spelling.stringText (H : Spelling escape) (s : List Char) : StringText s (quoteWith escape s) := by
  refine ⟨_, ?_, rfl⟩
  induction s with
  | nil => exact .nil
  | cons c s ih => exact .cons (H.charText c) ih

theorem Spelling.flatMap (H : Spelling escape) (Hf : Respelling f) :
    Spelling fun c => (escape c).flatMap f where
  spells c := by
    rcases H.spells c with ⟨h, hplain⟩ | ⟨h, hinert⟩
    · rw [h, flatMap_singleton]
      exact (Hf.respells c).imp_left fun hf => ⟨hf, hplain⟩
    · rw [flatMap_inert fun x hx => Hf.inert (hinert x hx)]
      exact .inr ⟨h, hinert⟩
  quote := by
    rw [H.quote]
    exact flatMap_inert fun c hc => Hf.inert (inert_of_mem c (by grind))
  backslash := by
    rw [H.backslash]
    exact flatMap_inert fun c hc => Hf.inert (inert_of_mem c (by grind))

/-! ### Hexadecimal escapes -/

theorem hexValue_hexDigit : ∀ digit < 16, hexValue (hexDigit digit) = some digit := by decide

theorem unit16_unicodeEscape (h : code ≤ 0xFFFF) : Unit16 code (unicodeEscape code) := by
  have hdigit (n : Nat) : hexValue (hexDigit (n % 16)) = some (n % 16) :=
    hexValue_hexDigit _ (mod_lt _ (by decide))
  have hunit := Unit16.mk (hdigit (code / 4096)) (hdigit (code / 256)) (hdigit (code / 16))
    (hdigit code)
  have hcode : ((code / 4096 % 16 * 16 + code / 256 % 16) * 16 + code / 16 % 16) * 16 + code % 16 =
      code := by
    omega
  rwa [hcode] at hunit

/-- A character of an escape: no replacement changes it and it ends no line. -/
def Kept (c : Char) : Prop := Inert c ∧ c ≠ '/' ∧ c ≠ '\n'

instance : DecidablePred Kept := fun c => inferInstanceAs (Decidable (Inert c ∧ c ≠ '/' ∧ c ≠ '\n'))

theorem kept_hexDigit : ∀ digit < 16, Kept (hexDigit digit) := by decide

theorem kept_unicodeEscape (code : Nat) : ∀ x ∈ unicodeEscape code, Kept x := by
  have hdigit (n : Nat) : Kept (hexDigit (n % 16)) := kept_hexDigit _ (mod_lt _ (by decide))
  intro x hx
  simp only [unicodeEscape, mem_cons, not_mem_nil, or_false] at hx
  rcases hx with rfl | rfl | rfl | rfl | rfl | rfl
  · decide
  · decide
  all_goals exact hdigit _

/-! ### The replacements -/

theorem respelling_replace (hc : ¬Inert c) (htext : CharText c escape)
    (hinert : ∀ x ∈ escape, Inert x) : Respelling fun x => if x = c then escape else [x] where
  inert hx := if_neg (by rintro rfl; exact hc hx)
  respells x := by
    by_cases hx : x = c
    · rw [if_pos hx, hx]
      exact .inr ⟨htext, hinert⟩
    · exact .inl (if_neg hx)

theorem respelling_escapeNonAscii : Respelling escapeNonAscii where
  inert hc := if_pos hc.1
  respells c := by
    have hinert (code : Nat) : ∀ x ∈ unicodeEscape code, Inert x :=
      fun x hx => (kept_unicodeEscape code x hx).1
    unfold escapeNonAscii
    split
    · exact .inl rfl
    right
    split
    · next h => exact ⟨h ▸ .unit (unit16_unicodeEscape (by decide)), hinert 0x2028⟩
    split
    · next h => exact ⟨h ▸ .unit (unit16_unicodeEscape (by decide)), hinert 0x2029⟩
    split
    · next h => exact ⟨.unit (unit16_unicodeEscape h), hinert _⟩
    · next h =>
      have hmax : c.toNat < 0x110000 := by
        rcases c.valid with hvalid | hvalid
        · exact lt_trans hvalid (by decide)
        · exact hvalid.2
      have hhigh : (c.toNat - 0x10000) / 1024 % 1024 < 1024 := mod_lt _ (by decide)
      have hlow : (c.toNat - 0x10000) % 1024 < 1024 := mod_lt _ (by decide)
      refine ⟨.pair hhigh hlow (by omega) (unit16_unicodeEscape (by omega))
        (unit16_unicodeEscape (by omega)), ?_⟩
      exact forall_mem_append.mpr ⟨hinert _, hinert _⟩

theorem serdeEscape_spells (c : Char) : (serdeEscape c = [c] ∧ 32 ≤ c.toNat ∧ c ≠ '"' ∧ c ≠ '\\') ∨
      CharText c (serdeEscape c) ∧ ∀ x ∈ serdeEscape c, Kept x := by
  have hkept {l : List Char} (h : l.all (Kept ·) = true) : ∀ x ∈ l, Kept x := all_iff_forall_prop.mp h
  unfold serdeEscape
  split
  · next h => exact .inr ⟨h ▸ .quote, hkept rfl⟩
  split
  · next h => exact .inr ⟨h ▸ .backslash, hkept rfl⟩
  split
  · next h => exact .inr ⟨h ▸ .backspace, hkept rfl⟩
  split
  · next h => exact .inr ⟨h ▸ .tab, hkept rfl⟩
  split
  · next h => exact .inr ⟨h ▸ .lineFeed, hkept rfl⟩
  split
  · next h => exact .inr ⟨h ▸ .formFeed, hkept rfl⟩
  split
  · next h => exact .inr ⟨h ▸ .carriageReturn, hkept rfl⟩
  split
  · next h => exact .inr ⟨.unit (unit16_unicodeEscape (by omega)), kept_unicodeEscape _⟩
  · next hquote hbackslash _ _ _ _ _ hprint => exact .inl ⟨rfl, by omega, hquote, hbackslash⟩

theorem newline_not_mem_serdeEscape (c : Char) : '\n' ∉ serdeEscape c := by
  intro h
  rcases serdeEscape_spells c with ⟨hc, hprint, -⟩ | ⟨-, hkept⟩
  · rw [hc, mem_singleton] at h
    subst h
    exact absurd hprint (by decide)
  · exact (hkept _ h).2.2 rfl

theorem spelling_serdeEscape : Spelling serdeEscape where
  spells c := (serdeEscape_spells c).imp_right fun ⟨h, hkept⟩ => ⟨h, fun x hx => (hkept x hx).1⟩
  quote := rfl
  backslash := rfl

/-- The first replacement. The slash of its escape is left alone by the later ones. -/
theorem spelling_slash :
    Spelling fun c => (serdeEscape c).flatMap fun x => if x = '/' then ['\\', '/'] else [x] where
  spells c := by
    rcases serdeEscape_spells c with ⟨h, hplain⟩ | ⟨h, hkept⟩
    · rw [h, flatMap_singleton]
      by_cases hc : c = '/'
      · rw [if_pos hc, hc]
        exact .inr ⟨.slash, by simp [Inert]⟩
      · rw [if_neg hc]
        exact .inl ⟨rfl, hplain⟩
    · rw [flatMap_inert fun x hx => if_neg (hkept x hx).2.1]
      exact .inr ⟨h, fun x hx => (hkept x hx).1⟩
  quote := rfl
  backslash := rfl

/-! ### Written texts -/

theorem rewrites_flatMap {f : Char → List Char} (houtside : ∀ c, Outside c → f c = [c])
    (hblank : ∀ c ∈ [' ', '\n', '"'], f c = [c]) (layout : Layout) (escape : Char → List Char) :
    Rewrites (fun _ text => text.flatMap f) layout layout (quoteWith escape)
      (quoteWith fun c => (escape c).flatMap f) where
  outside rest hc := by
    rw [flatMap_cons, houtside _ hc]
    rfl
  colon rest := by
    have hcolon : layout.colon.flatMap f = layout.colon := by
      apply flatMap_inert
      intro c hc
      cases layout with
      | compact => exact houtside c (.inr (by simp_all [Layout.colon]))
      | pretty unit =>
        rcases mem_cons.mp hc with rfl | hc
        · exact houtside _ (.inr (by simp))
        · exact hblank c (by simp_all)
    rw [flatMap_append, hcolon]
  newline start level := by
    refine ⟨start, fun rest => ?_⟩
    have hnewline : (layout.newline level).flatMap f = layout.newline level := by
      apply flatMap_inert
      intro c hc
      cases layout with
      | compact => cases hc
      | pretty unit =>
        rcases mem_cons.mp hc with rfl | hc
        · exact hblank _ (by simp)
        · rw [eq_of_mem_replicate hc]
          exact hblank _ (by simp)
    rw [flatMap_append, hnewline]
  string start s rest := by
    have hquote := hblank '"' (by simp)
    simp [quoteWith, hquote, flatMap_assoc]

/-- The text is the tree, written with some layout and some escaping. -/
def Written (json : Json) (text : List Char) : Prop :=
  ∃ layout escape, Spelling escape ∧ text = json.render layout (quoteWith escape) 0

variable {json : Json}

theorem Written.flatMap (H : Written json text) (Hf : Respelling f) : Written json (text.flatMap f) := by
  obtain ⟨layout, escape, hescape, rfl⟩ := H
  refine ⟨layout, _, hescape.flatMap Hf, ?_⟩
  have hrewrites := rewrites_flatMap (fun c hc => Hf.inert (Outside.inert hc).1)
    (fun c hc => Hf.inert (inert_of_mem c (by grind))) layout escape
  simpa using hrewrites.render json false 0 []

theorem hexValue_inert (h : hexValue c = some v) : Inert c := by
  constructor
  · rw [hexValue] at h
    split at h
    · next hdigit =>
      have hrange : 48 ≤ c.toNat ∧ c.toNat ≤ 57 := by
        simpa [Char.isDigit, UInt32.le_iff_toNat_le] using hdigit
      omega
    split at h
    · next hlower => exact lt_of_le_of_lt hlower.2 (by decide)
    split at h
    · next hupper => exact lt_of_le_of_lt hupper.2 (by decide)
    · cases h
  · intro hmem
    simp only [mem_cons, not_mem_nil, or_false] at hmem
    rcases hmem with rfl | rfl | rfl | rfl
    all_goals cases h

theorem Unit16.inert (h : Unit16 code text) : ∀ x ∈ text, Inert x := by
  obtain ⟨ha, hb, hc, hd⟩ := h
  have hmark : Inert '\\' ∧ Inert 'u' := by decide
  simp [hmark, hexValue_inert ha, hexValue_inert hb, hexValue_inert hc, hexValue_inert hd]

theorem Written.replaceUnit (H : Written json text) (hc : ¬Inert c)
    (hunit : Unit16 code escape) (hcode : c.toNat = code) : Written json (replaceChar c escape text) :=
  H.flatMap (respelling_replace hc (.unit (hcode ▸ hunit)) (Unit16.inert hunit))

/-! ## The replacement of `\"` -/

/-- The last replacement. -/
def replaceQuotes : List Char → List Char := replacePair '\\' '"' ['\\', 'u', '0', '0', '2', '2']

theorem replaceQuotes_cons (h : ¬(c = '\\' ∧ rest.head? = some '"')) :
    replaceQuotes (c :: rest) = c :: replaceQuotes rest := by
  cases rest with
  | nil => rfl
  | cons y rest => exact if_neg (by simpa using h)

theorem replaceQuotes_quote (rest : List Char) :
    replaceQuotes ('\\' :: '"' :: rest) = ['\\', 'u', '0', '0', '2', '2'] ++ replaceQuotes rest := by
  rw [replaceQuotes, replacePair, if_pos ⟨rfl, rfl⟩]

/-- A text without quotes stays, unless its last backslash meets a quote. -/
theorem replaceQuotes_append (h : '"' ∉ text) (hlast : text.getLast? ≠ some '\\' ∨ rest.head? ≠ some '"') :
    replaceQuotes (text ++ rest) = text ++ replaceQuotes rest := by
  induction text with
  | nil => rfl
  | cons c text ih =>
    rw [cons_append, cons_append]
    cases text with
    | nil =>
      apply replaceQuotes_cons
      rintro ⟨rfl, hhead⟩
      exact hlast.elim (fun h => h rfl) fun h => h hhead
    | cons d text =>
      rw [replaceQuotes_cons, ih (fun hmem => h (mem_cons_of_mem _ hmem))]
      · rwa [getLast?_cons_cons] at hlast
      · rintro ⟨-, hhead⟩
        cases hhead
        exact h (by simp)

theorem hexValue_plain (h : hexValue c = some v) : c ≠ '"' ∧ c ≠ '\\' := by
  constructor
  all_goals
    rintro rfl
    cases h

theorem Unit16.plain (h : Unit16 code text) :
    '"' ∉ text ∧ ∃ first last, text = first ++ [last] ∧ last ≠ '\\' := by
  obtain ⟨ha, hb, hc, hd⟩ := h
  refine ⟨?_, ['\\', 'u', _, _, _], _, rfl, (hexValue_plain hd).2⟩
  simp [(hexValue_plain ha).1.symm, (hexValue_plain hb).1.symm, (hexValue_plain hc).1.symm,
    (hexValue_plain hd).1.symm]

/-- Only the quote has a quote in its text, and only the text of the backslash ends with one. -/
theorem CharText.plain_of_ne (h : CharText c text) (hquote : c ≠ '"') (hbackslash : c ≠ '\\') :
    '"' ∉ text ∧ ∃ first last, text = first ++ [last] ∧ last ≠ '\\' := by
  cases h with
  | plain => exact ⟨by simpa using hquote.symm, [], c, rfl, hbackslash⟩
  | quote => exact absurd rfl hquote
  | backslash => exact absurd rfl hbackslash
  | unit hunit => exact Unit16.plain hunit
  | pair _ _ _ hhigh hlow =>
    obtain ⟨hquote', first, last, rfl, hlast⟩ := Unit16.plain hlow
    refine ⟨?_, _, last, (append_assoc _ first [last]).symm, hlast⟩
    simpa using ⟨(Unit16.plain hhigh).1, by simpa using hquote'⟩
  | _ => exact ⟨by decide, ['\\'], _, rfl, by decide⟩

/-- What the last replacement makes of a string behind its opening quote, closing quote included. -/
def hexTail (escape : Char → List Char) : List Char → List Char
  | [] => ['"']
  | c :: s =>
    if c = '"' then ['\\', 'u', '0', '0', '2', '2'] ++ hexTail escape s
    else if c = '\\' ∧ s = [] then '\\' :: ['\\', 'u', '0', '0', '2', '2']
    else escape c ++ hexTail escape s

theorem Spelling.head_ne (H : Spelling escape) (c : Char) (rest : List Char) :
    (escape c ++ rest).head? ≠ some '"' := by
  by_cases hquote : c = '"'
  · rw [hquote, H.quote]
    simp
  by_cases hbackslash : c = '\\'
  · rw [hbackslash, H.backslash]
    simp
  obtain ⟨hmem, first, last, heq, -⟩ := CharText.plain_of_ne (H.charText c) hquote hbackslash
  intro hhead
  rw [heq] at hmem hhead
  cases first <;> cases hhead <;> exact hmem mem_cons_self

theorem replaceQuotes_body (H : Spelling escape) (s rest : List Char) :
    replaceQuotes (s.flatMap escape ++ ('"' :: rest)) = hexTail escape s ++ replaceQuotes rest := by
  induction s with
  | nil => exact replaceQuotes_cons (by simp)
  | cons c s ih =>
    rw [flatMap_cons, append_assoc, hexTail]
    by_cases hquote : c = '"'
    · rw [if_pos hquote, hquote, H.quote, append_assoc, ← ih]
      exact replaceQuotes_quote _
    rw [if_neg hquote]
    by_cases hbackslash : c = '\\'
    · rw [hbackslash, H.backslash]
      cases s with
      | nil =>
        rw [if_pos ⟨rfl, rfl⟩]
        show replaceQuotes ('\\' :: '\\' :: '"' :: rest) = _
        rw [replaceQuotes_cons (by simp), replaceQuotes_quote]
        rfl
      | cons d s =>
        -- The next character has a text of its own, which does not begin with a quote.
        rw [if_neg (fun h => nomatch h.2), replaceQuotes_append (by decide) (.inr ?_), ih, append_assoc]
        rw [flatMap_cons, append_assoc]
        exact H.head_ne d _
    · obtain ⟨hmem, first, last, heq, hlast⟩ :=
        CharText.plain_of_ne (H.charText c) hquote hbackslash
      rw [if_neg (fun h => hbackslash h.1), replaceQuotes_append hmem (.inl ?_), ih, append_assoc]
      rw [heq, getLast?_append]
      simpa using hlast

/-- What the last replacement makes of a string. -/
def hexString (escape : Char → List Char) (s : List Char) : List Char := '"' :: hexTail escape s

theorem Outside.ne_backslash (h : Outside c) : c ≠ '\\' := by
  rintro rfl
  revert h
  simp [Outside]

section
variable (H : Spelling escape)
include H

theorem rewrites_replaceQuotes (layout : Layout) :
    Rewrites (fun _ => replaceQuotes) layout layout (quoteWith escape) (hexString escape) where
  outside rest hc := replaceQuotes_cons fun h => Outside.ne_backslash hc h.1
  colon rest := by
    apply replaceQuotes_append
    · cases layout <;> simp [Layout.colon]
    · left
      cases layout <;> simp [Layout.colon]
  newline start level := by
    refine ⟨start, fun rest => ?_⟩
    have hmem (c : Char) (hc : c ∈ layout.newline level) : c = ' ' ∨ c = '\t' ∨ c = '\n' ∨ c = '\r' :=
      layout.blank_newline level c hc
    apply replaceQuotes_append
    · intro h
      exact absurd (hmem _ h) (by decide)
    · left
      intro h
      exact absurd (hmem _ (mem_of_getLast? h)) (by decide)
  string start s rest := by
    show replaceQuotes ('"' :: (s.flatMap escape ++ ['"'] ++ rest)) = _
    rw [replaceQuotes_cons (by simp), append_assoc]
    exact congrArg _ (replaceQuotes_body H s rest)

/-- A string that does not end with a backslash stays the same string. -/
theorem stringText_hexString (h : s.getLast? ≠ some '\\') : StringText s (hexString escape s) := by
  suffices hbody : ∃ body, Spells s body ∧ hexTail escape s = body ++ ['"'] by
    obtain ⟨body, hspells, heq⟩ := hbody
    exact ⟨body, hspells, by rw [hexString, heq]⟩
  induction s with
  | nil => exact ⟨[], .nil, rfl⟩
  | cons c s ih =>
    have hs : s.getLast? ≠ some '\\' := by
      intro hlast
      rw [getLast?_cons, hlast] at h
      exact h rfl
    obtain ⟨body, hspells, heq⟩ := ih hs
    rw [hexTail, heq]
    by_cases hquote : c = '"'
    · rw [if_pos hquote, hquote]
      exact ⟨_, .cons (.unit (unit16_unicodeEscape (by decide))) hspells, (append_assoc _ _ _).symm⟩
    have hc : ¬(c = '\\' ∧ s = []) := by
      rintro ⟨rfl, rfl⟩
      exact h rfl
    rw [if_neg hquote, if_neg hc]
    exact ⟨_, .cons (H.charText c) hspells, (append_assoc _ _ _).symm⟩

/-- The closing quote of a string that ends with a backslash is gone. -/
theorem count_hexTail (s : List Char) :
    (hexTail escape s).count '"' = if s.getLast? = some '\\' then 0 else 1 := by
  induction s with
  | nil => rfl
  | cons c s ih =>
    rw [hexTail]
    by_cases hquote : c = '"'
    · rw [if_pos hquote, hquote, count_append, ih]
      cases s with
      | nil => rfl
      | cons d s => rw [getLast?_cons_cons]; simp
    rw [if_neg hquote]
    cases s with
    | nil =>
      by_cases hbackslash : c = '\\'
      · rw [if_pos ⟨hbackslash, rfl⟩, hbackslash]
        rfl
      · have hmem := (CharText.plain_of_ne (H.charText c) hquote hbackslash).1
        rw [if_neg fun h => hbackslash h.1, count_append, count_eq_zero.mpr hmem]
        simp [hexTail, hbackslash]
    | cons d s =>
      have hcount : (escape c).count '"' = 0 := by
        by_cases hbackslash : c = '\\'
        · rw [hbackslash, H.backslash]
          rfl
        · exact count_eq_zero.mpr (CharText.plain_of_ne (H.charText c) hquote hbackslash).1
      rw [if_neg (fun h => nomatch h.2), count_append, hcount, zero_add, ih, getLast?_cons_cons]

theorem count_hexString (s : List Char) :
    (hexString escape s).count '"' = if s.getLast? = some '\\' then 1 else 2 := by
  rw [hexString, count_cons_self, count_hexTail H]
  split <;> rfl

theorem sum_count_hexString_lt {strings : List (List Char)} (hs : s ∈ strings)
    (hlast : s.getLast? = some '\\') :
    (strings.map fun s => (hexString escape s).count '"').sum < 2 * strings.length := by
  have hconst : (strings.map fun _ => 2).sum = 2 * strings.length := by simp [mul_comm]
  rw [← hconst]
  refine sum_lt_sum _ _ (fun s _ => ?_) ⟨s, hs, ?_⟩
  · rw [count_hexString H]
    split <;> decide
  · rw [count_hexString H, if_pos hlast]
    decide

end

/-! ## The document -/

theorem Written.ite {flag : Bool} (h : Written json text) (h' : Written json text') :
    Written json (if flag then text else text') := by
  cases flag with
  | false => exact h'
  | true => exact h

section
variable (layout : Layout)

theorem indented_toText (json : Json) (flag : Bool) :
    ∃ layout', (if flag then jsonPrettyIndentForPhp (toText layout json) else toText layout json) =
      toText layout' json := by
  cases flag with
  | false => exact ⟨layout, rfl⟩
  | true =>
    refine ⟨doubled layout, ?_⟩
    have hindent := (rewrites_indentFrom newline_not_mem_serdeEscape layout).render json true 0 []
    rw [if_pos rfl, jsonPrettyIndentForPhp_eq]
    simpa [indentFrom, toText] using hindent

theorem written_slash (json : Json) (flag : Bool) :
    Written json (if flag then toText layout json else replaceChar '/' ['\\', '/'] (toText layout json)) := by
  refine Written.ite ⟨layout, serdeEscape, spelling_serdeEscape, rfl⟩
    ⟨layout, _, spelling_slash, ?_⟩
  have houtside (c : Char) (hc : Outside c) : (if c = '/' then ['\\', '/'] else [c]) = [c] :=
    if_neg (Outside.inert hc).2
  have hrewrites := rewrites_flatMap houtside (by simp) layout serdeEscape
  simpa [toText, replaceChar] using hrewrites.render json false 0 []

theorem Written.unicode (H : Written json text) (unicode lineTerminators : Bool) :
    Written json (if unicode then if lineTerminators then text else escapeJsonLineTerminators text
      else escapeJsonNonAscii text) := by
  refine .ite (.ite H ?_) (H.flatMap respelling_escapeNonAscii)
  have h2028 : Written json (replaceChar '\u2028' ['\\', 'u', '2', '0', '2', '8'] text) :=
    H.replaceUnit (by decide) (.mk rfl rfl rfl rfl) rfl
  exact h2028.replaceUnit (by decide) (.mk rfl rfl rfl rfl) rfl

theorem Written.hexTag (H : Written json text) (flag : Bool) :
    Written json (if flag then replaceChar '>' ['\\', 'u', '0', '0', '3', 'E']
      (replaceChar '<' ['\\', 'u', '0', '0', '3', 'C'] text) else text) := by
  have hless : Written json (replaceChar '<' ['\\', 'u', '0', '0', '3', 'C'] text) :=
    H.replaceUnit (by decide) (.mk rfl rfl rfl rfl) rfl
  exact .ite (hless.replaceUnit (by decide) (.mk rfl rfl rfl rfl) rfl) H

theorem Written.replaceUnitIf (H : Written json text) (flag : Bool) (hc : ¬Inert c)
    (hunit : Unit16 code escape) (hcode : c.toNat = code) :
    Written json (if flag then replaceChar c escape text else text) :=
  .ite (H.replaceUnit hc hunit hcode) H

/-- Up to the replacement of `\"`, the text is written with some layout and some escaping. -/
theorem normalizeJsonEncoded_written (json : Json) (flags : Flags) :
    ∃ text, Written json text ∧ normalizeJsonEncoded (toText layout json) flags =
      if hasFlag flags jsonHexQuot then replaceQuotes text else text := by
  refine ⟨_, ?_, rfl⟩
  obtain ⟨layout', hindent⟩ := indented_toText layout json (hasFlag flags jsonPrettyPrint)
  rw [hindent]
  exact (((written_slash layout' json _).unicode _ _).hexTag _
    |>.replaceUnitIf _ (by decide) (.mk rfl rfl rfl rfl) rfl).replaceUnitIf _ (by decide)
      (.mk rfl rfl rfl rfl) rfl

/-- The rewritten text is a JSON text of the same tree exactly if `JSON_HEX_QUOT` is not set or no
string or key ends with a backslash. -/
theorem isText_normalizeJsonEncoded_iff (json : Json) (flags : Flags) :
    json.IsText (normalizeJsonEncoded (toText layout json) flags) ↔
      hasFlag flags jsonHexQuot = false ∨ ∀ s ∈ json.strings, s.getLast? ≠ some '\\' := by
  obtain ⟨text, ⟨layout', escape, H, rfl⟩, heq⟩ := normalizeJsonEncoded_written layout json flags
  rw [heq]
  cases hasFlag flags jsonHexQuot with
  | false =>
    exact iff_of_true (isText_render fun s _ => H.stringText s) (.inl rfl)
  | true =>
    have hquotes : replaceQuotes (json.render layout' (quoteWith escape) 0) =
        json.render layout' (hexString escape) 0 := by
      simpa [replaceQuotes, replacePair] using
        (rewrites_replaceQuotes H layout').render json false 0 []
    rw [if_pos rfl, hquotes]
    constructor
    · intro h
      right
      have hle := h.quotes
      rw [count_render] at hle
      intro s hs hlast
      have hlt := sum_count_hexString_lt H hs hlast
      omega
    · rintro (h | h)
      · cases h
      · exact isText_render fun s hs => stringText_hexString H (h s hs)

end

/-- `["\\"]` -/
def backslashArray : Json := .array [.string ['\\']]

/-- With `JSON_HEX_QUOT` the array of a backslash becomes `["\\u0022]`, whose string has no end. -/
theorem not_isText_backslashArray :
    normalizeJsonEncoded (toText .compact backslashArray) jsonHexQuot =
        ['[', '"', '\\', '\\', 'u', '0', '0', '2', '2', ']'] ∧
      ¬backslashArray.IsText (normalizeJsonEncoded (toText .compact backslashArray) jsonHexQuot) := by
  have htext : normalizeJsonEncoded (toText .compact backslashArray) jsonHexQuot =
      ['[', '"', '\\', '\\', 'u', '0', '0', '2', '2', ']'] := by
    decide
  refine ⟨htext, fun h => ?_⟩
  have hquotes := h.quotes
  exact absurd hquotes (by decide)

end JsonEncode
end Phrust
