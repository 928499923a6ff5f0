import Mathlib.Algebra.BigOperators.Group.List.Basic
import Phrust.Server.Multipart
import Phrust.Verify.Utf8

/-!
# Multipart bodies are read back unless a name holds a semicolon

`encodeForm` is what a client sends, `Records` what the parts of a form are for. The boundary and the
empty line behind the headers are found exactly; the parameters of a disposition are cut at every `;`,
also inside quotation marks.
-/

namespace Phrust
open List Texts Option Nat
namespace Multipart

/-! ## What is sent -/

inductive FormPart where
  | field (name value : PhpString)
  | file (name filename : PhpString) (contentType : Option PhpString) (data : PhpString)

namespace FormPart

def name : FormPart → PhpString
  | field name _ => name
  | file name _ _ _ => name

def filename : FormPart → Option PhpString
  | field _ _ => none
  | file _ filename _ _ => some filename

def contentType : FormPart → Option PhpString
  | field _ _ => none
  | file _ _ contentType _ => contentType

def data : FormPart → PhpString
  | field _ value => value
  | file _ _ _ data => data

end FormPart

/-- `"` is written as `\"`. -/
def escapeQuotes (text : PhpString) : PhpString := text.flatMap fun byte => if byte = 34 then [92, 34] else [byte]

def quoted (text : PhpString) : PhpString := 34 :: (escapeQuotes text ++ [34])

def parameter (key : String) (value : PhpString) : PhpString := bytesOf key ++ 61 :: quoted value

namespace FormPart

section
variable (part : FormPart)

def parameters : List PhpString :=
  parameter " name" part.name :: part.filename.toList.map (parameter " filename")

def disposition : PhpString := [59].intercalate (bytesOf "form-data" :: part.parameters)

def headerLines : List PhpString :=
  (bytesOf "Content-Disposition" ++ 58 :: 32 :: part.disposition) ::
    part.contentType.toList.map (bytesOf "Content-Type" ++ 58 :: 32 :: ·)

def headerText : PhpString := crlf.intercalate part.headerLines

end

def encode (boundary : PhpString) (part : FormPart) : PhpString :=
  crlf ++ (part.headerText ++ ((crlf ++ crlf) ++ (part.data ++ ((crlf ++ ([45, 45] ++ boundary))))))

end FormPart

def encodeForm (boundary : PhpString) (parts : List FormPart) : PhpString :=
  ([45, 45] ++ boundary) ++ (parts.flatMap (FormPart.encode boundary) ++ [45, 45])

structure IsHeaderText (text : PhpString) : Prop where
  utf8 : isUtf8 text = true
  noBreak : 13 ∉ text ∧ 10 ∉ text

structure FormPart.Valid (boundary : PhpString) (part : FormPart) : Prop where
  name : IsHeaderText part.name ∧ 0 ∉ part.name
  filename : ∀ filename ∈ part.filename, IsHeaderText filename ∧ 0 ∉ filename
  contentType : ∀ contentType ∈ part.contentType, IsHeaderText contentType
  value : part.filename = none → isUtf8 part.data = true
  data : ¬crlf ++ ([45, 45] ++ boundary) <:+: part.data

/-! ## What is recorded -/

/-- The part of a path behind the last separator. -/
structure IsLastComponent (path component : PhpString) : Prop where
  plain : 47 ∉ component ∧ 92 ∉ component
  behind : path = component ∨ ∃ directory, path = directory ++ 47 :: component ∨ path = directory ++ 92 :: component

/-- Recording parts in order; every file gets a name that no other file has. -/
inductive Records : List FormPart → Context → List (Nat × PhpString) → Context → List (Nat × PhpString) → Prop where
  | nil : Records [] context files context files
  | field (hrest : Records parts { context with parsedPost := context.parsedPost ++ [(name, value)] } files
        context' files') :
      Records (.field name value :: parts) context files context' files'
  | file (hfresh : tempPath ∉ files.map Prod.fst) (hcomponent : IsLastComponent filename clientFilename)
      (hrest : Records parts { context with
          uploadedFiles := context.uploadedFiles ++
            [{ fieldName := name, clientFilename, contentType := trimText (contentType.getD []), tempPath,
               error := 0, size := data.length }] }
        (files ++ [(tempPath, data)]) context' files') :
      Records (.file name filename contentType data :: parts) context files context' files'

/-! ## Texts -/

theorem unescapeQuotes_escapeQuotes (text : PhpString) : unescapeQuotes (escapeQuotes text) = text := by
  induction text with
  | nil => rfl
  | cons byte text ih =>
    have hcons : escapeQuotes (byte :: text) = (if byte = 34 then [92, 34] else [byte]) ++ escapeQuotes text := rfl
    rw [hcons]
    split
    · next hquote => rw [hquote]; exact congrArg (34 :: ·) ih
    · next hquote =>
      rw [singleton_append, unescapeQuotes, ih]
      -- A byte that is not a quotation mark does not follow a backslash as one.
      rintro text' rfl htext
      cases text with
      | nil => cases htext
      | cons next text =>
        have : (if next = 34 then [92, 34] else [next]) ++ escapeQuotes text = 34 :: text' := htext
        split at this
        · cases this
        · next hnext => exact hnext (List.cons.inj this).1

theorem escapeQuotes_subset (text : PhpString) : escapeQuotes text ⊆ 92 :: text := by
  intro byte hbyte
  obtain ⟨source, hsource, hbyte⟩ := mem_flatMap.mp hbyte
  split at hbyte
  · next hquote => simp only [mem_cons, not_mem_nil, or_false] at hbyte ⊢; grind
  · rw [mem_singleton.mp hbyte]
    exact mem_cons_of_mem _ hsource

theorem not_mem_quoted (hquote : byte ≠ 34) (hescape : byte ≠ 92) (h : byte ∉ text) : byte ∉ quoted text := by
  intro hmem
  rw [quoted, mem_cons, mem_append, mem_singleton] at hmem
  rcases hmem with rfl | hmem | rfl
  · exact hquote rfl
  · rcases mem_cons.mp (escapeQuotes_subset text hmem) with rfl | hmem
    · exact hescape rfl
    · exact h hmem
  · exact hquote rfl

theorem not_mem_parameter (hbyte : byte ≠ 34 ∧ byte ≠ 92 ∧ byte ≠ 61) (hkey : byte ∉ bytesOf key)
    (h : byte ∉ value) : byte ∉ parameter key value := by
  rw [parameter, mem_append, mem_cons, not_or, not_or]
  exact ⟨hkey, hbyte.2.2, not_mem_quoted hbyte.1 hbyte.2.1 h⟩

theorem isUtf8_escapeQuotes (h : isUtf8 text = true) : isUtf8 (escapeQuotes text) = true := by
  obtain ⟨chars, hchars, rfl⟩ := isUtf8_iff.mp h
  have hchar : ∀ char ∈ chars, isUtf8 (escapeQuotes char) = true := by
    intro char hchar
    rcases (hchars char hchar).bytes with ⟨byte, hbyte, rfl⟩ | hbytes
    · refine isUtf8_of_ascii fun b hb => ?_
      rcases mem_cons.mp (escapeQuotes_subset _ hb) with rfl | hb
      · decide
      · rwa [mem_singleton.mp hb]
    · -- No byte of the character is a quotation mark.
      have hsame : escapeQuotes char = char := by
        rw [escapeQuotes, flatMap_congr (g := fun byte => [byte])]
        · exact flatMap_singleton' _
        intro byte hbyte
        refine if_neg ?_
        rintro rfl
        exact absurd (hbytes _ hbyte) (by decide)
      rw [hsame]
      exact isUtf8_iff.mpr ⟨[char], forall_mem_singleton.mpr (hchars char hchar), by simp⟩
  clear h hchars
  induction chars with
  | nil => rw [flatten_nil]; rw [escapeQuotes, flatMap_nil, isUtf8]
  | cons char chars ih =>
    rw [forall_mem_cons] at hchar
    rw [flatten_cons, escapeQuotes, flatMap_append, ← escapeQuotes, ← escapeQuotes, isUtf8_append hchar.1]
    exact ih hchar.2

theorem isUtf8_quoted (h : isUtf8 text = true) : isUtf8 (quoted text) = true := by
  rw [quoted, ← singleton_append, isUtf8_append (isUtf8_of_ascii (by simp)),
    isUtf8_append (isUtf8_escapeQuotes h)]
  exact isUtf8_of_ascii (by simp)

theorem isUtf8_intercalate (hseparator : isUtf8 separator = true)
    (hpieces : ∀ piece ∈ pieces, isUtf8 piece = true) : isUtf8 (separator.intercalate pieces) = true := by
  induction pieces with
  | nil => exact isUtf8_of_ascii (forall_mem_nil _)
  | cons piece pieces ih =>
    rw [forall_mem_cons] at hpieces
    cases pieces with
    | nil => rw [intercalate_singleton]; exact hpieces.1
    | cons next pieces =>
      rw [intercalate_cons_cons, append_assoc, isUtf8_append hpieces.1, isUtf8_append hseparator]
      exact ih hpieces.2

theorem mem_intercalate {separator : PhpString}
    (h : byte ∈ separator.intercalate pieces) : byte ∈ separator ∨ ∃ piece ∈ pieces, byte ∈ piece := by
  induction pieces with
  | nil => cases h
  | cons piece pieces ih =>
    cases pieces with
    | nil =>
      rw [intercalate_singleton] at h
      exact .inr ⟨piece, mem_cons_self, h⟩
    | cons next pieces =>
      rw [intercalate_cons_cons, mem_append, mem_append] at h
      rcases h with (h | h) | h
      · exact .inr ⟨piece, mem_cons_self, h⟩
      · exact .inl h
      · exact (ih h).imp_right fun ⟨piece, hpiece, h⟩ => ⟨piece, mem_cons_of_mem _ hpiece, h⟩

theorem noBlank_quote : NoBlank whitespaceChars 34 := by
  unfold NoBlank
  decide

theorem noBlank_quote_reverse : NoBlank (whitespaceChars.map List.reverse) 34 := by
  unfold NoBlank
  decide

theorem trimText_quoted (text : PhpString) : trimText (quoted text) = quoted text :=
  trim_of_ends noBlank_quote noBlank_quote_reverse _

theorem trimText_space (text : PhpString) : trimText (32 :: text) = trimText text := by
  have hblank : (whitespaceChars.find? fun blank => blank.isPrefixOf (32 :: text)) = some [32] := rfl
  rw [trimText, Texts.trim, length_cons, trimFront, hblank]
  rfl

/-! ## Parameters -/

theorem unquoteParameter_quoted (text : PhpString) : unquoteParameter (quoted text) = text := by
  have hends : 2 ≤ (quoted text).length ∧ (quoted text).head? = some 34 ∧ (quoted text).getLast? = some 34 := by
    refine ⟨?_, rfl, ?_⟩
    · rw [quoted, length_cons, length_append, length_singleton]
      omega
    · rw [quoted, ← cons_append, getLast?_concat]
  rw [unquoteParameter, if_pos hends, quoted, tail_cons, dropLast_concat, unescapeQuotes_escapeQuotes]

theorem splitOnce_parameter (value : PhpString) (hkey : 61 ∉ bytesOf key) :
    splitOnce 61 (parameter key value) = some (bytesOf key, quoted value) :=
  splitOnce_append (quoted value) hkey

section
variable (parameters : Option PhpString × Option PhpString) (value : PhpString)

theorem readParameter_name :
    readParameter parameters (parameter " name" value) = (some value, parameters.2) := by
  have hkey : lowercase (trimText (bytesOf " name")) = bytesOf "name" := by decide
  rw [readParameter, splitOnce_parameter value (by decide)]
  simp [trimText_quoted, unquoteParameter_quoted, hkey]

theorem readParameter_filename :
    readParameter parameters (parameter " filename" value) = (parameters.1, some value) := by
  have hkey : lowercase (trimText (bytesOf " filename")) = bytesOf "filename" := by decide
  have hne : bytesOf "filename" ≠ bytesOf "name" := by decide
  rw [readParameter, splitOnce_parameter value (by decide)]
  simp only [trimText_quoted, unquoteParameter_quoted, hkey, if_neg hne, if_true]

end

theorem foldl_readParameter (part : FormPart) :
    part.parameters.foldl readParameter (none, none) = (some part.name, part.filename) := by
  rw [FormPart.parameters, foldl_cons, readParameter_name]
  cases part.filename with
  | none => rfl
  | some filename => exact readParameter_filename _ _

/-- Values are not longer than the parameters they are read from. -/
theorem unescapeQuotes_subset (text : PhpString) : unescapeQuotes text ⊆ text := by
  fun_induction unescapeQuotes text with
  | case1 text ih =>
    exact List.Subset.trans (cons_subset_cons _ ih) (subset_cons_self _ _)
  | case2 byte text _ ih => exact cons_subset_cons _ ih
  | case3 => exact List.Subset.refl _

theorem unquoteParameter_subset (value : PhpString) : unquoteParameter value ⊆ value := by
  rw [unquoteParameter]
  split
  · exact List.Subset.trans (unescapeQuotes_subset _)
      (List.Subset.trans (dropLast_subset _) (tail_subset _))
  · exact List.Subset.refl _

/-- No semicolon in what parameters have set. -/
def Plain (parameters : Option PhpString × Option PhpString) : Prop :=
  (∀ name ∈ parameters.1, 59 ∉ name) ∧ ∀ filename ∈ parameters.2, 59 ∉ filename

theorem readParameter_plain (h : Plain parameters) (hpiece : 59 ∉ piece) : Plain (readParameter parameters piece) := by
  rw [readParameter]
  split
  · exact h
  · next key value hsplit =>
    have hvalue : 59 ∉ unquoteParameter (trimText value) := fun hmem =>
      hpiece ((splitOnce_mem hsplit).2 (trim_subset _ _ (unquoteParameter_subset _ hmem)))
    simp only
    split
    · refine ⟨fun name hname => ?_, h.2⟩
      cases hname
      exact hvalue
    split
    · refine ⟨h.1, fun filename hfilename => ?_⟩
      cases hfilename
      exact hvalue
    · exact h

theorem partDisposition_plain (h : partDisposition headers = .ok disposition) :
    59 ∉ disposition.name ∧ ∀ filename ∈ disposition.filename, 59 ∉ filename := by
  have hfold (pieces : List PhpString) (hpieces : ∀ piece ∈ pieces, 59 ∉ piece)
      (parameters : Option PhpString × Option PhpString) (hplain : Plain parameters) :
      Plain (pieces.foldl readParameter parameters) := by
    induction pieces generalizing parameters with
    | nil => exact hplain
    | cons piece pieces ih =>
      rw [forall_mem_cons] at hpieces
      exact ih hpieces.2 _ (readParameter_plain hplain hpieces.1)
  rw [partDisposition] at h
  split at h
  · cases h
  · next value _ =>
    split at h
    · cases h
    · next dispositionType parameters hsplit =>
      split at h
      · have hplain := hfold parameters
          (fun piece hpiece => not_mem_of_mem_splitOn (hsplit ▸ mem_cons_of_mem _ hpiece))
          (none, none) ⟨nofun, nofun⟩
        split at h
        · cases h
        · next hparameters =>
          cases h
          rw [hparameters] at hplain
          exact ⟨hplain.1 _ rfl, hplain.2⟩
      · cases h

/-! ## Headers -/

namespace FormPart

/-- The headers as they are read. -/
def headers (part : FormPart) : Headers :=
  (bytesOf "Content-Disposition", part.disposition) ::
    part.contentType.toList.map fun contentType => (bytesOf "Content-Type", trimText contentType)

/-- Neither the name nor the file name holds a semicolon. -/
def NoSemicolon (part : FormPart) : Prop := 59 ∉ part.name ∧ ∀ filename ∈ part.filename, 59 ∉ filename

variable {part : FormPart}

theorem forall_parameters {p : PhpString → Prop} (hname : p (parameter " name" part.name))
    (hfilename : ∀ filename ∈ part.filename, p (parameter " filename" filename)) :
    ∀ piece ∈ part.parameters, p piece := by
  refine forall_mem_cons.mpr ⟨hname, fun piece hpiece => ?_⟩
  obtain ⟨filename, hmem, rfl⟩ := mem_map.mp hpiece
  exact hfilename filename (mem_toList.mp hmem)

theorem headerLookup_disposition (part : FormPart) :
    headerLookup part.headers "content-disposition" = some part.disposition := by
  have hname : lowercase (bytesOf "Content-Disposition") == lowercase (bytesOf "content-disposition") := by decide
  simp [headerLookup, headers, hname]

theorem headerLookup_contentType (part : FormPart) :
    headerLookup part.headers "content-type" = part.contentType.map trimText := by
  have hskip : (lowercase (bytesOf "Content-Disposition") == lowercase (bytesOf "content-type")) = false := by decide
  have hname : lowercase (bytesOf "Content-Type") == lowercase (bytesOf "content-type") := by decide
  simp only [headerLookup, headers, find?_cons, hskip]
  cases part.contentType with
  | none => rfl
  | some contentType =>
    simp [hname]

theorem partDisposition_headers (h : part.NoSemicolon) :
    partDisposition part.headers = .ok ⟨part.name, part.filename⟩ := by
  have hpieces : ∀ piece ∈ bytesOf "form-data" :: part.parameters, 59 ∉ piece :=
    forall_mem_cons.mpr ⟨by decide, forall_parameters (not_mem_parameter (by decide) (by decide) h.1)
      fun filename hfilename => not_mem_parameter (by decide) (by decide) (h.2 filename hfilename)⟩
  have hsplit : part.disposition.splitOn 59 = bytesOf "form-data" :: part.parameters :=
    splitOn_intercalate 59 hpieces (cons_ne_nil _ _)
  have htype : lowercase (trimText (bytesOf "form-data")) = bytesOf "form-data" := by decide
  rw [partDisposition, headerLookup_disposition]
  simp [hsplit, htype, foldl_readParameter]

section
variable {boundary : PhpString}

theorem isUtf8_disposition (h : part.Valid boundary) : isUtf8 part.disposition = true := by
  have hparameter {key : String} {value : PhpString} (hkey : (bytesOf key).all (· < 128) = true)
      (hvalue : IsHeaderText value) : isUtf8 (parameter key value) = true := by
    rw [parameter, isUtf8_append (isUtf8_of_all hkey), ← singleton_append,
      isUtf8_append (isUtf8_of_ascii (by simp)), isUtf8_quoted hvalue.utf8]
  refine isUtf8_intercalate (isUtf8_of_ascii (by simp)) (forall_mem_cons.mpr ⟨?_, ?_⟩)
  · exact isUtf8_of_all rfl
  · exact forall_parameters (hparameter rfl h.name.1)
      fun filename hfilename => hparameter rfl (h.filename filename hfilename).1

theorem not_mem_disposition (h : part.Valid boundary) : 13 ∉ part.disposition := by
  intro hmem
  rcases mem_intercalate hmem with hmem | ⟨piece, hpiece, hmem⟩
  · exact absurd hmem (by decide)
  have hpieces : ∀ piece ∈ bytesOf "form-data" :: part.parameters, 13 ∉ piece :=
    forall_mem_cons.mpr ⟨by decide, forall_parameters
      (not_mem_parameter (by decide) (by decide) h.name.1.noBreak.1) fun filename hfilename =>
        not_mem_parameter (by decide) (by decide) (h.filename filename hfilename).1.noBreak.1⟩
  exact hpieces piece hpiece hmem

/-- The value of the header has no blanks at its ends. -/
theorem trimText_disposition (part : FormPart) : trimText part.disposition = part.disposition := by
  have hlast : ∃ middle, part.disposition = 102 :: (middle ++ [34]) := by
    rw [disposition, parameters, intercalate_cons_cons]
    cases part.filename with
    | none =>
      rw [toList_none, map_nil, intercalate_singleton, parameter, quoted]
      exact ⟨bytesOf "orm-data" ++ [59] ++ (bytesOf " name" ++ 61 :: 34 :: escapeQuotes part.name), by
        rw [append_assoc]; simp; rfl⟩
    | some filename =>
      rw [toList_some, map_singleton, intercalate_cons_cons, intercalate_singleton]
      exact ⟨bytesOf "orm-data" ++ [59] ++ (parameter " name" part.name ++ [59] ++
        (bytesOf " filename" ++ 61 :: 34 :: escapeQuotes filename)), by simp [parameter, quoted]; rfl⟩
  obtain ⟨middle, hmiddle⟩ := hlast
  rw [hmiddle, trimText, trim_of_ends _ noBlank_quote_reverse]
  unfold NoBlank
  decide

theorem forall_headerLines {p : PhpString → Prop}
    (hdisposition : p (bytesOf "Content-Disposition" ++ 58 :: 32 :: part.disposition))
    (hcontentType : ∀ contentType ∈ part.contentType, p (bytesOf "Content-Type" ++ 58 :: 32 :: contentType)) :
    ∀ line ∈ part.headerLines, p line := by
  refine forall_mem_cons.mpr ⟨hdisposition, fun line hline => ?_⟩
  obtain ⟨contentType, hmem, rfl⟩ := mem_map.mp hline
  exact hcontentType contentType (mem_toList.mp hmem)

theorem not_mem_headerLines (h : part.Valid boundary) : ∀ line ∈ part.headerLines, 13 ∉ line := by
  have hline {name : String} {value : PhpString} (hname : 13 ∉ bytesOf name) (hvalue : 13 ∉ value) :
      13 ∉ bytesOf name ++ 58 :: 32 :: value := by
    rw [mem_append, mem_cons, mem_cons, not_or, not_or, not_or]
    exact ⟨hname, by decide, by decide, hvalue⟩
  exact forall_headerLines (hline (by decide) (not_mem_disposition h))
    fun contentType hmem => hline (by decide) (h.contentType contentType hmem).noBreak.1

theorem isUtf8_headerText (h : part.Valid boundary) : isUtf8 part.headerText = true := by
  have hline {name : String} {value : PhpString} (hname : (bytesOf name).all (· < 128) = true)
      (hvalue : isUtf8 value = true) : isUtf8 (bytesOf name ++ 58 :: 32 :: value) = true := by
    have hcons : (58 :: 32 :: value : PhpString) = [58, 32] ++ value := rfl
    rw [isUtf8_append (isUtf8_of_all hname), hcons, isUtf8_append (isUtf8_of_ascii (by simp)), hvalue]
  refine isUtf8_intercalate (isUtf8_of_ascii (by simp [crlf])) ?_
  exact forall_headerLines (hline rfl (isUtf8_disposition h))
    fun contentType hmem => hline rfl (h.contentType contentType hmem).utf8

theorem parsePartHeader_line (value : PhpString) (hkey : 58 ∉ bytesOf key)
    (htrim : trimText (bytesOf key) = bytesOf key) :
    parsePartHeader (bytesOf key ++ 58 :: 32 :: value) = .ok (bytesOf key, trimText value) := by
  rw [parsePartHeader, splitOnce_append _ hkey]
  simp [htrim, trimText_space]

theorem headerLines_length (part : FormPart) : part.headerLines.length ≤ part.headerText.length + 1 := by
  have hlines : part.headerLines.length ≤ 2 := by
    rw [headerLines, length_cons, length_map]
    cases part.contentType <;> simp
  have htext : 0 < part.headerText.length := by
    refine length_pos_iff.mpr fun hnil => ?_
    rw [headerText, headerLines] at hnil
    cases hrest : part.contentType.toList.map (bytesOf "Content-Type" ++ 58 :: 32 :: ·) with
    | nil => rw [hrest, intercalate_singleton] at hnil; exact absurd hnil (by simp)
    | cons next rest => rw [hrest, intercalate_cons_cons] at hnil; exact absurd hnil (by simp)
  omega

theorem parsePartHeaders_headerText (h : part.Valid boundary) : parsePartHeaders part.headerText = .ok part.headers := by
  have hsplit : splitAll crlf part.headerText.length part.headerText = part.headerLines :=
    splitAll_intercalate (not_mem_headerLines h) (cons_ne_nil _ _) (headerLines_length part)
  rw [parsePartHeaders, if_pos (isUtf8_headerText h), hsplit, headerLines, headers, mapM_cons,
    parsePartHeader_line _ (by decide) (by decide), trimText_disposition]
  cases part.contentType with
  | none => rfl
  | some contentType =>
    rw [toList_some, map_singleton, mapM_cons, parsePartHeader_line _ (by decide) (by decide)]
    rfl

theorem find_headerEnd (h : part.Valid boundary) (rest : PhpString) :
    find (crlf ++ crlf) (part.headerText ++ ((crlf ++ crlf) ++ rest)) = some part.headerText.length := by
  have hneedle : crlf ++ crlf = 13 :: [10, 13, 10] := rfl
  have hlines := not_mem_headerLines h
  rw [headerText, headerLines, hneedle] at *
  rw [forall_mem_cons] at hlines
  cases hcontentType : part.contentType with
  | none =>
    rw [toList_none, map_nil, intercalate_singleton, find_skip _ hlines.1, find_prefix]
    rfl
  | some contentType =>
    rw [hcontentType, toList_some, map_singleton, forall_mem_singleton] at hlines
    rw [toList_some, map_singleton, intercalate_cons_cons, intercalate_singleton,
      append_assoc, append_assoc, find_skip _ hlines.1]
    have hline : 13 ∉ 10 :: (bytesOf "Content-Type" ++ 58 :: 32 :: contentType) := by
      rw [mem_cons, not_or]
      exact ⟨by decide, hlines.2⟩
    -- The second line begins with a letter, so that the break before it does not end the headers.
    have hbreak (text : PhpString) :
        find (13 :: [10, 13, 10]) (crlf ++ ((bytesOf "Content-Type" ++ 58 :: 32 :: contentType) ++ text)) =
          (find (13 :: [10, 13, 10])
            (10 :: (bytesOf "Content-Type" ++ 58 :: 32 :: contentType) ++ text)).map (· + 1) := rfl
    rw [hbreak, find_skip _ hline, find_prefix]
    simp only [map_some, length_append, length_cons, crlf, length_nil, Option.some.injEq]
    omega

end
end FormPart

/-! ## Files -/

/-- No more than 99 files in the temporary directory have a number that has not been given out. -/
structure Storage.Ready (storage : Storage) : Prop where
  writable : storage.writable = true
  free : (storage.files.filter fun file => storage.counter ≤ file.1).length < 100

theorem writeUploadTempFile_some (hwritable : storage.writable = true)
    (hfree : (storage.files.filter fun file => storage.counter ≤ file.1).length < tries) (data : PhpString) :
    ∃ id counter, writeUploadTempFile data tries storage =
        (some id, { storage with counter, files := storage.files ++ [(id, data)] }) ∧
      id ∉ storage.files.map Prod.fst ∧ id < counter ∧ storage.counter ≤ counter := by
  induction tries generalizing storage with
  | zero => exact absurd hfree (not_lt_zero _)
  | succ tries ih =>
    rw [writeUploadTempFile]
    simp only
    split
    · next hmem =>
      -- The file in the way is not counted any more.
      obtain ⟨file, hfile, hid⟩ := mem_map.mp hmem
      have hlt : (storage.files.filter fun file => storage.counter + 1 ≤ file.1).length <
          (storage.files.filter fun file => storage.counter ≤ file.1).length := by
        have hsame : (storage.files.filter fun file => storage.counter + 1 ≤ file.1) =
            (storage.files.filter fun file => storage.counter ≤ file.1).filter fun file =>
              storage.counter + 1 ≤ file.1 := by
          rw [List.filter_filter]
          refine filter_congr fun file _ => ?_
          rw [Bool.eq_iff_iff, Bool.and_eq_true, decide_eq_true_eq, decide_eq_true_eq]
          omega
        rw [hsame, length_filter_lt_length_iff_exists]
        refine ⟨file, mem_filter.mpr ⟨hfile, ?_⟩, ?_⟩
        · rw [decide_eq_true_eq, hid]
        · rw [decide_eq_true_eq, hid]
          exact not_succ_le_self _
      obtain ⟨id, counter, hwrite, hfresh, hid, hcounter⟩ :=
        @ih { storage with counter := storage.counter + 1 } hwritable (by simp only; omega)
      exact ⟨id, counter, hwrite, hfresh, hid, by simp only at hcounter; omega⟩
    · next hfresh =>
      simp only [hwritable]
      exact ⟨storage.counter, storage.counter + 1, rfl, hfresh, lt_succ_self _, le_succ _⟩

theorem Storage.Ready.write (h : storage.Ready) (data : PhpString) :
    ∃ id storage', writeUploadTempFile data 100 storage = (some id, storage') ∧ storage'.Ready ∧
      id ∉ storage.files.map Prod.fst ∧ storage'.files = storage.files ++ [(id, data)] := by
  obtain ⟨id, counter, hwrite, hfresh, hid, hcounter⟩ := writeUploadTempFile_some h.writable h.free data
  refine ⟨id, _, hwrite, ⟨h.writable, lt_of_le_of_lt ?_ h.free⟩, hfresh, rfl⟩
  have hnew : ([(id, data)].filter fun file => counter ≤ file.1) = [] := by simp [hid]
  rw [filter_append, hnew, append_nil]
  refine (monotone_filter_right _ fun file hfile => ?_).length_le
  rw [decide_eq_true_eq] at hfile ⊢
  exact hcounter.trans hfile

theorem sanitizeClientFilename_isLastComponent (h : 0 ∉ filename) :
    IsLastComponent filename (sanitizeClientFilename filename) := by
  have hfilter : filename.filter (· ≠ 0) = filename := by
    rw [filter_eq_self]
    intro byte hbyte
    rw [decide_eq_true_eq]
    rintro rfl
    exact h hbyte
  rw [sanitizeClientFilename, hfilter]
  generalize hp : (fun byte : UInt8 => decide (byte ≠ 47 ∧ byte ≠ 92)) = p
  have hplain : ∀ byte ∈ (filename.reverse.takeWhile p).reverse, byte ≠ 47 ∧ byte ≠ 92 := by
    intro byte hbyte
    have := all_eq_true.mp all_takeWhile byte (mem_reverse.mp hbyte)
    subst hp
    exact of_decide_eq_true this
  have hsplit : filename = (filename.reverse.dropWhile p).reverse ++ (filename.reverse.takeWhile p).reverse := by
    rw [← reverse_append, takeWhile_append_dropWhile, reverse_reverse]
  refine ⟨⟨fun hmem => (hplain _ hmem).1 rfl, fun hmem => (hplain _ hmem).2 rfl⟩, ?_⟩
  cases hrest : filename.reverse.dropWhile p with
  | nil =>
    rw [hrest] at hsplit
    exact .inl hsplit
  | cons separator directory =>
    have hseparator : p separator = false := by
      have := head?_dropWhile_not p filename.reverse
      rw [hrest] at this
      simpa using this
    rw [hrest, reverse_cons, append_assoc, singleton_append] at hsplit
    subst hp
    rw [decide_eq_false_iff_not, not_and_or, not_not, not_not] at hseparator
    refine .inr ⟨directory.reverse, ?_⟩
    rcases hseparator with rfl | rfl
    · exact .inl hsplit
    · exact .inr hsplit

/-! ## The whole body -/

/-- What the parser is given as a boundary. -/
theorem multipartBoundary_noBreak (h : multipartBoundary contentType = .ok (some boundary)) : 13 ∉ boundary := by
  rw [multipartBoundary.eq_def] at h
  split at h
  · cases h
  split at h
  · cases h
  simp only at h
  split at h
  · split at h
    · cases h
    split at h
    · cases h
    · next hlegal =>
      cases h
      exact fun hmem => hlegal (.inr (.inr (.inl hmem)))
  · cases h

section
variable {config : Config} {lossy : PhpString → PhpString} {boundary : PhpString}

theorem parseParts_encode {part : FormPart} (hboundary : 13 ∉ boundary) (h : part.Valid boundary) (fuel : Nat)
    (rest : PhpString) (hrecord : recordPart config lossy part.headers part.data state = (.ok (), state')) :
    parseParts config lossy ([45, 45] ++ boundary) (fuel + 1) (part.encode boundary ++ rest) state =
      parseParts config lossy ([45, 45] ++ boundary) fuel rest state' := by
  have hbody : part.encode boundary ++ rest = crlf ++ (part.headerText ++ ((crlf ++ crlf) ++
      (part.data ++ ((crlf ++ ([45, 45] ++ boundary)) ++ rest)))) := by
    simp [FormPart.encode]
  have hmarker : 13 ∉ 10 :: ([45, 45] ++ boundary) := by
    simpa using hboundary
  have hdata : find (crlf ++ ([45, 45] ++ boundary))
      (part.data ++ ((crlf ++ ([45, 45] ++ boundary)) ++ rest)) = some part.data.length :=
    find_append_of_not_mem rest hmarker h.data
  have hopen (text : PhpString) : (crlf ++ text).take 2 = crlf ∧ (crlf ++ text).drop 2 = text := ⟨rfl, rfl⟩
  have hclose : crlf ≠ [45, 45] := by decide
  have hempty (text : PhpString) : ((crlf ++ crlf) ++ text).drop 4 = text := rfl
  rw [hbody, parseParts]
  simp only [hopen, if_neg hclose, ne_eq, not_true, if_false, FormPart.find_headerEnd h, take_left,
    FormPart.parsePartHeaders_headerText h, ← drop_drop, drop_left, hempty, hdata, hrecord]

structure WithinLimits (config : Config) (parts : List FormPart) : Prop where
  files : (parts.filter fun part => part.filename.isSome).length ≤ config.maxUploadFiles
  size : ∀ part ∈ parts, part.filename.isSome → part.data.length ≤ config.maxUploadFileBytes

theorem recordPart_records {part : FormPart} (hvalid : part.Valid boundary) (hsemicolon : part.NoSemicolon)
    (lossy : PhpString → PhpString) {state : State} (hready : state.storage.Ready)
    (hcount : part.filename.isSome → state.fileCount < config.maxUploadFiles)
    (hsize : part.filename.isSome → part.data.length ≤ config.maxUploadFileBytes) :
    ∃ state', recordPart config lossy part.headers part.data state = (.ok (), state') ∧ state'.storage.Ready ∧
      state'.fileCount = state.fileCount + part.filename.toList.length ∧
      ∀ parts context files, Records parts state'.context state'.storage.files context files →
        Records (part :: parts) state.context state.storage.files context files := by
  rw [recordPart, FormPart.partDisposition_headers hsemicolon]
  cases part with
  | field name value =>
    have hvalue : fromUtf8Lossy lossy value = value := if_pos (hvalid.value rfl)
    simp only [FormPart.filename, FormPart.name, FormPart.data, hvalue]
    exact ⟨_, rfl, hready, rfl, fun parts context files hrest => .field hrest⟩
  | file name filename contentType data =>
    obtain ⟨id, storage, hwrite, hready, hfresh, hstored⟩ := hready.write data
    have htype : (headerLookup (FormPart.file name filename contentType data).headers "content-type").getD [] =
        trimText (contentType.getD []) := by
      rw [FormPart.headerLookup_contentType]
      cases contentType <;> rfl
    have hmany : ¬config.maxUploadFiles ≤ state.fileCount := not_le.mpr (hcount rfl)
    have hlarge : ¬config.maxUploadFileBytes < data.length := not_lt.mpr (hsize rfl)
    simp only [FormPart.filename, FormPart.name, FormPart.data, if_neg hmany, if_neg hlarge, hwrite, htype]
    refine ⟨_, rfl, hready, rfl, fun parts context files hrest => .file hfresh ?_ (hstored ▸ hrest)⟩
    exact sanitizeClientFilename_isLastComponent (hvalid.filename filename rfl).2

theorem parseParts_records (lossy : PhpString → PhpString) (state : State) (fuel : Nat)
    (hboundary : 13 ∉ boundary) (hparts : ∀ part ∈ parts, part.Valid boundary ∧ part.NoSemicolon)
    (hfiles : state.fileCount + (parts.filter fun part => part.filename.isSome).length ≤ config.maxUploadFiles)
    (hsize : ∀ part ∈ parts, part.filename.isSome → part.data.length ≤ config.maxUploadFileBytes)
    (hready : state.storage.Ready) (hfuel : parts.length < fuel) (epilogue : PhpString) :
    ∃ state', parseParts config lossy ([45, 45] ++ boundary) fuel
        (parts.flatMap (FormPart.encode boundary) ++ ([45, 45] ++ epilogue)) state = (.ok state'.stats, state') ∧
      Records parts state.context state.storage.files state'.context state'.storage.files := by
  obtain ⟨fuel, rfl⟩ := exists_eq_succ_of_ne_zero (ne_of_gt (zero_lt_of_lt hfuel))
  induction parts generalizing state fuel with
  | nil => exact ⟨state, rfl, .nil⟩
  | cons part parts ih =>
    rw [forall_mem_cons] at hparts hsize
    obtain ⟨⟨hvalid, hsemicolon⟩, hparts⟩ := hparts
    have hrest : state.fileCount + part.filename.toList.length +
        (parts.filter fun part => part.filename.isSome).length ≤ config.maxUploadFiles := by
      cases hfilename : part.filename with
      | none => simpa [hfilename] using hfiles
      | some filename => simp [hfilename] at hfiles ⊢; omega
    obtain ⟨next, hrecord, hready, hcount, hrecords⟩ := recordPart_records hvalid hsemicolon lossy hready
      (fun hsome => by
        obtain ⟨filename, hfilename⟩ := isSome_iff_exists.mp hsome
        rw [hfilename, toList_some, length_singleton] at hrest
        omega) hsize.1
    rw [length_cons, succ_lt_succ_iff] at hfuel
    obtain ⟨fuel, rfl⟩ := exists_eq_succ_of_ne_zero (ne_of_gt (zero_lt_of_lt hfuel))
    obtain ⟨state', hrun, htail⟩ := ih next hparts (hcount ▸ hrest) hsize.2 hready fuel hfuel
    refine ⟨state', ?_, hrecords _ _ _ htail⟩
    rw [flatMap_cons, append_assoc, parseParts_encode hboundary hvalid _ _ hrecord]
    exact hrun

theorem parseMultipartIntoContext_records (hboundary : 13 ∉ boundary)
    (hparts : ∀ part ∈ parts, part.Valid boundary ∧ part.NoSemicolon) (hlimits : WithinLimits config parts)
    (hready : storage.Ready) (context : Context) (epilogue : PhpString) :
    ∃ stats context' storage', parseMultipartIntoContext config lossy (encodeForm boundary parts ++ epilogue) boundary
        context storage = (.ok stats, context', storage') ∧
      Records parts context storage.files context' storage'.files := by
  have hbody : encodeForm boundary parts ++ epilogue = ([45, 45] ++ boundary) ++
      (parts.flatMap (FormPart.encode boundary) ++ ([45, 45] ++ epilogue)) := by
    simp [encodeForm]
  have hlength : parts.length < (encodeForm boundary parts ++ epilogue).length + 1 := by
    have hpositive : ∀ part ∈ parts, 1 ≤ (FormPart.encode boundary part).length := by
      intro part _
      rw [FormPart.encode, length_append, crlf, length_cons]
      omega
    have hflat : parts.length ≤ (parts.flatMap (FormPart.encode boundary)).length := by
      rw [length_flatMap, ← length_map (f := fun part => (FormPart.encode boundary part).length)]
      exact length_le_sum_of_one_le _ (forall_mem_map.mpr hpositive)
    rw [hbody, length_append, length_append, length_append]
    omega
  obtain ⟨state', hrun, hrecords⟩ := parseParts_records lossy { context, storage } _ hboundary hparts
    (by rw [zero_add]; exact hlimits.files) hlimits.size hready hlength epilogue
  refine ⟨state'.stats, state'.context, state'.storage, ?_, hrecords⟩
  rw [parseMultipartIntoContext, parseMultipartInner]
  rw [hbody] at hrun ⊢
  have hstart (text : PhpString) : (([45, 45] ++ boundary).isPrefixOf (([45, 45] ++ boundary) ++ text)) = true :=
    isPrefixOf_iff_prefix.mpr (prefix_append _ _)
  simp only [hstart, if_true, hready.writable, drop_left, hrun]

/-- Every disposition is read as it was sent, and the parts are recorded, unless a name or a file name
holds a semicolon. -/
theorem multipart_roundTrip_iff (config : Config) (lossy : PhpString → PhpString) (context : Context)
    (storage : Storage) (boundary epilogue : PhpString) (parts : List FormPart) (hboundary : 13 ∉ boundary)
    (hparts : ∀ part ∈ parts, part.Valid boundary) (hlimits : WithinLimits config parts) (hready : storage.Ready) :
    ((∀ part ∈ parts,
        (parsePartHeaders part.headerText).bind partDisposition = .ok ⟨part.name, part.filename⟩) ∧
      ∃ stats context' storage', parseMultipartIntoContext config lossy (encodeForm boundary parts ++ epilogue) boundary
          context storage = (.ok stats, context', storage') ∧
        Records parts context storage.files context' storage'.files) ↔ ∀ part ∈ parts, part.NoSemicolon := by
  constructor
  · rintro ⟨hdispositions, -⟩ part hpart
    have hdisposition := hdispositions part hpart
    rw [FormPart.parsePartHeaders_headerText (hparts part hpart)] at hdisposition
    change partDisposition part.headers = _ at hdisposition
    exact partDisposition_plain hdisposition
  · intro hsemicolon
    refine ⟨fun part hpart => ?_, parseMultipartIntoContext_records hboundary
      (fun part hpart => ⟨hparts part hpart, hsemicolon part hpart⟩) hlimits hready context epilogue⟩
    rw [FormPart.parsePartHeaders_headerText (hparts part hpart)]
    exact FormPart.partDisposition_headers (hsemicolon part hpart)

/-- A field and a file with quotation marks and `=` in their names. -/
def profileForm : List FormPart :=
  [.field (bytesOf "ti=\"tle") (bytesOf "Hello"),
    .file (bytesOf "avatar") (bytesOf "../me\".png") (some (bytesOf "image/png")) [0, 13, 10, 255]]

theorem FormPart.Valid.of_texts {part : FormPart}
    (htexts : ∀ text ∈ part.name :: part.filename.toList, isUtf8 text ∧ 13 ∉ text ∧ 10 ∉ text ∧ 0 ∉ text)
    (hcontentType : ∀ text ∈ part.contentType, isUtf8 text ∧ 13 ∉ text ∧ 10 ∉ text)
    (hvalue : part.filename = none → isUtf8 part.data)
    (hdata : ¬crlf ++ ([45, 45] ++ boundary) <:+: part.data) : part.Valid boundary := by
  have htext (text : PhpString) (h : text ∈ part.name :: part.filename.toList) : IsHeaderText text ∧ 0 ∉ text := by
    obtain ⟨hutf8, hcr, hlf, hnul⟩ := htexts text h
    exact ⟨⟨hutf8, hcr, hlf⟩, hnul⟩
  exact ⟨htext _ mem_cons_self, fun filename hmem => htext _ (mem_cons_of_mem _ (mem_toList.mpr hmem)),
    fun text hmem => ⟨(hcontentType text hmem).1, (hcontentType text hmem).2⟩, hvalue, hdata⟩

theorem profileForm_valid : ∀ part ∈ profileForm, part.Valid (bytesOf "B") := by
  refine forall_mem_cons.mpr ⟨.of_texts ?_ ?_ ?_ ?_, forall_mem_singleton.mpr (.of_texts ?_ ?_ ?_ ?_)⟩
  all_goals decide +kernel

theorem multipart_profileForm :
    ∃ stats context storage, parseMultipartIntoContext ⟨1, 4⟩ id (encodeForm (bytesOf "B") profileForm ++ []) (bytesOf "B")
        {} ⟨1, [], true⟩ = (.ok stats, context, storage) ∧ Records profileForm {} [] context storage.files :=
  ((multipart_roundTrip_iff ⟨1, 4⟩ id {} ⟨1, [], true⟩ (bytesOf "B") [] profileForm (by decide) profileForm_valid
    ⟨by decide, by decide⟩ ⟨rfl, by decide⟩).mpr (by unfold FormPart.NoSemicolon; decide)).2

/-- A file whose name is `x"; name="y.png`. -/
def disguisedFile : FormPart :=
  .file (bytesOf "avatar") (bytesOf "x\"; name=\"y.png") (some (bytesOf "image/png")) (bytesOf "PNG")

/-- The file name has set the field name, and is itself gone. -/
theorem disguisedFile_renamed : disguisedFile.Valid (bytesOf "B") ∧
      (parsePartHeaders disguisedFile.headerText).bind partDisposition =
        .ok ⟨bytesOf "\\\"y.png\"", some (bytesOf "x\\")⟩ ∧
      (parseMultipartIntoContext ⟨1, 4⟩ id (encodeForm (bytesOf "B") [disguisedFile]) (bytesOf "B") {}
          ⟨1, [], true⟩).2.1.uploadedFiles =
        [{ fieldName := bytesOf "\\\"y.png\"", clientFilename := [], contentType := bytesOf "image/png",
           tempPath := 1, error := 0, size := 3 }] := by
  refine ⟨.of_texts ?_ ?_ ?_ ?_, ?_, ?_⟩
  all_goals decide +kernel

end
end Multipart
end Phrust
