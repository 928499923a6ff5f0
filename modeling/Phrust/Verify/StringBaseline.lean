import Phrust.Verify.NulOutput
import Mathlib.Data.List.GetD

/-!
# Baseline string functions without debug assertions

A baseline wrapper returns what its writer defines when debug assertions are on. When they are off,
it does so only where the writer writes NUL bytes (for `unpack`: what the reserved range holds
already), because the pass that fills the buffer is the argument of the assertion.
-/

namespace Phrust
open List

/-! ## NUL output of the encoders -/

theorem allNul_flatMap {input : List UInt8} :
    AllNul (input.flatMap encode) ↔ ∀ byte ∈ input, AllNul (encode byte) := by
  simp only [AllNul, mem_flatMap, forall_exists_index, and_imp]
  exact ⟨fun h byte hbyte out hout => h out byte hbyte hout,
    fun h out byte hbyte hout => h byte hbyte out hout⟩

/-- An encoder with a visible byte in every code has NUL output on the empty text only. -/
theorem allNul_flatMap_visible {encode : UInt8 → List UInt8} (h : ∀ byte, ¬AllNul (encode byte))
    (input : List UInt8) : AllNul (input.flatMap encode) ↔ input = [] := by
  rw [allNul_flatMap, eq_nil_iff_forall_not_mem]
  exact ⟨fun hall byte hbyte => h byte (hall byte hbyte), fun hnone byte hbyte =>
    absurd hbyte (hnone byte)⟩

theorem not_allNul_hexPair (byte : UInt8) : ¬AllNul (hexPairOf hexLower byte) := by
  rw [hexPairOf, allNul_cons]
  rintro ⟨hzero, -⟩
  have hlt : (byte >>> 4).toNat < hexLower.length := by
    rw [UInt8.toNat_shiftRight]
    have := byte.toNat_lt
    simp [Nat.shiftRight_eq_div_pow, hexLower]
    omega
  rw [getD_eq_getElem _ _ hlt] at hzero
  have hdigit : 0 ∉ hexLower := by decide
  exact hdigit (hzero ▸ getElem_mem hlt)

theorem not_allNul_urlEncodeByte (raw : Bool) (byte : UInt8) : ¬AllNul (urlEncodeByte raw byte) := by
  rw [urlEncodeByte]
  split
  · next h =>
    rw [allNul_cons]
    rintro ⟨rfl, -⟩
    cases raw <;> exact absurd h (by decide)
  · split <;> exact fun h => absurd (allNul_cons.mp h).1 (by decide)

theorem allNul_quotemetaEncode (byte : UInt8) : AllNul (quotemetaEncode byte) ↔ byte = 0 := by
  rw [quotemetaEncode]
  split
  · next h =>
    rw [allNul_cons]
    refine iff_of_false (fun h => absurd h.1 (by decide)) ?_
    rintro rfl
    exact absurd h (by decide)
  · simp

theorem allNul_addcslashesEncode (escaped : UInt8 → Bool) (byte : UInt8) :
    AllNul (addcslashesEncode escaped byte) ↔ byte = 0 ∧ escaped 0 = false := by
  rw [addcslashesEncode]
  cases hescaped : escaped byte with
  | false =>
    simp only [Bool.not_false, if_true, allNul_cons, allNul_nil, and_true]
    exact ⟨fun h => ⟨h, h ▸ hescaped⟩, And.left⟩
  | true =>
    have hzero : ¬(byte = 0 ∧ escaped 0 = false) := by
      rintro ⟨rfl, h⟩
      exact Bool.noConfusion (hescaped.symm.trans h)
    simp only [hzero, iff_false, Bool.not_true, Bool.false_eq_true, if_false]
    split
    · exact fun h => absurd (allNul_cons.mp h).1 (by decide)
    · split <;> exact fun h => absurd (allNul_cons.mp h).1 (by decide)

theorem toAsciiUppercase_eq_zero (byte : UInt8) : toAsciiUppercase byte = 0 ↔ byte = 0 := by
  rw [toAsciiUppercase]
  grind

theorem allNul_ucwordsBytes (delimiters : PhpString) (atWordStart : Bool) (input : PhpString) :
    AllNul (ucwordsBytes delimiters atWordStart input) ↔ AllNul input := by
  induction input generalizing atWordStart with
  | nil => rfl
  | cons byte input ih =>
    rw [ucwordsBytes, allNul_cons, allNul_cons, ih]
    split
    · rw [toAsciiUppercase_eq_zero]
    · rfl

/-- The pad string is repeated, so its bytes in use are those at the start. -/
theorem allNul_padBytes (hpad : pad ≠ []) (count : Nat) :
    AllNul (padBytes pad count) ↔ AllNul (pad.take count) := by
  have hlen : 0 < pad.length := length_pos_iff.mpr hpad
  simp only [AllNul, padBytes, mem_map, mem_range, forall_exists_index, and_imp, forall_apply_eq_imp_iff₂]
  constructor
  · intro h byte hbyte
    obtain ⟨index, hindex, rfl⟩ := mem_iff_getElem.mp hbyte
    rw [length_take] at hindex
    have := h index (by omega)
    rw [Nat.mod_eq_of_lt (by omega), getD_eq_getElem _ _ (by omega)] at this
    rw [getElem_take, this]
  · intro h index hindex
    have hmod := Nat.mod_lt index hlen
    have hle := Nat.mod_le index pad.length
    rw [getD_eq_getElem _ _ hmod]
    exact h _ (mem_take_iff_getElem.mpr ⟨index % pad.length, by omega, rfl⟩)

/-- How many bytes of the pad string are in use. -/
def strPadUsed (input : PhpString) (target : Nat) (padType : Int) : Nat :=
  let (left, right) := strPadSides (target - input.length) padType
  max left right

theorem allNul_take_max {bytes : List UInt8} (m n : Nat) :
    AllNul (bytes.take (max m n)) ↔ AllNul (bytes.take m) ∧ AllNul (bytes.take n) := by
  constructor
  · exact fun h => ⟨fun byte hbyte => h byte (take_subset_take_left _ (by omega) hbyte),
      fun byte hbyte => h byte (take_subset_take_left _ (by omega) hbyte)⟩
  rintro ⟨hm, hn⟩
  rcases Nat.le_total m n with h | h
  · rwa [Nat.max_eq_right h]
  · rwa [Nat.max_eq_left h]

theorem allNul_strPadBytes (input : PhpString) (target : Nat) (padType : Int)
    (hpad : pad ≠ []) : AllNul (strPadBytes input target pad padType) ↔
      AllNul input ∧ AllNul (pad.take (strPadUsed input target padType)) := by
  rw [strPadBytes, allNul_append, allNul_append, allNul_padBytes hpad, allNul_padBytes hpad,
    strPadUsed, allNul_take_max]
  tauto

theorem allNul_digestBytes (raw : Bool) (h : digest ≠ []) :
    AllNul (digestBytes raw digest) ↔ raw = true ∧ AllNul digest := by
  cases raw with
  | true => exact (and_iff_right rfl).symm
  | false =>
    rw [digestBytes, if_neg (by simp), allNul_flatMap_visible not_allNul_hexPair]
    exact iff_of_false h (fun h => Bool.noConfusion h.1)

theorem not_allNul_uuencodeBytes (input : PhpString) : ¬AllNul (uuencodeBytes input) := by
  rw [uuencodeBytes, allNul_append]
  exact fun h => absurd (allNul_cons.mp h.2).1 (by decide)

/-! ## NUL output of HTML escaping -/

theorem validHtmlEntityLen_pos (h : validHtmlEntityLen bytes flags = some n) : 0 < n := by
  rw [validHtmlEntityLen, Option.bind_eq_bind, Option.bind_eq_some_iff] at h
  obtain ⟨semicolon, -, h⟩ := h
  dsimp only at h
  split_ifs at h
  cases h
  exact Nat.succ_pos semicolon

theorem html4EntityAt_head (h : html4EntityAt bytes = some (entity, size)) :
    ∃ name, entity = entityText name := by
  rw [html4EntityAt] at h
  split_ifs at h
  obtain ⟨⟨character, width⟩, -, h⟩ := Option.bind_eq_some_iff.mp h
  dsimp only at h
  split_ifs at h
  obtain ⟨found, hfound, h⟩ := Option.bind_eq_some_iff.mp h
  cases h
  rw [html4NamedEntity, Option.map_eq_some_iff] at hfound
  obtain ⟨entry, -, rfl⟩ := hfound
  exact ⟨_, rfl⟩

theorem not_allNul_entityText (name : PhpString) : ¬AllNul (entityText name) :=
  fun h => absurd (allNul_cons.mp h).1 (by decide)

/-- An iteration keeps a byte that is no special character, or it writes visible bytes. -/
theorem htmlEscapeIteration_cases (flags : BitVec 64) (doubleEncode allEntities : Bool)
    (byte : UInt8) (rest : List UInt8) :
    htmlEscapeIteration flags doubleEncode allEntities byte rest = (some [byte], 0) ∨
      (byte ≠ 0 ∧ ∀ encoded, (htmlEscapeIteration flags doubleEncode allEntities byte rest).1 =
        some encoded → ¬AllNul encoded) := by
  rw [htmlEscapeIteration]
  by_cases hamp : byte = 38
  · subst hamp
    refine .inr ⟨by decide, ?_⟩
    rw [if_pos rfl]
    cases hlen : if doubleEncode then none else validHtmlEntityLen (38 :: rest) flags with
    | none =>
      rintro encoded ⟨⟩
      exact not_allNul_entityText _
    | some length =>
      rintro encoded ⟨⟩
      split_ifs at hlen
      obtain ⟨length, rfl⟩ := Nat.exists_eq_add_of_lt (validHtmlEntityLen_pos hlen)
      exact fun h => absurd (allNul_cons.mp h).1 (by decide)
  rw [if_neg hamp]
  by_cases hlt : byte = 60
  · subst hlt
    refine .inr ⟨by decide, ?_⟩
    rintro encoded ⟨⟩
    exact not_allNul_entityText _
  rw [if_neg hlt]
  by_cases hgt : byte = 62
  · subst hgt
    refine .inr ⟨by decide, ?_⟩
    rintro encoded ⟨⟩
    exact not_allNul_entityText _
  rw [if_neg hgt]
  by_cases hquot : byte = 34 ∧ flags &&& 2 ≠ 0
  · rw [if_pos hquot]
    refine .inr ⟨by rw [hquot.1]; decide, ?_⟩
    rintro encoded ⟨⟩
    exact not_allNul_entityText _
  rw [if_neg hquot]
  by_cases hapos : byte = 39 ∧ flags &&& 1 ≠ 0
  · rw [if_pos hapos]
    refine .inr ⟨by rw [hapos.1]; decide, ?_⟩
    rintro encoded ⟨⟩
    cases allEntities with
    | false => exact fun h => absurd (allNul_cons.mp h).1 (by decide)
    | true => cases htmlDocumentType flags <;> exact fun h => absurd (allNul_cons.mp h).1 (by decide)
  rw [if_neg hapos]
  cases hentity : if allEntities then html4EntityAt (byte :: rest) else none with
  | none => exact .inl rfl
  | some found =>
    split_ifs at hentity
    refine .inr ⟨?_, ?_⟩
    · -- a NUL byte is a character of one byte
      rintro rfl
      rw [html4EntityAt] at hentity
      split_ifs at hentity
      cases hentity
    · rintro encoded ⟨⟩
      obtain ⟨name, hname⟩ := html4EntityAt_head hentity
      rw [hname]
      exact not_allNul_entityText name

theorem allNul_htmlEscapeBytes (bytes : PhpString) (flags : BitVec 64) (doubleEncode allEntities : Bool) :
    AllNul (htmlEscapeBytes bytes flags doubleEncode allEntities) ↔ AllNul bytes := by
  rw [htmlEscapeBytes]
  fun_induction scan (htmlEscapeIteration flags doubleEncode allEntities) bytes with
  | case1 => rfl
  | case2 byte rest ih =>
    rw [flatten_append, allNul_append, allNul_cons, ih]
    obtain ⟨encoded, hencoded⟩ := Option.isSome_iff_exists.mp
      (htmlEscapeIteration_isSome flags doubleEncode allEntities byte rest)
    rcases htmlEscapeIteration_cases flags doubleEncode allEntities byte rest with hkeep | ⟨hne, hvisible⟩
    · simp [hkeep]
    · have hnot := hvisible encoded hencoded
      simp [hencoded, hnot, hne]

/-! ## Calls through the baseline -/

/-- A call of a baseline wrapper. The hexadecimal values of `unpack` are written to a range of the
string arena, which holds some bytes already. -/
inductive BaselineCall where
  | urlEncode (input : PhpString) (raw : Bool)
  | urlDecode (input : PhpString) (raw : Bool)
  | base64Encode (input : PhpString)
  | bin2hex (input : PhpString)
  | md5 (input : PhpString) (raw : Bool)
  | sha1 (input : PhpString) (raw : Bool)
  | htmlEscape (bytes : PhpString) (flags : BitVec 64) (doubleEncode : Bool)
  | htmlentitiesEscape (bytes : PhpString) (flags : BitVec 64) (doubleEncode : Bool)
  | ucwords (input : PhpString) (delimiters : Option PhpString)
  | strPad (input : PhpString) (target : Nat) (pad : PhpString) (padType : Int)
  | quotemeta (input : PhpString)
  | quotedPrintableDecode (bytes : PhpString)
  | addcslashes (input charlist : PhpString)
  | stripslashes (input : PhpString)
  | stripcslashes (input : PhpString)
  | convertUuencode (input : PhpString)
  | unpackHex (value : UnpackHex) (reserved : { bytes : List UInt8 // bytes.length = value.count })

namespace BaselineCall
variable (crates : Crates)

/-- The native writer behind the call. -/
def writer : BaselineCall → Writer
  | urlEncode input raw => urlEncodeWriter input raw
  | urlDecode input raw => urlDecodeWriter input raw
  | base64Encode input => base64EncodeWriter crates input
  | bin2hex input => bin2hexWriter input
  | md5 input raw => md5Writer crates input raw
  | sha1 input raw => sha1Writer crates input raw
  | htmlEscape bytes flags doubleEncode => htmlEscapeWriter bytes flags doubleEncode false
  | htmlentitiesEscape bytes flags doubleEncode => htmlEscapeWriter bytes flags doubleEncode true
  | ucwords input delimiters => ucwordsWriter input delimiters
  | strPad input target pad padType => strPadWriter input target pad padType
  | quotemeta input => quotemetaWriter input
  | quotedPrintableDecode bytes => quotedPrintableDecodeWriter bytes
  | addcslashes input charlist => addcslashesWriter input charlist
  | stripslashes input => stripslashesWriter input
  | stripcslashes input => stripcslashesWriter input
  | convertUuencode input => convertUuencodeWriter input
  | unpackHex value _ => unpackHexWriter value

/-- The call through the baseline; `none` is a failed assertion or a panic. -/
def run (debugAssertions : Bool) : BaselineCall → Option PhpString
  | urlEncode input raw => baselineUrlEncode debugAssertions input raw
  | urlDecode input raw => baselineUrlDecode debugAssertions input raw
  | base64Encode input => baselineBase64Encode crates debugAssertions input
  | bin2hex input => baselineBin2hex debugAssertions input
  | md5 input raw => baselineMd5 crates debugAssertions input raw
  | sha1 input raw => baselineSha1 crates debugAssertions input raw
  | htmlEscape bytes flags doubleEncode => htmlEscapeWithOptions debugAssertions bytes flags doubleEncode
  | htmlentitiesEscape bytes flags doubleEncode =>
    htmlentitiesEscapeWithOptions debugAssertions bytes flags doubleEncode
  | ucwords input delimiters => baselineUcwords debugAssertions input delimiters
  | strPad input target pad padType => baselineStrPad debugAssertions input target pad padType
  | quotemeta input => baselineQuotemeta debugAssertions input
  | quotedPrintableDecode bytes => baselineQuotedPrintableDecode debugAssertions bytes
  | addcslashes input charlist => baselineAddcslashes debugAssertions input charlist
  | stripslashes input => baselineStripslashes debugAssertions input
  | stripcslashes input => baselineStripcslashes debugAssertions input
  | convertUuencode input => baselineConvertUuencode debugAssertions input
  | unpackHex value reserved => exactNativeUnpackHex debugAssertions value reserved

/-- What the writer defines, when its length does not overflow. -/
def bytes : BaselineCall → PhpString
  | urlEncode input raw => input.flatMap (urlEncodeByte raw)
  | urlDecode input raw => scan (urlDecodeIteration raw) input
  | base64Encode input => crates.base64Encode input
  | bin2hex input => input.flatMap (hexPairOf hexLower)
  | md5 input raw => digestBytes raw (crates.md5 input)
  | sha1 input raw => digestBytes raw (crates.sha1 input)
  | htmlEscape bytes flags doubleEncode => htmlEscapeBytes bytes flags doubleEncode false
  | htmlentitiesEscape bytes flags doubleEncode => htmlEscapeBytes bytes flags doubleEncode true
  | ucwords input delimiters =>
    ucwordsBytes (delimiters.getD ucwordsDefaultDelimiters) true input
  | strPad input target pad padType => strPadBytes input target pad padType
  | quotemeta input => input.flatMap quotemetaEncode
  | quotedPrintableDecode bytes => scan quotedPrintableIteration bytes
  | addcslashes input charlist => input.flatMap (addcslashesEncode (addcslashesCharlist charlist))
  | stripslashes input => scan stripslashesIteration input
  | stripcslashes input => scan stripcslashesIteration input
  | convertUuencode input => uuencodeBytes input
  | unpackHex value _ => unpackHexBytes value

section
variable (call : BaselineCall)

theorem writer_defines (h : (call.writer crates).outputLength = some n) :
    (call.writer crates).Defines (call.bytes crates) := by
  cases call with
  | urlEncode input raw => exact urlEncodeWriter_defines h
  | urlDecode input | stripslashes input | stripcslashes input => exact visitedWriter_defines _ input
  | base64Encode input => exact base64EncodeWriter_defines crates h
  | bin2hex input => exact bin2hexWriter_defines h
  | md5 input raw => exact md5Writer_defines crates input raw
  | sha1 input raw => exact sha1Writer_defines crates input raw
  | htmlEscape | htmlentitiesEscape => exact htmlEscapeWriter_defines h
  | ucwords input delimiters => exact ucwordsWriter_defines input delimiters
  | strPad input target pad padType =>
    refine strPadWriter_defines input target padType ?_
    rintro rfl
    cases h
  | quotemeta input => exact quotemetaWriter_defines h
  | quotedPrintableDecode bytes => exact visitedWriter_defines _ bytes
  | addcslashes input charlist => exact addcslashesWriter_defines h
  | convertUuencode input => exact convertUuencodeWriter_defines h
  | unpackHex value reserved => exact unpackHexWriter_defines value

/-- With debug assertions no call fails; it returns what its writer defines, or nothing if the writer
announces no length. -/
theorem run_debug : call.run crates true =
    some (if (call.writer crates).outputLength = none then [] else call.bytes crates) := by
  cases hlength : (call.writer crates).outputLength with
  | none =>
    rw [if_pos rfl]
    cases call with
    | unpackHex => cases hlength
    | _ => exact Writer.baseline_overflow true hlength
  | some n =>
    have h := call.writer_defines crates hlength
    cases call with
    | unpackHex value reserved => exact h.fill_debug (reserved.2.trans (Option.some.inj h.length))
    | _ => exact h.baseline_debug

/-- The inputs on which the writer leaves the buffer as it is handed over: all NUL, or for `unpack`
what the range holds. -/
def LeavesBuffer : BaselineCall → Prop
  | urlEncode input _ | base64Encode input | bin2hex input => input = []
  | urlDecode input _ => Spelled urlNulTokens [] input
  | md5 input raw => raw = true ∧ AllNul (crates.md5 input)
  | sha1 input raw => raw = true ∧ AllNul (crates.sha1 input)
  | htmlEscape bytes _ _ | htmlentitiesEscape bytes _ _ => AllNul bytes
  | ucwords input _ | quotemeta input => AllNul input
  | strPad input target pad padType =>
    AllNul input ∧ AllNul (pad.take (strPadUsed input target padType))
  | quotedPrintableDecode bytes => Spelled quotedPrintableNulTokens [] bytes
  | addcslashes input charlist => ∀ byte ∈ input, byte = 0 ∧ addcslashesCharlist charlist 0 = false
  | stripslashes input => Spelled stripslashesNulTokens [[92]] input
  | stripcslashes input => Spelled stripcslashesNulTokens [] input
  | convertUuencode _ => False
  | unpackHex value reserved => reserved = unpackHexBytes value

theorem base64Encode_allNul (input : PhpString) : AllNul (crates.base64Encode input) ↔ input = [] := by
  constructor
  · intro h
    have hempty : crates.base64Encode input = [] := by
      rw [eq_nil_iff_forall_not_mem]
      intro byte hbyte
      have hprintable := (crates.base64_printable input byte hbyte).1
      rw [h byte hbyte] at hprintable
      exact absurd hprintable (by decide)
    have hlen := crates.base64_groups input
    rw [hempty, length_nil] at hlen
    exact length_eq_zero_iff.mp (by omega)
  · rintro rfl
    rw [length_eq_zero_iff.mp (crates.base64_groups [])]
    exact allNul_nil

/-- The calls whose buffer starts zeroed. -/
theorem bytes_allNul_iff (h : (call.writer crates).outputLength = some n)
    (hzeroed : ∀ value reserved, call ≠ unpackHex value reserved) :
    AllNul (call.bytes crates) ↔ call.LeavesBuffer crates := by
  cases call with
  | urlEncode input raw => exact allNul_flatMap_visible (not_allNul_urlEncodeByte raw) input
  | urlDecode input raw => exact (readsNul_urlDecode raw).scan_iff input
  | base64Encode input => exact base64Encode_allNul crates input
  | bin2hex input => exact allNul_flatMap_visible not_allNul_hexPair input
  | md5 input raw =>
    exact allNul_digestBytes raw (ne_nil_of_length_eq_add_one (crates.md5 input).2)
  | sha1 input raw =>
    exact allNul_digestBytes raw (ne_nil_of_length_eq_add_one (crates.sha1 input).2)
  | htmlEscape | htmlentitiesEscape => exact allNul_htmlEscapeBytes ..
  | ucwords input delimiters => exact allNul_ucwordsBytes ..
  | strPad input target pad padType =>
    refine allNul_strPadBytes input target padType ?_
    rintro rfl
    cases h
  | quotemeta input => exact allNul_flatMap.trans (forall₂_congr fun byte _ => allNul_quotemetaEncode byte)
  | quotedPrintableDecode bytes => exact readsNul_quotedPrintable.scan_iff bytes
  | addcslashes input charlist =>
    exact allNul_flatMap.trans (forall₂_congr fun byte _ => allNul_addcslashesEncode _ byte)
  | stripslashes input => exact readsNul_stripslashes.scan_iff input
  | stripcslashes input => exact readsNul_stripcslashes.scan_iff input
  | convertUuencode input => exact iff_of_false (not_allNul_uuencodeBytes input) id
  | unpackHex value reserved => exact absurd rfl (hzeroed value reserved)

theorem run_release_iff (h : (call.writer crates).outputLength = some n) :
    call.run crates false = some (call.bytes crates) ↔ call.LeavesBuffer crates := by
  have hdefines := call.writer_defines crates h
  cases call with
  | unpackHex value reserved => exact Option.some_inj
  | _ => exact hdefines.baseline_release_iff.trans (bytes_allNul_iff crates _ h (by simp))

/-- Without debug assertions a call returns what its writer defines exactly when the writer would
have left the buffer as it was. -/
theorem release_returns_defined_iff :
    (∀ text, (call.writer crates).Defines text → call.run crates false = some text) ↔
      (call.writer crates).outputLength = none ∨ call.LeavesBuffer crates := by
  cases hlength : (call.writer crates).outputLength with
  | none =>
    refine iff_of_true (fun text h => ?_) (.inl rfl)
    cases hlength.symm.trans h.length
  | some n =>
    have hdefines := call.writer_defines crates hlength
    rw [← run_release_iff crates call hlength]
    constructor
    · exact fun h => .inr (h _ hdefines)
    · rintro (h | h) text htext
      · cases h
      · rwa [← hdefines.unique htext]

end

/-- Crates with constant digests and the text `AAA...` -/
def zeroCrates : Crates where
  md5 _ := ⟨List.replicate 16 0, rfl⟩
  sha1 _ := ⟨List.replicate 20 0, rfl⟩
  base64EncodedLen n := some ((n + 2) / 3 * 4)
  base64Encode input := List.replicate ((input.length + 2) / 3 * 4) 65
  base64_length input n h := by rw [length_replicate]; exact Option.some.inj h
  base64_groups input := length_replicate
  base64_printable input byte h := by rw [eq_of_mem_replicate h]; decide

/-- `urlencode("a")` is one NUL byte. -/
theorem not_release_returns_defined : ¬∀ (crates : Crates) (call : BaselineCall) (text : PhpString),
    (call.writer crates).Defines text → call.run crates false = some text := by
  intro h
  have hrun := h zeroCrates (urlEncode [97] false) [97] (urlEncodeWriter_defines rfl)
  exact absurd hrun (by decide)

/-! ## Decoding what was encoded -/

theorem decodeHexPair_hexPairOf (byte : UInt8) (rest : PhpString) :
    decodeHexPair (hexPairOf hexUpper byte ++ rest) = some byte := by
  have hpair : ∀ n < 256, decodeHexPair (hexPairOf hexUpper (UInt8.ofNat n)) = some (UInt8.ofNat n) := by
    decide +kernel
  have hbyte := hpair byte.toNat byte.toNat_lt
  rwa [UInt8.ofNat_toNat] at hbyte

theorem scan_urlEncode (raw : Bool) (input : PhpString) :
    scan (urlDecodeIteration raw) (input.flatMap (urlEncodeByte raw)) = input := by
  refine scan_flatMap (fun byte rest => ?_) input
  rw [urlEncodeByte]
  split
  · next hplain =>
    have hkept : byte ≠ 37 ∧ byte ≠ 43 := by
      constructor <;> rintro rfl <;> cases raw <;> cases hplain
    simp [scan, urlDecodeIteration, hkept]
  split
  · simp_all [scan, urlDecodeIteration]
  · rw [cons_append, scan, urlDecodeIteration, if_pos rfl, decodeHexPair_hexPairOf]
    rfl

/-- URL decoding takes back URL encoding. -/
theorem urlDecode_urlEncode (h : (urlEncodeWriter input raw).outputLength = some n) :
    ∃ text, (urlEncodeWriter input raw).Defines text ∧ (urlDecodeWriter text raw).Defines input := by
  refine ⟨_, urlEncodeWriter_defines h, ?_⟩
  have hdecode := visitedWriter_defines (urlDecodeIteration raw) (input.flatMap (urlEncodeByte raw))
  rwa [scan_urlEncode] at hdecode

theorem urlDecode_urlEncode_space : (urlEncodeWriter [32, 43] false).outputLength = some 4 ∧
    ∃ text, (urlEncodeWriter [32, 43] false).Defines text ∧ (urlDecodeWriter text false).Defines [32, 43] :=
  ⟨rfl, urlDecode_urlEncode rfl⟩

end BaselineCall
end Phrust
