import Phrust.Runtime.HtmlEscape

/-!
# What the string writers define

For each two-pass builtin the announced length is the number of bytes its writer puts into the
buffer, and the writer never runs past the end: `Writer.Defines` with the bytes as a plain function
of the arguments.
-/

namespace Phrust
open List Cursor Option Nat

theorem checkedAdd_eq_some (h : checkedAdd a b = some n) : n = a + b := by
  rw [checkedAdd, ite_none_right_eq_some] at h
  exact (Option.some.inj h.2).symm

theorem checkedMul_eq_some (h : checkedMul a b = some n) : n = a * b := by
  rw [checkedMul, ite_none_right_eq_some] at h
  exact (Option.some.inj h.2).symm

theorem Writer.Defines.sized {length : Option Nat} {pass : List UInt8 → Cursor → Option (Bool × List UInt8)}
    (hlength : length = some bytes.length) (hpass : ∀ output : List UInt8, output.length = bytes.length →
      pass output ⟨output, 0⟩ = some (true, bytes)) :
    Writer.Defines ⟨length, fun output => intoSized length output (pass output)⟩ bytes where
  length := hlength
  into output h := by
    show intoSized length output (pass output) = _
    rw [intoSized, if_pos (by rw [hlength, h])]
    exact hpass output h

/-! ## Scanning decoders -/

theorem visitedWriter_defines (iteration : UInt8 → List UInt8 → Option UInt8 × Nat)
    (input : PhpString) : (visitedWriter iteration input).Defines (scan iteration input) where
  length := by rw [visitedWriter, visit_length]; rfl
  into output h := by
    show intoVisited iteration input output = _
    rw [intoVisited, intoSized, visit_length, if_pos (by rw [h]; rfl), visit_eq]
    have hput := putSlice_full h
    rw [putSlice] at hput
    simp [hput, h]

/-! ## `ucwords` and `str_pad` -/

def ucwordsBytes (delimiters : PhpString) (atWordStart : Bool) : PhpString → PhpString
  | [] => []
  | byte :: input =>
    (if !delimiters.contains byte && atWordStart then toAsciiUppercase byte else byte) ::
      ucwordsBytes delimiters (delimiters.contains byte) input

theorem ucwordsLoop_eq (delimiters : PhpString) (atWordStart : Bool) {input output : List UInt8}
    (h : output.length = input.length) :
    ucwordsLoop delimiters atWordStart input output = ucwordsBytes delimiters atWordStart input := by
  induction input generalizing output atWordStart with
  | nil => rw [length_eq_zero_iff.mp h]; rfl
  | cons byte input ih =>
    obtain ⟨slot, output, rfl⟩ := exists_cons_of_length_eq_add_one h
    have htail := Nat.succ.inj h
    rw [ucwordsLoop, ucwordsBytes, ih _ htail, ih _ htail]
    cases delimiters.contains byte <;> cases atWordStart <;> rfl

theorem length_ucwordsBytes (delimiters : PhpString) (atWordStart : Bool) (input : PhpString) :
    (ucwordsBytes delimiters atWordStart input).length = input.length := by
  induction input generalizing atWordStart with
  | nil => rfl
  | cons byte input ih => rw [ucwordsBytes, length_cons, length_cons, ih]

section
variable (input : PhpString)

theorem ucwordsWriter_defines (delimiters : Option PhpString) :
    (ucwordsWriter input delimiters).Defines
      (ucwordsBytes (delimiters.getD ucwordsDefaultDelimiters) true input) where
  length := by rw [length_ucwordsBytes]; rfl
  into output h := by
    rw [length_ucwordsBytes] at h
    show nativeUcwordsInto input delimiters output = _
    rw [nativeUcwordsInto, if_neg (by simpa using h), ucwordsLoop_eq _ _ h]

def strPadBytes (target : Nat) (pad : PhpString) (padType : Int) : PhpString :=
  padBytes pad (strPadSides (target - input.length) padType).1 ++ input ++
    padBytes pad (strPadSides (target - input.length) padType).2

theorem strPadSides_add (needed : Nat) (padType : Int) :
    (strPadSides needed padType).1 + (strPadSides needed padType).2 = needed := by
  rw [strPadSides]
  split
  · rfl
  split
  · show needed / 2 + (needed - needed / 2) = needed
    omega
  · exact Nat.zero_add needed

theorem length_strPadBytes (target : Nat) (pad : PhpString) (padType : Int) :
    (strPadBytes input target pad padType).length = max input.length target := by
  have := strPadSides_add (target - input.length) padType
  simp only [strPadBytes, padBytes, length_append, length_map, length_range]
  omega

theorem strPadWriter_defines (target : Nat) (padType : Int) (hpad : pad ≠ []) :
    (strPadWriter input target pad padType).Defines (strPadBytes input target pad padType) := by
  have hlength : nativeStrPadOutputLength input target pad =
      some (strPadBytes input target pad padType).length := by
    rw [length_strPadBytes, nativeStrPadOutputLength, if_neg (by simpa using hpad)]
  refine .sized hlength fun output h => ?_
  have hfull := putSlice_full h
  by_cases hlong : input.length ≥ target
  · have hbytes : strPadBytes input target pad padType = input := by
      rw [strPadBytes, Nat.sub_eq_zero_of_le hlong]
      simp [strPadSides, padBytes]
    rw [hbytes] at hfull ⊢
    simp [hlong, hfull]
  · rw [strPadBytes, putSlice_append, putSlice_append, bind_eq_some_iff] at hfull
    obtain ⟨filled, hleft, hright⟩ := hfull
    obtain ⟨padded, hleft, hmiddle⟩ := bind_eq_some_iff.mp hleft
    simp only [hlong, if_false, hleft, hmiddle, hright, bind_eq_bind, bind_some, Option.pure_def]
    rfl

end

/-! ## Encoders that work byte by byte -/

theorem putSlice_singleton (cursor : Cursor) (byte : UInt8) : cursor.putSlice [byte] = cursor.put byte := by
  rw [putSlice, foldlM_cons]
  cases cursor.put byte <;> rfl

theorem putSlice_pair (cursor : Cursor) (a b : UInt8) :
    cursor.putSlice [a, b] = (cursor.put a).bind (·.put b) := by
  rw [putSlice, foldlM_cons]
  exact congrArg _ (funext fun cursor => putSlice_singleton cursor b)

theorem Writer.Defines.encoded {length : Option Nat} {input : List α}
    (hlength : length = some (input.flatMap encode).length)
    (hstep : ∀ cursor a, step cursor a = cursor.putSlice (encode a)) :
    Writer.Defines ⟨length, fun output => intoSized length output fun cursor => do
      let cursor ← input.foldlM step cursor return (true, cursor.buffer)⟩ (input.flatMap encode) := by
  refine .sized hlength fun output h => ?_
  rw [foldlM_putSlice encode hstep, putSlice_full h]
  rfl

theorem length_flatMap_count (p : UInt8 → Bool) {encode : UInt8 → List UInt8} (k : Nat)
    (h : ∀ byte, (encode byte).length = if p byte then 1 + k else 1) (input : List UInt8) :
    (input.flatMap encode).length = input.length + input.countP p * k := by
  induction input with
  | nil => simp
  | cons byte input ih =>
    rw [flatMap_cons, length_append, ih, h, length_cons, countP_cons]
    split
    · rw [Nat.add_mul, Nat.one_mul]
      omega
    · rw [Nat.add_zero (List.countP p input)]
      omega

def quotemetaEncode (byte : UInt8) : List UInt8 := if isQuotemetaByte byte then [92, byte] else [byte]

variable {input : PhpString}

theorem quotemetaWriter_defines (h : nativeQuotemetaOutputLength input = some n) :
    (quotemetaWriter input).Defines (input.flatMap quotemetaEncode) := by
  refine .encoded ?_ fun cursor byte => ?_
  · rw [length_flatMap_count isQuotemetaByte 1 (fun byte => ?_), Nat.mul_one, h, checkedAdd_eq_some h]
    rw [quotemetaEncode]
    split <;> rfl
  rw [quotemetaEncode]
  split
  · exact (putSlice_pair ..).symm
  · exact (putSlice_singleton ..).symm

def urlEncodeByte (raw : Bool) (byte : UInt8) : List UInt8 :=
  if urlByteIsUnescaped byte raw then [byte]
  else if !raw && byte == 32 then [43]
  else 37 :: hexPairOf hexUpper byte

theorem urlEncodeWriter_defines (h : nativeUrlEncodeOutputLength input raw = some n) :
    (urlEncodeWriter input raw).Defines (input.flatMap (urlEncodeByte raw)) := by
  refine .encoded ?_ fun cursor byte => ?_
  · rw [length_flatMap_count (fun byte => !urlByteIsUnescaped byte raw && (raw || byte != 32)) 2
      (fun byte => ?_), h]
    · rw [nativeUrlEncodeOutputLength, bind_eq_bind, bind_eq_some_iff] at h
      obtain ⟨escaped, hescaped, hadd⟩ := h
      rw [checkedAdd_eq_some hadd, checkedMul_eq_some hescaped]
    · rw [urlEncodeByte]
      cases urlByteIsUnescaped byte raw <;> cases raw <;> cases h : byte == 32 <;> simp [bne, h, hexPairOf]
  · rw [urlEncodeByte]
    split
    · rw [putSlice_singleton]
    · split
      · rw [putSlice_singleton]
      · rfl

def addcslashesEncode (escaped : UInt8 → Bool) (byte : UInt8) : List UInt8 :=
  if !escaped byte then [byte]
  else
    match addcslashesNamed byte with
    | some letter => [92, letter]
    | none =>
      if 0x20 ≤ byte ∧ byte ≤ 0x7e then [92, byte]
      else [92, (48 : UInt8) + ((byte >>> 6) &&& 7), (48 : UInt8) + ((byte >>> 3) &&& 7),
        (48 : UInt8) + (byte &&& 7)]

theorem addcslashesNamed_eq_none_iff : addcslashesNamed byte = none ↔
    ¬(byte = 10 ∨ byte = 13 ∨ byte = 9 ∨ byte = 11 ∨ byte = 12 ∨ byte = 7 ∨ byte = 8) := by
  rw [addcslashesNamed]
  split_ifs <;> simp_all

theorem length_addcslashesEncode (escaped : UInt8 → Bool) (byte : UInt8) :
    (addcslashesEncode escaped byte).length = addcslashesEscapedLength escaped byte := by
  rw [addcslashesEncode, addcslashesEscapedLength]
  cases escaped byte with
  | false => rfl
  | true =>
    simp only [Bool.not_true, Bool.false_eq_true, if_false]
    cases hnamed : addcslashesNamed byte with
    | none =>
      have hother := addcslashesNamed_eq_none_iff.mp hnamed
      by_cases hprintable : 0x20 ≤ byte ∧ byte ≤ 0x7e
      · rw [if_pos (by tauto)]
        simp [hprintable]
      have hlong : ¬(byte = 10 ∨ byte = 13 ∨ byte = 9 ∨ byte = 11 ∨ byte = 12 ∨ byte = 7 ∨
          byte = 8 ∨ (0x20 ≤ byte ∧ byte ≤ 0x7e)) := by tauto
      rw [if_neg hlong, if_neg hprintable]
      rfl
    | some letter =>
      have hnamed' := addcslashesNamed_eq_none_iff.not.mp (by rw [hnamed]; simp)
      have hshort : byte = 10 ∨ byte = 13 ∨ byte = 9 ∨ byte = 11 ∨ byte = 12 ∨ byte = 7 ∨
          byte = 8 ∨ (0x20 ≤ byte ∧ byte ≤ 0x7e) := by tauto
      rw [if_pos hshort]
      rfl

theorem foldlM_checkedAdd {size : α → Nat} {input : List α} {start n : Nat}
    (h : input.foldlM (fun length a => checkedAdd length (size a)) start = some n) :
    n = start + (input.map size).sum := by
  induction input generalizing start with
  | nil => exact (Option.some.inj h).symm
  | cons a input ih =>
    rw [foldlM_cons, bind_eq_bind, bind_eq_some_iff] at h
    obtain ⟨next, hnext, h⟩ := h
    rw [ih h, checkedAdd_eq_some hnext, map_cons, sum_cons, Nat.add_assoc]

theorem addcslashesWriter_defines {input charlist : PhpString}
    (h : nativeAddcslashesOutputLength input charlist = some n) :
    (addcslashesWriter input charlist).Defines
      (input.flatMap (addcslashesEncode (addcslashesCharlist charlist))) := by
  have hlength : nativeAddcslashesOutputLength input charlist =
      some (input.flatMap (addcslashesEncode (addcslashesCharlist charlist))).length := by
    rw [h, foldlM_checkedAdd h, length_flatMap, Nat.zero_add]
    simp [length_addcslashesEncode]
  refine .sized hlength fun output houtput => ?_
  rw [foldlM_putSlice (addcslashesEncode (addcslashesCharlist charlist)), putSlice_full houtput]
  · simp [houtput]
  intro cursor byte
  rw [addcslashesEncode]
  split
  · exact (putSlice_singleton ..).symm
  · cases addcslashesNamed byte with
    | some letter => rfl
    | none =>
      dsimp only
      split <;> rfl

/-! ## Hexadecimal text and digests -/

theorem writeHexInto_eq {input output : List UInt8} (h : output.length = input.length * 2) :
    writeHexInto input output = input.flatMap (hexPairOf hexLower) := by
  induction input generalizing output with
  | nil => rw [length_eq_zero_iff.mp h]; rfl
  | cons byte input ih =>
    obtain ⟨a, output, rfl⟩ : ∃ a tail, output = a :: tail := by
      cases output with
      | nil => simp at h
      | cons a tail => exact ⟨a, tail, rfl⟩
    obtain ⟨b, output, rfl⟩ : ∃ b tail, output = b :: tail := by
      cases output with
      | nil => simp at h; omega
      | cons b tail => exact ⟨b, tail, rfl⟩
    rw [writeHexInto, ih (by simp at h; omega), flatMap_cons]

theorem length_hexText (input : List UInt8) :
    (input.flatMap (hexPairOf hexLower)).length = input.length * 2 := by
  induction input with
  | nil => rfl
  | cons byte input ih =>
    rw [flatMap_cons, length_append, ih, length_cons, Nat.succ_mul, Nat.add_comm]
    rfl

theorem bin2hexWriter_defines (h : nativeBin2hexOutputLength input = some n) :
    (bin2hexWriter input).Defines (input.flatMap (hexPairOf hexLower)) := by
  refine .sized ?_ fun output houtput => ?_
  · rw [length_hexText, h, checkedMul_eq_some h]
  · rw [writeHexInto_eq (by rw [houtput, length_hexText])]

def digestBytes (raw : Bool) (digest : List UInt8) : List UInt8 :=
  if raw then digest else digest.flatMap (hexPairOf hexLower)

theorem digestInto_defines {length : Nat} (h : length = if raw then digest.length else digest.length * 2) :
    Writer.Defines ⟨some length, digestInto digest length raw⟩ (digestBytes raw digest) := by
  refine .sized ?_ fun output houtput => ?_
  · cases raw with
    | true => exact congrArg some h
    | false => exact congrArg some (h.trans (length_hexText digest).symm)
  · cases raw with
    | true =>
      rw [digestBytes, if_pos rfl] at houtput ⊢
      rw [if_pos rfl, putSlice_full houtput]
      rfl
    | false =>
      rw [digestBytes, if_neg (by simp)] at houtput ⊢
      rw [if_neg (by simp), writeHexInto_eq (by rw [houtput, length_hexText])]

section
variable (crates : Crates)

theorem md5Writer_defines (input : PhpString) (raw : Bool) :
    (md5Writer crates input raw).Defines (digestBytes raw (crates.md5 input)) := by
  refine digestInto_defines ?_
  rw [(crates.md5 input).2]
  cases raw <;> rfl

theorem sha1Writer_defines (input : PhpString) (raw : Bool) :
    (sha1Writer crates input raw).Defines (digestBytes raw (crates.sha1 input)) := by
  refine digestInto_defines ?_
  rw [(crates.sha1 input).2]
  cases raw <;> rfl

theorem base64EncodeWriter_defines {input : PhpString}
    (h : nativeBase64EncodeOutputLength crates input = some n) :
    (base64EncodeWriter crates input).Defines (crates.base64Encode input) := by
  refine .sized ?_ fun output houtput => ?_
  · rw [h, crates.base64_length input n h]
  · rw [putSlice_full houtput, houtput]
    simp

end

/-! ## `convert_uuencode` -/

/-- A length character, four characters for each three bytes, a line break. -/
def uuencodeLine (chunk : List UInt8) : List UInt8 :=
  uuencodeSixbit (UInt8.ofNat chunk.length) :: (chunks 3 chunk).flatMap uuencodeTriple ++ [10]

def uuencodeBytes (input : PhpString) : PhpString :=
  (chunks 45 input).flatMap uuencodeLine ++ [96, 10]

theorem length_chunks (size : Nat) (hsize : 0 < size) (input : List UInt8) :
    (chunks size input).length = divCeil input.length size := by
  fun_induction chunks size input with
  | case1 input h =>
    have : input = [] := h.resolve_right (by omega)
    simp [this, divCeil, div_eq_of_lt (show size - 1 < size by omega)]
  | case2 input h ih =>
    rw [not_or] at h
    have hpos := length_pos_iff.mpr h.1
    rw [length_cons, ih, length_drop, divCeil, divCeil]
    by_cases hle : size ≤ input.length
    · rw [show input.length + size - 1 = input.length - size + size - 1 + size by omega,
        add_div_right _ hsize]
    rw [show input.length - size + size - 1 = size - 1 by omega, div_eq_of_lt (show size - 1 < size by omega),
      show input.length + size - 1 = input.length - 1 + size by omega, add_div_right _ hsize,
      div_eq_of_lt (by omega)]

theorem length_uuencodeLine (chunk : List UInt8) :
    (uuencodeLine chunk).length = 2 + divCeil chunk.length 3 * 4 := by
  have hgroups : ∀ groups : List (List UInt8),
      (groups.flatMap uuencodeTriple).length = groups.length * 4 := by
    intro groups
    induction groups with
    | nil => rfl
    | cons group groups ih =>
      rw [flatMap_cons, length_append, ih, length_cons, Nat.succ_mul, Nat.add_comm]
      rfl
  rw [uuencodeLine, length_append, length_cons, hgroups, length_chunks 3 (by omega), length_singleton]
  omega

theorem uuencodeWriter_length
    (h : nativeConvertUuencodeOutputLength input = some n) : n = (uuencodeBytes input).length := by
  have hfold : ∀ (lines : List (List UInt8)) (start n : Nat),
      lines.foldlM (fun length chunk => do
        let length ← checkedAdd length 2
        checkedAdd length (← checkedMul (divCeil chunk.length 3) 4)) start = some n →
      n = start + (lines.flatMap uuencodeLine).length := by
    intro lines
    induction lines with
    | nil => intro start n h; exact (Option.some.inj h).symm
    | cons line lines ih =>
      intro start n h
      simp only [foldlM_cons, bind_eq_bind, bind_eq_some_iff] at h
      obtain ⟨next, ⟨a, ha, b, hb, hnext⟩, h⟩ := h
      rw [ih next n h, checkedAdd_eq_some hnext, checkedMul_eq_some hb, checkedAdd_eq_some ha,
        flatMap_cons, length_append, length_uuencodeLine]
      omega
  rw [hfold _ _ _ h, uuencodeBytes, length_append]
  exact Nat.add_comm ..

theorem convertUuencodeWriter_defines (h : nativeConvertUuencodeOutputLength input = some n) :
    (convertUuencodeWriter input).Defines (uuencodeBytes input) := by
  have hlength : nativeConvertUuencodeOutputLength input = some (uuencodeBytes input).length := by
    rw [h, uuencodeWriter_length h]
  refine .sized hlength fun output houtput => ?_
  have hfull := putSlice_full houtput
  rw [uuencodeBytes, putSlice_append, bind_eq_some_iff] at hfull
  obtain ⟨lines, hlines, hlast⟩ := hfull
  rw [foldlM_putSlice uuencodeLine, hlines]
  · have hpos : lines.pos = ((chunks 45 input).flatMap uuencodeLine).length := by
      rw [putSlice_eq (by rw [houtput, uuencodeBytes, length_append]; simp)] at hlines
      cases hlines
      simp
    have hend : output.length = lines.pos + 2 := by
      rw [houtput, uuencodeBytes, length_append, hpos]
      rfl
    simp only [Option.bind_eq_bind, Option.bind_some, if_pos hend, hlast, Option.pure_def]
    simp [hend, uuencodeBytes]
  · intro cursor chunk
    rw [uuencodeLine, cons_append, putSlice, foldlM_cons]
    refine congrArg _ (funext fun cursor => ?_)
    rw [foldlM_putSlice uuencodeTriple fun _ _ => rfl]
    show _ = cursor.putSlice _
    rw [putSlice_append]
    exact congrArg _ (funext fun cursor => (putSlice_singleton cursor 10).symm)

/-! ## Hexadecimal values of `unpack` -/

def unpackHexBytes (value : UnpackHex) : PhpString :=
  ((value.input.flatMap (unpackNibbles value.code)).map hexDigit).take value.count

theorem unpackHexLoop_eq (cursor : Cursor) (hpos : cursor.pos ≤ cursor.buffer.length)
    (hdigits : cursor.buffer.length ≤ cursor.pos + nibbles.length) :
    unpackHexLoop cursor.buffer.length nibbles cursor =
      (cursor.putSlice ((nibbles.map hexDigit).take (cursor.buffer.length - cursor.pos))).map
        fun cursor => (true, cursor.buffer) := by
  induction nibbles generalizing cursor with
  | nil =>
    have hend : cursor.pos = cursor.buffer.length := by
      rw [length_nil] at hdigits
      omega
    rw [unpackHexLoop, beq_iff_eq.mpr hend]
    simp [putSlice]
  | cons nibble nibbles ih =>
    rw [length_cons] at hdigits
    rw [unpackHexLoop]
    by_cases hend : cursor.pos = cursor.buffer.length
    · rw [if_pos hend, hend, Nat.sub_self]
      rfl
    have hput : cursor.put (hexDigit nibble) =
        some ⟨cursor.buffer.set cursor.pos (hexDigit nibble), cursor.pos + 1⟩ := if_pos (by omega)
    have hlen : (cursor.buffer.set cursor.pos (hexDigit nibble)).length = cursor.buffer.length :=
      length_set
    have hrest := ih ⟨cursor.buffer.set cursor.pos (hexDigit nibble), cursor.pos + 1⟩
      (by dsimp only; omega) (by dsimp only; omega)
    rw [hlen] at hrest
    have hsub : cursor.buffer.length - cursor.pos = cursor.buffer.length - (cursor.pos + 1) + 1 := by
      omega
    rw [if_neg hend, hput, hsub, map_cons, take_succ_cons, putSlice, foldlM_cons, hput]
    exact hrest

theorem length_unpackHexBytes (value : UnpackHex) : (unpackHexBytes value).length = value.count := by
  have hnibbles : (value.input.flatMap (unpackNibbles value.code)).length = value.input.length * 2 := by
    induction value.input with
    | nil => rfl
    | cons byte input ih =>
      rw [flatMap_cons, length_append, ih, length_cons, Nat.succ_mul, Nat.add_comm, unpackNibbles]
      split <;> rfl
  have := value.input_length
  rw [divCeil] at this
  rw [unpackHexBytes, length_take, length_map, hnibbles]
  omega

theorem unpackHexWriter_defines (value : UnpackHex) :
    (unpackHexWriter value).Defines (unpackHexBytes value) where
  length := by rw [length_unpackHexBytes]; rfl
  into output h := by
    have hcount : output.length = value.count := h.trans (length_unpackHexBytes value)
    have hnibbles : output.length ≤ (value.input.flatMap (unpackNibbles value.code)).length := by
      have := length_unpackHexBytes value
      rw [unpackHexBytes, length_take, length_map] at this
      omega
    have hguard : ¬((value.code ≠ 104 ∧ value.code ≠ 72) ∨ output.length ≠ value.count ∨
        value.input.length < divCeil value.count 2) := by
      have := value.code_eq
      have := value.input_length
      rintro (⟨h1, h2⟩ | h | h)
      · tauto
      · exact h hcount
      · omega
    have hloop := unpackHexLoop_eq ⟨output, 0⟩ (zero_le _)
      (Nat.le_trans hnibbles (Nat.le_add_left _ _))
    show nativeUnpackHexInto value.code value.input value.count output = _
    rw [nativeUnpackHexInto, if_neg hguard, ← hcount, hloop, Nat.sub_zero, hcount,
      ← unpackHexBytes, putSlice_full h]
    rfl

/-! ## HTML escaping -/

theorem htmlEscapeIteration_isSome (flags : BitVec 64) (doubleEncode allEntities : Bool)
    (byte : UInt8) (rest : List UInt8) :
    (htmlEscapeIteration flags doubleEncode allEntities byte rest).1.isSome := by
  rw [htmlEscapeIteration]
  split_ifs
  all_goals first | rfl | (split <;> rfl)

def htmlEscapeBytes (bytes : PhpString) (flags : BitVec 64) (doubleEncode allEntities : Bool) : PhpString :=
  (scan (htmlEscapeIteration flags doubleEncode allEntities) bytes).flatten

/-- When the counting pass does not overflow, it counts the bytes, and any pass emits the chunks. -/
theorem visitHtmlEscape_eq {flags : BitVec 64} {doubleEncode allEntities : Bool} {input : List UInt8}
    {length n : Nat} (h : visitHtmlEscape flags doubleEncode allEntities
      (fun (_ : Unit) _ => some ()) input length () = some (some n, ()))
    (emit : σ → List UInt8 → Option σ) (state : σ) :
    n = length + (htmlEscapeBytes input flags doubleEncode allEntities).length ∧
      visitHtmlEscape flags doubleEncode allEntities emit input length state =
        ((scan (htmlEscapeIteration flags doubleEncode allEntities) input).foldlM emit state).map
          (some n, ·) := by
  rw [htmlEscapeBytes]
  fun_induction scan (htmlEscapeIteration flags doubleEncode allEntities) input
    generalizing length state with
  | case1 =>
    rw [visitHtmlEscape] at h ⊢
    cases h
    exact ⟨rfl, rfl⟩
  | case2 byte rest ih =>
    obtain ⟨encoded, hencoded⟩ := isSome_iff_exists.mp
      (htmlEscapeIteration_isSome flags doubleEncode allEntities byte rest)
    rw [visitHtmlEscape] at h ⊢
    simp only [hencoded, getD_some, toList_some, singleton_append,
      flatten_cons, length_append, foldlM_cons, bind_eq_bind,
      bind_some] at h ⊢
    cases hadd : checkedAdd length encoded.length with
    | none => rw [hadd] at h; cases h
    | some next =>
      rw [hadd] at h
      have hnext := checkedAdd_eq_some hadd
      refine ⟨?_, ?_⟩
      · rw [(ih h state).1, hnext]
        omega
      · cases emit state encoded with
        | none => rfl
        | some state => exact (ih h state).2

theorem htmlEscapeWriter_defines
    (h : directHtmlEscapeOutputLength bytes flags doubleEncode allEntities = some n) :
    (htmlEscapeWriter bytes flags doubleEncode allEntities).Defines
      (htmlEscapeBytes bytes flags doubleEncode allEntities) := by
  have hpass : visitHtmlEscape flags doubleEncode allEntities (fun (_ : Unit) _ => some ()) bytes 0 ()
      = some (some n, ()) := by
    obtain ⟨⟨length, state⟩, hvisit, hlength⟩ := bind_eq_some_iff.mp h
    rw [hvisit]
    cases hlength
    rfl
  have hcount : n = (htmlEscapeBytes bytes flags doubleEncode allEntities).length :=
    ((visitHtmlEscape_eq hpass putSlice ⟨[], 0⟩).1).trans (Nat.zero_add _)
  refine .sized (by rw [h, hcount]) fun output houtput => ?_
  have hfold := foldlM_putSlice (fun chunk => chunk) (fun _ _ => rfl) ⟨output, 0⟩
    (scan (htmlEscapeIteration flags doubleEncode allEntities) bytes)
  rw [flatMap_id'] at hfold
  rw [(visitHtmlEscape_eq hpass putSlice ⟨output, 0⟩).2, hfold]
  rw [show (scan (htmlEscapeIteration flags doubleEncode allEntities) bytes).flatten =
    htmlEscapeBytes bytes flags doubleEncode allEntities from rfl, putSlice_full houtput]
  simp [houtput, hcount]

end Phrust
