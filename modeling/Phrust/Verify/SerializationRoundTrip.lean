import Phrust.Verify.ArrayRefinement
import Phrust.Verify.DecimalText
import Phrust.Verify.Unserialize

/-!
# Serialization round trip

What `serialize` writes is accepted text of the wire format, and its value is the one that was
written, with the references replaced by their contents. Array keys go through the conversion of
PHP, so string keys that spell an integer do not come back as strings.
-/

namespace Phrust
namespace Serialization
open List Reading Nat
variable {F : Type}

/-! ## Values without references -/

/-- `tree` is the value with its references replaced by their contents, and no reference contains
itself: following the contents never meets one of `active` again. The values are null, booleans,
integers, strings and arrays with distinct keys. -/
inductive Unfolds (cells : Nat → Value F) : List Nat → Value F → Value F → Prop where
  | null {active : List Nat} : Unfolds cells active .null .null
  | bool {active : List Nat} (value : Bool) : Unfolds cells active (.bool value) (.bool value)
  | int {active : List Nat} {value : Int} : i64Min ≤ value ∧ value ≤ i64Max →
    Unfolds cells active (.int value) (.int value)
  | string {active : List Nat} (bytes : PhpString) :
    Unfolds cells active (.string bytes) (.string bytes)
  | array {active : List Nat} {entries entries' : List (ArrayKey × Value F)} :
    entries.map Prod.fst = entries'.map Prod.fst → (entries.map Prod.fst).Nodup →
    (∀ key ∈ entries.map Prod.fst, key.IsI64) →
    (∀ (i : Nat) (value tree : Value F), (entries.map Prod.snd)[i]? = some value →
      (entries'.map Prod.snd)[i]? = some tree → Unfolds cells active value tree) →
    Unfolds cells active (.array entries) (.array entries')
  | reference {active : List Nat} {id : Nat} {tree : Value F} : id ∉ active →
    Unfolds cells (id :: active) (cells id) tree → Unfolds cells active (.reference id) tree

/-- The key occurs in an array, at any level. -/
inductive Value.HasKey : Value F → ArrayKey → Prop where
  | here {entries : List (ArrayKey × Value F)} {key : ArrayKey} : key ∈ entries.map Prod.fst →
    Value.HasKey (.array entries) key
  | deeper {entries : List (ArrayKey × Value F)} {value : Value F} {key : ArrayKey} :
    value ∈ entries.map Prod.snd → Value.HasKey value key → Value.HasKey (.array entries) key

mutual

/-- The number of array entries, at all levels. -/
def Value.itemCount : Value F → Nat
  | .array entries => entries.length + entriesItemCount entries
  | _ => 0

def entriesItemCount : List (ArrayKey × Value F) → Nat
  | [] => 0
  | (_, value) :: entries => value.itemCount + entriesItemCount entries

end

/-! ## Decimal text -/

theorem decimalText_natCast (n : Nat) : decimalText n = (Nat.toDigits 10 n).map digitByte :=
  integerText_natCast n

theorem decimalText_negSucc (n : Nat) :
    decimalText (Int.negSucc n) = 45 :: (Nat.toDigits 10 (n + 1)).map digitByte :=
  integerText_negSucc n

/-- Decimal text ends in front of a colon or a semicolon. -/
theorem scalar_decimalText (value : Int) (hdelimiter : delimiter = 58 ∨ delimiter = 59) :
    Scalar delimiter (decimalText value) := by
  have hlt : 57 < delimiter := by rcases hdelimiter with rfl | rfl <;> decide
  have hne : delimiter ≠ 45 := by rcases hdelimiter with rfl | rfl <;> decide
  cases value with
  | ofNat n =>
    obtain ⟨-, hall, -⟩ := decimalDigits n
    rw [show decimalText (Int.ofNat n) = _ from decimalText_natCast n]
    exact ⟨not_mem_of_all_digit hall hlt,
      isUtf8_of_ascii fun byte hbyte => isAsciiDigit_lt (all_eq_true.mp hall byte hbyte)⟩
  | negSucc n =>
    obtain ⟨-, hall, -⟩ := decimalDigits (n + 1)
    rw [decimalText_negSucc]
    refine ⟨fun h => ?_, isUtf8_of_ascii fun byte hbyte => ?_⟩
    · rcases mem_cons.mp h with h | h
      · exact hne h
      · exact not_mem_of_all_digit hall hlt h
    · rcases mem_cons.mp hbyte with rfl | hbyte
      · decide
      · exact isAsciiDigit_lt (all_eq_true.mp hall byte hbyte)

theorem parseUsize_decimalText (h : n < usizeLimit) : parseUsize (decimalText (n : Nat)) = some n := by
  obtain ⟨hne, hall, hvalue⟩ := decimalDigits n
  have hdigits : stripPlus ((Nat.toDigits 10 n).map digitByte) =
      (Nat.toDigits 10 n).map digitByte := by
    rw [stripPlus.eq_def]
    split
    · next digits heq =>
      rw [heq] at hall
      cases hall
    · rfl
  rw [parseUsize, decimalText_natCast]
  simp only [hdigits, hvalue]
  rw [if_pos ⟨hne, hall, h⟩]

theorem parseI64_decimalText (h : i64Min ≤ value ∧ value ≤ i64Max) :
    parseI64 (decimalText value) = some value :=
  parseI64_integerText h

/-! ## Writing -/

variable {env : Env F} {options : UnserializeOptions} {cells : Nat → Value F}

theorem extend_extend (writer : Serializer) (text text' : PhpString) :
    (writer.extend text).extend text' = writer.extend (text ++ text') := by
  simp [Serializer.extend]

def keyText : ArrayKey → PhpString
  | .int value => [105, 58] ++ (decimalText value ++ [59])
  | .string value => [115, 58] ++ (decimalText value.length ++ ([58, 34] ++ (value ++ [34, 59])))

theorem writeKey_eq (writer : Serializer) (key : ArrayKey) :
    writeKey writer key = writer.extend (keyText key) := by
  cases key <;> simp [writeKey, keyText, quoted]

def keyValue : ArrayKey → Value F
  | .int value => .int value
  | .string value => .string value

/-- The text is accepted for the tree wherever it fits into the limits; the parser is not deeper than
the writer. -/
def Written (env : Env F) (options : UnserializeOptions) (depth : Nat) (text : PhpString)
    (tree : Value F) : Prop :=
  ∀ height items depth', text.length < height → text.length < usizeLimit → depth' ≤ depth →
    items + tree.itemCount ≤ options.maxItems →
    Accepts env options height depth' items text tree (items + tree.itemCount)

theorem Written.mono (h : Written env options depth text tree) (hle : depth' ≤ depth) :
    Written env options depth' text tree :=
  fun height items low hheight hsize hlow => h height items low hheight hsize
    (le_trans hlow hle)

/-- A record without nested ones, which needs no height below it. -/
theorem written_of_record (hdepth : depth ≤ options.maxDepth) (hcount : tree.itemCount = 0)
    (h : text.length < usizeLimit → ∀ R items, Record env options R items text tree items) :
    Written env options depth text tree := by
  intro height items depth' hheight hsize hle hitems
  obtain ⟨height, rfl⟩ : ∃ h, height = h + 1 := ⟨height - 1, by omega⟩
  rw [hcount, Nat.add_zero]
  exact ⟨le_trans hle hdepth, h hsize _ _⟩

theorem written_key (hdepth : depth ≤ options.maxDepth) (hkey : key.IsI64) :
    Written env options depth (keyText key) (keyValue key) := by
  cases key with
  | int value =>
    refine written_of_record hdepth (by simp [keyValue, Value.itemCount]) fun _ R items => ?_
    exact .int (scalar_decimalText value (.inr rfl)) (parseI64_decimalText hkey)
  | string value =>
    refine written_of_record hdepth (by simp [keyValue, Value.itemCount]) fun hsize R items => ?_
    refine .string (scalar_decimalText _ (.inl rfl)) (parseUsize_decimalText ?_)
    simp only [keyText, length_append] at hsize
    omega

/-- No string key is read as an integer. -/
def KeysKept (env : Env F) (tree : Value F) : Prop :=
  ∀ name, tree.HasKey (.string name) → env.classifyArrayKey name = .string

theorem KeysKept.key (h : KeysKept env (.array entries))
    (hmem : entry ∈ entries) : fromValue env (keyValue entry.1) = some entry.1 := by
  obtain ⟨key, value⟩ := entry
  cases key with
  | int n => rfl
  | string name =>
    have hname := h name (.here (mem_map_of_mem hmem))
    simp only [keyValue, fromValue, fromPhpString, hname]

theorem KeysKept.value (h : KeysKept env (.array entries)) (hmem : entry ∈ entries) : KeysKept env entry.2 :=
  fun name hname => h name (.deeper (mem_map_of_mem hmem) hname)

theorem insertEntry_new [DecidableEq κ] {key : κ} (h : key ∉ entries.map Prod.fst) (value : ν) :
    insertEntry entries key value = entries ++ [(key, value)] := if_neg h

/-- The loop over the entries of an array, with `write` for the elements. -/
theorem writeEntries_accepts {write : Serializer → Value F → Except SerializationError Serializer}
    (hlevel : ∀ {writer writer' value}, write writer value = .ok writer' → depth + 1 ≤ options.maxDepth)
    (hwrite : ∀ {writer writer' value tree}, writer.activeReferences.reverse = active →
      Unfolds cells active value tree → KeysKept env tree → write writer value = .ok writer' →
      ∃ text, writer' = writer.extend text ∧ Written env options (depth + 1) text tree)
    (hactive : writer.activeReferences.reverse = active) {entries entries' : List (ArrayKey × Value F)}
    (hentries : List.Forall₂ (fun e e' => e.1 = e'.1 ∧ Unfolds cells active e.2 e'.2) entries entries')
    (hkeys : ∀ e ∈ entries', e.1.IsI64 ∧ fromValue env (keyValue e.1) = some e.1 ∧ KeysKept env e.2)
    (h : entries.foldlM (fun writer entry => write (writeKey writer entry.1) entry.2) writer = .ok writer') :
    ∃ body, writer' = writer.extend body ∧ ∀ height items depth' done, body.length < height →
      body.length < usizeLimit → depth' ≤ depth → items + entriesItemCount entries' ≤ options.maxItems →
      ((done ++ entries').map Prod.fst).Nodup →
      Entries (arrayContainer env) (Accepts env options height (depth' + 1)) items entries'.length
        done body (done ++ entries') (items + entriesItemCount entries') := by
  induction hentries generalizing writer with
  | nil =>
    cases h
    refine ⟨[], by simp [Serializer.extend], fun height items depth' done _ _ _ _ _ => ?_⟩
    rw [append_nil]
    exact .nil
  | @cons entry entry' entries entries' hentry _ ih =>
    obtain ⟨key, value⟩ := entry
    obtain ⟨key', tree⟩ := entry'
    obtain ⟨hkey, hunfolds⟩ := hentry
    dsimp only at hkey hunfolds
    subst hkey
    obtain ⟨writer₁, hvalue, h⟩ := ok_bind.mp h
    obtain ⟨hi64, hfrom, hkept⟩ := hkeys _ mem_cons_self
    dsimp only at hi64 hfrom hkept
    obtain ⟨text, rfl, hwritten⟩ := hwrite (by rw [writeKey_eq]; exact hactive) hunfolds hkept hvalue
    rw [writeKey_eq, extend_extend] at h
    obtain ⟨body, rfl, hbody⟩ := ih
      (show (writer.extend (keyText key ++ text)).activeReferences.reverse = active from hactive)
      (forall_mem_cons.mp hkeys).2 h
    refine ⟨keyText key ++ (text ++ body), by rw [extend_extend, append_assoc], ?_⟩
    intro height items depth' done hheight hsize hle hitems hnodup
    have hlow := hlevel hvalue
    simp only [length_append] at hheight hsize
    simp only [entriesItemCount] at hitems ⊢
    have hnew : key ∉ done.map Prod.fst := by
      rw [map_append, nodup_append] at hnodup
      exact fun hmem => hnodup.2.2 key hmem key mem_cons_self rfl
    have hcount : (keyValue key : Value F).itemCount = 0 := by
      cases key <;> simp [keyValue, Value.itemCount]
    have hreadKey : Accepts env options height (depth' + 1) items (keyText key) (keyValue key)
        (items + (keyValue key : Value F).itemCount) :=
      written_key hlow hi64 height items (depth' + 1) (by omega) (by omega) (by omega) (by omega)
    rw [hcount, Nat.add_zero] at hreadKey
    have hreadValue := hwritten height items (depth' + 1) (by omega) (by omega) (by omega) (by omega)
    have hadd : (arrayContainer env).add done (keyValue key) tree =
        .ok (done ++ [(key, tree)]) := by
      simp [arrayContainer, hfrom, insertEntry_new hnew]
    refine .cons hreadKey rfl hreadValue hadd ?_
    have hrest := hbody height (items + tree.itemCount) depth' (done ++ [(key, tree)]) (by omega)
      (by omega) hle (by omega) (by simpa using hnodup)
    simpa [Nat.add_assoc] using hrest

theorem unfolds_entries {entries entries' : List (ArrayKey × Value F)}
    (hkeys : entries.map Prod.fst = entries'.map Prod.fst)
    (hvalues : ∀ (i : Nat) (value tree : Value F), (entries.map Prod.snd)[i]? = some value →
      (entries'.map Prod.snd)[i]? = some tree → Unfolds cells active value tree) :
    List.Forall₂ (fun e e' => e.1 = e'.1 ∧ Unfolds cells active e.2 e'.2) entries entries' := by
  have hlength : entries.length = entries'.length := by
    simpa using congrArg List.length hkeys
  refine forall₂_iff_get.mpr ⟨hlength, fun i hi hi' => ⟨?_, ?_⟩⟩
  · have hkey := congrArg (fun keys => keys[i]?) hkeys
    simpa [hi, hi'] using hkey
  · exact hvalues i _ _ (by simp [hi]) (by simp [hi'])

theorem writeValue_depth (h : writeValue env cells writer value depth = .ok writer') :
    depth ≤ defaultMaxDepth := by
  rw [writeValue.eq_def] at h
  split at h
  · cases h
  · omega

theorem writeValue_array (hdepth : depth ≤ defaultMaxDepth)
    (h : writeValue env cells writer (.array entries) depth = .ok writer') :
    ∃ writer₁, entries.foldlM (fun writer entry =>
        writeValue env cells (writeKey writer entry.1) entry.2 (depth + 1))
      (writer.extend ([97, 58] ++ decimalText entries.length ++ [58, 123])) = .ok writer₁ ∧
      writer' = writer₁.extend [125] := by
  rw [writeValue, dif_neg (Nat.not_lt_of_le hdepth)] at h
  obtain ⟨writer₁, hloop, h⟩ := ok_bind.mp h
  cases h
  exact ⟨writer₁, hloop, rfl⟩

/-- What is written for a value is accepted for its tree. A reference is written one level deeper than
it stands, so that the parser is never deeper than the writer. -/
theorem writeValue_written (hmax : defaultMaxDepth ≤ options.maxDepth)
    (hactive : writer.activeReferences.reverse = active) (hunfolds : Unfolds cells active value tree)
    (hkept : KeysKept env tree) (h : writeValue env cells writer value depth = .ok writer') :
    ∃ text, writer' = writer.extend text ∧ Written env options depth text tree := by
  induction hgap : defaultMaxDepth + 1 - depth generalizing depth active writer writer' value tree with
  | zero =>
    have := writeValue_depth h
    omega
  | succ gap ih =>
    have hdepth := writeValue_depth h
    have hlow := le_trans hdepth hmax
    cases hunfolds with
    | null =>
      rw [writeValue, dif_neg (Nat.not_lt_of_le hdepth)] at h
      cases h
      exact ⟨_, rfl, written_of_record hlow (by simp [Value.itemCount]) fun _ _ _ => .null⟩
    | bool value =>
      rw [writeValue.eq_def, dif_neg (Nat.not_lt_of_le hdepth)] at h
      cases value <;> cases h
      · exact ⟨_, rfl, written_of_record hlow (by simp [Value.itemCount]) fun _ _ _ => .bool false⟩
      · exact ⟨_, rfl, written_of_record hlow (by simp [Value.itemCount]) fun _ _ _ => .bool true⟩
    | @int _ value hi64 =>
      rw [writeValue, dif_neg (Nat.not_lt_of_le hdepth), append_assoc] at h
      cases h
      exact ⟨_, rfl, written_key hlow (show (ArrayKey.int value).IsI64 from hi64)⟩
    | string bytes =>
      rw [writeValue, dif_neg (Nat.not_lt_of_le hdepth)] at h
      cases h
      refine ⟨keyText (.string bytes), ?_, written_key hlow (show (ArrayKey.string bytes).IsI64 from trivial)⟩
      simp [keyText, quoted]
    | @array _ entries entries' hkeys hnodup hi64 hvalues =>
      have hforall := unfolds_entries hkeys hvalues
      obtain ⟨writer₁, hloop, rfl⟩ := writeValue_array hdepth h
      obtain ⟨body, rfl, hbody⟩ := writeEntries_accepts
        (fun hw => le_trans (writeValue_depth hw) hmax)
        (fun hactive hunfolds hkept hw => ih hactive hunfolds hkept hw (by omega))
        (show (writer.extend _).activeReferences.reverse = active from hactive) hforall
        (fun e he => ⟨hi64 _ (hkeys ▸ mem_map_of_mem he), hkept.key he, hkept.value he⟩) hloop
      refine ⟨[97, 58] ++ (decimalText entries.length ++ ([58, 123] ++ (body ++ [125]))), by
        simp only [extend_extend, append_assoc], ?_⟩
      intro height items depth' hheight hsize hle hitems
      obtain ⟨height, rfl⟩ : ∃ h, height = h + 1 := ⟨height - 1, by omega⟩
      have hlength : entries.length = entries'.length := hforall.length_eq
      simp only [length_append] at hheight hsize
      simp only [length_cons, length_nil, Value.itemCount] at hheight hsize hitems ⊢
      rw [hkeys] at hnodup
      rw [hlength]
      refine ⟨le_trans hle hlow, .array (scalar_decimalText _ (.inl rfl))
        (parseUsize_decimalText ?_) (by omega) ?_⟩
      · have := options.isUsize
        omega
      · have hentries := hbody height (items + entries'.length) depth' [] (by omega) (by omega) hle
          (by omega) hnodup
        rwa [nil_append, Nat.add_assoc] at hentries
    | @reference _ id _ hid hunfolds =>
      have hmem : id ∉ writer.activeReferences := by
        rwa [← mem_reverse, hactive]
      rw [writeValue, dif_neg (Nat.not_lt_of_le hdepth), if_neg hmem] at h
      obtain ⟨writer₁, hcell, h⟩ := ok_bind.mp h
      cases h
      have hactive' : (writer.activeReferences ++ [id]).reverse = id :: active := by
        simp [hactive]
      obtain ⟨text, rfl, hwritten⟩ := ih hactive' hunfolds hkept hcell (by omega)
      refine ⟨text, ?_, hwritten.mono (le_succ depth)⟩
      simp [Serializer.extend]

/-! ## Reading back -/

/-- Accepted text in front of an input is read, and nothing behind it. -/
theorem parseInput_of_accepts {tail : PhpString} (hlen : (text ++ tail).length ≤ options.maxBytes)
    (h : Accepts env options ((text ++ tail).length + 1) 0 0 text tree items) :
    parseInput env (text ++ tail) options =
      some (.ok (tree, ⟨text ++ tail, text.length, options, items⟩)) := by
  have hreads := Parser.reads_of_remaining
    (show (⟨text ++ tail, 0, options, 0⟩ : Parser).remaining = text ++ tail from rfl) items
  have hreturns := ((parseValue_spec env options _ 0).returns_iff (within_input hlen)).mpr
    ⟨text, items, h, hreads⟩
  rw [parseInput_eq hlen]
  refine Eq.trans hreturns ?_
  simp [Parser.behind]

theorem unserialize_of_accepts (hlen : text.length ≤ options.maxBytes)
    (h : Accepts env options (text.length + 1) 0 0 text tree items) :
    unserialize env text options = some (.ok tree) := by
  have hparse := parseInput_of_accepts (show (text ++ []).length ≤ _ by simpa using hlen)
    (show Accepts env options ((text ++ []).length + 1) 0 0 text tree items by simpa using h)
  rw [append_nil] at hparse
  rw [unserialize, hparse]
  exact congrArg some (if_neg (not_not_intro rfl))

/-- Round trip: `unserialize` reads what `serialize` has written, with the references replaced by
their contents, and `unserialize_prefix` stops behind it. -/
theorem serialize_unserialize (env : Env F) (cells : Nat → Value F) (options : UnserializeOptions)
    (value tree : Value F) (bytes : PhpString) (hunfolds : Unfolds cells [] value tree)
    (hkeys : ∀ name, tree.HasKey (.string name) → env.classifyArrayKey name = .string)
    (hserialize : serialize env cells value = .ok bytes)
    (hdepth : defaultMaxDepth ≤ options.maxDepth) (hbytes : bytes.length ≤ options.maxBytes)
    (hitems : tree.itemCount ≤ options.maxItems) : unserialize env bytes options = some (.ok tree) ∧
      ∀ tail, (bytes ++ tail).length ≤ options.maxBytes →
        unserializePrefix env (bytes ++ tail) options = some (.ok (tree, bytes.length)) := by
  obtain ⟨writer, hwrite, houtput⟩ : ∃ writer, writeValue env cells ⟨[], [], -1⟩ value 0 = .ok writer ∧
      writer.output = bytes := by
    rw [serialize, serializeWithPrecision] at hserialize
    cases hw : writeValue env cells ⟨[], [], -1⟩ value 0 with
    | error e => rw [hw] at hserialize; cases hserialize
    | ok writer => rw [hw] at hserialize; cases hserialize; exact ⟨writer, rfl, rfl⟩
  obtain ⟨text, rfl, hwritten⟩ := writeValue_written hdepth rfl hunfolds hkeys hwrite
  obtain rfl : text = bytes := houtput
  have hsize : text.length < usizeLimit := lt_of_le_of_lt hbytes options.isUsize.2.2
  have haccepts (height : Nat) (hheight : text.length < height) :
      Accepts env options height 0 0 text tree (0 + tree.itemCount) :=
    hwritten height 0 0 hheight hsize (le_refl 0) (by omega)
  refine ⟨unserialize_of_accepts hbytes (haccepts _ (lt_succ_self _)), fun tail htail => ?_⟩
  rw [unserializePrefix, parseInput_of_accepts htail (haccepts _ (by rw [length_append]; omega))]
  rfl

/-- `[0 => &$r, "k" => &$r]` with `$r = [-5 => true]` -/
def sharedArray : Value (Option Int) :=
  .array [(.int 0, .reference 0), (.string [107], .reference 0)]

def sharedCells : Nat → Value (Option Int) := fun _ => .array [(.int (-5), .bool true)]

/-- `a:2:{i:0;a:1:{i:-5;b:1;}s:1:"k";a:1:{i:-5;b:1;}}` -/
def sharedText : PhpString :=
  [97, 58, 50, 58, 123, 105, 58, 48, 59, 97, 58, 49, 58, 123, 105, 58, 45, 53, 59, 98, 58, 49, 59, 125,
    115, 58, 49, 58, 34, 107, 34, 59, 97, 58, 49, 58, 123, 105, 58, 45, 53, 59, 98, 58, 49, 59, 125, 125]

def sharedTree : Value (Option Int) :=
  .array [(.int 0, sharedCells 0), (.string [107], sharedCells 0)]

theorem sharedArray_unfolds : Unfolds sharedCells [] sharedArray sharedTree := by
  have hcell : Unfolds sharedCells [0] (sharedCells 0) (sharedCells 0) := by
    refine .array rfl (by decide) (by decide) fun i value tree hvalue htree => ?_
    match i with
    | 0 => cases hvalue; cases htree; exact .bool true
    | i + 1 => cases hvalue
  refine .array rfl (by decide) (by decide) fun i value tree hvalue htree => ?_
  match i with
  | 0 | 1 => cases hvalue; cases htree; exact .reference (by decide) hcell
  | i + 2 => cases hvalue

theorem sharedTree_hasKey (h : sharedTree.HasKey (.string name)) : name = [107] := by
  have hcell : ¬(sharedCells 0).HasKey (.string name) := by
    rintro (hmem | ⟨hmem, hdeeper⟩)
    · simp at hmem
    · simp only [map_cons, map_nil, mem_singleton] at hmem
      subst hmem
      cases hdeeper
  rcases h with hmem | ⟨hmem, hdeeper⟩
  · simpa using hmem
  · simp only [map_cons, map_nil, mem_cons, not_mem_nil, or_false, or_self] at hmem
    subst hmem
    exact absurd hdeeper hcell

theorem serialize_unserialize_shared :
    unserialize (Env.plain true) sharedText .default = some (.ok sharedTree) ∧
      ∀ tail, (sharedText ++ tail).length ≤ defaultMaxBytes →
        unserializePrefix (Env.plain true) (sharedText ++ tail) .default =
          some (.ok (sharedTree, sharedText.length)) :=
  serialize_unserialize (Env.plain true) sharedCells .default sharedArray sharedTree sharedText
    sharedArray_unfolds (fun name h => by rw [sharedTree_hasKey h]; decide +kernel)
    (by decide +kernel) (by decide) (by decide) (by decide)

/-- `["5" => null]` with a string key -/
def numericKeyArray : Value (Option Int) := .array [(.string [53], .null)]

/-- `a:1:{s:1:"5";N;}` -/
def numericKeyText : PhpString :=
  [97, 58, 49, 58, 123, 115, 58, 49, 58, 34, 53, 34, 59, 78, 59, 125]

theorem numericKeyText_accepts : Accepts (Env.plain true) .default (numericKeyText.length + 1) 0 0
    numericKeyText (.array [(.int 5, .null)]) 1 := by
  have hone : Scalar 58 [49] := ⟨by decide, isUtf8_of_ascii (by simp)⟩
  have hcount : parseUsize [49] = some 1 := by decide
  have hkey : Accepts (Env.plain true) .default numericKeyText.length 1 1
      [115, 58, 49, 58, 34, 53, 34, 59] (.string [53]) 1 :=
    ⟨by decide, .string hone (show _ = some ([53] : PhpString).length from hcount)⟩
  have hvalue : Accepts (Env.plain true) .default numericKeyText.length 1 1 [78, 59] .null 1 :=
    ⟨by decide, .null⟩
  have hadd : (arrayContainer (Env.plain true)).add [] (.string [53]) .null =
      .ok [(.int 5, .null)] := by
    have hfrom : fromValue (Env.plain true) (.string [53]) = some (.int 5) := by decide +kernel
    simp only [arrayContainer, hfrom]
    rfl
  exact ⟨by decide, .array hone hcount (by decide) (.cons hkey rfl hvalue hadd .nil)⟩

/-- A string key that spells an integer comes back as that integer. The byte limit counts the bytes
behind the value, and the depth limit is one of the options. -/
theorem not_serialize_unserialize : (Unfolds sharedCells [] numericKeyArray numericKeyArray ∧
      serialize (Env.plain true) sharedCells numericKeyArray = .ok numericKeyText ∧
      unserialize (Env.plain true) numericKeyText .default = some (.ok (.array [(.int 5, .null)]))) ∧
    (serialize (Env.plain true) sharedCells (.bool true) = .ok [98, 58, 49, 59] ∧
      unserializePrefix (Env.plain true) ([98, 58, 49, 59] ++ [59])
        ⟨defaultMaxDepth, defaultMaxItems, 4, by decide⟩ =
          some (.error (.new "serialized input exceeds byte limit"))) ∧
    (serialize (Env.plain true) sharedCells sharedArray = .ok sharedText ∧
      (unserialize (Env.plain true) sharedText
        ⟨0, defaultMaxItems, defaultMaxBytes, by decide⟩).map Except.isOk = some false) := by
  refine ⟨⟨?_, by decide +kernel, unserialize_of_accepts (by decide) numericKeyText_accepts⟩,
    ⟨by decide +kernel, rfl⟩, by decide +kernel, by decide +kernel⟩
  refine .array rfl (by decide) (by decide) fun i value tree hvalue htree => ?_
  match i with
  | 0 => cases hvalue; cases htree; exact .null
  | i + 1 => cases hvalue

end Serialization
end Phrust
