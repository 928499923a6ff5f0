import Mathlib.Data.List.SplitBy
import Phrust.Runtime.MbStrcut
import Phrust.Verify.Utf8

/-!
# Where `mb_strcut` cuts as PHP

PHP begins with the character that contains the start, the code with the next one. A start in front of a
character is cut right, and otherwise the two runs can only agree if they repeat one character.
-/

namespace Phrust.Mbstring
open List

/-! ## The cut of PHP -/

/-- The characters from the one on that contains a byte, and how many of its bytes are in front of it. -/
def locate : Nat → List PhpString → Nat × List PhpString
  | index, [] => (index, [])
  | index, char :: text =>
    if index < char.length then (index, char :: text) else locate (index - char.length) text

/-- The longest run of whole characters in so many bytes. -/
def runWithin : Nat → List PhpString → List PhpString
  | _, [] => []
  | budget, char :: text =>
    if char.length ≤ budget then char :: runWithin (budget - char.length) text else []

/-- The bytes that may be taken. -/
def maxBytes (bytes : PhpString) (length : Option Int) : Nat := (length.map Int.toNat).getD bytes.length

/-- Negative starts count from the end, and a start past the end is the end. -/
def phpStart (total : Nat) (start : Int) : Nat :=
  if start < 0 then (total + start).toNat else min start.toNat total

/-- The start of a cut in its character. -/
def located (bytes : PhpString) (start : Int) : Nat × List PhpString :=
  locate (phpStart bytes.length start) (utf8Chars bytes)

def phpStrcut (bytes : PhpString) (start : Int) (length : Option Int) : PhpString :=
  (runWithin (maxBytes bytes length) (located bytes start).2).flatten

/-- The start is in a character that stands there several times in a row. Behind the first one are as many copies
as the length has room for, they end in time although the code counts from the start, and the character that
follows them does not. -/
def SameCopies (bytes : PhpString) (start : Int) (length : Option Int) : Prop :=
  ∃ char copies rest, (located bytes start).2 = char :: (replicate copies char ++ rest) ∧
    copies * char.length ≤ maxBytes bytes length ∧ maxBytes bytes length < (copies + 1) * char.length ∧
    (copies = 0 ∨ (copies + 1) * char.length ≤ maxBytes bytes length + (located bytes start).1) ∧
    ∀ next ∈ rest.head?,
      maxBytes bytes length + (located bytes start).1 < (copies + 1) * char.length + next.length

/-! ## Characters -/

theorem utf8Char_shape (h : IsUtf8Char char) : ∃ first rest, char = first :: rest ∧
    isContinuation first = false ∧ ∀ byte ∈ rest, isContinuation byte = true := by
  obtain ⟨code, h⟩ := h
  unfold decodeUtf8Char at h
  (repeat' split at h) <;> simp only [Option.some.injEq, Prod.mk.injEq, reduceCtorEq] at h
  all_goals
    refine ⟨_, _, rfl, ?_, ?_⟩
    · grind [isContinuation]
    · grind

theorem utf8Chars_flatten (h : ∀ char ∈ chars, IsUtf8Char char) : utf8Chars chars.flatten = chars := by
  refine splitBy_flatten (fun hnil => (h _ hnil).ne_nil rfl) (fun char hchar => ?_) ?_
  · obtain ⟨first, rest, rfl, -, hrest⟩ := utf8Char_shape (h char hchar)
    clear hchar
    induction rest generalizing first with
    | nil => exact .singleton _
    | cons byte rest ih =>
      rw [forall_mem_cons] at hrest
      exact .cons_cons hrest.1 (ih byte hrest.2)
  · refine (pairwise_of_forall_mem_list fun char hchar next hnext => ?_).isChain
    obtain ⟨first, rest, rfl, hfirst, -⟩ := utf8Char_shape (h next hnext)
    exact ⟨(h char hchar).ne_nil, cons_ne_nil _ _, hfirst⟩

theorem utf8Chars_spec (h : isUtf8 bytes = true) :
    (∀ char ∈ utf8Chars bytes, IsUtf8Char char) ∧ (utf8Chars bytes).flatten = bytes := by
  obtain ⟨chars, hchars, rfl⟩ := isUtf8_iff.mp h
  rw [utf8Chars_flatten hchars]
  exact ⟨hchars, rfl⟩

/-! ## Runs -/

theorem runWithin_prefix (budget : Nat) (text : List PhpString) : runWithin budget text <+: text := by
  induction text generalizing budget with
  | nil => exact prefix_rfl
  | cons char text ih =>
    rw [runWithin]
    split
    · exact (prefix_cons_inj char).mpr (ih _)
    · exact nil_prefix

/-- What a run is: it fits, and with the character behind it it does not. -/
theorem runWithin_eq_iff : runWithin budget text = run ↔ ∃ rest, text = run ++ rest ∧
    run.flatten.length ≤ budget ∧ ∀ next ∈ rest.head?, budget < run.flatten.length + next.length := by
  induction text generalizing budget run with
  | nil =>
    rw [runWithin]
    constructor
    · rintro rfl
      exact ⟨[], rfl, Nat.zero_le _, nofun⟩
    · rintro ⟨rest, hsplit, -⟩
      exact (append_eq_nil_iff.mp hsplit.symm).1.symm
  | cons char text ih =>
    rw [runWithin]
    split
    · next hfits =>
      cases run with
      | nil =>
        refine iff_of_false (cons_ne_nil _ _) ?_
        rintro ⟨rest, rfl, -, hnext⟩
        have := hnext char rfl
        simp only [flatten_nil, length_nil] at this
        omega
      | cons first run =>
        simp only [cons_append, cons.injEq, ih, flatten_cons, length_append]
        constructor
        · rintro ⟨rfl, rest, rfl, hle, hnext⟩
          exact ⟨rest, ⟨rfl, rfl⟩, by omega, fun next hmem => by have := hnext next hmem; omega⟩
        · rintro ⟨rest, ⟨rfl, rfl⟩, hle, hnext⟩
          exact ⟨rfl, rest, rfl, by omega, fun next hmem => by have := hnext next hmem; omega⟩
    · next hwide =>
      constructor
      · rintro rfl
        refine ⟨char :: text, rfl, Nat.zero_le _, ?_⟩
        rintro next ⟨⟩
        simp only [flatten_nil, length_nil]
        omega
      · rintro ⟨rest, hsplit, hle, -⟩
        cases run with
        | nil => rfl
        | cons first run =>
          cases hsplit
          rw [flatten_cons, length_append] at hle
          omega

theorem length_flatten_replicate (copies : Nat) (char : PhpString) :
    (replicate copies char).flatten.length = copies * char.length := by
  simp

/-- More bytes than the text has make no difference. -/
theorem runWithin_min (h : text.flatten.length ≤ limit) :
    runWithin (min budget limit) text = runWithin budget text := by
  induction text generalizing budget limit with
  | nil => rfl
  | cons char text ih =>
    rw [flatten_cons, length_append] at h
    rw [runWithin, runWithin, ← Nat.sub_min_sub_right, ih (by omega)]
    simp only [Nat.le_min, show char.length ≤ limit by omega, and_true]

/-- A run that starts with a character, and does so again behind it, repeats the character. -/
theorem eq_replicate_of_prefix (h : run <+: char :: text) (h' : run <+: text) :
    run = replicate run.length char := by
  induction run generalizing text with
  | nil => rfl
  | cons first run ih =>
    obtain ⟨rfl, hrun⟩ := cons_prefix_cons.mp h
    obtain ⟨rest, rfl, hrest⟩ : ∃ rest, text = first :: rest ∧ run <+: rest := by
      obtain ⟨tail, rfl⟩ := h'
      exact ⟨run ++ tail, rfl, prefix_append run tail⟩
    rw [length_cons, replicate_succ, ← ih hrun hrest]

/-! ## The loop -/

theorem runWithin_zero (h : ∀ char ∈ text, IsUtf8Char char) : runWithin 0 text = [] := by
  cases text with
  | nil => rfl
  | cons char text =>
    have := length_pos_iff.mpr (h char mem_cons_self).ne_nil
    rw [runWithin, if_neg (by omega)]

theorem cutChars_cons (h : cutChars .utf8 start stop (cursor + char.length) text = .ok output) :
    cutChars .utf8 start stop cursor (char :: text) =
      .ok (if start ≤ cursor ∧ cursor + char.length ≤ stop then char :: output else output) := by
  show (cutChars .utf8 start stop (cursor + [char].flatten.length) text >>= fun output => _) = _
  rw [flatten_singleton, h]
  rfl

/-- Behind the start the loop keeps characters as long as they end in time. -/
theorem cutChars_run (h : ∀ char ∈ text, IsUtf8Char char) (hle : start ≤ cursor) :
    cutChars .utf8 start stop cursor text = .ok (runWithin (stop - cursor) text) := by
  induction text generalizing cursor with
  | nil => rfl
  | cons char text ih =>
    rw [forall_mem_cons] at h
    rw [cutChars_cons (ih h.2 (Nat.le_add_right_of_le hle)), runWithin, Nat.sub_sub]
    by_cases hfits : cursor + char.length ≤ stop
    · rw [if_pos ⟨hle, hfits⟩, if_pos (by omega)]
    · have hlength : char.length ≠ 0 := by simpa using h.1.ne_nil
      rw [if_neg (fun hkept => hfits hkept.2), if_neg (by omega), Nat.sub_eq_zero_of_le (by omega),
        runWithin_zero h.2]

/-- In front of it nothing is kept, also not the character that contains it. -/
theorem cutChars_utf8 (h : ∀ char ∈ text, IsUtf8Char char)
    (hlocate : locate index text = (inside, run)) :
    cutChars .utf8 (cursor + index) stop cursor text = .ok (
      if inside = 0 then runWithin (stop - (cursor + index)) run
      else runWithin (stop - (cursor + index) + inside - (run.headD []).length) run.tail) := by
  induction text generalizing cursor index with
  | nil =>
    obtain ⟨rfl, rfl⟩ := Prod.mk.inj hlocate
    simp [cutChars, runWithin]
  | cons char text ih =>
    rw [locate] at hlocate
    split at hlocate
    · next hlt =>
      obtain ⟨rfl, rfl⟩ := Prod.mk.inj hlocate
      split
      · next hzero =>
        rw [hzero]
        exact cutChars_run h (Nat.le_refl _)
      · next hzero =>
        rw [cutChars_cons (cutChars_run (forall_mem_cons.mp h).2 (by omega)), if_neg (by omega)]
        congr 2
        simp only [headD_cons]
        omega
    · next hle =>
      rw [forall_mem_cons] at h
      have hpos := length_pos_iff.mpr h.1.ne_nil
      have hindex : cursor + char.length + (index - char.length) = cursor + index := by omega
      rw [cutChars_cons (hindex ▸ ih h.2 hlocate), if_neg (by omega)]

/-- The characters from the start on, and the bytes they take. -/
theorem locate_spec (h : ∀ char ∈ text, IsUtf8Char char) (hindex : index ≤ text.flatten.length)
    (hlocate : locate index text = (inside, run)) :
    (∀ char ∈ run, IsUtf8Char char) ∧ index + run.flatten.length = text.flatten.length + inside ∧
      (inside = 0 ∨ ∃ char rest, run = char :: rest ∧ inside < char.length) := by
  induction text generalizing index with
  | nil =>
    obtain ⟨rfl, rfl⟩ := Prod.mk.inj hlocate
    exact ⟨h, Nat.add_comm .., .inl (Nat.le_zero.mp hindex)⟩
  | cons char text ih =>
    rw [locate] at hlocate
    split at hlocate
    · next hlt =>
      obtain ⟨rfl, rfl⟩ := Prod.mk.inj hlocate
      exact ⟨h, Nat.add_comm .., .inr ⟨char, text, rfl, hlt⟩⟩
    · rw [flatten_cons, length_append] at hindex ⊢
      obtain ⟨hrun, hlength, hinside⟩ := ih (forall_mem_cons.mp h).2 (by omega) hlocate
      refine ⟨hrun, ?_, hinside⟩
      clear hinside
      omega

theorem normalizeCharacterOffset_eq (total : Nat) (offset : Int) :
    normalizeCharacterOffset total offset = phpStart total offset := by
  rw [normalizeCharacterOffset, phpStart]
  split <;> split <;> omega

theorem located_spec (hutf8 : isUtf8 bytes = true) (hlocated : located bytes start = (inside, run)) :
    (∀ char ∈ run, IsUtf8Char char) ∧ phpStart bytes.length start + run.flatten.length = bytes.length + inside ∧
      (inside = 0 ∨ ∃ char rest, run = char :: rest ∧ inside < char.length) := by
  obtain ⟨hchars, hflatten⟩ := utf8Chars_spec hutf8
  have hindex : phpStart bytes.length start ≤ bytes.length := by
    rw [phpStart]
    split <;> omega
  have h := locate_spec hchars (by rwa [hflatten]) hlocated
  rwa [hflatten] at h

variable {length : Option Int}

theorem byteEnd_sub (bytes : PhpString) (hlength : ∀ count ∈ length, 0 ≤ count) (index : Nat) :
    byteEnd bytes.length index length - index = min (maxBytes bytes length) (bytes.length - index) := by
  cases length with
  | none => exact (Nat.min_eq_right (Nat.sub_le ..)).symm
  | some count =>
    have := hlength count rfl
    rw [byteEnd, if_neg (by omega), ← Nat.sub_min_sub_right, Nat.add_sub_cancel_left]
    rfl

/-- What the code returns, by the place of the start. -/
theorem mbStrcut_utf8 (hutf8 : isUtf8 bytes = true) (hlength : ∀ count ∈ length, 0 ≤ count)
    (hlocated : located bytes start = (inside, run)) : mbStrcut .utf8 bytes start length = .ok (
      if inside = 0 then runWithin (maxBytes bytes length) run
      else runWithin (maxBytes bytes length + inside - (run.headD []).length) run.tail).flatten := by
  obtain ⟨-, hsize, hplace⟩ := located_spec hutf8 hlocated
  have hcut : cutChars .utf8 (0 + phpStart bytes.length start) (byteEnd bytes.length
      (phpStart bytes.length start) length) 0 (utf8Chars bytes) = _ :=
    cutChars_utf8 (utf8Chars_spec hutf8).1 hlocated
  rw [Nat.zero_add, byteEnd_sub bytes hlength] at hcut
  have hdecode : Encoding.utf8.decode bytes = .ok (utf8Chars bytes) := if_pos hutf8
  rw [mbStrcut, if_neg (by decide), hdecode, normalizeCharacterOffset_eq]
  refine (congrArg (· >>= Encoding.utf8.encode) hcut).trans (congrArg Encoding.utf8.encode ?_)
  -- The bytes of the text do not bound the runs any further.
  split
  · exact runWithin_min (by omega)
  · next hinside =>
    obtain ⟨char, rest, rfl, hlt⟩ := hplace.resolve_left hinside
    rw [flatten_cons, length_append] at hsize
    rw [headD_cons, tail_cons, ← Nat.add_min_add_right, ← Nat.sub_min_sub_right]
    exact runWithin_min (by omega)

theorem sameCopies_iff (hlocated : located bytes start = (inside, char :: text)) (hne : ∀ next ∈ text, next ≠ []) :
    SameCopies bytes start length ↔ ∃ copies,
      runWithin (maxBytes bytes length) (char :: text) = replicate copies char ∧
      runWithin (maxBytes bytes length + inside - char.length) text = replicate copies char := by
  simp only [SameCopies, hlocated, runWithin_eq_iff, length_flatten_replicate, Nat.add_mul, Nat.one_mul]
  constructor
  · rintro ⟨_, copies, rest, ⟨⟩, hle, hbound, hfits, hnext⟩
    refine ⟨copies, ⟨char :: rest, ?_, hle, ?_⟩, rest, rfl, ?_, fun next hmem => ?_⟩
    · rw [← cons_append, ← replicate_succ, replicate_succ', append_assoc, singleton_append]
    · rintro next ⟨⟩
      exact hbound
    · rcases hfits with rfl | hfits <;> omega
    · have hpos := length_pos_iff.mpr (hne next (mem_append_right _ (mem_of_mem_head? hmem)))
      have := hnext next hmem
      omega
  · rintro ⟨copies, ⟨rest, hsplit, hle, hbound⟩, rest', rfl, hfits, hnext⟩
    rw [← cons_append, ← replicate_succ, replicate_succ', append_assoc, singleton_append] at hsplit
    obtain rfl := append_cancel_left hsplit
    refine ⟨char, copies, rest', rfl, hle, hbound char rfl, ?_, fun next hmem => ?_⟩
    · rcases Nat.eq_zero_or_pos copies with hzero | hpos
      · exact .inl hzero
      · have := Nat.le_mul_of_pos_left char.length hpos
        omega
    · have := hnext next hmem
      omega

/-- Both functions return the same bytes. They are those of PHP if the start is in front of a character,
and otherwise only where both runs are copies of it. -/
theorem mbStrcut_follows_php_iff (encodings : String → Option (Encoding PhpString))
    (internalEncoding : String) (encoding : Option String)
    (hencoding : encodings (encoding.getD internalEncoding) = some .utf8)
    (bytes : PhpString) (hutf8 : isUtf8 bytes = true) (start : Int) (length : Option Int)
    (hlength : ∀ count ∈ length, 0 ≤ count) :
    ∃ result, builtinMbStrcut encodings internalEncoding bytes start length encoding = .ok result ∧
      nativeMbStrcut encodings bytes start length (encoding.getD internalEncoding) = some result ∧
      (result = phpStrcut bytes start length ↔
        (located bytes start).1 = 0 ∨ SameCopies bytes start length) := by
  rcases hlocated : located bytes start with ⟨inside, run⟩
  have hcode := mbStrcut_utf8 hutf8 hlength hlocated
  have hbuiltin : builtinMbStrcut encodings internalEncoding bytes start length encoding =
      mbStrcut .utf8 bytes start length := by
    rw [builtinMbStrcut, hencoding]
  rw [hbuiltin, nativeMbStrcut, hencoding, Option.bind_some, hcode]
  refine ⟨_, rfl, rfl, ?_⟩
  rw [phpStrcut, hlocated]
  by_cases hinside : inside = 0
  · rw [if_pos hinside]
    exact iff_of_true rfl (.inl hinside)
  obtain ⟨hrun, -, hplace⟩ := located_spec hutf8 hlocated
  obtain ⟨char, rest, rfl, -⟩ := hplace.resolve_left hinside
  rw [if_neg hinside, or_iff_right hinside, headD_cons, tail_cons, sameCopies_iff hlocated fun _ hmem => (hrun _ (mem_cons_of_mem _ hmem)).ne_nil]
  have hfirst := runWithin_prefix (maxBytes bytes length) (char :: rest)
  have hfirst' := runWithin_prefix (maxBytes bytes length + inside - char.length) rest
  constructor
  · intro heq
    have heq := congrArg utf8Chars heq
    rw [utf8Chars_flatten fun _ hmem => hrun _ (mem_cons_of_mem _ (hfirst'.subset hmem)),
      utf8Chars_flatten fun _ hmem => hrun _ (hfirst.subset hmem)] at heq
    have hcopies := eq_replicate_of_prefix (heq ▸ hfirst) hfirst'
    exact ⟨_, heq ▸ hcopies, hcopies⟩
  · rintro ⟨copies, hcopies, hcopies'⟩
    rw [hcopies]
    exact congrArg flatten hcopies'

theorem isUtf8_eAcute (count : Nat) : isUtf8 (replicate count [0xc3, 0xa9]).flatten = true :=
  isUtf8_iff.mpr ⟨_, fun _ hmem => eq_of_mem_replicate hmem ▸ ⟨0xe9, by decide⟩, rfl⟩

/-- Of `éé` from the second byte on, three bytes have room for one `é`. PHP takes the first one, the code the
second one. -/
theorem mbStrcut_follows_php_copies : ∃ result,
    builtinMbStrcut (fun _ => some .utf8) "UTF-8" [0xc3, 0xa9, 0xc3, 0xa9] 1 (some 3) none = .ok result ∧
      nativeMbStrcut (fun _ => some .utf8) [0xc3, 0xa9, 0xc3, 0xa9] 1 (some 3) "UTF-8" = some result ∧
      result = phpStrcut [0xc3, 0xa9, 0xc3, 0xa9] 1 (some 3) ∧ result = [0xc3, 0xa9] := by
  obtain ⟨result, hbuiltin, hnative, hiff⟩ := mbStrcut_follows_php_iff (fun _ => some .utf8) "UTF-8" none rfl
    [0xc3, 0xa9, 0xc3, 0xa9] (isUtf8_eAcute 2) 1 (some 3) (by simp)
  have hresult := hiff.mpr (.inr ⟨[0xc3, 0xa9], 1, [], by decide, by decide, by decide, by decide, nofun⟩)
  exact ⟨result, hbuiltin, hnative, hresult, hresult.trans (by decide)⟩

/-- PHP takes the whole character that contains the start, the code leaves it out. -/
theorem mbStrcut_inside_character :
    nativeMbStrcut (fun _ => some .utf8) [0xc3, 0xa9] 1 (some 2) "UTF-8" = some [] ∧
      phpStrcut [0xc3, 0xa9] 1 (some 2) = [0xc3, 0xa9] := by
  refine ⟨?_, by decide⟩
  rw [nativeMbStrcut, Option.bind_some,
    mbStrcut_utf8 (show isUtf8 [0xc3, 0xa9] = true from isUtf8_eAcute 1) (by simp) (show located _ 1 = (1, [[0xc3, 0xa9]]) by decide)]
  rfl

end Phrust.Mbstring
