import Phrust.Runtime.HtmlEscape

/-!
# UTF-8

A text that `std::str::from_utf8` accepts is a sequence of characters; a character is one ASCII byte or
has none.
-/

namespace Phrust
open List

/-- The bytes of one character. -/
def IsUtf8Char (char : PhpString) : Prop := ∃ code, decodeUtf8Char char = some (code, char.length)

theorem le_of_isContinuation (h : isContinuation byte = true) : 128 ≤ byte := by
  rw [isContinuation, Bool.and_eq_true, decide_eq_true_eq] at h
  exact h.1

/-- What is decoded is read from the bytes of the first character. -/
theorem decodeUtf8Char_eq_some (h : decodeUtf8Char bytes = some (code, size)) :
    ∃ char rest, bytes = char ++ rest ∧ char.length = size ∧ char ≠ [] ∧
      (∀ rest', decodeUtf8Char (char ++ rest') = some (code, size)) ∧
      ((∃ byte < 128, char = [byte]) ∨ ∀ byte ∈ char, 128 ≤ byte) := by
  refine ⟨bytes.take size, bytes.drop size, (take_append_drop size bytes).symm, ?_⟩
  unfold decodeUtf8Char at h ⊢
  -- Each case is a first byte of its class with the continuations it asks for.
  (repeat' split at h) <;> simp only [Option.some.injEq, Prod.mk.injEq, reduceCtorEq] at h
  all_goals obtain ⟨rfl, rfl⟩ := h
  · simp_all
  all_goals
    refine ⟨rfl, cons_ne_nil _ _, fun rest' => ?_, .inr ?_⟩
    · simp only [take_succ_cons, take_zero, cons_append, nil_append]
      grind
    · grind [le_of_isContinuation]

theorem IsUtf8Char.ne_nil (h : IsUtf8Char char) : char ≠ [] := by
  rintro rfl
  obtain ⟨code, h⟩ := h
  cases h

theorem IsUtf8Char.of_ascii (h : byte < 128) : IsUtf8Char [byte] := by
  refine ⟨byte.toNat, ?_⟩
  rw [decodeUtf8Char.eq_def]
  exact if_pos h

theorem IsUtf8Char.bytes (h : IsUtf8Char char) :
    (∃ byte < 128, char = [byte]) ∨ ∀ byte ∈ char, 128 ≤ byte := by
  obtain ⟨code, h⟩ := h
  obtain ⟨char', rest, rfl, hsize, -, -, hbytes⟩ := decodeUtf8Char_eq_some h
  have hrest : rest = [] := by
    rw [length_append] at hsize
    exact eq_nil_of_length_eq_zero (by omega)
  rwa [hrest, append_nil]

theorem IsUtf8Char.decode_append (h : IsUtf8Char char) :
    ∃ code, ∀ rest, decodeUtf8Char (char ++ rest) = some (code, char.length) := by
  obtain ⟨code, h⟩ := h
  obtain ⟨char', rest, rfl, hsize, -, hdecode, -⟩ := decodeUtf8Char_eq_some h
  have hrest : rest = [] := by
    rw [length_append] at hsize
    exact eq_nil_of_length_eq_zero (by omega)
  subst hrest
  rw [append_nil] at hdecode ⊢
  exact ⟨code, hdecode⟩

theorem IsUtf8Char.isUtf8_append (h : IsUtf8Char char) (rest : PhpString) :
    isUtf8 (char ++ rest) = isUtf8 rest := by
  obtain ⟨code, hdecode⟩ := h.decode_append
  cases char with
  | nil => exact absurd rfl h.ne_nil
  | cons byte char =>
    have hdecode := hdecode rest
    rw [cons_append] at hdecode ⊢
    rw [isUtf8, hdecode]
    simp only [length_cons, Nat.add_sub_cancel]
    rw [drop_left]

theorem isUtf8_flatten {chars : List PhpString} (h : ∀ char ∈ chars, IsUtf8Char char) (rest : PhpString) :
    isUtf8 (chars.flatten ++ rest) = isUtf8 rest := by
  induction chars with
  | nil => rfl
  | cons char chars ih =>
    rw [forall_mem_cons] at h
    rw [flatten_cons, append_assoc, h.1.isUtf8_append, ih h.2]

theorem isUtf8_iff :
    isUtf8 text = true ↔ ∃ chars : List PhpString, (∀ char ∈ chars, IsUtf8Char char) ∧ text = chars.flatten := by
  constructor
  · intro h
    induction hlength : text.length using Nat.strongRecOn generalizing text with
    | ind length ih =>
      cases text with
      | nil => exact ⟨[], forall_mem_nil _, rfl⟩
      | cons byte text =>
        rw [isUtf8] at h
        split at h
        · cases h
        · next size hdecode =>
          obtain ⟨char, rest, hbytes, hsize, hne, hchar, -⟩ := decodeUtf8Char_eq_some hdecode
          have hrest : text.drop (size - 1) = rest := by
            cases char with
            | nil => exact absurd rfl hne
            | cons b char =>
              rw [cons_append, List.cons.injEq] at hbytes
              rw [hbytes.2, ← hsize]
              exact drop_left
          rw [hrest] at h
          have hlt : rest.length < length := by
            rw [← hlength, hbytes, length_append]
            have := length_pos_iff.mpr hne
            omega
          obtain ⟨chars, hchars, rfl⟩ := ih _ hlt h rfl
          have hfirst : IsUtf8Char char := ⟨_, by rw [hsize]; simpa using hchar []⟩
          exact ⟨char :: chars, forall_mem_cons.mpr ⟨hfirst, hchars⟩, hbytes⟩
  · rintro ⟨chars, hchars, rfl⟩
    have := isUtf8_flatten hchars []
    rw [append_nil] at this
    rw [this, isUtf8]

theorem isUtf8_append (h : isUtf8 text = true) (rest : PhpString) : isUtf8 (text ++ rest) = isUtf8 rest := by
  obtain ⟨chars, hchars, rfl⟩ := isUtf8_iff.mp h
  exact isUtf8_flatten hchars rest

theorem isUtf8_of_ascii (h : ∀ byte ∈ text, byte < 128) : isUtf8 text = true := by
  refine isUtf8_iff.mpr ⟨text.map fun byte => [byte], fun char hchar => ?_, ?_⟩
  · obtain ⟨byte, hbyte, rfl⟩ := mem_map.mp hchar
    exact .of_ascii (h byte hbyte)
  induction text with
  | nil => rfl
  | cons byte text ih =>
    rw [map_cons, flatten_cons, ← ih (forall_mem_cons.mp h).2, singleton_append]

theorem isUtf8_of_all (h : text.all (· < (128 : UInt8)) = true) : isUtf8 text = true :=
  isUtf8_of_ascii fun byte hbyte => of_decide_eq_true (all_eq_true.mp h byte hbyte)

end Phrust
