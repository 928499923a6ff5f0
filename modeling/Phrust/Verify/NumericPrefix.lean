import Phrust.Verify.DecimalText

/-!
# The number in front of a text

`numeric_prefix_len` finds the longest decimal number in front of a text: an optional sign, digits with an
optional point among them, and an exponent if it has digits.
-/

namespace Phrust
open List Option

/-! ## Signs -/

section
variable (text : PhpString)

def signText : PhpString := if isSign text.head? then text.take 1 else []

theorem sign_cases : (∃ rest, text = 45 :: rest) ∨ (∃ rest, text = 43 :: rest) ∨
    isSign text.head? = false ∧ splitSign text = (false, text) := by
  cases text with
  | nil => exact .inr (.inr ⟨rfl, rfl⟩)
  | cons byte rest =>
    by_cases hminus : byte = 45
    · exact .inl ⟨rest, by rw [hminus]⟩
    by_cases hplus : byte = 43
    · exact .inr (.inl ⟨rest, by rw [hplus]⟩)
    · refine .inr (.inr ⟨by simp [isSign, hminus, hplus], ?_⟩)
      rw [splitSign.eq_def]
      split <;> simp_all

theorem signText_append : signText text ++ (splitSign text).2 = text := by
  rcases sign_cases text with ⟨rest, rfl⟩ | ⟨rest, rfl⟩ | ⟨hsign, hsplit⟩
  · rfl
  · rfl
  · simp [signText, hsign, hsplit]

theorem length_signText : (signText text).length = if isSign text.head? then 1 else 0 := by
  rcases sign_cases text with ⟨rest, rfl⟩ | ⟨rest, rfl⟩ | ⟨hsign, -⟩
  · rfl
  · rfl
  · simp [signText, hsign]

end

theorem splitSign_signText_append (h : part <+: (splitSign text).2) :
    splitSign (signText text ++ part) = ((splitSign text).1, part) := by
  rcases sign_cases text with ⟨rest, rfl⟩ | ⟨rest, rfl⟩ | ⟨hsign, hsplit⟩
  · rfl
  · rfl
  rw [hsplit] at h ⊢
  have hnone : signText text = [] := by simp [signText, hsign]
  rw [hnone, nil_append]
  obtain ⟨rest, rfl⟩ := h
  rcases sign_cases part with ⟨rest, rfl⟩ | ⟨rest, rfl⟩ | ⟨-, hpart⟩
  · cases hsign
  · cases hsign
  · exact hpart

/-! ## Runs of digits -/

theorem takeWhile_digits_append {digits rest : PhpString} (hall : digits.all isAsciiDigit = true)
    (hrest : ∀ byte ∈ rest.head?, isAsciiDigit byte = false) :
    (digits ++ rest).takeWhile isAsciiDigit = digits ∧ (digits ++ rest).dropWhile isAsciiDigit = rest := by
  have htake : rest.takeWhile isAsciiDigit = [] ∧ rest.dropWhile isAsciiDigit = rest := by
    cases rest with
    | nil => exact ⟨rfl, rfl⟩
    | cons byte rest => simp [hrest byte rfl]
  rw [takeWhile_append_of_pos (all_eq_true.mp hall), dropWhile_append_of_pos (all_eq_true.mp hall),
    htake.1, htake.2, append_nil]
  exact ⟨rfl, rfl⟩

/-! ## Numbers -/

/-- The exponent in front of a text, if it has digits. -/
def exponentText : PhpString → PhpString
  | [] => []
  | marker :: rest =>
    if isExponentMarker marker ∧ (splitSign rest).2.takeWhile isAsciiDigit ≠ [] then
      marker :: (signText rest ++ (splitSign rest).2.takeWhile isAsciiDigit)
    else []

/-- The number in front of a text without a sign, if it has digits. -/
def numberText (body : PhpString) : Option PhpString :=
  let whole := body.takeWhile isAsciiDigit
  match body.dropWhile isAsciiDigit with
  | 46 :: rest =>
    let fraction := rest.takeWhile isAsciiDigit
    if whole = [] ∧ fraction = [] then none
    else some (whole ++ 46 :: (fraction ++ exponentText (rest.dropWhile isAsciiDigit)))
  | rest => if whole = [] then none else some (whole ++ exponentText rest)

theorem numberText_of_point (h : body.dropWhile isAsciiDigit = 46 :: rest) : numberText body =
    if body.takeWhile isAsciiDigit = [] ∧ rest.takeWhile isAsciiDigit = [] then none
    else some (body.takeWhile isAsciiDigit ++
      46 :: (rest.takeWhile isAsciiDigit ++ exponentText (rest.dropWhile isAsciiDigit))) := by
  rw [numberText, h]
  rfl

theorem numberText_of_head (h : (body.dropWhile isAsciiDigit).head? ≠ some 46) : numberText body =
    if body.takeWhile isAsciiDigit = [] then none
    else some (body.takeWhile isAsciiDigit ++ exponentText (body.dropWhile isAsciiDigit)) := by
  rw [numberText]
  split
  · next hpoint => exact absurd (by rw [hpoint]; rfl) h
  · rfl

theorem exponentText_cases (rest : PhpString) : exponentText rest = [] ∨
    ∃ marker after, rest = marker :: after ∧ isExponentMarker marker = true ∧
      (splitSign after).2.takeWhile isAsciiDigit ≠ [] ∧
      exponentText rest = marker :: (signText after ++ (splitSign after).2.takeWhile isAsciiDigit) := by
  cases rest with
  | nil => exact .inl rfl
  | cons marker after =>
    by_cases h : isExponentMarker marker ∧ (splitSign after).2.takeWhile isAsciiDigit ≠ []
    · exact .inr ⟨marker, after, rfl, h.1, h.2, if_pos h⟩
    · exact .inl (if_neg h)

/-- What the scanner does from the place where an exponent may start. -/
theorem scanExponent_eq (h : bytes = front ++ back) :
    (if bytes[front.length]?.any isExponentMarker then
      let exponentStart := if isSign bytes[front.length + 1]? then front.length + 2 else front.length + 1
      let exponentDigits := asciiDigitRunLen (bytes.drop exponentStart)
      if exponentDigits = 0 then some front.length else some (exponentStart + exponentDigits)
    else some front.length) = some (front ++ exponentText back).length := by
  subst h
  cases back with
  | nil => simp [exponentText]
  | cons marker rest =>
    have hmarker : (front ++ marker :: rest)[front.length]? = some marker := by simp
    have hsign : (front ++ marker :: rest)[front.length + 1]? = rest.head? := by
      simp [getElem?_append_right, head?_eq_getElem?]
    have hstart : (if isSign rest.head? then front.length + 2 else front.length + 1) =
        (front ++ marker :: signText rest).length := by
      rw [length_append, length_cons, length_signText]
      split <;> omega
    have hsplit : front ++ marker :: rest = (front ++ marker :: signText rest) ++ (splitSign rest).2 := by
      simp [signText_append]
    have hdrop : (front ++ marker :: rest).drop (front ++ marker :: signText rest).length = (splitSign rest).2 := by
      rw [hsplit, drop_left]
    simp only [hmarker, hsign, hstart, hdrop, any_some, asciiDigitRunLen, length_eq_zero_iff, exponentText]
    by_cases hdigits : (splitSign rest).2.takeWhile isAsciiDigit = []
    · simp [hdigits]
    · cases hkind : isExponentMarker marker with
      | true => simp [hdigits, Nat.add_assoc, Nat.add_comm]
      | false => simp

/-- The scanner finds the sign and the number behind it. -/
theorem numericPrefixLen_eq (bytes : PhpString) : numericPrefixLen bytes =
    (numberText (splitSign bytes).2).map fun number => (signText bytes ++ number).length := by
  have hbytes := signText_append bytes
  rw [numericPrefixLen, ← length_signText]
  generalize signText bytes = sign at hbytes ⊢
  generalize (splitSign bytes).2 = body at hbytes ⊢
  subst hbytes
  have hsplit : sign ++ body = (sign ++ body.takeWhile isAsciiDigit) ++ body.dropWhile isAsciiDigit := by
    rw [append_assoc, takeWhile_append_dropWhile]
  have hfront : sign.length + asciiDigitRunLen body = (sign ++ body.takeWhile isAsciiDigit).length :=
    length_append.symm
  have hpoint : (sign ++ body)[(sign ++ body.takeWhile isAsciiDigit).length]? =
      (body.dropWhile isAsciiDigit).head? := by
    rw [hsplit, getElem?_append_right (Nat.le_refl _), Nat.sub_self, head?_eq_getElem?]
  have hrest : (sign ++ body).drop ((sign ++ body.takeWhile isAsciiDigit).length + 1) =
      (body.dropWhile isAsciiDigit).tail := by
    rw [hsplit, drop_append, Nat.add_sub_cancel_left, drop_one, drop_eq_nil_of_le (Nat.le_succ _), nil_append]
  simp only [drop_left, hfront, hpoint, hrest]
  by_cases hhead : (body.dropWhile isAsciiDigit).head? = some 46
  · obtain ⟨rest, hpoint⟩ := head?_eq_some_iff.mp hhead
    rw [numberText_of_point hpoint, hpoint]
    -- digits may follow the point
    have hend : (sign ++ body.takeWhile isAsciiDigit).length + 1 + asciiDigitRunLen rest =
        (sign ++ (body.takeWhile isAsciiDigit ++ 46 :: rest.takeWhile isAsciiDigit)).length := by
      simp only [asciiDigitRunLen, length_append, length_cons]
      omega
    have hbytes : sign ++ body = (sign ++ (body.takeWhile isAsciiDigit ++ 46 :: rest.takeWhile isAsciiDigit)) ++
        rest.dropWhile isAsciiDigit := by
      rw [hsplit, hpoint]
      simp
    simp only [head?_cons, if_true, tail_cons, hend, scanExponent_eq hbytes]
    simp only [asciiDigitRunLen, Nat.add_eq_zero_iff, length_eq_zero_iff]
    split
    · rfl
    · simp
  · rw [numberText_of_head hhead]
    simp only [hhead, if_false, scanExponent_eq hsplit]
    simp only [asciiDigitRunLen, length_eq_zero_iff]
    split
    · rfl
    · simp

theorem numericPrefixLen_of_isInteger (h : isInteger bytes = true) : numericPrefixLen bytes = some bytes.length := by
  simp only [isInteger, Bool.and_eq_true, bne_iff_ne] at h
  have htake := takeWhile_eq_self_iff.mpr (all_eq_true.mp h.2)
  have hdrop := dropWhile_eq_nil_iff.mpr (all_eq_true.mp h.2)
  have hnumber : numberText (splitSign bytes).2 = some (splitSign bytes).2 := by
    rw [numberText_of_head (by rw [hdrop]; simp), htake, hdrop, if_neg h.1]
    simp [exponentText]
  rw [numericPrefixLen_eq, hnumber, map_some, signText_append]

/-! ## The number is a decimal -/

theorem exponentText_isPrefix (rest : PhpString) : exponentText rest <+: rest := by
  rcases exponentText_cases rest with h | ⟨marker, after, rfl, -, -, h⟩
  · rw [h]
    exact nil_prefix
  have hafter : signText after ++ (splitSign after).2.takeWhile isAsciiDigit <+: after := by
    conv => rhs; rw [← signText_append after]
    exact (prefix_append_right_inj _).mpr (List.takeWhile_prefix _)
  rw [h]
  exact (prefix_cons_inj marker).mpr hafter

theorem isExponent_exponentText (rest : PhpString) : isExponent (exponentText rest) = true := by
  rcases exponentText_cases rest with h | ⟨marker, after, rfl, hmarker, hdigits, h⟩
  · rw [h]
    rfl
  rw [h, isExponent, isInteger, splitSign_signText_append (List.takeWhile_prefix _)]
  simp only [isExponentMarker, Bool.or_comm] at hmarker
  simp only [hmarker, Bool.true_and, Bool.and_eq_true, bne_iff_ne, ne_eq, hdigits, not_false_eq_true, true_and]
  exact all_takeWhile

theorem head_exponentText (h : byte ∈ (exponentText rest).head?) : isAsciiDigit byte = false ∧ byte ≠ 46 := by
  rcases exponentText_cases rest with hnone | ⟨marker, after, rfl, hmarker, -, hsome⟩
  · rw [hnone] at h
    cases h
  rw [hsome] at h
  cases h
  simp only [isExponentMarker, Bool.or_eq_true, beq_iff_eq] at hmarker
  rcases hmarker with rfl | rfl <;> exact ⟨rfl, by decide⟩

theorem numberText_isPrefix (h : numberText body = some number) : number <+: body := by
  have hsplit : body.takeWhile isAsciiDigit ++ body.dropWhile isAsciiDigit = body := takeWhile_append_dropWhile
  by_cases hhead : (body.dropWhile isAsciiDigit).head? = some 46
  · obtain ⟨rest, hpoint⟩ := head?_eq_some_iff.mp hhead
    rw [numberText_of_point hpoint, ite_none_left_eq_some] at h
    obtain ⟨-, h⟩ := h
    cases h
    rw [hpoint] at hsplit
    conv => rhs; rw [← hsplit]
    refine (prefix_append_right_inj _).mpr ((prefix_cons_inj _).mpr ?_)
    conv => rhs; rw [← takeWhile_append_dropWhile (p := isAsciiDigit) (l := rest)]
    exact (prefix_append_right_inj _).mpr (exponentText_isPrefix _)
  · rw [numberText_of_head hhead, ite_none_left_eq_some] at h
    obtain ⟨-, h⟩ := h
    cases h
    conv => rhs; rw [← hsplit]
    exact (prefix_append_right_inj _).mpr (exponentText_isPrefix _)

theorem take_numericPrefixLen {length : Nat} (h : numericPrefixLen bytes = some length) :
    ∃ number, numberText (splitSign bytes).2 = some number ∧ bytes.take length = signText bytes ++ number ∧
      splitSign (bytes.take length) = ((splitSign bytes).1, number) := by
  rw [numericPrefixLen_eq, map_eq_some_iff] at h
  obtain ⟨number, hnumber, rfl⟩ := h
  have hprefix := numberText_isPrefix hnumber
  have hbytes : signText bytes ++ number <+: bytes := by
    conv => rhs; rw [← signText_append bytes]
    exact (prefix_append_right_inj _).mpr hprefix
  have htake : bytes.take (signText bytes ++ number).length = signText bytes ++ number :=
    (prefix_iff_eq_take.mp hbytes).symm
  refine ⟨number, hnumber, htake, ?_⟩
  rw [htake, splitSign_signText_append hprefix]

theorem isDecimal_of_numberText (h : numberText body = some number) (hsplit : (splitSign text).2 = number) :
    isDecimal text = true := by
  have hall (text : PhpString) : (text.takeWhile isAsciiDigit).all isAsciiDigit = true := all_takeWhile
  have hexponent (rest : PhpString) : ∀ byte ∈ (exponentText rest).head?, isAsciiDigit byte = false :=
    fun _ h => (head_exponentText h).1
  rw [isDecimal, hsplit]
  by_cases hhead : (body.dropWhile isAsciiDigit).head? = some 46
  · obtain ⟨rest, hpoint⟩ := head?_eq_some_iff.mp hhead
    rw [numberText_of_point hpoint, ite_none_left_eq_some] at h
    obtain ⟨hdigits, h⟩ := h
    cases h
    have hend (rest : PhpString) : ∀ byte ∈ (46 :: rest).head?, isAsciiDigit byte = false := by
      rintro byte ⟨rfl⟩
      rfl
    obtain ⟨htake, hdrop⟩ := takeWhile_digits_append (hall body)
      (hend (rest.takeWhile isAsciiDigit ++ exponentText (rest.dropWhile isAsciiDigit)))
    obtain ⟨htake', hdrop'⟩ := takeWhile_digits_append (hall rest) (hexponent (rest.dropWhile isAsciiDigit))
    simp only [htake, hdrop, htake', hdrop', isExponent_exponentText, Bool.and_true, Bool.or_eq_true, bne_iff_ne]
    exact not_and_or.mp hdigits
  · rw [numberText_of_head hhead, ite_none_left_eq_some] at h
    obtain ⟨hdigits, h⟩ := h
    cases h
    obtain ⟨htake, hdrop⟩ := takeWhile_digits_append (hall body) (hexponent (body.dropWhile isAsciiDigit))
    simp only [htake, hdrop]
    split
    · next hpoint => exact absurd rfl (head_exponentText (by rw [hpoint]; rfl)).2
    · simp only [isExponent_exponentText, Bool.and_true, bne_iff_ne]
      exact hdigits

/-- A number without point and exponent is the digits in front. -/
theorem digits_of_numberText (h : numberText body = some number) (hfloat : looksFloat number = false) :
    number = body.takeWhile isAsciiDigit ∧ number ≠ [] := by
  by_cases hhead : (body.dropWhile isAsciiDigit).head? = some 46
  · obtain ⟨rest, hpoint⟩ := head?_eq_some_iff.mp hhead
    rw [numberText_of_point hpoint, ite_none_left_eq_some] at h
    obtain ⟨hdigits, h⟩ := h
    cases h
    simp [looksFloat] at hfloat
  · rw [numberText_of_head hhead, ite_none_left_eq_some] at h
    obtain ⟨hdigits, h⟩ := h
    cases h
    rcases exponentText_cases (body.dropWhile isAsciiDigit) with hnone | ⟨marker, after, -, hmarker, -, hsome⟩
    · rw [hnone, append_nil]
      exact ⟨rfl, hdigits⟩
    · simp [looksFloat, hsome, hmarker] at hfloat

theorem digits_of_numberText_none (h : numberText body = none) : body.takeWhile isAsciiDigit = [] := by
  by_cases hhead : (body.dropWhile isAsciiDigit).head? = some 46
  · obtain ⟨rest, hpoint⟩ := head?_eq_some_iff.mp hhead
    rw [numberText_of_point hpoint, ite_eq_left_iff] at h
    by_contra hne
    cases h (fun hboth => hne hboth.1)
  · rw [numberText_of_head hhead, ite_eq_left_iff] at h
    by_contra hne
    cases h hne

theorem looksFloat_of_isInteger (h : isInteger bytes = true) : looksFloat bytes = false := by
  rw [looksFloat, Bool.eq_false_iff, ne_eq, List.any_eq_true]
  rintro ⟨byte, hbyte, hfloat⟩
  simp only [isExponentMarker, Bool.or_eq_true, beq_iff_eq] at hfloat
  simp only [isInteger, Bool.and_eq_true, List.all_eq_true] at h
  rcases splitSign_mem hbyte with rfl | rfl | hbyte
  · simp at hfloat
  · simp at hfloat
  · have hdigit := h.2 byte hbyte
    rcases hfloat with rfl | rfl | rfl <;> cases hdigit

/-! ## Numbers before white space -/

theorem splitSign_append (h : text ≠ []) (tail : PhpString) :
    (splitSign (text ++ tail)).2 = (splitSign text).2 ++ tail ∧ signText (text ++ tail) = signText text := by
  obtain ⟨byte, rest, rfl⟩ := exists_cons_of_ne_nil h
  refine ⟨?_, rfl⟩
  rcases sign_cases (byte :: rest) with ⟨_, heq⟩ | ⟨_, heq⟩ | ⟨hsign, hsplit⟩
  · cases heq
    rfl
  · cases heq
    rfl
  · rcases sign_cases (byte :: (rest ++ tail)) with ⟨_, heq⟩ | ⟨_, heq⟩ | ⟨-, hsplit'⟩
    · cases heq
      cases hsign
    · cases heq
      cases hsign
    · rw [hsplit, cons_append, hsplit']

section
variable {tail : PhpString} (htail : ∀ byte ∈ tail.head?, isNumberSpace byte = true)
include htail

theorem head_space : ∀ byte ∈ tail.head?, isAsciiDigit byte = false ∧ byte ≠ 46 ∧ isExponentMarker byte = false := by
  have hspaces : ∀ byte : UInt8, isNumberSpace byte = true →
      isAsciiDigit byte = false ∧ byte ≠ 46 ∧ isExponentMarker byte = false := by
    intro byte hbyte
    simp only [isNumberSpace, isAsciiDigit, isExponentMarker] at *
    grind
  exact fun byte hbyte => hspaces byte (htail byte hbyte)

theorem digits_append (digits : PhpString) (hall : digits.all isAsciiDigit = true) :
    (digits ++ tail).takeWhile isAsciiDigit = digits ∧ (digits ++ tail).dropWhile isAsciiDigit = tail :=
  takeWhile_digits_append hall fun byte hbyte => (head_space htail byte hbyte).1

theorem exponentText_append (h : isExponent text = true) : exponentText (text ++ tail) = text := by
  cases text with
  | nil =>
    cases tail with
    | nil => rfl
    | cons byte rest =>
      rw [nil_append, exponentText, if_neg]
      rw [(head_space htail byte rfl).2.2]
      exact fun h => Bool.false_ne_true h.1
  | cons marker rest =>
    obtain ⟨hmarker, hinteger⟩ := (Bool.and_eq_true _ _).mp h
    obtain ⟨hne, hall⟩ := (Bool.and_eq_true _ _).mp hinteger
    have hrest : rest ≠ [] := by rintro rfl; cases hne
    obtain ⟨hsplit, hsign⟩ := splitSign_append hrest tail
    rw [cons_append, exponentText, hsplit, hsign, (digits_append htail _ hall).1, if_pos, signText_append]
    exact ⟨by simpa [isExponentMarker, or_comm] using hmarker, bne_iff_ne.mp hne⟩

theorem head_exponent (h : isExponent text = true) :
    ∀ byte ∈ (text ++ tail).head?, isAsciiDigit byte = false ∧ byte ≠ 46 := by
  cases text with
  | nil => exact fun byte hbyte => (head_space htail byte hbyte).imp_right And.left
  | cons marker rest =>
    rintro byte ⟨rfl⟩
    have hmarker := ((Bool.and_eq_true _ _).mp h).1
    rw [Bool.or_eq_true, beq_iff_eq, beq_iff_eq] at hmarker
    rcases hmarker with rfl | rfl <;> decide

/-- The scanner reads a decimal number up to white space. -/
theorem numericPrefixLen_append (h : isDecimal text = true) : numericPrefixLen (text ++ tail) = some text.length := by
  have hne : text ≠ [] := by rintro rfl; cases h
  obtain ⟨hsplit, hsign⟩ := splitSign_append hne tail
  suffices hnumber : numberText ((splitSign text).2 ++ tail) = some (splitSign text).2 by
    rw [numericPrefixLen_eq, hsplit, hsign, hnumber, map_some, signText_append]
  rw [isDecimal] at h
  generalize (splitSign text).2 = body at h
  have hall (text : PhpString) : (text.takeWhile isAsciiDigit).all isAsciiDigit = true := all_takeWhile
  have hdigits (text : PhpString) (hexponent : isExponent (text.dropWhile isAsciiDigit) = true) :
      (text ++ tail).takeWhile isAsciiDigit = text.takeWhile isAsciiDigit ∧
        (text ++ tail).dropWhile isAsciiDigit = text.dropWhile isAsciiDigit ++ tail := by
    have h := takeWhile_digits_append (hall text) fun byte hbyte => (head_exponent htail hexponent byte hbyte).1
    rwa [← append_assoc, takeWhile_append_dropWhile] at h
  by_cases hhead : (body.dropWhile isAsciiDigit).head? = some 46
  · obtain ⟨rest, hpoint⟩ := head?_eq_some_iff.mp hhead
    rw [hpoint] at h
    simp only [Bool.and_eq_true, Bool.or_eq_true, bne_iff_ne] at h
    obtain ⟨htake, hdrop⟩ := hdigits rest h.2
    have hbody : body.takeWhile isAsciiDigit ++ 46 :: rest = body := by rw [← hpoint, takeWhile_append_dropWhile]
    obtain ⟨htake', hdrop'⟩ := takeWhile_digits_append (hall body)
      (show ∀ byte ∈ (46 :: (rest ++ tail)).head?, isAsciiDigit byte = false by rintro byte ⟨rfl⟩; rfl)
    rw [← cons_append, ← append_assoc, hbody] at htake' hdrop'
    rw [numberText_of_point (hdrop'.trans (cons_append ..)), htake', htake, hdrop, exponentText_append htail h.2, takeWhile_append_dropWhile,
      if_neg (not_and_or.mpr h.1), hbody]
  · have hexponent : body.takeWhile isAsciiDigit ≠ [] ∧ isExponent (body.dropWhile isAsciiDigit) = true := by
      split at h
      · next hpoint => exact absurd (by rw [hpoint]; rfl) hhead
      · simpa using h
    obtain ⟨htake, hdrop⟩ := hdigits body hexponent.2
    have hpoint : ((body ++ tail).dropWhile isAsciiDigit).head? ≠ some 46 := by
      rw [hdrop]
      exact fun heq => (head_exponent htail hexponent.2 46 heq).2 rfl
    rw [numberText_of_head hpoint, htake, hdrop, exponentText_append htail hexponent.2, takeWhile_append_dropWhile,
      if_neg hexponent.1]

end
/-! ## Classification -/

variable (ops : ParsedFloats F)

/-- The number that a decimal text denotes for the runtime. -/
def numberValue (text : PhpString) : NumericStringValue F :=
  if looksFloat text = false ∧ isLong text = true then .int (integerValue text) else .float (ops.ofDecimal text)

theorem parseNumericPrefix_eq (h : isDecimal text = true) :
    ∃ sensitive, parseNumericPrefix ops text = some ⟨numberValue ops text, sensitive⟩ := by
  have hfloat : parseF64 ops.toFloatOps text = some (ops.ofDecimal text) := if_pos h
  rw [parseNumericPrefix, hfloat, numberValue, parseI64]
  cases looksFloat text with
  | true => exact ⟨_, rfl⟩
  | false =>
    cases isLong text with
    | true => exact ⟨_, rfl⟩
    | false => exact ⟨_, rfl⟩

theorem isDecimal_take_numericPrefixLen {length : Nat} (h : numericPrefixLen bytes = some length) :
    isDecimal (bytes.take length) = true := by
  obtain ⟨number, hnumber, -, hsplit⟩ := take_numericPrefixLen h
  exact isDecimal_of_numberText hnumber (by rw [hsplit])

theorem isEmpty_of_numericPrefixLen {length : Nat} (h : numericPrefixLen bytes = some length) : bytes.isEmpty = false := by
  cases bytes with
  | nil => cases h
  | cons => rfl

theorem drop_takeWhile_length (p : α → Bool) (l : List α) : l.drop (l.takeWhile p).length = l.dropWhile p :=
  calc l.drop (l.takeWhile p).length
    _ = (l.takeWhile p ++ l.dropWhile p).drop (l.takeWhile p).length := by rw [takeWhile_append_dropWhile]
    _ = l.dropWhile p := drop_left

/-- All a classification can be: there is no number behind the white space, or there is one, followed by
white space or by something else. -/
theorem classify_cases (bytes : PhpString) :
    numericPrefixLen (bytes.dropWhile isAsciiWhitespace) = none ∧ classify ops bytes = nonNumeric ∨
    ∃ length, numericPrefixLen (bytes.dropWhile isAsciiWhitespace) = some length ∧
      (classify ops bytes).value = some (numberValue ops ((bytes.dropWhile isAsciiWhitespace).take length)) ∧
      (classify ops bytes).canonical =
        if ((bytes.dropWhile isAsciiWhitespace).drop length).all isAsciiWhitespace then
          canonicalKind bytes ((bytes.dropWhile isAsciiWhitespace).take length)
            ((bytes.takeWhile isAsciiWhitespace).length != 0 ||
              !((bytes.dropWhile isAsciiWhitespace).drop length).isEmpty)
            (numberValue ops ((bytes.dropWhile isAsciiWhitespace).take length)) else .none := by
  rw [classify, drop_takeWhile_length]
  cases hlength : numericPrefixLen (bytes.dropWhile isAsciiWhitespace) with
  | none =>
    refine .inl ⟨rfl, ?_⟩
    split <;> rfl
  | some length =>
    have hne := isEmpty_of_numericPrefixLen hlength
    obtain ⟨sensitive, hparse⟩ := parseNumericPrefix_eq ops (isDecimal_take_numericPrefixLen hlength)
    refine .inr ⟨length, rfl, ?_⟩
    simp only [hne, hparse, Bool.false_eq_true, if_false]
    split <;> exact ⟨rfl, rfl⟩

end Phrust
