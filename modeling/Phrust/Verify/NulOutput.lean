import Phrust.Verify.StringWriters

/-!
# Inputs with NUL output

For each string writer, the inputs for which every byte it writes is NUL. Decoders have NUL output
on texts that are put together from a few tokens.
-/

namespace Phrust
open List Option

def AllNul (bytes : List UInt8) : Prop := ∀ byte ∈ bytes, byte = 0

@[simp] theorem allNul_nil : AllNul [] := nofun

@[simp] theorem allNul_cons : AllNul (byte :: bytes) ↔ byte = 0 ∧ AllNul bytes := forall_mem_cons

@[simp] theorem allNul_append : AllNul (a ++ b) ↔ AllNul a ∧ AllNul b := forall_mem_append

instance : DecidablePred AllNul := fun bytes =>
  decidable_of_iff (bytes.all (· == 0) = true) (by simp [AllNul])

/-- The text is a sequence of tokens, and possibly one of the endings behind them. -/
def Spelled (tokens endings : List (List UInt8)) (input : List UInt8) : Prop :=
  ∃ (parts : List (List UInt8)) (ending : List UInt8), input = parts.flatten ++ ending ∧
    (∀ part ∈ parts, part ∈ tokens) ∧ (ending = [] ∨ ending ∈ endings)

theorem Spelled.nil : Spelled tokens endings [] := ⟨[], [], rfl, by simp, .inl rfl⟩

theorem Spelled.cons (h : Spelled tokens endings input) (ht : token ∈ tokens) :
    Spelled tokens endings (token ++ input) := by
  obtain ⟨parts, ending, rfl, hparts, hending⟩ := h
  exact ⟨token :: parts, ending, by simp, by simp_all, hending⟩

/-- How a scanner reads a family of tokens. `Starts` holds of the first byte of every token. -/
structure ReadsNul (iteration : UInt8 → List UInt8 → Option UInt8 × Nat)
    (tokens endings : List (List UInt8)) (Starts : UInt8 → Prop) : Prop where
  /-- An iteration without visible output has consumed a token or an ending. -/
  spell : ∀ byte rest, (iteration byte rest).1.all (· == 0) = true →
    byte :: rest.take (iteration byte rest).2 ∈ tokens ∨
      (byte :: rest ∈ endings ∧ rest = [])
  /-- A token in front of another one is consumed as a whole. -/
  read : ∀ token ∈ tokens, ∃ byte tail, token = byte :: tail ∧ Starts byte ∧
    ∀ rest : List UInt8, (∀ next ∈ rest.head?, Starts next) →
      (iteration byte (tail ++ rest)).1.all (· == 0) = true ∧
        (iteration byte (tail ++ rest)).2 = tail.length
  ending : ∀ text ∈ endings, AllNul (scan iteration text) ∧ ∀ next ∈ text.head?, Starts next

theorem allNul_toList {o : Option UInt8} : AllNul o.toList ↔ o.all (· == 0) = true := by
  cases o <;> simp

section
variable {iteration : UInt8 → List UInt8 → Option UInt8 × Nat} (R : ReadsNul iteration tokens endings Starts)
include R

theorem ReadsNul.starts (h : Spelled tokens endings input) : ∀ next ∈ input.head?, Starts next := by
  obtain ⟨parts, ending, rfl, hparts, hending⟩ := h
  cases parts with
  | nil =>
    rcases hending with rfl | hending
    · simp
    · exact (R.ending ending hending).2
  | cons token parts =>
    obtain ⟨byte, tail, rfl, hstart, -⟩ := R.read token (hparts token mem_cons_self)
    rintro next ⟨⟩
    exact hstart

theorem ReadsNul.scan_iff (input : List UInt8) :
    AllNul (scan iteration input) ↔ Spelled tokens endings input := by
  constructor
  · fun_induction scan iteration input with
    | case1 => exact fun _ => .nil
    | case2 byte rest ih =>
      rw [allNul_append, allNul_toList]
      rintro ⟨hbyte, hrest⟩
      rcases R.spell byte rest hbyte with htoken | ⟨hending, rfl⟩
      · have := (ih hrest).cons htoken
        rwa [cons_append, take_append_drop] at this
      · exact ⟨[], [byte], rfl, by simp, .inr hending⟩
  · rintro ⟨parts, ending, rfl, hparts, hending⟩
    induction parts with
    | nil =>
      rcases hending with rfl | hending
      · rw [flatten_nil, nil_append, scan]
        exact allNul_nil
      · exact (R.ending ending hending).1
    | cons token parts ih =>
      have hrest := (forall_mem_cons.mp hparts).2
      have hstarts := R.starts ⟨parts, ending, rfl, hrest, hending⟩
      obtain ⟨byte, tail, rfl, -, hread⟩ := R.read token (hparts token mem_cons_self)
      obtain ⟨hnul, hconsumed⟩ := hread _ hstarts
      rw [flatten_cons, append_assoc, cons_append, scan, allNul_append, allNul_toList, hconsumed, drop_left]
      exact ⟨hnul, ih hrest⟩

end

/-! ## The tokens of the decoders -/

/-- NUL and `%00`. -/
def urlNulTokens : List (List UInt8) := [[0], [37, 48, 48]]

/-- NUL, `=00` and the soft line breaks. -/
def quotedPrintableNulTokens : List (List UInt8) := [[0], [61, 48, 48], [61, 10], [61, 13, 10]]

/-- NUL, and NUL or `0` behind a backslash. -/
def stripslashesNulTokens : List (List UInt8) := [[0], [92, 48], [92, 0]]

/-- NUL, an escaped NUL byte, and the octal and hexadecimal escapes of a multiple of 256. -/
def stripcslashesNulTokens : List (List UInt8) :=
  [[0], [92, 0], [92, 48], [92, 48, 48], [92, 48, 48, 48], [92, 52, 48, 48], [92, 120, 48],
    [92, 120, 48, 48], [92, 88, 48], [92, 88, 48, 48]]

theorem hexNibble_eq_zero : hexNibble byte = some 0 ↔ byte = 48 := by
  rw [hexNibble]
  grind

theorem hexNibble_lt (h : hexNibble byte = some nibble) : nibble < 16 := by
  rw [hexNibble] at h
  grind

theorem shift_nibble_eq_zero (h : hexNibble byte = some nibble) : nibble <<< 4 = 0 ↔ byte = 48 := by
  have hlt : nibble.toNat < 16 := hexNibble_lt h
  have hshift : nibble <<< 4 = 0 ↔ nibble = 0 := by
    rw [← UInt8.toNat_inj, ← UInt8.toNat_inj, UInt8.toNat_shiftLeft]
    simp [Nat.shiftLeft_eq]
    omega
  rw [hshift, ← hexNibble_eq_zero, h, Option.some.injEq]

variable {rest : List UInt8}

/-- Two hexadecimal digits spell NUL only as `00`. -/
theorem decodeHexPair_eq_zero : decodeHexPair rest = some 0 ↔ rest.take 2 = [48, 48] := by
  rcases rest with _ | ⟨high, _ | ⟨low, rest⟩⟩
  · simp [decodeHexPair]
  · simp [decodeHexPair]
  rw [decodeHexPair]
  cases hhigh : hexNibble high with
  | none =>
    have : high ≠ 48 := fun h => by rw [h] at hhigh; cases hhigh
    simp [this]
  | some a =>
    cases hlow : hexNibble low with
    | none =>
      have : low ≠ 48 := fun h => by rw [h] at hlow; cases hlow
      simp [this]
    | some b =>
      have hb : b = 0 ↔ low = 48 := by rw [← hexNibble_eq_zero, hlow, Option.some.injEq]
      simp only [Option.bind_eq_bind, Option.bind_some, Option.pure_def, Option.some.injEq,
        UInt8.or_eq_zero_iff, shift_nibble_eq_zero hhigh, hb]
      simp

theorem readsNul_urlDecode (raw : Bool) :
    ReadsNul (urlDecodeIteration raw) urlNulTokens [] (fun _ => True) where
  spell byte rest h := by
    refine .inl ?_
    rw [urlDecodeIteration] at h ⊢
    by_cases hbyte : byte = 37
    · subst hbyte
      cases hpair : decodeHexPair rest with
      | none => simp [hpair] at h
      | some decoded =>
        simp only [hpair, if_true, all_some, beq_iff_eq] at h ⊢
        rw [h] at hpair
        rw [decodeHexPair_eq_zero.mp hpair]
        decide
    · simp only [hbyte, if_false, all_some, beq_iff_eq] at h ⊢
      have : byte = 0 := by
        split at h
        · cases h
        · exact h
      rw [this]
      exact mem_cons_self
  read token htoken := by
    simp only [urlNulTokens, mem_cons, not_mem_nil, or_false] at htoken
    rcases htoken with rfl | rfl
    · exact ⟨0, [], rfl, trivial, fun rest _ => ⟨by cases raw <;> rfl, by cases raw <;> rfl⟩⟩
    · exact ⟨37, [48, 48], rfl, trivial, fun rest _ => ⟨rfl, rfl⟩⟩
  ending text h := nomatch h

theorem readsNul_quotedPrintable :
    ReadsNul quotedPrintableIteration quotedPrintableNulTokens [] (fun _ => True) where
  spell byte rest h := by
    refine .inl ?_
    rw [quotedPrintableIteration] at h ⊢
    by_cases hbyte : byte = 61
    · subst hbyte
      by_cases hbreak : rest.head? = some 10
      · obtain ⟨rest, rfl⟩ : ∃ tail, rest = 10 :: tail := by
          cases rest with
          | nil => cases hbreak
          | cons next rest => cases hbreak; exact ⟨rest, rfl⟩
        show [61, 10] ∈ quotedPrintableNulTokens
        decide
      · by_cases hbreak' : rest.take 2 = [13, 10]
        · simp only [hbreak, hbreak', if_true, if_false]
          decide
        · cases hpair : decodeHexPair rest with
          | none => simp [hbreak, hbreak', hpair] at h
          | some decoded =>
            simp only [hbreak, hbreak', hpair, if_true, if_false, all_some, beq_iff_eq] at h ⊢
            rw [h] at hpair
            rw [decodeHexPair_eq_zero.mp hpair]
            decide
    · simp only [hbyte, if_false, all_some, beq_iff_eq] at h ⊢
      rw [h]
      exact mem_cons_self
  read token htoken := by
    simp only [quotedPrintableNulTokens, mem_cons, not_mem_nil, or_false] at htoken
    rcases htoken with rfl | rfl | rfl | rfl <;>
      exact ⟨_, _, rfl, trivial, fun rest _ => ⟨rfl, rfl⟩⟩
  ending text h := nomatch h

theorem readsNul_stripslashes :
    ReadsNul stripslashesIteration stripslashesNulTokens [[92]] (fun _ => True) where
  spell byte rest h := by
    by_cases hbyte : byte = 92
    · subst hbyte
      cases rest with
      | nil => exact .inr ⟨mem_singleton.mpr rfl, rfl⟩
      | cons next rest =>
        refine .inl ?_
        show [92, next] ∈ stripslashesNulTokens
        by_cases hnext : next = 48
        · subst hnext
          decide
        · have hnul : next = 0 := by simpa [stripslashesIteration, hnext] using h
          subst hnul
          decide
    · have hplain : stripslashesIteration byte rest = (some byte, 0) := if_pos hbyte
      rw [hplain, all_some, beq_iff_eq] at h
      rw [hplain, h]
      exact .inl mem_cons_self
  read token htoken := by
    simp only [stripslashesNulTokens, mem_cons, not_mem_nil, or_false] at htoken
    rcases htoken with rfl | rfl | rfl <;> exact ⟨_, _, rfl, trivial, fun rest _ => ⟨rfl, rfl⟩⟩
  ending text h := by
    cases mem_singleton.mp h
    exact ⟨by simp [scan, stripslashesIteration], fun _ _ => trivial⟩

/-! ### C escapes -/

/-- Up to three octal digits stand for NUL: one of these four. -/
def octalNul : List (List UInt8) := [[48], [48, 48], [48, 48, 48], [52, 48, 48]]

def isOctalDigit (byte : UInt8) : Bool := 48 ≤ byte && byte ≤ 55

def octalValue (digits : List UInt8) : UInt8 :=
  (digits.foldl (fun (value : UInt16) byte => (value <<< 3) ||| (byte - 48).toUInt16) 0).toUInt8

theorem exists_octal (h : isOctalDigit byte = true) : ∃ n ∈ List.range 8, byte = UInt8.ofNat (48 + n) := by
  rw [isOctalDigit, Bool.and_eq_true, decide_eq_true_eq, decide_eq_true_eq] at h
  have hlow : 48 ≤ byte.toNat := h.1
  have hhigh : byte.toNat ≤ 55 := h.2
  refine ⟨byte.toNat - 48, mem_range.mpr (by omega), ?_⟩
  rw [Nat.add_sub_cancel' hlow, UInt8.ofNat_toNat]

theorem octalValue_eq_zero (hlen : digits.length ≤ 3) (hne : digits ≠ [])
    (hdigits : ∀ byte ∈ digits, isOctalDigit byte = true) (h : octalValue digits = 0) :
    digits ∈ octalNul := by
  let digit (n : Nat) := UInt8.ofNat (48 + n)
  have one : ∀ a ∈ List.range 8, octalValue [digit a] = 0 → [digit a] ∈ octalNul := by
    decide +kernel
  have two : ∀ a ∈ List.range 8, ∀ b ∈ List.range 8,
      octalValue [digit a, digit b] = 0 → [digit a, digit b] ∈ octalNul := by decide +kernel
  have three : ∀ a ∈ List.range 8, ∀ b ∈ List.range 8, ∀ c ∈ List.range 8,
      octalValue [digit a, digit b, digit c] = 0 → [digit a, digit b, digit c] ∈ octalNul := by
    decide +kernel
  match digits with
  | [] => exact absurd rfl hne
  | [a] =>
    obtain ⟨a, ha, rfl⟩ := exists_octal (hdigits a (by simp))
    exact one a ha h
  | [a, b] =>
    obtain ⟨a, ha, rfl⟩ := exists_octal (hdigits a (by simp))
    obtain ⟨b, hb, rfl⟩ := exists_octal (hdigits b (by simp))
    exact two a ha b hb h
  | [a, b, c] =>
    obtain ⟨a, ha, rfl⟩ := exists_octal (hdigits a (by simp))
    obtain ⟨b, hb, rfl⟩ := exists_octal (hdigits b (by simp))
    obtain ⟨c, hc, rfl⟩ := exists_octal (hdigits c (by simp))
    exact three a ha b hb c hc h
  | _ :: _ :: _ :: _ :: rest =>
    have hlen : rest.length + 4 ≤ 3 := hlen
    omega

theorem decodeCOctalEscape_spell {next : UInt8} (hnext : isOctalDigit next = true)
    (h : (decodeCOctalEscape (next :: rest)).1 = 0) :
    (next :: rest).take (decodeCOctalEscape (next :: rest)).2 ∈ octalNul := by
  have hprefix : ((next :: rest).take 3).takeWhile isOctalDigit =
      (next :: rest).take (decodeCOctalEscape (next :: rest)).2 := by
    have := (List.takeWhile_prefix isOctalDigit (l := (next :: rest).take 3)).trans
      (List.take_prefix 3 (next :: rest))
    exact prefix_iff_eq_take.mp this
  rw [← hprefix]
  refine octalValue_eq_zero ?_ ?_ ?_ h
  · refine Nat.le_trans (List.takeWhile_prefix _).length_le ?_
    rw [length_take]
    omega
  · rw [take_succ_cons, takeWhile_cons, if_pos hnext]
    simp
  · intro byte hbyte
    exact all_eq_true.mp all_takeWhile byte hbyte

/-- Up to two hexadecimal digits stand for NUL. -/
def hexNul : List (List UInt8) := [[48], [48, 48]]

theorem decodeCHexEscape_spell (hne : (decodeCHexEscape rest).2 ≠ 0)
    (h : (decodeCHexEscape rest).1 = 0) : rest.take (decodeCHexEscape rest).2 ∈ hexNul := by
  rcases rest with _ | ⟨high, rest⟩
  · exact absurd rfl hne
  cases hhigh : hexNibble high with
  | none => simp [decodeCHexEscape, hhigh] at hne
  | some a =>
    rcases rest with _ | ⟨low, rest⟩
    · have ha : a = 0 := by simpa [decodeCHexEscape, hhigh] using h
      rw [ha, hexNibble_eq_zero] at hhigh
      subst hhigh
      decide
    cases hlow : hexNibble low with
    | none =>
      have ha : a = 0 := by simpa [decodeCHexEscape, hhigh, hlow] using h
      rw [ha, hexNibble_eq_zero] at hhigh
      subst hhigh
      have : (decodeCHexEscape (48 :: low :: rest)).2 = 1 := by
        simp [decodeCHexEscape, hlow, hexNibble_eq_zero.mpr]
      rw [this]
      exact mem_cons_self
    | some b =>
      have hab : a <<< 4 = 0 ∧ b = 0 := by simpa [decodeCHexEscape, hhigh, hlow] using h
      have hlow0 := hlow
      rw [hab.2, hexNibble_eq_zero] at hlow0
      have hhigh0 := (shift_nibble_eq_zero hhigh).mp hab.1
      subst hlow0
      subst hhigh0
      exact mem_cons_of_mem _ mem_cons_self

/-- An escape that is none of the named ones. -/
theorem stripcslashesIteration_numeric {next : UInt8}
    (h : next ∉ [110, 114, 116, 118, 102, 97, 98]) : stripcslashesIteration 92 (next :: rest) =
      if next = 120 ∨ next = 88 then if (decodeCHexEscape rest).2 = 0 then (some next, 1)
        else (some (decodeCHexEscape rest).1, (decodeCHexEscape rest).2 + 1)
      else if 48 ≤ next ∧ next ≤ 55 then
        (some (decodeCOctalEscape (next :: rest)).1, (decodeCOctalEscape (next :: rest)).2)
      else (some next, 1) := by
  simp only [mem_cons, not_mem_nil, or_false, not_or] at h
  obtain ⟨hn, hr, ht, hv, hf, ha, hb⟩ := h
  rw [stripcslashesIteration, if_neg (by simp)]
  rw [if_neg hn, if_neg hr, if_neg ht, if_neg hv, if_neg hf, if_neg ha, if_neg hb]

theorem readsNul_stripcslashes : ReadsNul stripcslashesIteration stripcslashesNulTokens []
    (fun byte => byte = 0 ∨ byte = 92) where
  spell byte rest h := by
    refine .inl ?_
    by_cases hbyte : byte = 92
    · subst hbyte
      cases rest with
      | nil => cases h
      | cons next rest =>
        by_cases hnamed : next ∈ [110, 114, 116, 118, 102, 97, 98]
        · simp only [mem_cons, not_mem_nil, or_false] at hnamed
          rcases hnamed with rfl | rfl | rfl | rfl | rfl | rfl | rfl <;> cases h
        rw [stripcslashesIteration_numeric hnamed] at h ⊢
        by_cases hx : next = 120 ∨ next = 88
        · rw [if_pos hx] at h ⊢
          by_cases hzero : (decodeCHexEscape rest).2 = 0
          · rw [if_pos hzero] at h
            rcases hx with rfl | rfl <;> cases h
          rw [if_neg hzero, all_some, beq_iff_eq] at h
          have hspell := decodeCHexEscape_spell hzero h
          rw [if_neg hzero, take_succ_cons]
          simp only [hexNul, mem_cons, not_mem_nil, or_false] at hspell
          rcases hx with rfl | rfl <;> rcases hspell with hspell | hspell <;> rw [hspell] <;>
            decide
        · rw [if_neg hx] at h ⊢
          by_cases hoctal : 48 ≤ next ∧ next ≤ 55
          · rw [if_pos hoctal, all_some, beq_iff_eq] at h
            have hdigit : isOctalDigit next = true := by simpa [isOctalDigit] using hoctal
            have hspell := decodeCOctalEscape_spell hdigit h
            rw [if_pos hoctal]
            simp only [octalNul, mem_cons, not_mem_nil, or_false] at hspell
            rcases hspell with hspell | hspell | hspell | hspell <;> rw [hspell] <;> decide
          · rw [if_neg hoctal, all_some, beq_iff_eq] at h
            rw [if_neg hoctal, h]
            exact mem_cons_of_mem _ mem_cons_self
    · have hplain : stripcslashesIteration byte rest = (some byte, 0) := if_pos hbyte
      rw [hplain, all_some, beq_iff_eq] at h
      rw [hplain, h]
      exact mem_cons_self
  read token htoken := by
    simp only [stripcslashesNulTokens, mem_cons, not_mem_nil, or_false] at htoken
    rcases htoken with rfl | rfl | rfl | rfl | rfl | rfl | rfl | rfl | rfl | rfl
    on_goal 6 =>
      refine ⟨92, [52, 48, 48], rfl, .inr rfl, fun rest _ => ⟨?_, rfl⟩⟩
      have hvalue : octalValue [52, 48, 48] = 0 := by decide
      exact beq_iff_eq.mpr hvalue
    · exact ⟨0, [], rfl, .inl rfl, fun rest _ => ⟨rfl, rfl⟩⟩
    -- a short escape ends at the byte behind it, which is no digit
    all_goals
      refine ⟨92, _, rfl, .inr rfl, fun rest hrest => ?_⟩
      cases rest with
      | nil => exact ⟨rfl, rfl⟩
      | cons next rest => rcases hrest next rfl with rfl | rfl <;> exact ⟨rfl, rfl⟩
  ending text h := nomatch h

end Phrust
