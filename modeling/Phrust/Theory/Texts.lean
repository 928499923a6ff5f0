import Mathlib.Algebra.Order.Ring.Int
import Mathlib.Data.List.Infix

/-!
# Texts

Searching and cutting texts over any alphabet: the first occurrence of a text in another, cutting at a
separator, and taking blanks from both ends.
-/

namespace Phrust
open List Option
namespace Texts
variable [DecidableEq α]

/-- Where a text occurs first. -/
def find (needle : List α) : List α → Option Nat
  | [] => if needle = [] then some 0 else none
  | a :: text => if needle.isPrefixOf (a :: text) then some 0 else (find needle text).map (· + 1)

/-- The text before and behind the first separator. -/
def splitOnce (separator : α) : List α → Option (List α × List α)
  | [] => none
  | a :: text =>
    if a = separator then some ([], text)
    else (splitOnce separator text).map fun (before, after) => (a :: before, after)

/-- Cut at each occurrence of a text. -/
def splitAll (needle : List α) : Nat → List α → List (List α)
  | 0, text => [text]
  | fuel + 1, text =>
    match find needle text with
    | none => [text]
    | some index => text.take index :: splitAll needle fuel (text.drop (index + needle.length))

/-- Take blanks, which are texts themselves, from the front. -/
def trimFront (blanks : List (List α)) : Nat → List α → List α
  | 0, text => text
  | fuel + 1, text =>
    match blanks.find? fun blank => blank.isPrefixOf text with
    | none => text
    | some blank => trimFront blanks fuel (text.drop blank.length)

def trimBack (blanks : List (List α)) (text : List α) : List α :=
  (trimFront (blanks.map List.reverse) text.length text.reverse).reverse

def trim (blanks : List (List α)) (text : List α) : List α :=
  trimBack blanks (trimFront blanks text.length text)

/-! ## Searching -/

theorem find_append (data rest : List α)
    (h : ∀ before after, data = before ++ after → after ≠ [] → ¬needle <+: after ++ (needle ++ rest)) :
    find needle (data ++ (needle ++ rest)) = some data.length := by
  induction data with
  | nil =>
    cases hneedle : needle with
    | nil =>
      cases rest with
      | nil => rfl
      | cons => rfl
    | cons a needle =>
      rw [nil_append, cons_append, find, if_pos]
      · rfl
      · rw [← cons_append]
        exact isPrefixOf_iff_prefix.mpr (prefix_append _ _)
  | cons a data ih =>
    rw [cons_append, find, if_neg, ih]
    · rfl
    · intro before after hdata
      exact h (a :: before) after (congrArg (a :: ·) hdata)
    · rw [List.isPrefixOf_iff_prefix]
      exact h [] (a :: data) rfl (cons_ne_nil _ _)

/-- Nothing is found where the first letter does not occur. -/
theorem find_skip (text : List α) (h : first ∉ data) :
    find (first :: needle) (data ++ text) = (find (first :: needle) text).map (data.length + ·) := by
  induction data with
  | nil =>
    simp only [nil_append, length_nil, Nat.zero_add]
    exact map_id'.symm
  | cons a data ih =>
    rw [mem_cons, not_or] at h
    rw [cons_append, find, if_neg, ih h.2, Option.map_map]
    · exact map_congr fun index _ => by simp only [Function.comp_apply, length_cons]; omega
    · rw [List.isPrefixOf_iff_prefix, cons_prefix_cons]
      exact fun hprefix => h.1 hprefix.1

theorem find_prefix (needle rest : List α) : find needle (needle ++ rest) = some 0 :=
  find_append [] rest fun _ _ hsplit hne => absurd (append_eq_nil_iff.mp hsplit.symm).2 hne

/-- A text whose first letter does not come again cannot overlap with itself. -/
theorem find_append_of_not_mem (rest : List α) (hfirst : first ∉ needle)
    (hdata : ¬first :: needle <:+: data) :
    find (first :: needle) (data ++ (first :: needle ++ rest)) = some data.length := by
  refine find_append data rest fun before after hsplit hne hprefix => ?_
  cases after with
  | nil => exact hne rfl
  | cons a after =>
    rw [cons_append, cons_append, cons_prefix_cons] at hprefix
    obtain ⟨rfl, hprefix⟩ := hprefix
    by_cases hlength : needle.length ≤ after.length
    · -- The occurrence lies in the data.
      refine hdata ⟨before, after.drop needle.length, ?_⟩
      have htake : needle = after.take needle.length := by
        have := prefix_iff_eq_take.mp hprefix
        rwa [take_append_of_le_length hlength] at this
      rw [hsplit, append_assoc, cons_append]
      nth_rewrite 1 [htake]
      rw [take_append_drop]
    · -- The first letter would come again.
      have hmem : needle[after.length]? = some first := by
        obtain ⟨tail, htail⟩ := hprefix
        have := congrArg (fun text : List α => text[after.length]?) htail
        rw [getElem?_append_left (Nat.not_le.mp hlength), getElem?_append_right (Nat.le_refl _),
          Nat.sub_self] at this
        exact this
      exact hfirst (mem_of_getElem? hmem)

/-! ## Cutting -/

theorem splitOnce_append (after : List α) (h : separator ∉ before) :
    splitOnce separator (before ++ separator :: after) = some (before, after) := by
  induction before with
  | nil => exact if_pos rfl
  | cons a before ih =>
    rw [mem_cons, not_or] at h
    rw [cons_append, splitOnce, if_neg (Ne.symm h.1), ih h.2]
    rfl

theorem splitOnce_mem {text after : List α} (h : splitOnce separator text = some (before, after)) :
    before ⊆ text ∧ after ⊆ text := by
  induction text generalizing before with
  | nil => cases h
  | cons a text ih =>
    rw [splitOnce] at h
    split at h
    · cases h
      exact ⟨nil_subset _, subset_cons_self _ _⟩
    obtain ⟨⟨before', after'⟩, hsplit, heq⟩ := map_eq_some_iff.mp h
    cases heq
    obtain ⟨hbefore, hafter⟩ := ih hsplit
    exact ⟨cons_subset_cons _ hbefore, List.Subset.trans hafter (subset_cons_self _ _)⟩

theorem not_mem_of_mem_splitOn {text : List α} (h : piece ∈ text.splitOn separator) : separator ∉ piece := by
  induction text generalizing piece with
  | nil =>
    rw [mem_singleton.mp h]
    exact not_mem_nil
  | cons a text ih =>
    rw [List.splitOn, splitOnP_cons_eq_if_modifyHead, ← List.splitOn] at h
    split at h
    · rcases mem_cons.mp h with rfl | h
      · exact not_mem_nil
      · exact ih h
    · next hne =>
      cases hpieces : text.splitOn separator with
      | nil => rw [hpieces] at h; exact absurd h not_mem_nil
      | cons first pieces =>
        rw [hpieces] at h ih
        rcases mem_cons.mp h with rfl | h
        · rw [mem_cons, not_or]
          exact ⟨fun heq => hne (beq_iff_eq.mpr heq.symm), ih mem_cons_self⟩
        · exact ih (mem_cons_of_mem _ h)

/-- Cutting undoes joining where the separator begins with a letter of its own. -/
theorem splitAll_intercalate {needle : List α} (hpieces : ∀ piece ∈ pieces, first ∉ piece) (hne : pieces ≠ [])
    (hfuel : pieces.length ≤ fuel + 1) :
    splitAll (first :: needle) fuel ((first :: needle).intercalate pieces) = pieces := by
  induction pieces generalizing fuel with
  | nil => exact absurd rfl hne
  | cons piece pieces ih =>
    rw [forall_mem_cons] at hpieces
    cases pieces with
    | nil =>
      have hnone : find (first :: needle) piece = none := by
        rw [← append_nil piece, find_skip _ hpieces.1]
        rfl
      rw [intercalate_singleton]
      cases fuel with
      | zero => rfl
      | succ fuel => rw [splitAll, hnone]
    | cons next pieces =>
      cases fuel with
      | zero => simp at hfuel
      | succ fuel =>
        have hfind : find (first :: needle)
            (piece ++ (first :: needle ++ (first :: needle).intercalate (next :: pieces))) =
              some piece.length := by
          rw [find_skip _ hpieces.1, find_prefix]
          rfl
        rw [intercalate_cons_cons, append_assoc, splitAll, hfind]
        simp only
        rw [take_left, ← drop_drop, drop_left, drop_left,
          ih hpieces.2 (cons_ne_nil _ _) (Nat.le_of_succ_le_succ hfuel)]

/-! ## Blanks -/

section
variable (blanks : List (List α))

theorem trimFront_subset (fuel : Nat) (text : List α) : trimFront blanks fuel text ⊆ text := by
  induction fuel generalizing text with
  | zero => exact List.Subset.refl _
  | succ fuel ih =>
    rw [trimFront]
    split
    · exact List.Subset.refl _
    · exact List.Subset.trans (ih _) (drop_subset _ _)

theorem trim_subset (text : List α) : trim blanks text ⊆ text := by
  intro a ha
  rw [trim, trimBack, mem_reverse] at ha
  have ha := trimFront_subset _ _ _ ha
  rw [mem_reverse] at ha
  exact trimFront_subset _ _ _ ha

/-- No blank begins with the letter. -/
def NoBlank (a : α) : Prop := ∀ blank ∈ blanks, blank.head? ≠ some a ∧ blank ≠ []

end

theorem trimFront_cons {blanks : List (List α)} (h : NoBlank blanks a) (fuel : Nat) (text : List α) :
    trimFront blanks fuel (a :: text) = a :: text := by
  cases fuel with
  | zero => rfl
  | succ fuel =>
    rw [trimFront]
    have hnone : (blanks.find? fun blank => blank.isPrefixOf (a :: text)) = none := by
      rw [find?_eq_none]
      intro blank hblank hprefix
      obtain ⟨hhead, hne⟩ := h blank hblank
      cases blank with
      | nil => exact hne rfl
      | cons b blank =>
        rw [List.isPrefixOf_iff_prefix, cons_prefix_cons] at hprefix
        exact hhead (congrArg some hprefix.1)
    rw [hnone]

theorem trim_of_ends {blanks : List (List α)} (hfirst : NoBlank blanks a)
    (hlast : NoBlank (blanks.map List.reverse) b) (text : List α) :
    trim blanks (a :: (text ++ [b])) = a :: (text ++ [b]) := by
  rw [trim, trimFront_cons hfirst, trimBack, ← cons_append, reverse_append, reverse_singleton,
    singleton_append, trimFront_cons hlast, reverse_cons, reverse_reverse]

end Texts
end Phrust
