import Mathlib.Algebra.Order.Ring.Int
import Mathlib.Algebra.BigOperators.Group.List.Basic

/-!
# Sweeps over facts that shrink

A sweep goes once over a list of places and makes the fact at each place smaller or leaves it alone.
Sweeping until nothing changes ends, because a weight falls.
-/

namespace Phrust
open List

/-! ## Weights -/

/-- A weight that respects a relation and tells related elements apart. -/
def Weighs (R : α → α → Prop) (weight : α → Nat) : Prop :=
  ∀ x y, R x y → weight x ≤ weight y ∧ (weight x = weight y → x = y)

theorem weighs_bool : Weighs (fun a b : Bool => a ≤ b) Bool.toNat := by
  unfold Weighs
  decide

theorem Weighs.forall₂ (h : Weighs R weight) : Weighs (List.Forall₂ R) fun xs => (xs.map weight).sum := by
  intro xs ys hxs
  induction hxs with
  | nil => exact ⟨le_rfl, fun _ => rfl⟩
  | @cons x y xs ys hxy _ ih =>
    obtain ⟨hle, heq⟩ := h x y hxy
    obtain ⟨hle', heq'⟩ := ih
    simp only [map_cons, sum_cons] at hle' heq' ⊢
    refine ⟨Nat.add_le_add hle hle', fun hsum => ?_⟩
    have hhead : weight x = weight y := by omega
    rw [heq hhead, heq' (by omega)]

/-! ## Pointwise relations -/

theorem forall₂_set (h : List.Forall₂ R xs ys) (hab : R a b) (i : Nat) :
    List.Forall₂ R (xs.set i a) (ys.set i b) := by
  induction h generalizing i with
  | nil => exact .nil
  | cons hxy htail ih =>
    cases i with
    | zero => exact .cons hab htail
    | succ i => exact .cons hxy (ih i)

theorem forall₂_set_self (hrefl : ∀ x, R x x)
    (h : ∀ old, xs[i]? = some old → R a old) : List.Forall₂ R (xs.set i a) xs := by
  induction xs generalizing i with
  | nil => exact .nil
  | cons x xs ih =>
    cases i with
    | zero => exact .cons (h x rfl) (forall₂_same.mpr fun y _ => hrefl y)
    | succ i => exact .cons (hrefl x) (ih h)

theorem forall₂_getElem? (h : List.Forall₂ R xs ys) (i : Nat) :
    xs[i]? = none ∧ ys[i]? = none ∨ ∃ x y, xs[i]? = some x ∧ ys[i]? = some y ∧ R x y := by
  induction h generalizing i with
  | nil => exact .inl ⟨rfl, rfl⟩
  | cons hxy _ ih =>
    cases i with
    | zero => exact .inr ⟨_, _, rfl, rfl, hxy⟩
    | succ i => exact ih i

theorem getElem?_set_cases {xs : List α} (h : (xs.set i a)[j]? = some x) :
    x = a ∧ j = i ∨ j ≠ i ∧ xs[j]? = some x := by
  rw [List.getElem?_set] at h
  split at h
  · next heq =>
    split at h
    · exact .inl ⟨(Option.some.inj h).symm, heq.symm⟩
    · cases h
  · next hne => exact .inr ⟨Ne.symm hne, h⟩

/-! ## Sweeps -/

/-- A step leaves a state alone, or makes it lighter and sets the flag. -/
def Shrinks (step : σ × Bool → ι → σ × Bool) (Valid : σ → Prop) (weight : σ → Nat) : Prop :=
  ∀ s flag i, Valid s → step (s, flag) i = (s, flag) ∨
    ∃ s', step (s, flag) i = (s', true) ∧ Valid s' ∧ weight s' < weight s

theorem Shrinks.sweep {step : σ × Bool → ι → σ × Bool} (h : Shrinks step Valid weight)
    (places : List ι) (s : σ) (flag : Bool) (hs : Valid s) :
    places.foldl step (s, flag) = (s, flag) ∧ (∀ i ∈ places, step (s, flag) i = (s, flag)) ∨
      ∃ s', places.foldl step (s, flag) = (s', true) ∧ Valid s' ∧ weight s' < weight s := by
  induction places generalizing s flag with
  | nil => exact .inl ⟨rfl, nofun⟩
  | cons i places ih =>
    rw [foldl_cons]
    rcases h s flag i hs with hsame | ⟨s', hnew, hs', hlt⟩
    · rw [hsame]
      refine (ih s flag hs).imp_left fun ⟨hfold, hrest⟩ => ⟨hfold, fun j hj => ?_⟩
      rcases mem_cons.mp hj with rfl | hj
      · exact hsame
      · exact hrest j hj
    · rw [hnew]
      rcases ih s' true hs' with ⟨hfold, -⟩ | ⟨s'', hfold, hs'', hlt'⟩
      · exact .inr ⟨s', hfold, hs', hlt⟩
      · exact .inr ⟨s'', hfold, hs'', hlt'.trans hlt⟩

end Phrust
