import Mathlib.Data.List.Basic

/-!
# Batches of edits at positions of a list

A batch is found by a walk over a list and holds, for each position, the edits of the element there.
Carrying out the batch one edit after the other edits each element by itself.
-/

namespace Phrust
open List

/-- A walk that does not look at the positions. -/
theorem map_zipIdx_eq {g : α × Nat → β} (h : ∀ x i, g (x, i) = f x) (list : List α) :
    list.zipIdx.map g = list.map f := by
  have hg : g = f ∘ Prod.fst := funext fun p => h p.1 p.2
  rw [hg, ← map_map, zipIdx_map_fst]

theorem modify_append_cons (before : List α) (x : α) (after : List α) (f : α → α) :
    (before ++ x :: after).modify before.length f = before ++ f x :: after := by
  induction before with
  | nil => rfl
  | cons y before ih => rw [cons_append, length_cons, modify_succ_cons, ih]; rfl

theorem foldl_modify_same (edits : List ε) (act : ε → α → α) (before : List α) (x : α) (after : List α) :
    (edits.map (before.length, ·)).foldl (fun list edit => list.modify edit.1 (act edit.2))
        (before ++ x :: after) = before ++ edits.foldl (fun x edit => act edit x) x :: after := by
  induction edits generalizing x with
  | nil => rfl
  | cons edit edits ih => rw [map_cons, foldl_cons, modify_append_cons, ih]; rfl

theorem foldl_modify_append (edits : α → Nat → List ε) (act : ε → α → α) (before list : List α) :
    ((list.zipIdx before.length).flatMap fun p => (edits p.1 p.2).map (p.2, ·)).foldl
        (fun list edit => list.modify edit.1 (act edit.2)) (before ++ list) =
      before ++ (list.zipIdx before.length).map fun p =>
        (edits p.1 p.2).foldl (fun x edit => act edit x) p.1 := by
  induction list generalizing before with
  | nil => rfl
  | cons x list ih =>
    rw [zipIdx_cons, flatMap_cons, foldl_append, foldl_modify_same, map_cons]
    have h := ih (before ++ [(edits x before.length).foldl (fun x edit => act edit x) x])
    simpa using h

/-- A batch over a list: the edits of an element may depend on its position. -/
theorem foldl_modify_zipIdx (edits : α → Nat → List ε) (act : ε → α → α) (list : List α) :
    (list.zipIdx.flatMap fun p => (edits p.1 p.2).map (p.2, ·)).foldl
        (fun list edit => list.modify edit.1 (act edit.2)) list =
      list.zipIdx.map fun p => (edits p.1 p.2).foldl (fun x edit => act edit x) p.1 :=
  foldl_modify_append edits act [] list

/-- The same where the edits are the steps `step` of a larger state that holds the list. -/
theorem foldl_steps_eq {σ : Type u} (step : σ → τ → σ) (make : List α → σ) (tag : Nat → ε → τ)
    (act : ε → α → α) (hstep : ∀ list i edit, step (make list) (tag i edit) = make (list.modify i (act edit)))
    (edits : α → Nat → List ε) (list : List α) :
    (list.zipIdx.flatMap fun p => (edits p.1 p.2).map (tag p.2)).foldl step (make list) =
      make (list.zipIdx.map fun p => (edits p.1 p.2).foldl (fun x edit => act edit x) p.1) := by
  rw [← foldl_modify_zipIdx]
  have hfold : ∀ (batch : List (Nat × ε)) (start : List α),
      (batch.map fun edit => tag edit.1 edit.2).foldl step (make start) =
        make (batch.foldl (fun list edit => list.modify edit.1 (act edit.2)) start) := by
    intro batch
    induction batch with
    | nil => exact fun _ => rfl
    | cons edit batch ih =>
      intro start
      rw [map_cons, foldl_cons, foldl_cons, hstep, ih]
  rw [← hfold, map_flatMap]
  simp only [map_map]
  rfl

end Phrust
