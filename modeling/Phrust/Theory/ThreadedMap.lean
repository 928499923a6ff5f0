import Mathlib.Data.List.Forall2

/-!
# Rewriting a list with a state

Each entry is rewritten under the state that the entries before it leave behind. Where the states only
grow, each entry is judged between the state it meets and the last state.
-/

namespace Phrust
variable {σ : Type u} {α : Type v} {β : Type w}

def mapWith (f : σ → α → β × σ) (state : σ) : List α → List β × σ
  | [] => ([], state)
  | x :: list =>
    let head := f state x
    let tail := mapWith f head.2 list
    (head.1 :: tail.1, tail.2)

/-- Every entry has a property together with the state it meets. -/
def ForallWith (f : σ → α → β × σ) (P : σ → α → Prop) (state : σ) : List α → Prop
  | [] => True
  | x :: list => P state x ∧ ForallWith f P (f state x).2 list

/-- A state that carries more than the rewriting needs. -/
theorem mapWith_project {g : τ → α → β × τ} (project : σ → τ)
    (h : ∀ state x, g (project state) x = ((f state x).1, project (f state x).2)) (state : σ)
    (list : List α) : mapWith g (project state) list =
      ((mapWith f state list).1, project (mapWith f state list).2) := by
  induction list generalizing state with
  | nil => rfl
  | cons x list ih => rw [mapWith, mapWith, h, ih]

section
variable {f : σ → α → β × σ} {R : σ → σ → Prop} (hrefl : ∀ state, R state state)
  (htrans : ∀ {a b c}, R a b → R b c → R a c) (hstep : ∀ state x, R state (f state x).2)
include hrefl htrans hstep

/-- A preorder that every entry respects holds between the states before and after a list. -/
theorem mapWith_rel (state : σ) (list : List α) : R state (mapWith f state list).2 := by
  induction list generalizing state with
  | nil => exact hrefl state
  | cons x list ih => exact htrans (hstep state x) (ih _)

/-- What holds of an entry and its image can be read off the states. -/
theorem forall₂_mapWith_iff (h : ∀ met, ∀ x ∈ list, R state met → R (f met x).2 (mapWith f state list).2 →
      (Q x (f met x).1 ↔ P met x)) :
    List.Forall₂ Q list (mapWith f state list).1 ↔ ForallWith f P state list := by
  induction list generalizing state with
  | nil => exact iff_of_true .nil trivial
  | cons x list ih =>
    have hhead : Q x (f state x).1 ↔ P state x :=
      h state x List.mem_cons_self (hrefl state) (mapWith_rel hrefl htrans hstep _ list)
    have htail : List.Forall₂ Q list (mapWith f (f state x).2 list).1 ↔
        ForallWith f P (f state x).2 list := by
      refine ih fun met y hy hmet hlast => ?_
      exact h met y (List.mem_cons_of_mem _ hy) (htrans (hstep state x) hmet) hlast
    exact List.forall₂_cons.trans (and_congr hhead htail)

end
end Phrust
