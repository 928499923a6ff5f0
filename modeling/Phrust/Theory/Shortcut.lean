import Mathlib.Logic.Function.Iterate
import Mathlib.Logic.Relation

/-!
# Transition systems that take shortcuts

A system whose steps may skip silent steps of another one is always ahead of it by some of them.
-/

namespace Phrust
open Relation
variable {R R' : σ → σ → Prop} (skip : σ → σ)

/-- Where `skip` moves a state, it is the only step. -/
theorem shortcut_ahead (hskip : ∀ s t, skip s ≠ s → R s t → t = skip s)
    (hstep : ∀ s t, R s t → ∃ k, R' s (skip^[k] t)) (h : ReflTransGen R start s) :
    ∃ k, ReflTransGen R' start (skip^[k] s) := by
  induction h with
  | refl => exact ⟨0, .refl⟩
  | @tail s t _ hst ih =>
    obtain ⟨k, hk⟩ := ih
    have hnext : ReflTransGen R' start s → ∃ k, ReflTransGen R' start (skip^[k] t) := fun hs =>
      let ⟨k, hst'⟩ := hstep s t hst
      ⟨k, hs.tail hst'⟩
    by_cases hfixed : skip s = s
    · rw [Function.iterate_fixed hfixed] at hk
      exact hnext hk
    · cases k with
      | zero => exact hnext hk
      | succ k =>
        -- the other system has skipped this step already
        rw [Function.iterate_succ_apply, ← hskip s t hfixed hst] at hk
        exact ⟨k, hk⟩

/-- Every shortcut is a run of the other system. -/
theorem shortcut_behind (hskip : ∀ s, ReflTransGen R s (skip s))
    (hstep : ∀ s t', R' s t' → ∃ t k, R s t ∧ t' = skip^[k] t) (h : ReflTransGen R' start s) :
    ReflTransGen R start s := by
  have hskips (k : Nat) : ∀ s, ReflTransGen R s (skip^[k] s) := by
    induction k with
    | zero => exact fun _ => .refl
    | succ k ih => exact fun s => (hskip s).trans (ih (skip s))
  induction h with
  | refl => exact .refl
  | @tail s t' _ hst' ih =>
    obtain ⟨t, k, hst, rfl⟩ := hstep s t' hst'
    exact (ih.tail hst).trans (hskips k t)

end Phrust
