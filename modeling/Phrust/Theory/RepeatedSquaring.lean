import Mathlib.Dynamics.PeriodicPts.Defs
import Mathlib.Data.Set.Finite.Lattice
import Mathlib.Order.Preorder.Finite
import Mathlib.Data.Nat.Prime.Basic

/-!
# Squaring a self-map again and again

For a self-map that moves finitely many points, the sequence `f`, `f ∘ f`, `(f ∘ f) ∘ (f ∘ f)`, ...
reaches an idempotent map exactly when the length of every cycle is a power of two.
-/

namespace Phrust
open Function Nat
variable {α : Type u} {f : α → α}

/-- Every cycle has a power of two as its length. -/
def DyadicCycles (f : α → α) : Prop := ∀ x ∈ periodicPts f, ∃ k, minimalPeriod f x = 2 ^ k

theorem iterate_eq_of_idempotent (h : ∀ x, f (f x) = f x) (n : Nat) (x : α) : f^[n + 1] x = f x := by
  induction n with
  | zero => rfl
  | succ n ih => rw [iterate_succ_apply', ih, h]

/-- Once the square of a power is the power, it stays so. -/
theorem idempotent_mono (hle : k ≤ k') (h : ∀ x, f^[2 ^ k] (f^[2 ^ k] x) = f^[2 ^ k] x) (x : α) :
    f^[2 ^ k'] (f^[2 ^ k'] x) = f^[2 ^ k'] x := by
  obtain ⟨d, rfl⟩ := Nat.exists_eq_add_of_le hle
  have hpow : f^[2 ^ (k + d)] = f^[2 ^ k] := by
    obtain ⟨n, hn⟩ := Nat.exists_eq_succ_of_ne_zero (Nat.two_pow_pos d).ne'
    funext y
    rw [Nat.pow_add, iterate_mul, hn, Nat.succ_eq_add_one, iterate_eq_of_idempotent h]
  rw [hpow, h]

/-- Every orbit ends in a cycle. -/
theorem exists_iterate_mem_periodicPts (hfinite : {x | f x ≠ x}.Finite) (x : α) :
    ∃ m, f^[m] x ∈ periodicPts f := by
  by_cases hmoves : ∀ n, f (f^[n] x) ≠ f^[n] x
  · obtain ⟨m, n, hlt, heq⟩ := hfinite.exists_lt_map_eq_of_forall_mem hmoves
    refine ⟨m, mem_periodicPts.mpr ⟨n - m, Nat.sub_pos_of_lt hlt, ?_⟩⟩
    rw [IsPeriodicPt, IsFixedPt, ← iterate_add_apply, Nat.sub_add_cancel hlt.le, heq]
  · push Not at hmoves
    obtain ⟨n, hfixed⟩ := hmoves
    exact ⟨n, mem_periodicPts.mpr ⟨1, one_pos, hfixed⟩⟩

/-- With dyadic cycles each orbit is at rest after enough squarings. -/
theorem DyadicCycles.exists_rest (h : DyadicCycles f) (hfinite : {x | f x ≠ x}.Finite) (x : α) :
    ∃ k, ∀ k' ≥ k, f^[2 ^ k'] (f^[2 ^ k'] x) = f^[2 ^ k'] x := by
  obtain ⟨m, hm⟩ := exists_iterate_mem_periodicPts hfinite x
  obtain ⟨j, hj⟩ := h _ hm
  refine ⟨max m j, fun k' hk' => ?_⟩
  have hlong : m ≤ 2 ^ k' := (le_trans (le_max_left m j) hk').trans k'.lt_two_pow_self.le
  have hsplit : f^[2 ^ k'] x = f^[2 ^ k' - m] (f^[m] x) := by
    rw [← iterate_add_apply, Nat.sub_add_cancel hlong]
  have hperiod : minimalPeriod f (f^[2 ^ k'] x) = 2 ^ j := by
    rw [hsplit, minimalPeriod_apply_iterate hm, hj]
  refine isPeriodicPt_iff_minimalPeriod_dvd.mpr ?_
  rw [hperiod]
  exact pow_dvd_pow 2 ((le_max_right m j).trans hk')

theorem DyadicCycles.exists_idempotent (h : DyadicCycles f) (hfinite : {x | f x ≠ x}.Finite) :
    ∃ k, ∀ x, f^[2 ^ k] (f^[2 ^ k] x) = f^[2 ^ k] x := by
  choose rest hrest using h.exists_rest hfinite
  obtain ⟨bound, hbound⟩ := (hfinite.image rest).bddAbove
  refine ⟨bound, fun x => ?_⟩
  by_cases hmoves : f x = x
  · rw [iterate_fixed hmoves, iterate_fixed hmoves]
  · exact hrest x bound (hbound (Set.mem_image_of_mem rest hmoves))

theorem DyadicCycles.of_square (h : DyadicCycles f^[2]) : DyadicCycles f := by
  intro x hx
  have hx' : x ∈ periodicPts f^[2] := by
    obtain ⟨n, hpos, hperiodic⟩ := mem_periodicPts.mp hx
    exact mem_periodicPts.mpr ⟨n, hpos, hperiodic.iterate 2⟩
  obtain ⟨k, hk⟩ := h x hx'
  rw [minimalPeriod_iterate_eq_div_gcd' hx] at hk
  have hgcd : Nat.gcd (minimalPeriod f x) 2 ∣ 2 ^ 1 := by simpa using Nat.gcd_dvd_right _ 2
  obtain ⟨j, -, hj⟩ := (dvd_prime_pow prime_two).mp hgcd
  refine ⟨k + j, ?_⟩
  rw [Nat.pow_add, ← hk, ← hj, Nat.div_mul_cancel (Nat.gcd_dvd_left _ _)]

/-- A cycle that is not dyadic is not at rest. -/
theorem exists_not_idempotent (h : ¬DyadicCycles f) : ∃ x, f x ≠ x ∧ f (f x) ≠ f x := by
  unfold DyadicCycles at h
  push Not at h
  obtain ⟨x, hx, hperiod⟩ := h
  have hmoves (y : α) (hy : minimalPeriod f y = minimalPeriod f x) : f y ≠ y := fun hfixed =>
    hperiod 0 (hy ▸ minimalPeriod_eq_one_iff_isFixedPt.mpr hfixed)
  exact ⟨x, hmoves x rfl, hmoves (f x) (minimalPeriod_apply_iterate hx 1)⟩

end Phrust
