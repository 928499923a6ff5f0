import Mathlib.Data.List.Basic
import Mathlib.Logic.Relation

/-!
# Walks through blocks of lines

A graph whose nodes are blocks of lines: a walk goes down the lines of a block and, behind the last
one, on to a successor. A walk over lines with a property splits into the part in its first block, the
blocks in between and the part in its last block.
-/

namespace Phrust
open Nat

/-- `size b` is the number of lines of block `b`; behind them stands its exit. -/
structure BlockGraph where
  size : Nat → Option Nat
  succ : Nat → List Nat

namespace BlockGraph
variable {G : BlockGraph} {S : Nat → Nat → Prop}

inductive Step (G : BlockGraph) : Nat × Nat → Nat × Nat → Prop where
  | next {b n i : Nat} : G.size b = some n → i < n → Step G (b, i) (b, i + 1)
  | exit {b n c : Nat} : G.size b = some n → c ∈ G.succ b → Step G (b, n) (c, 0)

/-- At least one step, and every line before the last one has the property. -/
inductive Walk (G : BlockGraph) (S : Nat → Nat → Prop) : Nat × Nat → Nat × Nat → Prop where
  | one {p q : Nat × Nat} : S p.1 p.2 → G.Step p q → Walk G S p q
  | more {p q r : Nat × Nat} : Walk G S p q → S q.1 q.2 → G.Step q r → Walk G S p r

/-- Any number of steps, and every line before the last one has the property. -/
def Path (G : BlockGraph) (S : Nat → Nat → Prop) : Nat × Nat → Nat × Nat → Prop :=
  Relation.ReflTransGen fun p q => S p.1 p.2 ∧ G.Step p q

theorem Path.mono (hST : ∀ b i, S b i → T b i) (h : Path G S p q) : Path G T p q := by
  induction h with
  | refl => exact .refl
  | tail _ hstep ih => exact ih.tail ⟨hST _ _ hstep.1, hstep.2⟩

/-- At least one edge, and every line of the blocks in between has the property. -/
inductive Through (G : BlockGraph) (S : Nat → Nat → Prop) : Nat → Nat → Prop where
  | edge {b c : Nat} : c ∈ G.succ b → Through G S b c
  | more {b c d n : Nat} : Through G S b c → G.size c = some n → (∀ i ≤ n, S c i) → d ∈ G.succ c →
    Through G S b d

theorem Walk.down (h : Walk G S p (b, i)) (hsize : G.size b = some n) (hij : i ≤ j) (hj : j ≤ n)
    (hS : ∀ k, i ≤ k → k < j → S b k) : Walk G S p (b, j) := by
  induction hij with
  | refl => exact h
  | @step j hij ih =>
    exact (ih (by omega) fun k hk hkj => hS k hk (by omega)).more (hS j hij (lt_succ_self j))
      (.next hsize hj)

theorem walk_down (hsize : G.size b = some n) (hij : i < j) (hj : j ≤ n)
    (hS : ∀ k, i ≤ k → k < j → S b k) : Walk G S (b, i) (b, j) :=
  (Walk.one (hS i (Nat.le_refl i) hij) (.next hsize (by omega))).down hsize hij hj
    fun k hk hkj => hS k (by omega) hkj

theorem Walk.exit (h : Walk G S p (b, n)) (hsize : G.size b = some n) (hS : S b n)
    (hc : c ∈ G.succ b) : Walk G S p (c, 0) := h.more hS (.exit hsize hc)

theorem walk_exit (hsize : G.size b = some n) (hi : i ≤ n) (hS : ∀ k, i ≤ k → k ≤ n → S b k)
    (hc : c ∈ G.succ b) : Walk G S (b, i) (c, 0) := by
  rcases Nat.eq_or_lt_of_le hi with rfl | hi
  · exact .one (hS i (Nat.le_refl i) (Nat.le_refl i)) (.exit hsize hc)
  · exact (walk_down hsize hi (Nat.le_refl n) fun k hk hkn => hS k hk (Nat.le_of_lt hkn)).exit hsize
      (hS n (Nat.le_of_lt hi) (Nat.le_refl n)) hc

theorem Through.walk (h : Through G S b c) (hsize : G.size b = some n) (hi : i ≤ n)
    (hS : ∀ k, i ≤ k → k ≤ n → S b k) : Walk G S (b, i) (c, 0) := by
  induction h with
  | edge hc => exact walk_exit hsize hi hS hc
  | more _ hsize' hall hd ih =>
    exact (ih.down hsize' (Nat.zero_le _) (Nat.le_refl _) fun k _ hk => hall k (Nat.le_of_lt hk)).exit
      hsize' (hall _ (Nat.le_refl _)) hd

/-- A walk stays in its block or leaves it behind its last line. -/
theorem Walk.cases_blocks (h : Walk G S p q) : (p.1 = q.1 ∧ p.2 < q.2 ∧ ∀ k, p.2 ≤ k → k < q.2 → S p.1 k) ∨
      ∃ n, G.size p.1 = some n ∧ p.2 ≤ n ∧ (∀ k, p.2 ≤ k → k ≤ n → S p.1 k) ∧
        Through G S p.1 q.1 ∧ ∀ k < q.2, S q.1 k := by
  induction h with
  | one hp hstep =>
    cases hstep with
    | next hsize hi =>
      refine .inl ⟨rfl, lt_succ_self _, fun k hk hk' => ?_⟩
      rwa [Nat.le_antisymm hk (Nat.lt_succ_iff.mp hk')] at hp
    | exit hsize hc =>
      refine .inr ⟨_, hsize, Nat.le_refl _, fun k hk hk' => ?_, .edge hc, nofun⟩
      rwa [Nat.le_antisymm hk hk'] at hp
  | more _ hq hstep ih =>
    cases hstep with
    | @next b n i hsize hi =>
      have hupto {m : Nat} (hS : ∀ k, m ≤ k → k < i → S b k) (k : Nat) (hk : m ≤ k) (hk' : k < i + 1) :
          S b k := by
        rcases Nat.lt_succ_iff_lt_or_eq.mp hk' with hlt | rfl
        · exact hS k hk hlt
        · exact hq
      rcases ih with ⟨hblock, hlt, hS⟩ | ⟨m, hsize', hle, hS, hthrough, hdown⟩
      · left
        rw [hblock] at hS ⊢
        exact ⟨rfl, lt_succ_of_lt hlt, hupto hS⟩
      · exact .inr ⟨m, hsize', hle, hS, hthrough,
          fun k hk => hupto (fun k _ hk => hdown k hk) k (zero_le k) hk⟩
    | @exit b n c hsize hc =>
      right
      rcases ih with ⟨hblock, hlt, hS⟩ | ⟨m, hsize', hle, hS, hthrough, hdown⟩
      · dsimp only at hblock hlt hS
        rw [hblock] at hS ⊢
        refine ⟨n, hsize, Nat.le_of_lt hlt, fun k hk hkn => ?_, .edge hc, nofun⟩
        rcases Nat.eq_or_lt_of_le hkn with rfl | hkn
        · exact hq
        · exact hS k hk hkn
      · refine ⟨m, hsize', hle, hS, hthrough.more hsize (fun k hk => ?_) hc, nofun⟩
        rcases Nat.eq_or_lt_of_le hk with rfl | hk
        · exact hq
        · exact hdown k hk

end BlockGraph
end Phrust
