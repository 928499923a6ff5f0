import Mathlib.Data.List.Basic
import Mathlib.Logic.Relation

/-!
# Searching a graph given by successor lists

`search` is a worklist search with a set of visited nodes; its result is the set of nodes that are
reachable from the start. `ask` is a depth-bounded recursive search for a node that hits; it may meet
nodes whose successors are not known and then gives no answer.
-/

namespace Phrust
open List

/-- Zero or more steps from a node to one of its successors. -/
def Reaches (succ : α → List α) : α → α → Prop := Relation.ReflTransGen fun a b => b ∈ succ a

theorem Reaches.step {succ : α → List α} (h : Reaches succ a b) (hc : c ∈ succ b) :
    Reaches succ a c := Relation.ReflTransGen.tail h hc

theorem Reaches.head {succ : α → List α} (hb : b ∈ succ a) (h : Reaches succ b c) :
    Reaches succ a c := Relation.ReflTransGen.head hb h

/-- Only the successors of reachable nodes matter. -/
theorem Reaches.congr {succ : α → List α} {rel : α → α → Prop}
    (h : ∀ b, Relation.ReflTransGen rel a b → ∀ c, c ∈ succ b ↔ rel b c) :
    Reaches succ a c ↔ Relation.ReflTransGen rel a c := by
  constructor
  · intro hc
    induction hc with
    | refl => exact .refl
    | tail _ hd ih => exact ih.tail ((h _ ih _).mp hd)
  · intro hc
    induction hc with
    | refl => exact .refl
    | tail hb hd ih => exact ih.step ((h _ hb _).mpr hd)

/-! ## Worklist search -/

section
variable [DecidableEq α] (succ : α → List α)

/-- Pop a node; unless it is visited already, mark it and push its successors. `fuel` bounds the
number of pops. -/
def search : Nat → List α → List α → Option (List α)
  | 0, _, _ => none
  | _ + 1, [], visited => some visited
  | fuel + 1, node :: pending, visited =>
    if node ∈ visited then search fuel pending visited
    else search fuel (succ node ++ pending) (node :: visited)

variable {succ}

theorem search_sound (h : search succ fuel pending visited = some result) (hx : x ∈ result) :
    x ∈ visited ∨ ∃ node ∈ pending, Reaches succ node x := by
  induction fuel generalizing pending visited with
  | zero => cases h
  | succ fuel ih =>
    cases pending with
    | nil =>
      cases h
      exact .inl hx
    | cons node pending =>
      rw [search] at h
      split at h
      · exact (ih h).imp_right fun ⟨n, hn, hr⟩ => ⟨n, mem_cons_of_mem _ hn, hr⟩
      rcases ih h with hvisited | ⟨n, hn, hr⟩
      · rcases mem_cons.mp hvisited with rfl | hvisited
        · exact .inr ⟨x, mem_cons_self, .refl⟩
        · exact .inl hvisited
      · rcases mem_append.mp hn with hn | hn
        · exact .inr ⟨node, mem_cons_self, .head hn hr⟩
        · exact .inr ⟨n, mem_cons_of_mem _ hn, hr⟩

/-- Whatever is left to do is on the worklist, so the result is closed under successors. -/
theorem search_closed (h : search succ fuel pending visited = some result)
    (hopen : ∀ a ∈ visited, ∀ b ∈ succ a, b ∈ visited ∨ b ∈ pending) :
    (∀ a ∈ visited, a ∈ result) ∧ (∀ a ∈ pending, a ∈ result) ∧ ∀ a ∈ result, ∀ b ∈ succ a, b ∈ result := by
  induction fuel generalizing pending visited with
  | zero => cases h
  | succ fuel ih =>
    cases pending with
    | nil =>
      cases h
      refine ⟨fun _ ha => ha, ?_, fun a ha b hb => (hopen a ha b hb).resolve_right not_mem_nil⟩
      exact fun _ ha => absurd ha not_mem_nil
    | cons node pending =>
      rw [search] at h
      split at h
      · next hnode =>
        obtain ⟨hvisited, hpending, hclosed⟩ := ih h fun a ha b hb => by
          rcases hopen a ha b hb with hb | hb
          · exact .inl hb
          · rcases mem_cons.mp hb with rfl | hb
            · exact .inl hnode
            · exact .inr hb
        refine ⟨hvisited, fun a ha => ?_, hclosed⟩
        rcases mem_cons.mp ha with rfl | ha
        · exact hvisited _ hnode
        · exact hpending a ha
      · obtain ⟨hvisited, hpending, hclosed⟩ := ih h fun a ha b hb => by
          rcases mem_cons.mp ha with rfl | ha
          · exact .inr (mem_append_left _ hb)
          rcases hopen a ha b hb with hb | hb
          · exact .inl (mem_cons_of_mem _ hb)
          · rcases mem_cons.mp hb with rfl | hb
            · exact .inl mem_cons_self
            · exact .inr (mem_append_right _ hb)
        refine ⟨(forall_mem_cons.mp hvisited).2, fun a ha => ?_, hclosed⟩
        rcases mem_cons.mp ha with rfl | ha
        · exact hvisited _ mem_cons_self
        · exact hpending a (mem_append_right _ ha)

theorem mem_search_pending_iff (h : search succ fuel pending [] = some result) :
    x ∈ result ↔ ∃ node ∈ pending, Reaches succ node x := by
  constructor
  · intro hx
    exact (search_sound h hx).resolve_left not_mem_nil
  obtain ⟨-, hpending, hclosed⟩ := search_closed h nofun
  rintro ⟨node, hnode, hx⟩
  induction hx with
  | refl => exact hpending _ hnode
  | tail _ hd ih => exact hclosed _ ih _ hd

theorem mem_search_iff (h : search succ fuel [start] [] = some result) :
    x ∈ result ↔ Reaches succ start x := by
  rw [mem_search_pending_iff h]
  simp

/-- The search ends when every pushed node is one of finitely many: each of them is expanded once. -/
theorem search_isSome (nodes : List α) (width : Nat)
    (hsucc : ∀ a, ∀ b ∈ succ a, b ∈ nodes) (hwidth : ∀ a, (succ a).length ≤ width)
    (hpending : ∀ a ∈ pending, a ∈ nodes)
    (hfuel : pending.length + (nodes.countP (· ∉ visited)) * (width + 1) < fuel) :
    (search succ fuel pending visited).isSome := by
  induction fuel generalizing pending visited with
  | zero => exact absurd hfuel (Nat.not_lt_zero _)
  | succ fuel ih =>
    cases pending with
    | nil => rfl
    | cons node pending =>
      rw [length_cons] at hfuel
      rw [search]
      split
      · exact ih (forall_mem_cons.mp hpending).2 (by omega)
      · next hnode =>
        refine ih (fun a ha => ?_) ?_
        · rcases mem_append.mp ha with ha | ha
          · exact hsucc node a ha
          · exact hpending a (mem_cons_of_mem _ ha)
        have hless : nodes.countP (· ∉ node :: visited) + 1 ≤ nodes.countP (· ∉ visited) := by
          have hmem := hpending node mem_cons_self
          obtain ⟨left, right, rfl⟩ := append_of_mem hmem
          have hmono : ∀ l : List α, l.countP (· ∉ node :: visited) ≤ l.countP (· ∉ visited) :=
            fun l => countP_mono_left fun a _ ha => by
              simp only [mem_cons, not_or, decide_eq_true_eq] at ha ⊢
              exact ha.2
          have hl := hmono left
          have hr := hmono right
          simp only [countP_append, countP_cons, mem_cons, true_or, not_true,
            decide_false, Bool.false_eq_true, if_false, hnode, not_false_eq_true, decide_true,
            if_true]
          simp only [mem_cons] at hl hr
          omega
        have hmul := Nat.mul_le_mul_right (width + 1) hless
        rw [Nat.succ_mul] at hmul
        have := hwidth node
        rw [length_append]
        omega

end

/-- A search among the numbers below a bound ends. -/
theorem exists_search {succ : Nat → List Nat} (width bound : Nat) (hsucc : ∀ i, ∀ j ∈ succ i, j < bound)
    (hwidth : ∀ i, (succ i).length ≤ width) (hpending : ∀ i ∈ pending, i < bound)
    (hfuel : pending.length + (width + 1) * bound < fuel) : ∃ result, search succ fuel pending [] = some result := by
  have hcount := countP_le_length (p := (· ∉ ([] : List Nat))) (l := List.range bound)
  rw [length_range] at hcount
  have hmul := Nat.mul_le_mul_left (width + 1) hcount
  refine Option.isSome_iff_exists.mp (search_isSome (List.range bound) width ?_ hwidth ?_ ?_)
  · exact fun i j hj => mem_range.mpr (hsucc i j hj)
  · exact fun i hi => mem_range.mpr (hpending i hi)
  · rw [Nat.mul_comm]
    omega

/-- It marks the first one and whatever it leads to. -/
theorem search_below (succ : Nat → List Nat) (width bound : Nat) (hpos : 0 < bound)
    (hwidth : ∀ i, (succ i).length ≤ width) :
    ∃ result, search (fun i => ((succ i).filter (· < bound)).reverse)
        ((width + 1) * bound + 2) [0] [] = some result ∧ 0 ∈ result ∧ (∀ i ∈ result, i < bound) ∧
        ∀ i ∈ result, ∀ j ∈ succ i, j < bound → j ∈ result := by
  generalize hbelow : (fun i => ((succ i).filter (· < bound)).reverse) = below
  have hmem (i j : Nat) : j ∈ below i ↔ j ∈ succ i ∧ j < bound := by simp [← hbelow]
  have hlength (i : Nat) : (below i).length ≤ width := by
    rw [← hbelow, length_reverse]
    exact Nat.le_trans (length_filter_le _ _) (hwidth i)
  obtain ⟨result, hresult⟩ := exists_search width bound (fun i j hj => ((hmem i j).mp hj).2) hlength
    (forall_mem_singleton.mpr hpos) (show _ < (width + 1) * bound + 2 by rw [length_singleton]; omega)
  obtain ⟨-, hpending, hclosed⟩ := search_closed hresult nofun
  refine ⟨result, hresult, hpending 0 (mem_singleton_self 0), fun i hi => ?_,
    fun i hi j hj hlt => hclosed i hi j ((hmem i j).mpr ⟨hj, hlt⟩)⟩
  cases (mem_search_iff hresult).mp hi with
  | refl => exact hpos
  | tail _ hj => exact ((hmem _ _).mp hj).2

/-! ## Bounded recursive search -/

/-- The first node with a positive answer decides; a node without an answer leaves none. -/
def anyKnown (query : α → Option Bool) : List α → Option Bool
  | [] => some false
  | node :: nodes =>
    match query node with
    | none => none
    | some true => some true
    | some false => anyKnown query nodes

theorem anyKnown_cases (h : anyKnown query nodes = some answer) :
    if answer then ∃ node ∈ nodes, query node = some true else ∀ node ∈ nodes, query node = some false := by
  induction nodes with
  | nil =>
    cases h
    exact nofun
  | cons node nodes ih =>
    rw [anyKnown] at h
    cases hq : query node with
    | none => rw [hq] at h; cases h
    | some found =>
      rw [hq] at h
      cases found with
      | true =>
        cases h
        exact ⟨node, mem_cons_self, hq⟩
      | false =>
        have ih := ih h
        cases answer with
        | true => exact (exists_mem_cons_iff ..).mpr (.inr ih)
        | false => exact forall_mem_cons.mpr ⟨hq, ih⟩

/-- Search for a node that hits, at most `fuel` levels deep. -/
def ask (hit : α → Bool) (succ : α → Option (List α)) : Nat → α → Option Bool
  | 0, _ => none
  | fuel + 1, node =>
    if hit node then some true
    else
      match succ node with
      | none => none
      | some nodes => anyKnown (ask hit succ fuel) nodes

section
variable {hit : α → Bool} {succ : α → Option (List α)} (full : α → List α)

theorem ask_true (hfull : ∀ a, Reaches full node a → ∀ nodes, succ a = some nodes → ∀ b ∈ nodes, b ∈ full a)
    (h : ask hit succ fuel node = some true) : ∃ x, Reaches full node x ∧ hit x = true := by
  induction fuel generalizing node with
  | zero => cases h
  | succ fuel ih =>
    rw [ask] at h
    split at h
    · next hnode => exact ⟨node, .refl, hnode⟩
    · cases hsucc : succ node with
      | none => rw [hsucc] at h; cases h
      | some nodes =>
        rw [hsucc] at h
        obtain ⟨next, hnext, hask⟩ := anyKnown_cases h
        have hstep := hfull node .refl nodes hsucc next hnext
        obtain ⟨x, hr, hx⟩ := ih (fun a ha => hfull a (.head hstep ha)) hask
        exact ⟨x, .head hstep hr, hx⟩

theorem ask_false (hfull : ∀ a, Reaches full node a → ∀ nodes, succ a = some nodes → ∀ b ∈ full a, b ∈ nodes)
    (h : ask hit succ fuel node = some false) (hr : Reaches full node x) : hit x = false := by
  induction fuel generalizing node with
  | zero => cases h
  | succ fuel ih =>
    rw [ask] at h
    split at h
    · cases h
    · next hnode =>
      cases hsucc : succ node with
      | none => rw [hsucc] at h; cases h
      | some nodes =>
        rw [hsucc] at h
        rcases Relation.ReflTransGen.cases_head hr with rfl | ⟨next, hnext, hr⟩
        · exact Bool.eq_false_iff.mpr hnode
        · exact ih (fun a ha => hfull a (.head hnext ha))
            (anyKnown_cases h next (hfull node .refl nodes hsucc next hnext)) hr

end
end Phrust
