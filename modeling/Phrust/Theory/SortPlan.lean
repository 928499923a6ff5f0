import Mathlib.Data.List.Induction
import Mathlib.Data.List.Nodup
import Mathlib.Data.List.Perm.Basic

/-!
# Sorting by a plan

A plan says for every destination where its element stands. It is sorted by exchanging neighbours, with
a comparison that may fail, and carried out afterwards: each destination is exchanged with the place of
its element, and what the rest of the plan says about these two places is redirected.
-/

namespace Phrust
open List Option Nat

/-- Exchange the elements at two positions. -/
def exchange (left right : Nat) (elements : List α) : List α :=
  match elements[left]?, elements[right]? with
  | some a, some b => (elements.set left b).set right a
  | _, _ => elements

namespace SortPlan

section Sorting
variable (cmp : Nat → Nat → Option Ordering)

/-- Exchange the element at the cursor with its left neighbours as long as they are greater. -/
def sink : Nat → List Nat → Option (List Nat)
  | 0, order => some order
  | cursor + 1, order =>
    match order[cursor]?, order[cursor + 1]? with
    | some left, some right =>
      match cmp left right with
      | none => none
      | some .gt => sink cursor (exchange cursor (cursor + 1) order)
      | some _ => some order
    | _, _ => none

def sorted (length : Nat) : Option (List Nat) :=
  (List.range' 1 (length - 1)).foldlM (fun order index => sink cmp index order) (List.range length)

end Sorting

section Placing
variable (swap : Nat → Nat → σ → σ)

/-- Where the element of a place is after an exchange. -/
def redirect (destination source current : Nat) : Nat :=
  if current = destination then source else if current = source then destination else current

def placeStep (state : List Nat × σ) (destination : Nat) : List Nat × σ :=
  match state.1[destination]? with
  | none => state
  | some source =>
    if source = destination then state
    else
      (state.1.take destination ++
          destination :: (state.1.drop (destination + 1)).map (redirect destination source),
        swap destination source state.2)

/-- Carry out a plan. -/
def place (order : List Nat) (state : σ) : σ :=
  ((List.range order.length).foldl (placeStep swap) (order, state)).2

end Placing

/-! ## Exchanges -/

theorem getElem?_neighbours (before : List α) (a b : α) (after : List α) :
    (before ++ a :: b :: after)[before.length]? = some a ∧
      (before ++ a :: b :: after)[before.length + 1]? = some b := by
  constructor
  · rw [getElem?_append_right (Nat.le_refl _), Nat.sub_self]
    rfl
  · rw [getElem?_append_right (Nat.le_add_right _ 1), Nat.add_sub_cancel_left]
    rfl

theorem exchange_append (before : List α) (a b : α) (after : List α) :
    exchange before.length (before.length + 1) (before ++ a :: b :: after) = before ++ b :: a :: after := by
  obtain ⟨hleft, hright⟩ := getElem?_neighbours before a b after
  rw [exchange, hleft, hright]
  simp only
  rw [set_append_right _ _ (Nat.le_refl _), set_append_right _ _ (Nat.le_add_right _ 1),
    Nat.sub_self, Nat.add_sub_cancel_left]
  rfl

@[simp] theorem length_exchange (left right : Nat) (elements : List α) :
    (exchange left right elements).length = elements.length := by
  rw [exchange]
  split
  · rw [length_set, length_set]
  · rfl

variable {elements : List α}

theorem getElem?_exchange (hleft : left < elements.length) (hright : right < elements.length) (index : Nat) :
    (exchange left right elements)[index]? = elements[redirect left right index]? := by
  rw [exchange, getElem?_eq_getElem hleft, getElem?_eq_getElem hright]
  simp only
  rw [getElem?_set, getElem?_set, length_set, redirect]
  by_cases hindex : index = left
  · by_cases heq : right = index
    · rw [if_pos heq, if_pos hright, if_pos hindex, getElem?_eq_getElem hright]
      simp [← hindex, heq]
    · rw [if_neg heq, if_pos hindex.symm, if_pos hleft, if_pos hindex, getElem?_eq_getElem hright]
  · by_cases heq : right = index
    · rw [if_pos heq, if_pos hright, if_neg hindex, if_pos heq.symm, getElem?_eq_getElem hleft]
    · rw [if_neg heq, if_neg (Ne.symm hindex), if_neg hindex, if_neg (Ne.symm heq)]

/-! ## Sorting -/

section
variable {cmp : Nat → Nat → Option Ordering} {length : Nat}

theorem sink_perm (h : sink cmp cursor order = some result) : result.Perm order := by
  induction cursor generalizing order with
  | zero =>
    cases h
    exact .refl _
  | succ cursor ih =>
    rw [sink] at h
    split at h
    · next left right hleft hright =>
      split at h
      · cases h
      · refine (ih h).trans ?_
        obtain ⟨hlt, hget⟩ := List.getElem?_eq_some_iff.mp hleft
        obtain ⟨hlt', hget'⟩ := List.getElem?_eq_some_iff.mp hright
        have hsplit : order = order.take cursor ++ left :: right :: order.drop (cursor + 2) := by
          rw [← hget', ← drop_eq_getElem_cons hlt', ← hget, ← drop_eq_getElem_cons hlt, take_append_drop]
        have hlength : (order.take cursor).length = cursor := length_take_of_le (Nat.le_of_lt hlt)
        have hexchange := exchange_append (order.take cursor) left right (order.drop (cursor + 2))
        rw [hlength, ← hsplit] at hexchange
        rw [hexchange]
        nth_rewrite 3 [hsplit]
        exact .append_left _ (.swap _ _ _)
      · cases h
        exact .refl _
    · cases h

theorem sorted_perm (h : sorted cmp length = some order) : order.Perm (List.range length) := by
  have hfold : ∀ (indices start : List Nat), indices.foldlM (fun order index => sink cmp index order) start =
      some order → order.Perm start := by
    intro indices
    induction indices with
    | nil =>
      intro start h
      cases h
      exact .refl _
    | cons index indices ih =>
      intro start h
      obtain ⟨next, hnext, hrest⟩ := bind_eq_some_iff.mp h
      exact (ih next hrest).trans (sink_perm hnext)
  exact hfold _ _ h

/-- The comparison is a total preorder on the first numbers. -/
structure Preorders (cmp : Nat → Nat → Option Ordering) (length : Nat) : Prop where
  total {i j : Nat} : i < length → j < length →
    ∃ ordering, cmp i j = some ordering ∧ cmp j i = some ordering.swap
  trans {i j k : Nat} : i < length → j < length → k < length →
    cmp i j ≠ some .gt → cmp j k ≠ some .gt → cmp i k ≠ some .gt

/-- The order of a stable sort: numbers that compare equal stay in order. -/
def Before (cmp : Nat → Nat → Option Ordering) (i j : Nat) : Prop :=
  cmp i j = some .lt ∨ (cmp i j = some .eq ∧ i < j)

instance (cmp : Nat → Nat → Option Ordering) : DecidableRel (Before cmp) := fun _ _ =>
  inferInstanceAs (Decidable (_ ∨ _))

section
variable (h : Preorders cmp length)
include h

theorem Preorders.swap (hi : i < length) (hj : j < length)
    (hij : cmp i j = some ordering) : cmp j i = some ordering.swap := by
  obtain ⟨other, hleft, hright⟩ := h.total hi hj
  cases hij.symm.trans hleft
  exact hright

theorem Preorders.reverse : Preorders (fun i j => (cmp i j).map Ordering.swap) length where
  total hi hj := by
    obtain ⟨ordering, hij, hji⟩ := h.total hi hj
    exact ⟨ordering.swap, congrArg _ hij, congrArg _ hji⟩
  trans {i j k} hi hj hk hij hjk := by
    have hback {i j : Nat} (hi : i < length) (hj : j < length)
        (hne : (cmp i j).map Ordering.swap ≠ some .gt) : cmp j i ≠ some .gt := by
      intro hgt
      rw [h.swap hj hi hgt] at hne
      exact hne rfl
    intro hgt
    obtain ⟨ordering, hik, hswap⟩ := map_eq_some_iff.mp hgt
    have hki := h.swap hi hk hik
    rw [hswap] at hki
    exact h.trans hk hj hi (hback hj hk hjk) (hback hi hj hij) hki

/-- The second comparison decides where the first does not. -/
theorem Preorders.lex (h' : Preorders cmp' length) :
    Preorders (fun i j => if cmp i j = some .eq then cmp' i j else cmp i j) length where
  total {i j} hi hj := by
    obtain ⟨ordering, hij, hji⟩ := h.total hi hj
    simp only [hij, hji]
    cases ordering with
    | eq => simpa using h'.total hi hj
    | lt | gt => exact ⟨_, rfl, rfl⟩
  trans {i j k} hi hj hk hij hjk := by
    have hle {i j : Nat} (hne : (if cmp i j = some .eq then cmp' i j else cmp i j) ≠ some .gt) :
        cmp i j ≠ some .gt := by
      intro hgt
      rw [hgt] at hne
      exact hne rfl
    have hij' := hle hij
    have hjk' := hle hjk
    split
    · next heq =>
      -- If i and k are equal, then so are i and j, and j and k.
      have hki : cmp k i ≠ some .gt := by rw [h.swap hi hk heq]; exact nofun
      have hsame {i j : Nat} (hi : i < length) (hj : j < length) (hij : cmp i j ≠ some .gt)
          (hji : cmp j i ≠ some .gt) : cmp i j = some .eq := by
        obtain ⟨ordering, hordering, hswap⟩ := h.total hi hj
        cases ordering with
        | eq => exact hordering
        | lt => exact absurd hswap hji
        | gt => exact absurd hordering hij
      rw [if_pos (hsame hi hj hij' (h.trans hj hk hi hjk' hki))] at hij
      rw [if_pos (hsame hj hk hjk' (h.trans hk hi hj hki hij'))] at hjk
      exact h'.trans hi hj hk hij hjk
    · exact h.trans hi hj hk hij' hjk'

theorem Preorders.before_trans (hi : i < length) (hj : j < length)
    (hk : k < length) (hij : Before cmp i j) (hjk : Before cmp j k) : Before cmp i k := by
  have hle {i j : Nat} (hbefore : Before cmp i j) : cmp i j ≠ some .gt := by
    rcases hbefore with hlt | ⟨heq, -⟩
    · rw [hlt]
      exact nofun
    · rw [heq]
      exact nofun
  have hik := h.trans hi hj hk (hle hij) (hle hjk)
  obtain ⟨ordering, hordering, hswap⟩ := h.total hi hk
  cases ordering with
  | lt => exact .inl hordering
  | gt => exact absurd hordering hik
  | eq =>
    -- If i and k are equal, then so are i and j, and j and k.
    have hki : cmp k i ≠ some .gt := by
      rw [hswap]
      exact nofun
    rcases hij with hlt | ⟨heq, hlt⟩
    · exact absurd (h.swap hi hj hlt) (h.trans hj hk hi (hle hjk) hki)
    · rcases hjk with hlt' | ⟨-, hlt'⟩
      · exact absurd (h.swap hj hk hlt') (h.trans hk hi hj hki (hle (.inr ⟨heq, hlt⟩)))
      · exact .inr ⟨hordering, Nat.lt_trans hlt hlt'⟩

theorem sink_spec (after : List Nat)
    (hbounds : ∀ i ∈ before ++ [x], i < length) (hsorted : before.Pairwise (Before cmp))
    (hlast : ∀ i ∈ before, i < x) :
    ∃ result, sink cmp before.length (before ++ x :: after) = some (result ++ after) ∧
      result.Perm (before ++ [x]) ∧ result.Pairwise (Before cmp) := by
  induction before using List.reverseRecOn generalizing after with
  | nil => exact ⟨[x], rfl, .refl _, pairwise_singleton _ _⟩
  | append_singleton before last ih =>
    have hx : x < length := hbounds x (mem_append_right _ (mem_singleton_self x))
    have hmem : last ∈ before ++ [last] := mem_append_right _ (mem_singleton_self last)
    have hl : last < length := hbounds last (mem_append_left _ hmem)
    obtain ⟨hfront, -, hbefore⟩ := pairwise_append.mp hsorted
    obtain ⟨ordering, hordering, hswap⟩ := h.total hl hx
    have hlist : before ++ [last] ++ x :: after = before ++ last :: x :: after := by
      rw [append_assoc]
      rfl
    obtain ⟨hleft, hright⟩ := getElem?_neighbours before last x after
    have hstays (hne : ordering ≠ .gt) : Before cmp last x := by
      cases ordering with
      | lt => exact .inl hordering
      | eq => exact .inr ⟨hordering, hlast last hmem⟩
      | gt => exact absurd rfl hne
    rw [hlist, length_append, length_singleton, sink, hleft, hright]
    simp only [hordering]
    by_cases hgt : ordering = .gt
    · obtain ⟨result, hsink, hperm, hresult⟩ := ih (last :: after)
        (fun i hi => hbounds i (by
          rcases mem_append.mp hi with hi | hi
          · exact mem_append_left _ (mem_append_left _ hi)
          · exact mem_append_right _ hi))
        hfront (fun i hi => hlast i (mem_append_left _ hi))
      refine ⟨result ++ [last], ?_, ?_, ?_⟩
      · rw [hgt, exchange_append]
        simp only [hsink, append_assoc]
        rfl
      · refine (hperm.append_right [last]).trans ?_
        rw [append_assoc, append_assoc]
        exact .append_left _ (.swap _ _ _)
      · refine pairwise_append.mpr ⟨hresult, pairwise_singleton _ _, fun i hi j hj => ?_⟩
        rw [mem_singleton.mp hj]
        rcases mem_append.mp (hperm.mem_iff.mp hi) with hi | hi
        · exact hbefore i hi last (mem_singleton_self last)
        · rw [mem_singleton.mp hi]
          exact .inl (by rw [hswap, hgt]; rfl)
    · refine ⟨before ++ [last] ++ [x], ?_, .refl _, ?_⟩
      · cases ordering with
        | gt => exact absurd rfl hgt
        | lt | eq => simp
      refine pairwise_append.mpr ⟨hsorted, pairwise_singleton _ _, fun i hi j hj => ?_⟩
      rw [mem_singleton.mp hj]
      rcases mem_append.mp hi with hi' | hi'
      · exact h.before_trans (hbounds i (mem_append_left _ hi)) hl hx
          (hbefore i hi' last (mem_singleton_self last)) (hstays hgt)
      · rw [mem_singleton.mp hi']
        exact hstays hgt

end

/-- The plan of a stable sort. -/
structure Stable (cmp : Nat → Nat → Option Ordering) (length : Nat) (order : List Nat) : Prop where
  perm : order.Perm (List.range length)
  before : order.Pairwise (Before cmp)

theorem Stable.unique (h : Preorders cmp length) (horder : Stable cmp length order)
    (hother : Stable cmp length other) : order = other := by
  refine (horder.perm.trans hother.perm.symm).eq_of_pairwise (fun i j hi hj hij hji => ?_) horder.before
    hother.before
  have hi := mem_range.mp (horder.perm.mem_iff.mp hi)
  have hj := mem_range.mp (hother.perm.mem_iff.mp hj)
  rcases hij with hlt | ⟨heq, hlt⟩
  · rcases hji with hlt' | ⟨heq', -⟩
    · cases hlt'.symm.trans (h.swap hi hj hlt)
    · cases heq'.symm.trans (h.swap hi hj hlt)
  · rcases hji with hlt' | ⟨-, hlt'⟩
    · cases hlt'.symm.trans (h.swap hi hj heq)
    · exact absurd hlt' (Nat.lt_asymm hlt)

theorem sorted_stable (h : Preorders cmp length) :
    ∃ order, sorted cmp length = some order ∧ Stable cmp length order := by
  -- Before index `i` is sunk, the first `i` numbers are sorted and the others stand where they were.
  have hfold : ∀ count start (sorted : List Nat), start + count = length →
      sorted.Perm (List.range start) → sorted.Pairwise (Before cmp) →
      ∃ order, (List.range' start count).foldlM (fun order index => sink cmp index order)
          (sorted ++ List.range' start count) = some order ∧ Stable cmp length order := by
    intro count
    induction count with
    | zero =>
      intro start sorted hlength hperm hsorted
      refine ⟨sorted, by rw [range'_zero, append_nil]; rfl, ?_, hsorted⟩
      rw [← hlength]
      exact hperm
    | succ count ih =>
      intro start sorted hlength hperm hsorted
      have hstart : sorted.length = start := by rw [hperm.length_eq, length_range]
      have hless : ∀ i ∈ sorted, i < start := fun i hi => mem_range.mp (hperm.mem_iff.mp hi)
      have hbounds : ∀ i ∈ sorted ++ [start], i < length := by
        intro i hi
        rcases mem_append.mp hi with hi | hi
        · have := hless i hi
          omega
        · rw [mem_singleton.mp hi]
          omega
      obtain ⟨result, hsink, hresult, hpairwise⟩ := sink_spec h (List.range' (start + 1) count)
        hbounds hsorted hless
      rw [hstart] at hsink
      obtain ⟨order, hrest, hstable⟩ := ih (start + 1) result (by omega)
        (by rw [range_succ]; exact hresult.trans (hperm.append_right [start])) hpairwise
      refine ⟨order, ?_, hstable⟩
      rw [range'_succ, foldlM_cons, hsink]
      exact hrest
  cases length with
  | zero => exact ⟨[], rfl, .refl _, .nil⟩
  | succ count =>
    obtain ⟨order, horder, hstable⟩ := hfold count 1 [0] (by omega) (.refl _) (pairwise_singleton _ _)
    refine ⟨order, ?_, hstable⟩
    rw [sorted, range_eq_range', range'_succ, Nat.add_sub_cancel]
    exact horder

end

/-! ## Placing -/

theorem redirect_injective (destination source : Nat) : Function.Injective (redirect destination source) := by
  intro left right h
  unfold redirect at h
  grind

def arrange (elements : List α) (order : List Nat) : List α := order.filterMap (elements[·]?)

theorem getElem?_arrange (h : ∀ i ∈ order, i < elements.length) (index : Nat) :
    (arrange elements order)[index]? = order[index]?.bind (elements[·]?) := by
  induction order generalizing index with
  | nil => rfl
  | cons i order ih =>
    have hsome : elements[i]? = some _ := getElem?_eq_getElem (h i mem_cons_self)
    rw [arrange, filterMap_cons, hsome]
    cases index with
    | zero => exact hsome.symm
    | succ index => exact ih (forall_mem_cons.mp h).2 index

theorem arrange_perm (horder : order.Perm (List.range elements.length)) :
    (arrange elements order).Perm elements := by
  refine (horder.filterMap _).trans (.of_eq (ext_getElem? fun index => ?_))
  refine (getElem?_arrange (fun i hi => mem_range.mp hi) index).trans ?_
  by_cases hindex : index < elements.length
  · rw [getElem?_range hindex]
    rfl
  · rw [getElem?_eq_none (by rwa [length_range, ← Nat.not_lt]), getElem?_eq_none (Nat.not_lt.mp hindex)]
    rfl

/-- What has been placed, and where the rest of the plan finds its elements. -/
structure Placed (elements : List α) (order : List Nat) (done : Nat) (state : List Nat × List α) : Prop where
  order_length : state.1.length = order.length
  length : state.2.length = order.length
  front {i : Nat} : i < done → state.2[i]? = order[i]?.bind (elements[·]?)
  rest {i : Nat} : done ≤ i → state.1[i]?.bind (state.2[·]?) = order[i]?.bind (elements[·]?)
  nodup : (state.1.drop done).Nodup
  bounds {source : Nat} : source ∈ state.1.drop done → done ≤ source ∧ source < order.length

theorem Placed.step (h : Placed elements order done state) (hdone : done < order.length) :
    Placed elements order (done + 1) (placeStep exchange state done) := by
  have hlt : done < state.1.length := h.order_length ▸ hdone
  obtain ⟨source, hsource⟩ : ∃ source, state.1[done]? = some source :=
    ⟨_, getElem?_eq_getElem hlt⟩
  have hdrop : state.1.drop done = source :: state.1.drop (done + 1) := by
    rw [drop_eq_getElem_cons hlt, (List.getElem?_eq_some_iff.mp hsource).2]
  have hnodup := h.nodup
  rw [hdrop, nodup_cons] at hnodup
  have hbounds {current : Nat} (hcurrent : current ∈ state.1.drop (done + 1)) :
      done ≤ current ∧ current < order.length := h.bounds (by rw [hdrop]; exact mem_cons_of_mem _ hcurrent)
  obtain ⟨hle, hbound⟩ := h.bounds (by rw [hdrop]; exact mem_cons_self)
  have hplace : state.2[source]? = order[done]?.bind (elements[·]?) := by
    rw [← h.rest (Nat.le_refl done), hsource]
    rfl
  rw [placeStep, hsource]
  simp only
  by_cases heq : source = done
  · rw [if_pos heq]
    refine ⟨h.order_length, h.length, fun {i} hi => ?_, fun hi => h.rest (le_of_succ_le hi), hnodup.2,
      fun {current} hcurrent => ?_⟩
    · rcases Nat.lt_succ_iff_lt_or_eq.mp hi with hi | rfl
      · exact h.front hi
      · rw [← hplace, heq]
    · refine ⟨Nat.lt_of_le_of_ne (hbounds hcurrent).1 fun hsame => hnodup.1 ?_, (hbounds hcurrent).2⟩
      rw [heq]
      exact hsame ▸ hcurrent
  · rw [if_neg heq]
    have hget := getElem?_exchange (h.length.symm ▸ hdone : done < state.2.length) (h.length.symm ▸ hbound)
    have htake : (state.1.take done).length = done := length_take_of_le (Nat.le_of_lt hlt)
    have htail : (state.1.take done ++ done :: (state.1.drop (done + 1)).map (redirect done source)).drop
        (done + 1) = (state.1.drop (done + 1)).map (redirect done source) := by
      rw [drop_append, htake, Nat.add_sub_cancel_left, drop_of_length_le (by omega)]
      rfl
    -- The rest of the plan is not about the place that has been emptied.
    have hredirect {current : Nat} (hcurrent : current ∈ state.1.drop (done + 1)) :
        redirect done source (redirect done source current) = current ∧
          done + 1 ≤ redirect done source current ∧ redirect done source current < order.length := by
      unfold redirect
      grind
    refine ⟨?_, ?_, fun {i} hi => ?_, fun {i} hi => ?_, ?_, fun {current} hcurrent => ?_⟩
    · simp only [length_append, htake, length_cons, length_map, length_drop, h.order_length]
      omega
    · rw [length_exchange, h.length]
    · rw [hget]
      rcases Nat.lt_succ_iff_lt_or_eq.mp hi with hi | rfl
      · rw [← h.front hi]
        have hsame : redirect done source i = i := by unfold redirect; grind
        rw [hsame]
      · rw [← hplace]
        have hsame : redirect i source i = source := if_pos rfl
        rw [hsame]
    · obtain ⟨offset, rfl⟩ := Nat.exists_eq_add_of_le hi
      rw [← h.rest (le_of_succ_le hi), ← getElem?_drop, htail, getElem?_map, ← getElem?_drop]
      cases hcurrent : (state.1.drop (done + 1))[offset]? with
      | none => rfl
      | some current =>
        simp only [map_some, bind_some]
        rw [hget, (hredirect (mem_of_getElem? hcurrent)).1]
    · rw [htail]
      exact hnodup.2.map (redirect_injective done source)
    · rw [htail] at hcurrent
      obtain ⟨original, horiginal, rfl⟩ := mem_map.mp hcurrent
      exact (hredirect horiginal).2

theorem place_exchange (horder : order.Perm (List.range elements.length)) :
    place exchange order elements = arrange elements order := by
  have hlength : order.length = elements.length := by rw [horder.length_eq, length_range]
  have hfold : ∀ done ≤ order.length, Placed elements order done
      ((List.range done).foldl (placeStep exchange) (order, elements)) := by
    intro done
    induction done with
    | zero =>
      intro _
      refine ⟨rfl, hlength.symm, fun hi => absurd hi (not_lt_zero _), fun _ => rfl, ?_, fun hsource => ?_⟩
      · exact horder.nodup_iff.mpr nodup_range
      · refine ⟨zero_le _, ?_⟩
        rw [hlength]
        exact mem_range.mp (horder.mem_iff.mp hsource)
    | succ done ih =>
      intro hle
      rw [range_succ, foldl_append]
      exact (ih (le_of_succ_le hle)).step hle
  have hplaced := hfold order.length (Nat.le_refl _)
  refine ext_getElem? fun i => ?_
  rw [getElem?_arrange fun j hj => mem_range.mp (horder.mem_iff.mp hj)]
  by_cases hi : i < order.length
  · exact hplaced.front hi
  · rw [getElem?_eq_none (Nat.le_of_not_lt hi)]
    exact getElem?_eq_none (hplaced.length ▸ Nat.le_of_not_lt hi)

/-- What is exchanged together is placed together. -/
theorem place_rel {swap : Nat → Nat → σ → σ} {R : σ → τ → Prop}
    (h : ∀ left right state state', R state state' → R (swap left right state) (swap' left right state'))
    (order : List Nat) (hstate : R state state') : R (place swap order state) (place swap' order state') := by
  have hfold : ∀ (indices plan : List Nat) (state : σ) (state' : τ), R state state' →
      R (indices.foldl (placeStep swap) (plan, state)).2 (indices.foldl (placeStep swap') (plan, state')).2 := by
    intro indices
    induction indices with
    | nil => exact fun _ _ _ hstate => hstate
    | cons index indices ih =>
      intro plan state state' hstate
      rw [foldl_cons, foldl_cons, placeStep, placeStep]
      cases plan[index]? with
      | none => exact ih _ _ _ hstate
      | some source =>
        by_cases heq : source = index
        · simp only [if_pos heq]
          exact ih _ _ _ hstate
        · simp only [if_neg heq]
          exact ih _ _ _ (h _ _ _ _ hstate)
  exact hfold _ order _ _ hstate

end SortPlan
end Phrust
