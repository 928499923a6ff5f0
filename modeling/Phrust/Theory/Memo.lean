import Phrust.Theory.KeyMap

/-!
# Memo tables with lossy keys

A function whose results are kept in a table under a key of the argument. The table may be emptied at
any time. When two arguments share a key, the second one gets the result of the first: what the table
answers is right exactly as long as no two arguments that meet in the table do that with different
results.
-/

namespace Phrust

/-- What a memo table does, in order. -/
inductive MemoEvent (α : Type u) (β : Type v) where
  | emptied
  | answered (input : α) (answer : β)
  deriving DecidableEq

structure Memo (α : Type u) (κ : Type v) (β : Type w) where
  key : α → κ
  compute : α → β

namespace Memo
variable {α : Type u} {κ : Type v} {β : Type w} (memo : Memo α κ β)

/-- The log of a run that starts with the table `cache` and ends with the last one. -/
inductive Traces [DecidableEq κ] : KeyMap κ β → List (MemoEvent α β) → KeyMap κ β → Prop where
  | nil (cache : KeyMap κ β) : Traces cache [] cache
  | emptied {cache cache' : KeyMap κ β} {log} : Traces [] log cache' →
    Traces cache (.emptied :: log) cache'
  | hit {cache cache' : KeyMap κ β} {input answer log} : cache.get (memo.key input) = some answer →
    Traces cache log cache' → Traces cache (.answered input answer :: log) cache'
  | miss {cache cache' : KeyMap κ β} {input log} : cache.get (memo.key input) = none →
    Traces ((memo.key input, memo.compute input) :: cache) log cache' →
    Traces cache (.answered input (memo.compute input) :: log) cache'

/-- `input` is looked up before the table is emptied for the first time. -/
def Opening : List (MemoEvent α β) → α → Prop
  | [], _ | .emptied :: _, _ => False
  | .answered first _ :: log, input => input = first ∨ Opening log input

/-- Two arguments with one key that are looked up without the table being emptied in between have
the same result. -/
def Separates : List (MemoEvent α β) → Prop
  | [] => True
  | .emptied :: log => Separates log
  | .answered first _ :: log =>
    (∀ input, Opening log input → memo.key first = memo.key input →
      memo.compute first = memo.compute input) ∧ Separates log

/-- Every answer is the result for its argument. -/
def Right (log : List (MemoEvent α β)) : Prop :=
  ∀ input answer, .answered input answer ∈ log → answer = memo.compute input

/-- What the table holds is right for the arguments that will meet it. -/
def Serves [DecidableEq κ] (cache : KeyMap κ β) (log : List (MemoEvent α β)) : Prop :=
  ∀ input answer, Opening log input → cache.get (memo.key input) = some answer →
    answer = memo.compute input

variable {memo} {log log' : List (MemoEvent α β)} {input : α} {answer : β}

@[simp] theorem right_nil : memo.Right [] := nofun

@[simp] theorem right_emptied : memo.Right (.emptied :: log) ↔ memo.Right log := by simp [Right]

@[simp] theorem right_answered :
    memo.Right (.answered input answer :: log) ↔ answer = memo.compute input ∧ memo.Right log := by
  simp only [Right, List.mem_cons, MemoEvent.answered.injEq]
  constructor
  · intro h
    exact ⟨h input answer (.inl ⟨rfl, rfl⟩), fun input answer hmem => h input answer (.inr hmem)⟩
  · rintro ⟨hanswer, hlog⟩ input' answer' (⟨rfl, rfl⟩ | hmem)
    · exact hanswer
    · exact hlog input' answer' hmem

variable [DecidableEq κ] {cache cache' : KeyMap κ β}

theorem Traces.append (h : memo.Traces cache log cache') (h' : memo.Traces cache' log' cache'') :
    memo.Traces cache (log ++ log') cache'' := by
  induction h with
  | nil cache => exact h'
  | emptied _ ih => exact .emptied (ih h')
  | hit hget _ ih => exact .hit hget (ih h')
  | miss hget _ ih => exact .miss hget (ih h')

theorem serves_empty : memo.Serves [] log := by
  intro input answer _ hget
  cases hget

theorem serves_emptied : memo.Serves cache (.emptied :: log) := fun _ _ hopen => hopen.elim

theorem serves_answered (hget : cache.get (memo.key input) = some answer) :
    memo.Serves cache (.answered input answer :: log) ↔
      answer = memo.compute input ∧ memo.Serves cache log := by
  constructor
  · intro h
    exact ⟨h input answer (.inl rfl) hget, fun input answer hopen => h input answer (.inr hopen)⟩
  rintro ⟨hanswer, hlog⟩ input' answer' (rfl | hopen) hget'
  · rw [hget] at hget'
    cases hget'
    exact hanswer
  · exact hlog input' answer' hopen hget'

/-- An argument that is not in the table does not ask anything of it. -/
theorem serves_missed (hget : cache.get (memo.key input) = none) :
    memo.Serves cache (.answered input answer :: log) ↔ memo.Serves cache log := by
  constructor
  · exact fun h input answer hopen => h input answer (.inr hopen)
  rintro hlog input' answer' (rfl | hopen) hget'
  · rw [hget] at hget'
    cases hget'
  · exact hlog input' answer' hopen hget'

/-- A stored result serves those that share its key and have the same result. -/
theorem serves_cons (hget : cache.get (memo.key input) = none) :
    memo.Serves ((memo.key input, memo.compute input) :: cache) log ↔
      memo.Serves cache log ∧ ∀ other, Opening log other → memo.key input = memo.key other →
        memo.compute input = memo.compute other := by
  simp only [Serves, KeyMap.get_cons]
  constructor
  · intro h
    refine ⟨fun other answer hopen hother => ?_, fun other hopen hkey => ?_⟩
    · refine h other answer hopen ?_
      rwa [if_neg fun hkey => by rw [hkey, hother] at hget; cases hget]
    · exact h other _ hopen (if_pos hkey)
  · rintro ⟨hcache, hshared⟩ other answer hopen hother
    split at hother
    · next hkey =>
      cases hother
      exact hshared other hopen hkey
    · exact hcache other answer hopen hother

/-- The table answers right exactly if what it holds at the start serves the arguments that meet it
and no two arguments that meet in it share a key with different results. -/
theorem Traces.right_iff (h : memo.Traces cache log cache') :
    memo.Right log ↔ memo.Serves cache log ∧ memo.Separates log := by
  induction h with
  | nil cache => exact iff_of_true right_nil ⟨fun _ _ hopen => hopen.elim, trivial⟩
  | emptied _ ih =>
    rw [right_emptied, ih]
    exact ⟨fun h => ⟨serves_emptied, h.2⟩, fun h => ⟨serves_empty, h.2⟩⟩
  | @hit cache _ input answer log hget _ ih =>
    rw [right_answered, ih, serves_answered hget, and_assoc]
    refine and_congr_right fun hanswer => and_congr_right fun hserves => ?_
    -- the table already serves the later arguments with this key
    have hshared : ∀ other, Opening log other → memo.key input = memo.key other →
        memo.compute input = memo.compute other := by
      intro other hopen hkey
      rw [← hanswer]
      exact hserves other answer hopen (hkey ▸ hget)
    exact (and_iff_right hshared).symm
  | @miss cache _ input log hget _ ih =>
    rw [right_answered, ih, serves_cons hget, serves_missed hget, Separates, and_assoc]
    exact and_iff_right rfl

/-- A table that starts empty answers right exactly if no two arguments that meet in it share a key
with different results. -/
theorem Traces.right_iff_separates (h : memo.Traces [] log cache') : memo.Right log ↔ memo.Separates log :=
  h.right_iff.trans (and_iff_right serves_empty)

end Memo
end Phrust
