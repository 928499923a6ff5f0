import Mathlib.Data.List.Basic

/-!
# Readers that fail or panic

A reader takes a state to an error, to a panic, or to a value and the next state. `Returns` and
`Panics` say which; the lemmas here take them through the monad operations, so that a reader's body
never has to be unfolded below its binds.
-/

namespace Phrust

/-- `none` is a panic. -/
abbrev Reading (ε σ : Type) := StateT σ (ExceptT ε Option)

namespace Reading
variable {ε σ α β : Type} {reader : Reading ε σ α} {next : α → Reading ε σ β} {s s' : σ}

def Returns (reader : Reading ε σ α) (s : σ) (a : α) (s' : σ) : Prop :=
  reader s = (some (.ok (a, s')) : Option _)

def Panics (reader : Reading ε σ α) (s : σ) : Prop := reader s = (none : Option _)

/-- A panic if there is no value. -/
def unwrap (value : Option α) : Reading ε σ α := fun s => value.map fun a => .ok (a, s)

theorem ok_bind {x : Except ε α} {f : α → Except ε β} : x >>= f = .ok b ↔ ∃ a, x = .ok a ∧ f a = .ok b := by
  constructor
  · intro h
    cases x with
    | error e => cases h
    | ok a => exact ⟨a, rfl, h⟩
  · rintro ⟨a, rfl, h⟩
    exact h

theorem forM_ok {check : α → Except ε Unit} {list : List α} :
    list.forM check = .ok () ↔ ∀ a ∈ list, check a = .ok () := by
  induction list with
  | nil => exact iff_of_true rfl nofun
  | cons a list ih =>
    rw [List.forall_mem_cons, ← ih]
    refine ok_bind.trans ?_
    exact ⟨fun ⟨_, ha, h⟩ => ⟨ha, h⟩, fun ⟨ha, h⟩ => ⟨(), ha, h⟩⟩

theorem Returns.inj (h : reader.Returns s a s₁) (h' : reader.Returns s b s₂) : a = b ∧ s₁ = s₂ :=
  Prod.mk.inj (Except.ok.inj (Option.some.inj (h.symm.trans h')))

theorem Returns.not_panics (h : reader.Returns s a s') : ¬reader.Panics s := by
  intro hpanic
  cases h.symm.trans hpanic

theorem returns_bind : (reader >>= next).Returns s b s' ↔
    ∃ a s₁, reader.Returns s a s₁ ∧ (next a).Returns s₁ b s' := by
  constructor
  · intro h
    change (reader s).bind _ = _ at h
    cases hr : reader s with
    | none => rw [hr] at h; cases h
    | some result =>
      rw [hr] at h
      cases result with
      | error e => cases h
      | ok pair => exact ⟨pair.1, pair.2, hr, h⟩
  · rintro ⟨a, s₁, hr, h⟩
    change (reader s).bind _ = _
    rw [show reader s = _ from hr]
    exact h

theorem panics_bind : (reader >>= next).Panics s ↔
    reader.Panics s ∨ ∃ a s₁, reader.Returns s a s₁ ∧ (next a).Panics s₁ := by
  constructor
  · intro h
    change (reader s).bind _ = _ at h
    cases hr : reader s with
    | none => exact .inl hr
    | some result =>
      rw [hr] at h
      cases result with
      | error e => cases h
      | ok pair => exact .inr ⟨pair.1, pair.2, hr, h⟩
  · rintro (h | ⟨a, s₁, hr, h⟩)
    · change (reader s).bind _ = _
      rw [show reader s = _ from h]
      rfl
    · change (reader s).bind _ = _
      rw [show reader s = _ from hr]
      exact h

/-- A step whose outcome is known. -/
theorem Returns.bind (h : reader.Returns s a s₁) : (reader >>= next) s = next a s₁ := by
  change (reader s).bind _ = _
  rw [show reader s = _ from h]
  rfl

theorem Returns.returns_bind_iff (h : reader.Returns s a s₁) :
    (reader >>= next).Returns s b s' ↔ (next a).Returns s₁ b s' := by
  rw [Returns, h.bind, Returns]

@[simp] theorem returns_pure : (pure a : Reading ε σ α).Returns s b s' ↔ a = b ∧ s = s' := by
  constructor
  · intro h
    cases h
    exact ⟨rfl, rfl⟩
  · rintro ⟨rfl, rfl⟩
    rfl

@[simp] theorem not_panics_pure : ¬(pure a : Reading ε σ α).Panics s := nofun

@[simp] theorem not_returns_throw : ¬(throw e : Reading ε σ α).Returns s b s' := nofun

@[simp] theorem not_panics_throw : ¬(throw e : Reading ε σ α).Panics s := nofun

@[simp] theorem returns_set {t : σ} : (set t : Reading ε σ PUnit).Returns s a s' ↔ s' = t := by
  constructor
  · intro h
    cases h
    rfl
  · rintro rfl
    rfl

@[simp] theorem not_panics_set {t : σ} : ¬(set t : Reading ε σ PUnit).Panics s := nofun

@[simp] theorem returns_unwrap {value : Option α} :
    (unwrap value : Reading ε σ α).Returns s a s' ↔ value = some a ∧ s' = s := by
  cases value with
  | none => exact ⟨nofun, nofun⟩
  | some b =>
    constructor
    · intro h
      cases h
      exact ⟨rfl, rfl⟩
    · rintro ⟨h, rfl⟩
      cases h
      rfl

@[simp] theorem panics_unwrap {value : Option α} :
    (unwrap value : Reading ε σ α).Panics s ↔ value = none := by
  cases value with
  | none => exact ⟨fun _ => rfl, fun _ => rfl⟩
  | some b => exact ⟨nofun, nofun⟩

variable {next : σ → Reading ε σ β}

/-- Reading the state and going on with it. -/
theorem get_bind : (get >>= next) s = next s s := rfl

theorem unwrap_bind {next : α → Reading ε σ β} : (unwrap (some a) >>= next) s = next a s := rfl

theorem returns_get_bind : (get >>= next).Returns s b s' ↔ (next s).Returns s b s' := Iff.rfl

theorem panics_get_bind : (get >>= next).Panics s ↔ (next s).Panics s := Iff.rfl

end Reading
end Phrust
