import Mathlib.Logic.Function.Basic

/-!
# Owners of open handles

Handles are small names, such as descriptor numbers, that are open or closed and can be given out again
once they are closed.  `Owning` says that every owned handle is open and has one owner; the lemmas say
which changes keep it.
-/

namespace Ownership

variable {ι κ γ : Type*}

/-- Each owner has at most one handle, no handle has two owners, and every owned handle is open. -/
structure Owning (own : ι → Option κ) (files : κ → Option γ) : Prop where
  isOpen : ∀ {o : ι} {k : κ}, own o = some k → files k ≠ none
  apart : ∀ {o o' : ι} {k : κ}, own o = some k → own o' = some k → o = o'

variable {own : ι → Option κ} {files : κ → Option γ} {o o' : ι} {k : κ}

theorem owning_none : Owning (fun _ : ι => (none : Option κ)) files where
  isOpen := fun h => absurd h.symm (Option.some_ne_none _)
  apart := fun h _ => absurd h.symm (Option.some_ne_none _)

namespace Owning

/-- An owned handle is none of the closed ones. -/
theorem ne_of_closed {k' : κ} (h : Owning own files) (ho : own o = some k) (hk : files k' = none) :
    k ≠ k' := by
  intro heq
  rw [heq] at ho
  exact h.isOpen ho hk

/-- The other owners keep their handles when that of `o` is closed. -/
theorem files_of_ne {k' : κ} [DecidableEq κ] (h : Owning own files) (ho : own o = some k) (ho' : own o' = some k')
    (hne : o' ≠ o) : Function.update files k none k' = files k' := by
  refine Function.update_of_ne ?_ _ _
  intro heq
  rw [heq] at ho'
  exact hne (h.apart ho' ho)

variable [DecidableEq ι]

/-- What was owned after a handle is given to `o`. -/
theorem update_some_cases {k' : κ} (h : Function.update own o (some k) o' = some k') :
    (o' = o ∧ k' = k) ∨ (o' ≠ o ∧ own o' = some k') := by
  by_cases ho : o' = o
  · rw [ho, Function.update_self] at h
    exact .inl ⟨ho, (Option.some.inj h).symm⟩
  · rw [Function.update_of_ne ho] at h
    exact .inr ⟨ho, h⟩

theorem update_none_cases (h : Function.update own o none o' = some k) : o' ≠ o ∧ own o' = some k := by
  by_cases ho : o' = o
  · rw [ho, Function.update_self] at h
    cases h
  · rw [Function.update_of_ne ho] at h
    exact ⟨ho, h⟩

/-- Giving up a handle without closing it. -/
theorem drop (h : Owning own files) (o : ι) : Owning (Function.update own o none) files :=
  ⟨fun ho => h.isOpen (update_none_cases ho).2,
    fun ho ho' => h.apart (update_none_cases ho).2 (update_none_cases ho').2⟩

/-- Opening a closed handle. -/
theorem acquire [DecidableEq κ] (h : Owning own files) (hk : files k = none) (o : ι) (x : γ) :
    Owning (Function.update own o (some k)) (Function.update files k (some x)) where
  isOpen := fun {o' k'} ho => by
    rcases update_some_cases ho with ⟨-, rfl⟩ | ⟨-, ho⟩
    · rw [Function.update_self]
      exact Option.some_ne_none x
    · rw [Function.update_of_ne (h.ne_of_closed ho hk)]
      exact h.isOpen ho
  apart := fun {o₁ o₂ k'} ho₁ ho₂ => by
    rcases update_some_cases ho₁ with ⟨h₁, hk₁⟩ | ⟨-, hold₁⟩
    · rcases update_some_cases ho₂ with ⟨h₂, -⟩ | ⟨-, hold₂⟩
      · rw [h₁, h₂]
      · exact absurd hk₁ (h.ne_of_closed hold₂ hk)
    · rcases update_some_cases ho₂ with ⟨-, hk₂⟩ | ⟨-, hold₂⟩
      · exact absurd hk₂ (h.ne_of_closed hold₁ hk)
      · exact h.apart hold₁ hold₂

/-- The handle of `o` passes to `o'`. -/
theorem move (h : Owning own files) (ho : own o = some k) (o' : ι) :
    Owning (Function.update (Function.update own o none) o' (some k)) files where
  isOpen := fun ho₁ => by
    rcases update_some_cases ho₁ with ⟨-, rfl⟩ | ⟨-, ho₁⟩
    · exact h.isOpen ho
    · exact (h.drop o).isOpen ho₁
  apart := fun ho₁ ho₂ => by
    rcases update_some_cases ho₁ with ⟨h₁, hk₁⟩ | ⟨-, hold₁⟩
    · rcases update_some_cases ho₂ with ⟨h₂, -⟩ | ⟨-, hold₂⟩
      · rw [h₁, h₂]
      · obtain ⟨hne, hold₂⟩ := update_none_cases hold₂
        exact absurd (h.apart (hk₁ ▸ hold₂) ho) hne
    · rcases update_some_cases ho₂ with ⟨-, hk₂⟩ | ⟨-, hold₂⟩
      · obtain ⟨hne, hold₁⟩ := update_none_cases hold₁
        exact absurd (h.apart (hk₂ ▸ hold₁) ho) hne
      · exact (h.drop o).apart hold₁ hold₂

/-- `o` closes its handle. -/
theorem close [DecidableEq κ] (h : Owning own files) (ho : own o = some k) :
    Owning (Function.update own o none) (Function.update files k none) where
  isOpen := fun ho' => by
    obtain ⟨hne, ho'⟩ := update_none_cases ho'
    rw [h.files_of_ne ho ho' hne]
    exact h.isOpen ho'
  apart := (h.drop o).apart

end Owning

end Ownership
