import Mathlib.Data.List.Induction

/-!
# Runs and their logs

A system takes steps that may stop it and that report events.  `Reach` collects the states and logs
of its runs under a contract on the steps.  A log can be replayed on an abstract state; the
simulation rule says when every run of the system replays.
-/

namespace Runs

variable {σ α τ ε A : Type*}

/-- The states of the runs from `s₀` whose steps respect the contract `ok`, with their logs. -/
inductive Reach (step : σ → α → Except ε (σ × List τ)) (ok : σ → List τ → α → Prop) (s₀ : σ) :
    σ → List τ → Prop
  | start : Reach step ok s₀ s₀ []
  | step {s s' : σ} {log evs : List τ} {a : α} : Reach step ok s₀ s log → ok s log a →
      step s a = .ok (s', evs) → Reach step ok s₀ s' (log ++ evs)

section

variable {step : σ → α → Except ε (σ × List τ)} {ok ok' : σ → List τ → α → Prop} {s₀ s : σ}
  {log : List τ}

/-- What holds at the start and is kept by every step holds in every state. -/
theorem Reach.invariant {P : σ → List τ → Prop} (h₀ : P s₀ [])
    (hstep : ∀ {s s' : σ} {log evs : List τ} {a : α}, P s log → ok s log a →
      step s a = .ok (s', evs) → P s' (log ++ evs))
    (h : Reach step ok s₀ s log) : P s log := by
  induction h with
  | start => exact h₀
  | step _ hok hs ih => exact hstep ih hok hs

variable {P : σ → α → Prop}

/-- A stronger contract has fewer runs. -/
theorem Reach.mono (hok : ∀ s log a, ok s log a → ok' s log a) (h : Reach step ok s₀ s log) :
    Reach step ok' s₀ s log := by
  induction h with
  | start => exact .start
  | step _ ha hs ih => exact .step ih (hok _ _ _ ha) hs

theorem Reach.trans {s' : σ} {log' : List τ} (h : Reach step (fun s _ a => P s a) s₀ s log)
    (h' : Reach step (fun s _ a => P s a) s s' log') :
    Reach step (fun s _ a => P s a) s₀ s' (log ++ log') := by
  induction h' with
  | start =>
      rw [List.append_nil]
      exact h
  | step _ ha hs ih =>
      rw [← List.append_assoc]
      exact ih.step ha hs

/-- Carry out the steps `as`, checking the contract before each. -/
def run (step : σ → α → Except ε (σ × List τ)) (ok : σ → List τ → α → Prop)
    [∀ s log a, Decidable (ok s log a)] : List α → σ → List τ → Option (σ × List τ)
  | [], s, log => some (s, log)
  | a :: as, s, log =>
      if ok s log a then
        match step s a with
        | .ok (s', evs) => run step ok as s' (log ++ evs)
        | .error _ => none
      else none

theorem Reach.run [∀ s log a, Decidable (ok s log a)] (h : Reach step ok s₀ s log) {as : List α}
    {s' : σ} {log' : List τ} (hrun : run step ok as s log = some (s', log')) :
    Reach step ok s₀ s' log' := by
  induction as generalizing s log with
  | nil =>
      cases hrun
      exact h
  | cons a as ih =>
      rw [Runs.run] at hrun
      split at hrun
      · next ha =>
        split at hrun
        · next s₁ evs hs => exact ih (h.step ha hs) hrun
        · cases hrun
      · cases hrun

end

/-! ### Runs with notes -/

section

variable {ν : Type*} {step : σ → α → Except ε (σ × List τ)} {ok : σ → List τ → α → Prop}
  {note : σ → α → List ν} {s₀ s : σ} {log : List τ} {notes : List ν}

/-- The runs of `Reach` with notes about their steps, which have no influence on the run. -/
inductive Noted (step : σ → α → Except ε (σ × List τ)) (ok : σ → List τ → α → Prop)
    (note : σ → α → List ν) (s₀ : σ) : σ → List τ → List ν → Prop
  | start : Noted step ok note s₀ s₀ [] []
  | step {s s' : σ} {log evs : List τ} {notes : List ν} {a : α} : Noted step ok note s₀ s log notes →
      ok s log a → step s a = .ok (s', evs) → Noted step ok note s₀ s' (log ++ evs) (notes ++ note s a)

theorem Noted.reach (h : Noted step ok note s₀ s log notes) : Reach step ok s₀ s log := by
  induction h with
  | start => exact .start
  | step _ ha hs ih => exact ih.step ha hs

/-- Every run has its notes. -/
theorem Reach.noted (note : σ → α → List ν) (h : Reach step ok s₀ s log) :
    ∃ notes, Noted step ok note s₀ s log notes := by
  induction h with
  | start => exact ⟨[], .start⟩
  | step _ ha hs ih =>
      obtain ⟨notes, hnotes⟩ := ih
      exact ⟨_, hnotes.step ha hs⟩

theorem Noted.invariant {P : σ → List τ → List ν → Prop} (h₀ : P s₀ [] [])
    (hstep : ∀ {s s' : σ} {log evs : List τ} {notes : List ν} {a : α}, P s log notes → ok s log a →
      step s a = .ok (s', evs) → P s' (log ++ evs) (notes ++ note s a))
    (h : Noted step ok note s₀ s log notes) : P s log notes := by
  induction h with
  | start => exact h₀
  | step _ ha hs ih => exact hstep ih ha hs

/-- Carry out the steps `as` and keep the notes. -/
def runNoted (step : σ → α → Except ε (σ × List τ)) (ok : σ → List τ → α → Prop) (note : σ → α → List ν)
    [∀ s log a, Decidable (ok s log a)] : List α → σ → List τ → List ν → Option (σ × List τ × List ν)
  | [], s, log, notes => some (s, log, notes)
  | a :: as, s, log, notes =>
      if ok s log a then
        match step s a with
        | .ok (s', evs) => runNoted step ok note as s' (log ++ evs) (notes ++ note s a)
        | .error _ => none
      else none

theorem Noted.run [∀ s log a, Decidable (ok s log a)] (h : Noted step ok note s₀ s log notes) {as : List α}
    {s' : σ} {log' : List τ} {notes' : List ν}
    (hrun : runNoted step ok note as s log notes = some (s', log', notes')) :
    Noted step ok note s₀ s' log' notes' := by
  induction as generalizing s log notes with
  | nil =>
      cases hrun
      exact h
  | cons a as ih =>
      rw [runNoted] at hrun
      split at hrun
      · next ha =>
        split at hrun
        · next s₁ evs hs => exact ih (h.step ha hs) hrun
        · cases hrun
      · cases hrun

end

/-- The states reached from `s₀` by steps that respect `ok`, with the steps taken. -/
inductive Trace (step : σ → α → Except ε (σ × List τ)) (ok : σ → α → Prop) (s₀ : σ) : σ → List α → Prop
  | nil : Trace step ok s₀ s₀ []
  | snoc {s s' : σ} {as : List α} {a : α} {evs : List τ} : Trace step ok s₀ s as → ok s a →
      step s a = .ok (s', evs) → Trace step ok s₀ s' (as ++ [a])

/-- **Ranking**: if the steps of one kind lower a rank and the others do not raise it, then there are
no more steps of that kind than the rank was at the start. -/
theorem Trace.countP_add_rank {step : σ → α → Except ε (σ × List τ)} {ok : σ → α → Prop} {s₀ s : σ}
    {as : List α} {I : σ → Prop} (own : α → Bool) (rank : σ → ℕ) (h₀ : I s₀)
    (hstep : ∀ {s s' : σ} {a : α} {evs : List τ}, I s → ok s a → step s a = .ok (s', evs) →
      I s' ∧ rank s' + (if own a then 1 else 0) ≤ rank s)
    (h : Trace step ok s₀ s as) : I s ∧ as.countP own + rank s ≤ rank s₀ := by
  induction h with
  | nil => exact ⟨h₀, by simp⟩
  | snoc _ hok hs ih =>
      obtain ⟨hI, hle⟩ := ih
      obtain ⟨hI', hrank⟩ := hstep hI hok hs
      refine ⟨hI', ?_⟩
      rw [List.countP_append, List.countP_singleton]
      omega

/-- Replay events on an abstract state; `none` if one of them cannot happen there. -/
def replay (apply : A → τ → Option A) : A → List τ → Option A
  | a, [] => some a
  | a, e :: evs => (apply a e).bind fun a => replay apply a evs

theorem replay_append (apply : A → τ → Option A) (a : A) (evs evs' : List τ) :
    replay apply a (evs ++ evs') = (replay apply a evs).bind fun a => replay apply a evs' := by
  induction evs generalizing a with
  | nil => rfl
  | cons e evs ih =>
      rw [List.cons_append, replay, replay, Option.bind_assoc]
      exact Option.bind_congr fun a _ => ih a

/-- **Simulation**: if every step replays and keeps the relation, every run does. -/
theorem Reach.simulate {step : σ → α → Except ε (σ × List τ)} {ok : σ → List τ → α → Prop}
    {apply : A → τ → Option A} {R : σ → A → Prop} {s₀ s : σ} {a₀ : A} {log : List τ} (h₀ : R s₀ a₀)
    (hstep : ∀ {s s' : σ} {log evs : List τ} {b : α} {a : A}, R s a → ok s log b →
      step s b = .ok (s', evs) → ∃ a', replay apply a evs = some a' ∧ R s' a')
    (h : Reach step ok s₀ s log) : ∃ a, replay apply a₀ log = some a ∧ R s a := by
  induction h with
  | start => exact ⟨a₀, rfl, h₀⟩
  | step _ hok hs ih =>
      obtain ⟨a, hlog, hR⟩ := ih
      obtain ⟨a', hevs, hR'⟩ := hstep hR hok hs
      exact ⟨a', by rw [replay_append, hlog]; exact hevs, hR'⟩

/-- What holds of the abstract start and the empty log and is kept by every event holds after every
replay, of the state and its log. -/
theorem replay_history {apply : A → τ → Option A} {P : A → List τ → Prop} {a₀ : A} (h₀ : P a₀ [])
    (hstep : ∀ {a a' : A} {log : List τ} {e : τ}, P a log → apply a e = some a' → P a' (log ++ [e]))
    {a : A} {log : List τ} (hrun : replay apply a₀ log = some a) : P a log := by
  induction log using List.reverseRecOn generalizing a with
  | nil =>
      cases hrun
      exact h₀
  | append_singleton log e ih =>
      rw [replay_append] at hrun
      obtain ⟨a₁, h₁, hrun⟩ := Option.bind_eq_some_iff.mp hrun
      obtain ⟨a₂, h₂, hrun⟩ := Option.bind_eq_some_iff.mp hrun
      cases hrun
      exact hstep (ih h₁) h₂

/-- Two replays of one log. -/
theorem replay_both {B : Type*} {apply : A → τ → Option A} {apply' : B → τ → Option B} {R : A → B → Prop}
    {a₀ a : A} {b₀ b : B} {log : List τ} (h₀ : R a₀ b₀)
    (hstep : ∀ {a a' : A} {b b' : B} {e : τ}, R a b → apply a e = some a' → apply' b e = some b' → R a' b')
    (ha : replay apply a₀ log = some a) (hb : replay apply' b₀ log = some b) : R a b := by
  induction log generalizing a₀ b₀ with
  | nil =>
      cases ha
      cases hb
      exact h₀
  | cons e log ih =>
      obtain ⟨a₁, ha₁, ha⟩ := Option.bind_eq_some_iff.mp ha
      obtain ⟨b₁, hb₁, hb⟩ := Option.bind_eq_some_iff.mp hb
      exact ih (hstep h₀ ha₁ hb₁) ha hb

end Runs
