import SmpHashTable.Lib.Runs
import SmpHashTable.Memory

/-!
# Registration of clients

Threads call `create_hash_table_client` while servers poll.  The calls exclude each other by
`create_client_lock`; a server reads `nclients` without it.  `boxes` and `pending_data` have
`MAX_CLIENTS` cells each, but C checks no index, so here they are functions on all indices, and that
the indices stay below `MAX_CLIENTS` is for the theorems to say.
-/

namespace SmpHashTable

/-- Where a thread stands in `create_hash_table_client`. -/
inductive RegisterPc
  | idle
  /-- Before `pthread_mutex_lock`. -/
  | lock
  /-- Before `client = nclients`. -/
  | read
  /-- Before `assert(nclients <= MAX_CLIENTS)`. -/
  | check (client : ℕ)
  /-- Before the `memalign` of the boxes. -/
  | boxes (client : ℕ)
  /-- In the loop, before the `memset` of box `i`. -/
  | zero (client i : ℕ)
  /-- Before the pending data are made. -/
  | pending (client : ℕ)
  /-- Before `nclients` is increased. -/
  | count (client : ℕ)
  /-- Before `pthread_mutex_unlock`. -/
  | unlock (client : ℕ)
  /-- Before the return. -/
  | ret (client : ℕ)
  deriving DecidableEq, Repr

/-- Where a server stands in its polling pass. -/
inductive PollPc
  /-- Before it reads `nclients`. -/
  | top
  /-- Before it polls client `i` of `n`. -/
  | poll (n i : ℕ)
  deriving DecidableEq, Repr

/-- The parts of `struct hash_table` that a registration touches, its threads and its servers.  A
client's boxes are `none` before their `memalign`; `some z` says which of them have been zeroed. -/
structure Registry where
  nservers : ℕ
  nclients : ℕ
  boxes : ℕ → Option (ℕ → Bool)
  pendingData : ℕ → Bool
  createClientLock : Option ℕ
  thread : ℕ → RegisterPc
  server : ℕ → PollPc

inductive RegistryEvent
  | called (t : ℕ)
  /-- The call of thread `t` has returned `client`. -/
  | returned (t client : ℕ)
  /-- Server `s` has polled its box of `client`, which was zeroed or not. -/
  | polled (s client : ℕ) (zeroed : Bool)
  deriving DecidableEq, Repr

inductive RegistryAct
  | create (t : ℕ)
  /-- The next step of thread `t`; `granted` is whether a `memalign` in it returns a block. -/
  | thread (t : ℕ) (granted : Bool)
  /-- The next step of server `s`. -/
  | server (s : ℕ)
  deriving DecidableEq, Repr

namespace Registry

/-- Box `s` of `client` has been allocated and zeroed. -/
def zeroed (boxes : ℕ → Option (ℕ → Bool)) (client s : ℕ) : Bool :=
  match boxes client with
  | some z => z s
  | none => false

def setThread (st : Registry) (t : ℕ) (pc : RegisterPc) : Registry :=
  { st with thread := Function.update st.thread t pc }

/-- A step of `create_hash_table_client`.  A `memset` of boxes at `NULL`, and a store to pending data at
`NULL`, are faults. -/
def register (st : Registry) (t : ℕ) (granted : Bool) : Except Stop (Registry × List RegistryEvent) :=
  match st.thread t with
  | .idle => .error .notEnabled
  | .lock =>
      if st.createClientLock = none then
        .ok (({ st with createClientLock := some t }).setThread t .read, [])
      else .error .notEnabled
  | .read => .ok (st.setThread t (.check st.nclients), [])
  | .check client =>
      if st.nclients ≤ MAX_CLIENTS then .ok (st.setThread t (.boxes client), [])
      else .error .assertFailed
  | .boxes client =>
      .ok (({ st with
        boxes := Function.update st.boxes client (if granted then some fun _ => false else none) }).setThread
          t (.zero client 0), [])
  | .zero client i =>
      if i < st.nservers then
        match st.boxes client with
        | some z =>
            .ok (({ st with
              boxes := Function.update st.boxes client (some (Function.update z i true)) }).setThread
                t (.zero client (i + 1)), [])
        | none => .error .fault
      else .ok (st.setThread t (.pending client), [])
  | .pending client =>
      if granted then
        .ok (({ st with pendingData := Function.update st.pendingData client true }).setThread
          t (.count client), [])
      else .error .fault
  | .count client => .ok (({ st with nclients := st.nclients + 1 }).setThread t (.unlock client), [])
  | .unlock client =>
      .ok (({ st with createClientLock := none }).setThread t (.ret client), [])
  | .ret client => .ok (st.setThread t .idle, [.returned t client])

/-- A step of the polling pass of `hash_table_server`. -/
def serve (st : Registry) (s : ℕ) : Registry × List RegistryEvent :=
  match st.server s with
  | .top => ({ st with server := Function.update st.server s (.poll st.nclients 0) }, [])
  | .poll n i =>
      if i < n then
        ({ st with server := Function.update st.server s (.poll n (i + 1)) },
          [.polled s i (zeroed st.boxes i s)])
      else ({ st with server := Function.update st.server s .top }, [])

def step (st : Registry) : RegistryAct → Except Stop (Registry × List RegistryEvent)
  | .create t =>
      match st.thread t with
      | .idle => .ok (st.setThread t .lock, [.called t])
      | _ => .error .notEnabled
  | .thread t granted => st.register t granted
  | .server s => if s < st.nservers then .ok (st.serve s) else .error .notEnabled

/-- The table after `create_hash_table`; what is in the cells of `boxes` and `pending_data` is open. -/
def start (nservers : ℕ) (boxes : ℕ → Option (ℕ → Bool)) (pendingData : ℕ → Bool) : Registry :=
  { nservers, nclients := 0, boxes, pendingData, createClientLock := none, thread := fun _ => .idle
    server := fun _ => .top }

end Registry

/-- The number of calls so far. -/
def registerCalls (log : List RegistryEvent) : ℕ :=
  log.countP fun | .called _ => true | _ => false

/-- The ids returned so far. -/
def returnedIds (log : List RegistryEvent) : List ℕ :=
  log.filterMap fun | .returned _ client => some client | _ => none

/-- No call when there have been `MAX_CLIENTS` calls. -/
def RegistryAct.Few (log : List RegistryEvent) : RegistryAct → Prop
  | .create _ => registerCalls log < MAX_CLIENTS
  | _ => True

instance RegistryAct.decidableFew (log : List RegistryEvent) : (a : RegistryAct) → Decidable (a.Few log)
  | .create _ => inferInstanceAs (Decidable (_ < _))
  | .thread _ _ => inferInstanceAs (Decidable True)
  | .server _ => inferInstanceAs (Decidable True)

namespace Registry

/-- The runs. -/
def Reach (st₀ : Registry) : Registry → List RegistryEvent → Prop :=
  Runs.Reach step (fun _ _ _ => True) st₀

/-- The runs with at most `MAX_CLIENTS` calls. -/
def FewReach (st₀ : Registry) : Registry → List RegistryEvent → Prop :=
  Runs.Reach step (fun _ log a => a.Few log) st₀

end Registry

/-! ### The invariant -/

namespace RegisterPc

/-- The call has not increased `nclients` yet. -/
def before : RegisterPc → Bool
  | lock | read | check _ | boxes _ | zero _ _ | pending _ | count _ => true
  | _ => false

/-- The call holds the lock. -/
def locked : RegisterPc → Bool
  | read | check _ | boxes _ | zero _ _ | pending _ | count _ | unlock _ => true
  | _ => false

/-- The client that the call is making. -/
def entering : RegisterPc → Option ℕ
  | check c | boxes c | zero c _ | pending c | count c => some c
  | _ => none

/-- The client that the call has made. -/
def given : RegisterPc → Option ℕ
  | unlock c | ret c => some c
  | _ => none

/-- The boxes that the call has zeroed. -/
def Made (nservers : ℕ) (boxes : ℕ → Option (ℕ → Bool)) : RegisterPc → Prop
  | zero c i => ∀ s < i, Registry.zeroed boxes c s = true
  | pending c => ∀ s < nservers, Registry.zeroed boxes c s = true
  | count c => ∀ s < nservers, Registry.zeroed boxes c s = true
  | _ => True

theorem entering_of_not_locked {pc : RegisterPc} (h : pc.locked = false) : pc.entering = none := by
  cases pc <;> trivial

theorem made_of_not_locked {nservers : ℕ} {boxes : ℕ → Option (ℕ → Bool)} {pc : RegisterPc}
    (h : pc.locked = false) : pc.Made nservers boxes := by
  cases pc <;> trivial

end RegisterPc

/-- `waiting` are the threads whose calls have not increased `nclients` yet. -/
structure RegInv (st : Registry) (log : List RegistryEvent) (waiting : List ℕ) : Prop where
  nodup : waiting.Nodup
  mem_waiting : ∀ t, t ∈ waiting ↔ (st.thread t).before = true
  calls : registerCalls log = st.nclients + waiting.length
  locked : ∀ t, (st.thread t).locked = true → st.createClientLock = some t
  entering : ∀ t c, (st.thread t).entering = some c → c = st.nclients
  made : ∀ t, (st.thread t).Made st.nservers st.boxes
  ready : ∀ c < st.nclients, ∀ s < st.nservers, Registry.zeroed st.boxes c s = true
  given : ∀ t c, (st.thread t).given = some c → c < st.nclients ∧ c ∉ returnedIds log
  given_inj : ∀ t t' c, (st.thread t).given = some c → (st.thread t').given = some c → t = t'
  returned_lt : ∀ c ∈ returnedIds log, c < st.nclients
  returned_nodup : (returnedIds log).Nodup
  polling : ∀ s n i, st.server s = .poll n i → n ≤ st.nclients
  polled : ∀ s c z, .polled s c z ∈ log → z = true ∧ c < st.nclients

namespace RegInv

variable {st st' : Registry} {log evs : List RegistryEvent} {waiting : List ℕ} {t : ℕ} {pc : RegisterPc}

theorem start (nservers : ℕ) (boxes : ℕ → Option (ℕ → Bool)) (pendingData : ℕ → Bool) :
    RegInv (Registry.start nservers boxes pendingData) [] [] where
  nodup := List.nodup_nil
  mem_waiting t := by simp [Registry.start, RegisterPc.before]
  calls := rfl
  locked _ h := nomatch h
  entering _ _ h := nomatch h
  made _ := trivial
  ready _ h := nomatch h
  given _ _ h := nomatch h
  given_inj _ _ _ h := nomatch h
  returned_lt _ h := nomatch h
  returned_nodup := List.nodup_nil
  polling _ _ _ h := nomatch h
  polled _ _ _ h := nomatch h

/-- While one thread holds the lock, the others have made nothing. -/
theorem made_other (h : RegInv st log waiting) (hlock : (st.thread t).locked = true) {t' : ℕ}
    (hne : t' ≠ t) (boxes : ℕ → Option (ℕ → Bool)) : (st.thread t').Made st.nservers boxes := by
  refine RegisterPc.made_of_not_locked (Bool.eq_false_iff.mpr fun hlock' => hne ?_)
  exact Option.some.inj ((h.locked t' hlock').symm.trans (h.locked t hlock))

/-- A step inside a call that emits nothing and leaves `nclients` alone.  Boxes may change while the
thread holds the lock, but not those of the clients there are. -/
theorem move (h : RegInv st log waiting) (pc' : RegisterPc) (pendingData : ℕ → Bool)
    (hpc : st.thread t = pc) (hbefore : pc'.before = pc.before)
    (hgiven : pc'.given = pc.given) {boxes : ℕ → Option (ℕ → Bool)} {createClientLock : Option ℕ}
    (hself : pc'.locked = true → createClientLock = some t)
    (hother : ∀ t' ≠ t, (st.thread t').locked = true → createClientLock = some t')
    (hentering : ∀ c, pc'.entering = some c → c = st.nclients) (hmade : pc'.Made st.nservers boxes)
    (hboxes : boxes = st.boxes ∨ pc.locked = true ∧
      ∀ c < st.nclients, ∀ s < st.nservers, Registry.zeroed boxes c s = Registry.zeroed st.boxes c s) :
    RegInv (({ st with boxes, pendingData, createClientLock } : Registry).setThread t pc') log waiting := by
  have hself' : (Function.update st.thread t pc') t = pc' := Function.update_self ..
  have hrest : ∀ t' ≠ t, (Function.update st.thread t pc') t' = st.thread t' := fun t' hne =>
    Function.update_of_ne hne ..
  have hsame : ∀ t', ((Function.update st.thread t pc') t').given = (st.thread t').given := by
    intro t'
    by_cases hne : t' = t
    · subst hne
      rw [hself', hgiven, hpc]
    · rw [hrest t' hne]
  refine
    { nodup := h.nodup
      mem_waiting := ?_
      calls := h.calls
      locked := ?_
      entering := ?_
      made := ?_
      ready := ?_
      given := fun t' c hc => h.given t' c ((hsame t').symm.trans hc)
      given_inj := fun t' t'' c hc hc' =>
        h.given_inj t' t'' c ((hsame t').symm.trans hc) ((hsame t'').symm.trans hc')
      returned_lt := h.returned_lt
      returned_nodup := h.returned_nodup
      polling := h.polling
      polled := h.polled }
  · intro t'
    show t' ∈ waiting ↔ ((Function.update st.thread t pc') t').before = true
    by_cases hne : t' = t
    · subst hne
      rw [hself', hbefore, ← hpc]
      exact h.mem_waiting t'
    · rw [hrest t' hne]
      exact h.mem_waiting t'
  · intro t' hlock
    replace hlock : ((Function.update st.thread t pc') t').locked = true := hlock
    by_cases hne : t' = t
    · subst hne
      rw [hself'] at hlock
      exact hself hlock
    · rw [hrest t' hne] at hlock
      exact hother t' hne hlock
  · intro t' c hc
    replace hc : ((Function.update st.thread t pc') t').entering = some c := hc
    by_cases hne : t' = t
    · subst hne
      rw [hself'] at hc
      exact hentering c hc
    · rw [hrest t' hne] at hc
      exact h.entering t' c hc
  · intro t'
    show ((Function.update st.thread t pc') t').Made st.nservers boxes
    by_cases hne : t' = t
    · subst hne
      rw [hself']
      exact hmade
    · rw [hrest t' hne]
      rcases hboxes with rfl | ⟨hlock, -⟩
      · exact h.made t'
      · exact h.made_other (hpc ▸ hlock) hne boxes
  · intro c hc s hs
    show Registry.zeroed boxes c s = true
    rcases hboxes with rfl | ⟨-, hkeep⟩
    · exact h.ready c hc s hs
    · rw [hkeep c hc s hs]
      exact h.ready c hc s hs

/-- A call begins. -/
theorem create (h : RegInv st log waiting) (hidle : st.thread t = .idle) :
    RegInv (st.setThread t .lock) (log ++ [.called t]) (t :: waiting) := by
  have hcalls : registerCalls (log ++ [.called t]) = registerCalls log + 1 := by
    rw [registerCalls, List.countP_append]
    rfl
  have hids : returnedIds (log ++ [.called t]) = returnedIds log := by simp [returnedIds]
  have hself : (st.setThread t .lock).thread t = .lock := Function.update_self ..
  have hrest : ∀ t' ≠ t, (st.setThread t .lock).thread t' = st.thread t' := fun t' hne =>
    Function.update_of_ne hne ..
  have hnot : t ∉ waiting := by
    rw [h.mem_waiting, hidle]
    exact Bool.false_ne_true
  have hgiven : ∀ t', ((st.setThread t .lock).thread t').given = (st.thread t').given := by
    intro t'
    by_cases hne : t' = t
    · subst hne
      rw [hself, hidle]
      rfl
    · rw [hrest t' hne]
  refine
    { nodup := List.nodup_cons.mpr ⟨hnot, h.nodup⟩
      mem_waiting := ?_
      calls := ?_
      locked := ?_
      entering := ?_
      made := ?_
      ready := h.ready
      given := ?_
      given_inj := fun t' t'' c hc hc' =>
        h.given_inj t' t'' c ((hgiven t').symm.trans hc) ((hgiven t'').symm.trans hc')
      returned_lt := by rw [hids]; exact h.returned_lt
      returned_nodup := by rw [hids]; exact h.returned_nodup
      polling := h.polling
      polled := ?_ }
  · intro t'
    rw [List.mem_cons]
    by_cases hne : t' = t
    · subst hne
      rw [hself]
      exact ⟨fun _ => rfl, fun _ => Or.inl rfl⟩
    · rw [hrest t' hne, ← h.mem_waiting]
      exact ⟨fun hmem => hmem.resolve_left hne, Or.inr⟩
  · rw [hcalls, h.calls, List.length_cons]
    rfl
  · intro t' hlock
    by_cases hne : t' = t
    · subst hne
      rw [hself] at hlock
      cases hlock
    · rw [hrest t' hne] at hlock
      exact h.locked t' hlock
  · intro t' c hc
    by_cases hne : t' = t
    · subst hne
      rw [hself] at hc
      cases hc
    · rw [hrest t' hne] at hc
      exact h.entering t' c hc
  · intro t'
    by_cases hne : t' = t
    · subst hne
      rw [hself]
      trivial
    · rw [hrest t' hne]
      exact h.made t'
  · intro t' c hc
    rw [hids]
    exact h.given t' c ((hgiven t').symm.trans hc)
  · intro s c z hmem
    rcases List.mem_append.mp hmem with hmem | hmem
    · exact h.polled s c z hmem
    · cases List.mem_singleton.mp hmem

/-- **`nclients` grows**, by the client whose boxes are ready. -/
theorem count (h : RegInv st log waiting) {c : ℕ} (hpc : st.thread t = .count c) :
    RegInv (({ st with nclients := st.nclients + 1 } : Registry).setThread t (.unlock c)) log
      (waiting.erase t) := by
  have hc : c = st.nclients := h.entering t c (by rw [hpc]; rfl)
  have hmade := h.made t
  rw [hpc] at hmade
  have hin : t ∈ waiting := (h.mem_waiting t).mpr (by rw [hpc]; rfl)
  have hlock : (st.thread t).locked = true := by rw [hpc]; rfl
  have hself : (Function.update st.thread t (.unlock c)) t = .unlock c := Function.update_self ..
  have hrest : ∀ t' ≠ t, (Function.update st.thread t (.unlock c)) t' = st.thread t' := fun t' hne =>
    Function.update_of_ne hne ..
  have halone : ∀ t' ≠ t, (st.thread t').locked = false := by
    intro t' hne
    refine Bool.eq_false_iff.mpr fun hlock' => hne ?_
    exact Option.some.inj ((h.locked t' hlock').symm.trans (h.locked t hlock))
  refine
    { nodup := h.nodup.erase t
      mem_waiting := ?_
      calls := ?_
      locked := ?_
      entering := ?_
      made := ?_
      ready := ?_
      given := ?_
      given_inj := ?_
      returned_lt := fun c hc => Nat.lt_succ_of_lt (h.returned_lt c hc)
      returned_nodup := h.returned_nodup
      polling := fun s n i hs => Nat.le_succ_of_le (h.polling s n i hs)
      polled := fun s c z hmem => ⟨(h.polled s c z hmem).1, Nat.lt_succ_of_lt (h.polled s c z hmem).2⟩ }
  · intro t'
    show t' ∈ waiting.erase t ↔ ((Function.update st.thread t (.unlock c)) t').before = true
    rw [h.nodup.mem_erase_iff]
    by_cases hne : t' = t
    · subst hne
      rw [hself]
      exact ⟨fun hmem => absurd rfl hmem.1, fun hmem => nomatch hmem⟩
    · rw [hrest t' hne, ← h.mem_waiting]
      exact ⟨fun hmem => hmem.2, fun hmem => ⟨hne, hmem⟩⟩
  · show registerCalls log = st.nclients + 1 + (waiting.erase t).length
    have hpos := List.length_pos_of_mem hin
    rw [h.calls, List.length_erase_of_mem hin]
    omega
  · intro t' hlock'
    replace hlock' : ((Function.update st.thread t (.unlock c)) t').locked = true := hlock'
    show st.createClientLock = some t'
    by_cases hne : t' = t
    · subst hne
      exact h.locked _ hlock
    · rw [hrest t' hne] at hlock'
      exact h.locked t' hlock'
  · intro t' c' hc'
    replace hc' : ((Function.update st.thread t (.unlock c)) t').entering = some c' := hc'
    by_cases hne : t' = t
    · subst hne
      rw [hself] at hc'
      cases hc'
    · -- only the thread with the lock is making a client
      rw [hrest t' hne] at hc'
      rw [RegisterPc.entering_of_not_locked (halone t' hne)] at hc'
      cases hc'
  · intro t'
    show ((Function.update st.thread t (.unlock c)) t').Made st.nservers st.boxes
    by_cases hne : t' = t
    · subst hne
      rw [hself]
      trivial
    · rw [hrest t' hne]
      exact h.made t'
  · intro c' hc' s hs
    rcases Nat.lt_succ_iff_lt_or_eq.mp hc' with hlt | heq
    · exact h.ready c' hlt s hs
    · rw [heq, ← hc]
      exact hmade s hs
  · intro t' c' hc'
    replace hc' : ((Function.update st.thread t (.unlock c)) t').given = some c' := hc'
    by_cases hne : t' = t
    · subst hne
      rw [hself] at hc'
      cases hc'
      refine ⟨hc ▸ Nat.lt_succ_self _, fun hmem => ?_⟩
      have hlt := h.returned_lt c hmem
      omega
    · rw [hrest t' hne] at hc'
      obtain ⟨hlt, hnot⟩ := h.given t' c' hc'
      exact ⟨Nat.lt_succ_of_lt hlt, hnot⟩
  · intro t₁ t₂ c' h₁ h₂
    replace h₁ : ((Function.update st.thread t (.unlock c)) t₁).given = some c' := h₁
    replace h₂ : ((Function.update st.thread t (.unlock c)) t₂).given = some c' := h₂
    by_cases hne₁ : t₁ = t <;> by_cases hne₂ : t₂ = t
    · rw [hne₁, hne₂]
    · -- the new client has not been given to anyone else
      subst hne₁
      rw [hself] at h₁
      cases h₁
      rw [hrest t₂ hne₂] at h₂
      have hlt := (h.given t₂ c h₂).1
      omega
    · subst hne₂
      rw [hself] at h₂
      cases h₂
      rw [hrest t₁ hne₁] at h₁
      have hlt := (h.given t₁ c h₁).1
      omega
    · rw [hrest t₁ hne₁] at h₁
      rw [hrest t₂ hne₂] at h₂
      exact h.given_inj t₁ t₂ c' h₁ h₂

/-- A call returns its client. -/
theorem ret (h : RegInv st log waiting) {c : ℕ} (hpc : st.thread t = .ret c) :
    RegInv (st.setThread t .idle) (log ++ [.returned t c]) waiting := by
  have hids : returnedIds (log ++ [.returned t c]) = returnedIds log ++ [c] := by simp [returnedIds]
  have hcalls : registerCalls (log ++ [.returned t c]) = registerCalls log := by
    rw [registerCalls, List.countP_append]
    rfl
  obtain ⟨hlt, hnot⟩ := h.given t c (by rw [hpc]; rfl)
  have hself : (st.setThread t .idle).thread t = .idle := Function.update_self ..
  have hrest : ∀ t' ≠ t, (st.setThread t .idle).thread t' = st.thread t' := fun t' hne =>
    Function.update_of_ne hne ..
  have hgiven : ∀ t' c', ((st.setThread t .idle).thread t').given = some c' →
      t' ≠ t ∧ (st.thread t').given = some c' := by
    intro t' c' hc'
    by_cases hne : t' = t
    · subst hne
      rw [hself] at hc'
      cases hc'
    · rw [hrest t' hne] at hc'
      exact ⟨hne, hc'⟩
  refine
    { nodup := h.nodup
      mem_waiting := ?_
      calls := by rw [hcalls]; exact h.calls
      locked := ?_
      entering := ?_
      made := ?_
      ready := h.ready
      given := ?_
      given_inj := fun t' t'' c' h₁ h₂ => h.given_inj t' t'' c' (hgiven t' c' h₁).2 (hgiven t'' c' h₂).2
      returned_lt := ?_
      returned_nodup := ?_
      polling := h.polling
      polled := ?_ }
  · intro t'
    by_cases hne : t' = t
    · subst hne
      rw [hself, h.mem_waiting, hpc]
      exact Iff.rfl
    · rw [hrest t' hne]
      exact h.mem_waiting t'
  · intro t' hlock
    by_cases hne : t' = t
    · subst hne
      rw [hself] at hlock
      cases hlock
    · rw [hrest t' hne] at hlock
      exact h.locked t' hlock
  · intro t' c' hc'
    by_cases hne : t' = t
    · subst hne
      rw [hself] at hc'
      cases hc'
    · rw [hrest t' hne] at hc'
      exact h.entering t' c' hc'
  · intro t'
    by_cases hne : t' = t
    · subst hne
      rw [hself]
      trivial
    · rw [hrest t' hne]
      exact h.made t'
  · intro t' c' hc'
    obtain ⟨hne, hold⟩ := hgiven t' c' hc'
    obtain ⟨hlt', hnot'⟩ := h.given t' c' hold
    refine ⟨hlt', ?_⟩
    rw [hids, List.mem_append, List.mem_singleton, not_or]
    refine ⟨hnot', ?_⟩
    rintro rfl
    exact hne (h.given_inj t' t c' hold (by rw [hpc]; rfl))
  · intro c' hmem
    rw [hids, List.mem_append, List.mem_singleton] at hmem
    rcases hmem with hmem | rfl
    · exact h.returned_lt c' hmem
    · exact hlt
  · rw [hids, List.nodup_append]
    refine ⟨h.returned_nodup, by simp, ?_⟩
    intro a ha b hb heq
    rw [List.mem_singleton] at hb
    exact hnot (hb ▸ heq ▸ ha)
  · intro s c' z hmem
    rcases List.mem_append.mp hmem with hmem | hmem
    · exact h.polled s c' z hmem
    · cases List.mem_singleton.mp hmem

/-- A step of a call. -/
theorem register (h : RegInv st log waiting) {granted : Bool}
    (hstep : st.register t granted = .ok (st', evs)) : ∃ waiting', RegInv st' (log ++ evs) waiting' := by
  unfold Registry.register at hstep
  have keep : ∀ {pc : RegisterPc}, st.thread t = pc → pc.locked = true →
      st.createClientLock = some t ∧
        ∀ t' ≠ t, (st.thread t').locked = true → st.createClientLock = some t' := by
    rintro pc rfl hlock
    exact ⟨h.locked t hlock, fun t' _ hlock' => h.locked t' hlock'⟩
  cases hpc : st.thread t with
  | idle =>
      rw [hpc] at hstep
      cases hstep
  | lock =>
      simp only [hpc] at hstep
      split at hstep
      · next hfree =>
        cases hstep
        rw [List.append_nil]
        refine ⟨waiting, h.move .read _ hpc rfl rfl (fun _ => rfl) ?_ nofun trivial (Or.inl rfl)⟩
        intro t' _ hlock
        rw [h.locked t' hlock] at hfree
        cases hfree
      · cases hstep
  | read =>
      simp only [hpc] at hstep
      cases hstep
      obtain ⟨hlock, hother⟩ := keep hpc rfl
      rw [List.append_nil]
      refine ⟨waiting, h.move (.check _) _ hpc rfl rfl (fun _ => hlock) hother ?_ trivial (Or.inl rfl)⟩
      rintro c ⟨⟩
      rfl
  | check c =>
      simp only [hpc] at hstep
      have hc := h.entering t c (by rw [hpc]; rfl)
      obtain ⟨hlock, hother⟩ := keep hpc rfl
      split at hstep
      · cases hstep
        rw [List.append_nil]
        refine ⟨waiting, h.move (.boxes c) _ hpc rfl rfl (fun _ => hlock) hother ?_ trivial (Or.inl rfl)⟩
        rintro c' ⟨⟩
        exact hc
      · cases hstep
  | boxes c =>
      simp only [hpc] at hstep
      cases hstep
      have hc := h.entering t c (by rw [hpc]; rfl)
      obtain ⟨hlock, hother⟩ := keep hpc rfl
      rw [List.append_nil]
      refine ⟨waiting, h.move (.zero c 0) _ hpc rfl rfl (fun _ => hlock) hother ?_ ?_ (Or.inr ⟨rfl, ?_⟩)⟩
      · rintro c' ⟨⟩
        exact hc
      · exact fun s hs => absurd hs (Nat.not_lt_zero s)
      · intro c' hc' s _
        rw [Registry.zeroed, Function.update_of_ne (by omega), Registry.zeroed]
  | zero c i =>
      simp only [hpc] at hstep
      have hc := h.entering t c (by rw [hpc]; rfl)
      have hmade := h.made t
      rw [hpc] at hmade
      obtain ⟨hlock, hother⟩ := keep hpc rfl
      split at hstep
      · next hi =>
        split at hstep
        · next z hz =>
          cases hstep
          rw [List.append_nil]
          refine ⟨waiting, h.move (.zero c (i + 1)) _ hpc rfl rfl (fun _ => hlock) hother ?_ ?_ (Or.inr ⟨rfl, ?_⟩)⟩
          · rintro c' ⟨⟩
            exact hc
          · intro s hs
            rw [Registry.zeroed, Function.update_self]
            show Function.update z i true s = true
            by_cases hsi : s = i
            · rw [hsi, Function.update_self]
            · have hold : Registry.zeroed st.boxes c s = true := hmade s (by omega)
              rw [Registry.zeroed, hz] at hold
              rw [Function.update_of_ne hsi]
              exact hold
          · intro c' hc' s _
            rw [Registry.zeroed, Function.update_of_ne (by omega), Registry.zeroed]
        · cases hstep
      · next hi =>
        cases hstep
        rw [List.append_nil]
        refine ⟨waiting, h.move (.pending c) _ hpc rfl rfl (fun _ => hlock) hother ?_ ?_ (Or.inl rfl)⟩
        · rintro c' ⟨⟩
          exact hc
        · exact fun s hs => hmade s (by omega)
  | pending c =>
      simp only [hpc] at hstep
      have hc := h.entering t c (by rw [hpc]; rfl)
      have hmade := h.made t
      rw [hpc] at hmade
      obtain ⟨hlock, hother⟩ := keep hpc rfl
      split at hstep
      · cases hstep
        rw [List.append_nil]
        refine ⟨waiting, h.move (.count c) _ hpc rfl rfl (fun _ => hlock) hother ?_ hmade (Or.inl rfl)⟩
        rintro c' ⟨⟩
        exact hc
      · cases hstep
  | count c =>
      simp only [hpc] at hstep
      cases hstep
      rw [List.append_nil]
      exact ⟨_, h.count hpc⟩
  | unlock c =>
      simp only [hpc] at hstep
      cases hstep
      rw [List.append_nil]
      refine ⟨waiting, h.move (.ret c) _ hpc rfl rfl nofun ?_ nofun trivial (Or.inl rfl)⟩
      intro t' hne hlock'
      have hlock := (keep hpc rfl).1
      rw [h.locked t' hlock'] at hlock
      exact absurd (Option.some.inj hlock) hne
  | ret c =>
      simp only [hpc] at hstep
      cases hstep
      exact ⟨waiting, h.ret hpc⟩

/-- A step of a server that emits what the invariant allows. -/
theorem setServer (h : RegInv st log waiting) {s : ℕ} {pc : PollPc}
    (hpolling : ∀ n i, pc = .poll n i → n ≤ st.nclients)
    (hevs : ∀ e ∈ evs, ∃ c, e = .polled s c true ∧ c < st.nclients) :
    RegInv { st with server := Function.update st.server s pc } (log ++ evs) waiting := by
  have hids : returnedIds (log ++ evs) = returnedIds log := by
    rw [returnedIds, List.filterMap_append]
    have hnil : evs.filterMap (fun | .returned _ client => some client | _ => none) = [] := by
      refine List.filterMap_eq_nil_iff.mpr fun e he => ?_
      obtain ⟨c, rfl, -⟩ := hevs e he
      rfl
    rw [hnil, List.append_nil]
    rfl
  have hcalls : registerCalls (log ++ evs) = registerCalls log := by
    have hzero : evs.countP (fun | .called _ => true | _ => false) = 0 := by
      refine List.countP_eq_zero.mpr fun e he => ?_
      obtain ⟨c, rfl, -⟩ := hevs e he
      exact Bool.false_ne_true
    rw [registerCalls, List.countP_append, hzero]
    rfl
  refine
    { nodup := h.nodup
      mem_waiting := h.mem_waiting
      calls := by rw [hcalls]; exact h.calls
      locked := h.locked
      entering := h.entering
      made := h.made
      ready := h.ready
      given := by rw [hids]; exact h.given
      given_inj := h.given_inj
      returned_lt := by rw [hids]; exact h.returned_lt
      returned_nodup := by rw [hids]; exact h.returned_nodup
      polling := ?_
      polled := ?_ }
  · intro s' n i hs'
    replace hs' : Function.update st.server s pc s' = .poll n i := hs'
    by_cases hne : s' = s
    · subst hne
      rw [Function.update_self] at hs'
      exact hpolling n i hs'
    · rw [Function.update_of_ne hne] at hs'
      exact h.polling s' n i hs'
  · intro s' c z hmem
    rcases List.mem_append.mp hmem with hmem | hmem
    · exact h.polled s' c z hmem
    · obtain ⟨c', heq, hlt⟩ := hevs _ hmem
      cases heq
      exact ⟨rfl, hlt⟩

theorem serve (h : RegInv st log waiting) {s : ℕ} (hs : s < st.nservers) :
    RegInv (st.serve s).1 (log ++ (st.serve s).2) waiting := by
  unfold Registry.serve
  cases hpc : st.server s with
  | top =>
      refine h.setServer ?_ (by simp)
      rintro n i ⟨⟩
      exact le_rfl
  | poll n i =>
      have hn := h.polling s n i hpc
      by_cases hi : i < n
      · simp only [hi, if_true]
        refine h.setServer ?_ ?_
        · rintro n' i' ⟨⟩
          exact hn
        · intro e he
          rw [List.mem_singleton.mp he, h.ready i (by omega) s hs]
          exact ⟨i, rfl, by omega⟩
      · simp only [hi, if_false]
        exact h.setServer nofun (by simp)

theorem step (h : RegInv st log waiting) {a : RegistryAct} (hstep : st.step a = .ok (st', evs)) :
    ∃ waiting', RegInv st' (log ++ evs) waiting' := by
  cases a with
  | create t =>
      simp only [Registry.step] at hstep
      split at hstep
      · next hidle =>
        cases hstep
        exact ⟨_, h.create hidle⟩
      · cases hstep
  | thread t granted => exact h.register hstep
  | server s =>
      simp only [Registry.step] at hstep
      split at hstep
      · next hs =>
        have hserve := h.serve hs
        rw [Except.ok.inj hstep] at hserve
        exact ⟨waiting, hserve⟩
      · cases hstep

end RegInv

/-! ### Every run -/

section

variable {st st' st₀ : Registry} {log evs : List RegistryEvent} {nservers : ℕ}
  {boxes : ℕ → Option (ℕ → Bool)} {pendingData : ℕ → Bool}

/-- A step of a call emits at most its return. -/
theorem Registry.register_events {t : ℕ} {granted : Bool} (hstep : st.register t granted = .ok (st', evs)) :
    evs = [] ∨ ∃ c, evs = [.returned t c] := by
  unfold Registry.register at hstep
  split at hstep <;> (try split at hstep) <;> (try split at hstep) <;> cases hstep
  case h_10 c _ => exact Or.inr ⟨c, rfl⟩
  all_goals exact Or.inl rfl

theorem Registry.serve_events (st : Registry) (s : ℕ) :
    (st.serve s).2 = [] ∨ ∃ c z, (st.serve s).2 = [.polled s c z] := by
  unfold Registry.serve
  split
  · exact Or.inl rfl
  · split
    · exact Or.inr ⟨_, _, rfl⟩
    · exact Or.inl rfl

/-- Only a new call counts as a call. -/
theorem registerCalls_step {a : RegistryAct} (hfew : a.Few log) (hle : registerCalls log ≤ MAX_CLIENTS)
    (hstep : st.step a = .ok (st', evs)) : registerCalls (log ++ evs) ≤ MAX_CLIENTS := by
  rw [registerCalls, List.countP_append]
  cases a with
  | create t =>
      simp only [Registry.step] at hstep
      split at hstep
      · cases hstep
        exact hfew
      · cases hstep
  | thread t granted =>
      rcases Registry.register_events hstep with rfl | ⟨c, rfl⟩
      · exact hle
      · exact hle
  | server s =>
      simp only [Registry.step] at hstep
      split at hstep
      · have hevs : (st.serve s).2 = evs := congrArg Prod.snd (Except.ok.inj hstep)
        rw [← hevs]
        rcases st.serve_events s with hnil | ⟨c, z, hpoll⟩
        · rw [hnil]
          exact hle
        · rw [hpoll]
          exact hle
      · cases hstep

/-- **Client ids are distinct indices of the arrays (proved).**  In every run with at most
`MAX_CLIENTS` calls, from any threads and interleaved in any way with the servers: the ids returned are
distinct and below `MAX_CLIENTS`, no call writes a cell of `boxes` or `pending_data` beyond their
length, and the boxes that servers poll have been allocated and zeroed. -/
theorem client_ids (h : Registry.FewReach (.start nservers boxes pendingData) st log) :
    (returnedIds log).Nodup ∧ (∀ c ∈ returnedIds log, c < MAX_CLIENTS) ∧
      (∀ t c, (st.thread t).entering = some c → c < MAX_CLIENTS) ∧
      ∀ s c zeroed, .polled s c zeroed ∈ log → zeroed = true ∧ c < MAX_CLIENTS := by
  have hboth : (∃ waiting, RegInv st log waiting) ∧ registerCalls log ≤ MAX_CLIENTS := by
    refine Runs.Reach.invariant
      (P := fun st log => (∃ waiting, RegInv st log waiting) ∧ registerCalls log ≤ MAX_CLIENTS)
      ⟨⟨[], .start nservers boxes pendingData⟩, Nat.zero_le _⟩ ?_ h
    rintro st st' log evs a ⟨⟨waiting, hinv⟩, hle⟩ hfew hstep
    exact ⟨hinv.step hstep, registerCalls_step hfew hle hstep⟩
  obtain ⟨⟨waiting, hinv⟩, hle⟩ := hboth
  have hcalls := hinv.calls
  refine ⟨hinv.returned_nodup, ?_, ?_, ?_⟩
  · intro c hc
    have hlt := hinv.returned_lt c hc
    omega
  · intro t c hc
    -- the call itself is not counted in `nclients` yet
    have hin : t ∈ waiting := by
      rw [hinv.mem_waiting]
      cases hpc : st.thread t <;> rw [hpc] at hc <;> first | rfl | cases hc
    have hpos := List.length_pos_of_mem hin
    have heq := hinv.entering t c hc
    omega
  · intro s c zeroed hmem
    obtain ⟨hz, hlt⟩ := hinv.polled s c zeroed hmem
    exact ⟨hz, by omega⟩

/-- One thread registers a client, which a server then polls. -/
theorem client_ids_one : ∃ st log,
    Registry.FewReach (.start 1 (fun _ => none) fun _ => false) st log ∧
      log = [.called 0, .returned 0 0, .polled 0 0 true] ∧
      (returnedIds log).Nodup ∧ (∀ c ∈ returnedIds log, c < MAX_CLIENTS) ∧
      (∀ t c, (st.thread t).entering = some c → c < MAX_CLIENTS) ∧
      ∀ s c zeroed, .polled s c zeroed ∈ log → zeroed = true ∧ c < MAX_CLIENTS := by
  have hrun : (Runs.run Registry.step (fun _ log a => a.Few log)
      (.create 0 :: List.replicate 10 (.thread 0 true) ++ [.server 0, .server 0])
      (.start 1 (fun _ => none) fun _ => false) []).map Prod.snd
        = some [.called 0, .returned 0 0, .polled 0 0 true] := by decide +kernel
  obtain ⟨⟨st, log⟩, hrun, hlog⟩ := Option.map_eq_some_iff.mp hrun
  have hreach : Registry.FewReach (.start 1 (fun _ => none) fun _ => false) st log :=
    Runs.Reach.start.run hrun
  exact ⟨st, log, hreach, hlog, client_ids hreach⟩

/-- No call is under way and there are `n` clients. -/
structure Registry.Quiet (n : ℕ) (st : Registry) : Prop where
  nservers : st.nservers = 1
  nclients : st.nclients = n
  free : st.createClientLock = none
  idle : st.thread 0 = .idle

/-- A call by thread 0 with nothing else under way. -/
theorem Registry.Reach.call {n : ℕ} (h : Registry.Reach st₀ st log) (hquiet : st.Quiet n)
    (hn : n ≤ MAX_CLIENTS) : ∃ st' log', Registry.Reach st₀ st' (log ++ log') ∧ st'.Quiet (n + 1) ∧
      .returned 0 n ∈ log' := by
  obtain ⟨hserv, rfl, hfree, hidle⟩ := hquiet
  have hrun : Runs.run Registry.step (fun _ _ _ => True)
      (.create 0 :: List.replicate 10 (.thread 0 true)) st log
        = some ({ st with
            nclients := st.nclients + 1
            boxes := Function.update st.boxes st.nclients (some (Function.update (fun _ => false) 0 true))
            pendingData := Function.update st.pendingData st.nclients true
            createClientLock := none
            thread := Function.update st.thread 0 .idle },
          log ++ [.called 0, .returned 0 st.nclients]) := by
    simp [Runs.run, List.replicate, Registry.step, Registry.register, Registry.setThread, hidle, hfree,
      hn, hserv]
  exact ⟨_, _, Runs.Reach.run h hrun, ⟨hserv, rfl, rfl, Function.update_self 0 _ st.thread⟩, by simp⟩

/-- Any number of calls up to one more than the arrays have room for. -/
theorem Registry.Reach.calls (n : ℕ) (hn : n ≤ MAX_CLIENTS) : ∃ st log,
    Registry.Reach (.start 1 (fun _ => none) fun _ => false) st log ∧ st.Quiet n := by
  induction n with
  | zero => exact ⟨_, _, .start, rfl, rfl, rfl, rfl⟩
  | succ n ih =>
      obtain ⟨st, log, h, hquiet⟩ := ih (by omega)
      obtain ⟨st', log', h', hquiet', -⟩ := Registry.Reach.call h hquiet (by omega)
      exact ⟨st', _, h', hquiet'⟩

/-- The call after `MAX_CLIENTS` calls passes the assertion and returns `MAX_CLIENTS`. -/
theorem client_id_beyond : ∃ st log,
    Registry.Reach (.start 1 (fun _ => none) fun _ => false) st log ∧
      ∃ c ∈ returnedIds log, ¬ c < MAX_CLIENTS := by
  obtain ⟨st, log, h, hquiet⟩ := Registry.Reach.calls MAX_CLIENTS le_rfl
  obtain ⟨st', log', h', -, hret⟩ := Registry.Reach.call h hquiet le_rfl
  refine ⟨st', _, h', MAX_CLIENTS, ?_, lt_irrefl _⟩
  exact List.mem_filterMap.mpr ⟨_, List.mem_append_right _ hret, rfl⟩

end

end SmpHashTable
