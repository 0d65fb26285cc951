import SmpHashTable.AndersonLock
import SmpHashTable.Table

/-!
# Exclusion in the locking table

`locking_hash_lookup` and `locking_hash_insert` take the Anderson lock of the partition of their key.
`init_hash_partition` sizes that lock by the number of servers and `anderson_init` sets its first slot
only, on memory that `memalign` does not clear.  So the threads exclude each other exactly when there
are no more of them than servers and the memory happened to be clear.
-/

namespace SmpHashTable

/-! ### The locks of a table -/

/-- Where a client thread stands. -/
inductive CallPc
  /-- Outside `locking_hash_lookup` and `locking_hash_insert`. -/
  | idle
  /-- In one of them, for a key of partition `s`. -/
  | busy (s : ℕ) (pc : LockPc)
  deriving DecidableEq, Repr

/-- The locks of the partitions and the threads that use them. -/
structure LockTable where
  nservers : ℕ
  lock : ℕ → Alock
  pc : ℕ → CallPc

inductive LockAct
  /-- Thread `t` calls one of the two functions. -/
  | call (t key : ℕ)
  /-- Thread `t` goes on with its call. -/
  | next (t : ℕ)
  deriving DecidableEq, Repr

def LockAct.thread : LockAct → ℕ
  | .call t _ => t
  | .next t => t

/-- `create_hash_table`, as far as the locks go: `mem s` is what `memalign` returned for the slots of
partition `s`. -/
def createLocks (mem : ℕ → ℤ → ℤ) (nservers : ℕ) : Option LockTable :=
  (List.range nservers).foldlM
    (fun tab i => (andersonInit (mem i) nservers).map fun l =>
      { tab with lock := Function.update tab.lock i l })
    ⟨nservers, fun _ => ⟨0, 0, 0⟩, fun _ => .idle⟩

namespace LockTable

/-- A step of a thread; `none` for a call within a call. -/
def step (tab : LockTable) : LockAct → Except Unit (LockTable × List LockEvent)
  | .call t key =>
      match tab.pc t with
      | .idle =>
          .ok ({ tab with
            pc := Function.update tab.pc t (.busy (hashGetServer tab.nservers key) .enter) }, [])
      | .busy _ _ => .error ()
  | .next t =>
      match tab.pc t with
      | .idle => .error ()
      | .busy s pc =>
          let (l, pc', evs) := (tab.lock s).step t pc
          .ok ({ tab with
            lock := Function.update tab.lock s l
            pc := Function.update tab.pc t (if pc' = .idle then .idle else .busy s pc') }, evs)

/-- The runs of `T` threads. -/
def Reach (T : ℕ) : LockTable → LockTable → List LockEvent → Prop :=
  Runs.Reach step fun _ _ a => a.thread < T

/-- At most one thread is between `anderson_acquire` and `anderson_release` of a partition. -/
def Excludes (tab : LockTable) : Prop :=
  ∀ (s t t' : ℕ) (me me' : ℤ), tab.pc t = .busy s (.critical me) →
    tab.pc t' = .busy s (.critical me') → t = t'

end LockTable

theorem createLocks_eq {mem : ℕ → ℤ → ℤ} {n : ℕ} {tab : LockTable}
    (h : createLocks mem n = some tab) :
    tab.nservers = n ∧ (∀ s < n, tab.lock s = ⟨Function.update (mem s) 0 1, 0, n⟩) ∧
      ∀ t, tab.pc t = .idle := by
  suffices hk : ∀ k tab, (List.range k).foldlM (fun (tab : LockTable) i =>
      (andersonInit (mem i) n).map fun l => { tab with lock := Function.update tab.lock i l })
      ⟨n, fun _ => ⟨0, 0, 0⟩, fun _ => .idle⟩ = some tab →
      tab.nservers = n ∧ (∀ s < k, tab.lock s = ⟨Function.update (mem s) 0 1, 0, n⟩) ∧
        ∀ t, tab.pc t = .idle from hk n tab h
  intro k
  induction k with
  | zero =>
      intro tab htab
      cases htab
      exact ⟨rfl, fun s hs => absurd hs (Nat.not_lt_zero s), fun _ => rfl⟩
  | succ k ih =>
      intro tab htab
      rw [List.range_succ, List.foldlM_append] at htab
      obtain ⟨tab₁, h₁, htab⟩ := Option.bind_eq_some_iff.mp htab
      obtain ⟨hservers, hlock, hpc⟩ := ih tab₁ h₁
      simp only [List.foldlM_cons, List.foldlM_nil, andersonInit] at htab
      split at htab
      · cases htab
        refine ⟨hservers, ?_, hpc⟩
        intro s hs
        show Function.update tab₁.lock k _ s = _
        by_cases hsk : s = k
        · rw [hsk, Function.update_self]
        · rw [Function.update_of_ne hsk]
          exact hlock s (by omega)
      · cases htab

/-! ### One lock of the table -/

/-- What the lock of partition `s` sees of a thread. -/
def CallPc.at (s : ℕ) : CallPc → LockPc
  | .idle => .idle
  | .busy s' pc => if s' = s then pc else .idle

/-- The lock of partition `s` and its threads. -/
def LockTable.view (tab : LockTable) (s : ℕ) : LockSys := ⟨tab.lock s, fun t => (tab.pc t).at s⟩

theorem LockTable.view_step {tab tab' : LockTable} {a : LockAct} {evs : List LockEvent} (s : ℕ)
    (h : tab.step a = .ok (tab', evs)) :
    tab'.view s = tab.view s ∨ ∃ evs', (tab.view s).step a.thread = .ok (tab'.view s, evs') := by
  have hview : ∀ (t : ℕ) (c : CallPc), (fun u => (Function.update tab.pc t c u).at s)
      = Function.update (fun u => (tab.pc u).at s) t (c.at s) :=
    fun t c => Function.comp_update (CallPc.at s) tab.pc t c
  cases a with
  | call t key =>
      simp only [LockTable.step] at h
      split at h
      · next hpc =>
        cases h
        have hidle : (tab.pc t).at s = .idle := by rw [hpc]; rfl
        by_cases hs : hashGetServer tab.nservers key = s
        · have hnew : (CallPc.busy (hashGetServer tab.nservers key) .enter).at s = .enter := if_pos hs
          refine .inr ⟨[], ?_⟩
          simp only [LockTable.view, LockSys.step, LockAct.thread, hidle, Alock.step, hview, hnew]
        · have hnew : (CallPc.busy (hashGetServer tab.nservers key) .enter).at s = .idle := if_neg hs
          refine .inl ?_
          simp only [LockTable.view, hview, hnew]
          rw [← hidle, Function.update_eq_self]
      · cases h
  | next t =>
      simp only [LockTable.step] at h
      split at h
      · cases h
      · next s' pc hpc =>
        cases h
        by_cases hs : s' = s
        · have hat : (tab.pc t).at s = pc := by
            rw [hpc]
            exact if_pos hs
          have hnew : ∀ pc' : LockPc,
              (if pc' = .idle then CallPc.idle else .busy s' pc').at s = pc' := by
            intro pc'
            split
            · next hpc' => exact hpc'.symm
            · exact if_pos hs
          rw [hs] at hnew ⊢
          refine .inr ⟨((tab.lock s).step t pc).2.2, ?_⟩
          simp only [LockTable.view, LockSys.step, LockAct.thread, hat, hview, hnew,
            Function.update_self]
        · have hidle : (tab.pc t).at s = .idle := by
            rw [hpc]
            exact if_neg hs
          have hnew : ∀ pc' : LockPc,
              (if pc' = .idle then CallPc.idle else .busy s' pc').at s = .idle := by
            intro pc'
            split
            · rfl
            · exact if_neg hs
          refine .inl ?_
          simp only [LockTable.view, hview, hnew, Function.update_of_ne (Ne.symm hs)]
          rw [← hidle, Function.update_eq_self]

/-- Every run of the table is, for each of its locks, a run of that lock. -/
theorem LockTable.Reach.view {T : ℕ} {tab₀ tab : LockTable} {log : List LockEvent}
    (h : LockTable.Reach T tab₀ tab log) (s : ℕ) :
    ∃ log', Runs.Reach LockSys.step (fun _ _ t => t < T) (tab₀.view s) (tab.view s) log' := by
  induction h with
  | start => exact ⟨[], .start⟩
  | step _ ha hstep ih =>
      obtain ⟨log', hrun⟩ := ih
      rcases LockTable.view_step s hstep with hsame | ⟨evs', hmove⟩
      · rw [hsame]
        exact ⟨log', hrun⟩
      · exact ⟨_, hrun.step ha hmove⟩

/-- The table in which only the lock of partition `s` is used. -/
def LockTable.only (tab : LockTable) (s : ℕ) (st : LockSys) : LockTable :=
  { tab with
    lock := Function.update tab.lock s st.lock
    pc := fun t => if st.pc t = .idle then .idle else .busy s (st.pc t) }

/-- Every run of one lock is a run of the table, by calls for a key of its partition. -/
theorem LockTable.reach_only {T s : ℕ} (tab : LockTable) {st₀ st : LockSys} {log : List LockEvent}
    (hs : s < tab.nservers) (h : Runs.Reach LockSys.step (fun _ _ t => t < T) st₀ st log) :
    ∃ log', LockTable.Reach T (tab.only s st₀) (tab.only s st) log' := by
  induction h with
  | start => exact ⟨[], .start⟩
  | @step st _ _ _ t _ ht hstep ih =>
      obtain ⟨log', hrun⟩ := ih
      cases hstep
      have hpcs : ∀ pc' : LockPc, (fun u => if Function.update st.pc t pc' u = .idle then CallPc.idle
          else .busy s (Function.update st.pc t pc' u))
          = Function.update (fun u => if st.pc u = .idle then CallPc.idle else .busy s (st.pc u)) t
            (if pc' = .idle then .idle else .busy s pc') :=
        fun pc' => Function.comp_update
          (fun pc : LockPc => if pc = .idle then CallPc.idle else .busy s pc) st.pc t pc'
      by_cases hidle : st.pc t = .idle
      · have hcall : (tab.only s st).step (.call t s)
            = .ok (tab.only s ⟨(st.lock.step t (st.pc t)).1,
                Function.update st.pc t (st.lock.step t (st.pc t)).2.1⟩, []) := by
          simp only [LockTable.step, LockTable.only, hidle, if_true, Alock.step, hpcs, hashGetServer,
            Nat.mod_eq_of_lt hs, reduceCtorEq, if_false]
        exact ⟨_, Runs.Reach.step (a := .call t s) hrun ht hcall⟩
      · have hnext : (tab.only s st).step (.next t)
            = .ok (tab.only s ⟨(st.lock.step t (st.pc t)).1,
                Function.update st.pc t (st.lock.step t (st.pc t)).2.1⟩,
              (st.lock.step t (st.pc t)).2.2) := by
          simp only [LockTable.step, LockTable.only, if_neg hidle, Function.update_self,
            Function.update_idem, hpcs]
        exact ⟨_, Runs.Reach.step (a := .next t) hrun ht hnext⟩

/-! ### When one lock does not exclude -/

namespace LockSys

/-- Two threads are in the critical section. -/
def Clash (st : LockSys) : Prop :=
  ∃ (t t' : ℕ) (me me' : ℤ), t ≠ t' ∧ st.pc t = .critical me ∧ st.pc t' = .critical me'

/-- `T` threads can bring the lock from `st₀` to `st`. -/
def Can (T : ℕ) (st₀ st : LockSys) : Prop :=
  ∃ log, Runs.Reach step (fun _ _ t => t < T) st₀ st log

namespace Can

variable {T t k : ℕ} {st₀ : LockSys} {l : Alock} {f : ℕ → LockPc}

theorem next {p : LockPc} (h : Can T st₀ ⟨l, f⟩) (ht : t < T) (hpc : f t = p) (l' : Alock)
    (pc' : LockPc) (evs : List LockEvent) (hstep : l.step t p = (l', pc', evs)) :
    Can T st₀ ⟨l', Function.update f t pc'⟩ := by
  obtain ⟨log, hrun⟩ := h
  have hgo : LockSys.step ⟨l, f⟩ t = .ok (⟨l', Function.update f t pc'⟩, evs) := by
    simp only [LockSys.step, hpc, hstep]
  exact ⟨_, hrun.step ht hgo⟩

/-- A thread takes the ticket `k`. -/
theorem ticket (h : Can T st₀ ⟨l, f⟩) (ht : t < T) (hpc : f t = .idle) (hnext : l.nextSlot = k)
    (hk : k < l.nthread) :
    Can T st₀ ⟨{ l with nextSlot := (k + 1 : ℕ) }, Function.update f t (.spin k)⟩ := by
  have h₁ := h.next ht hpc l .enter [] rfl
  have hmod : (k : ℤ).tmod l.nthread = k := by
    rw [Int.tmod_eq_emod_of_nonneg (by positivity)]
    exact_mod_cast Nat.mod_eq_of_lt hk
  have h₂ := h₁.next ht (Function.update_self _ _ _) { l with nextSlot := (k + 1 : ℕ) } (.spin k)
    [.ticket t k] (by
      simp only [Alock.step, hnext, hmod]
      rw [if_neg (by omega)]
      push_cast
      rfl)
  rwa [Function.update_idem] at h₂

/-- A thread sees its slot set. -/
theorem see (h : Can T st₀ ⟨l, f⟩) (ht : t < T) {me : ℤ} (hpc : f t = .spin me)
    (hset : l.hasLock me ≠ 0) : Can T st₀ ⟨l, Function.update f t (.clear me)⟩ :=
  h.next ht hpc _ _ [] (by simp only [Alock.step, if_neg hset])

/-- A thread clears its slot and enters the critical section. -/
theorem clear (h : Can T st₀ ⟨l, f⟩) (ht : t < T) {m : ℤ} (hpc : f t = .clear m) :
    Can T st₀ ⟨{ l with hasLock := Function.update l.hasLock m 0 },
      Function.update f t (.critical m)⟩ :=
  h.next ht hpc _ _ [.entered t] rfl

/-- A thread passes through `anderson_acquire`. -/
theorem acquire (h : Can T st₀ ⟨l, f⟩) (ht : t < T) (hpc : f t = .idle) (hnext : l.nextSlot = k)
    (hk : k < l.nthread) (hset : l.hasLock k ≠ 0) :
    Can T st₀ ⟨⟨Function.update l.hasLock k 0, (k + 1 : ℕ), l.nthread⟩,
      Function.update f t (.critical k)⟩ := by
  have h₁ := h.ticket ht hpc hnext hk
  have h₂ := h₁.see ht (Function.update_self _ _ _) hset
  rw [Function.update_idem] at h₂
  have h₃ := h₂.clear ht (Function.update_self _ _ _)
  rwa [Function.update_idem] at h₃

end Can

/-- With more threads than slots, two threads can see the same slot set before either clears it. -/
theorem clash_of_crowd {n T : ℕ} {hasLock : ℤ → ℤ} (hn : 0 < n) (hT : n < T) (hset : hasLock 0 ≠ 0) :
    ∃ st, Can T (start hasLock n) st ∧ st.Clash := by
  -- thread `0` has seen its slot set, the threads below `k` have their tickets
  have hline : ∀ k, 1 ≤ k → k ≤ n → Can T (start hasLock n) ⟨⟨hasLock, k, n⟩,
      fun u => if u = 0 then .clear 0 else if u < k then .spin u else .idle⟩ := by
    intro k hk
    induction k, hk using Nat.le_induction with
    | base =>
        intro _
        have h₀ : Can T (start hasLock n) ⟨⟨hasLock, 0, n⟩, fun _ => .idle⟩ := ⟨[], .start⟩
        have h₁ := h₀.ticket (t := 0) (k := 0) (by omega) rfl rfl hn
        have h₂ := h₁.see (t := 0) (by omega) (Function.update_self _ _ _) hset
        rw [Function.update_idem] at h₂
        convert h₂ using 2
        funext u
        by_cases hu : u = 0
        · rw [hu, if_pos rfl, Function.update_self]
          rfl
        · rw [if_neg hu, if_neg (by omega), Function.update_of_ne hu]
    | succ k hk ih =>
        intro hkn
        have h₁ := (ih (by omega)).ticket (t := k) (k := k) (by omega)
          (by simp only [if_neg (show k ≠ 0 by omega), if_neg (lt_irrefl k)]) rfl (by simp only; omega)
        convert h₁ using 2
        funext u
        by_cases hu : u = k
        · rw [hu, Function.update_self, if_neg (by omega), if_pos (by omega)]
        · rw [Function.update_of_ne hu]
          split
          · rfl
          · by_cases huk : u < k
            · rw [if_pos huk, if_pos (by omega)]
            · rw [if_neg huk, if_neg (by omega)]
  have hfull := hline n hn le_rfl
  have hmod : ((n : ℕ) : ℤ).tmod n = 0 := Int.tmod_self
  have h₁ := hfull.next (p := .idle) hT
    (by simp only [if_neg (show n ≠ 0 by omega), if_neg (lt_irrefl n)]) ⟨hasLock, n, n⟩ .enter [] rfl
  have h₂ := h₁.next hT (Function.update_self _ _ _) ⟨hasLock, n + 1, n⟩ (.correct n)
    [.ticket n 0] (by
      simp only [Alock.step, hmod]
      rw [if_pos ⟨by omega, trivial⟩])
  have h₃ := h₂.next hT (Function.update_self _ _ _) ⟨hasLock, n + 1 + -n, n⟩ (.spin 0) []
    (by simp only [Alock.step, hmod])
  have h₄ := h₃.see hT (Function.update_self _ _ _) hset
  simp only [Function.update_idem] at h₄
  have h₅ := h₄.clear hT (Function.update_self _ _ _)
  have h₆ := h₅.clear (t := 0) (m := 0) (by omega) (by
    rw [Function.update_idem, Function.update_of_ne (by omega)]
    rfl)
  refine ⟨_, h₆, 0, n, 0, 0, by omega, ?_, ?_⟩
  · simp only [Function.update_self]
  · simp only [Function.update_of_ne (show n ≠ 0 by omega), Function.update_self]

/-- With a slot that is not clear at the start, two threads can hold neighbouring slots. -/
theorem clash_of_garbage {n T j : ℕ} {hasLock : ℤ → ℤ} (hT : 2 ≤ T) (hset : hasLock 0 ≠ 0)
    (hj : 0 < j) (hjn : j < n) (hgarbage : hasLock j ≠ 0) :
    ∃ st, Can T (start hasLock n) st ∧ st.Clash := by
  -- thread `0` goes through the slots below `k`
  have hround : ∀ k, k < j → ∃ h : ℤ → ℤ, Can T (start hasLock n) ⟨⟨h, k, n⟩, fun _ => .idle⟩ ∧
      h k ≠ 0 ∧ h j ≠ 0 := by
    intro k
    induction k with
    | zero =>
        intro _
        exact ⟨hasLock, ⟨[], .start⟩, hset, hgarbage⟩
    | succ k ih =>
        intro hk
        obtain ⟨h, hcan, hk0, hj0⟩ := ih (by omega)
        have h₁ := hcan.acquire (t := 0) (by omega) rfl rfl (by simp only; omega) hk0
        have hnext : ((k : ℤ) + 1).tmod n = (k + 1 : ℕ) := by
          rw [Int.tmod_eq_emod_of_nonneg (by positivity)]
          exact_mod_cast Nat.mod_eq_of_lt (by omega : k + 1 < n)
        have h₂ := h₁.next (t := 0) (by omega) (Function.update_self _ _ _)
          ⟨Function.update (Function.update h k 0) (k + 1 : ℕ) 1, (k + 1 : ℕ), n⟩ .idle [.left 0]
          (by simp only [Alock.step, hnext])
        rw [Function.update_idem, Function.update_eq_self_iff.mpr rfl] at h₂
        refine ⟨_, h₂, ?_, ?_⟩
        · rw [Function.update_self]
          exact one_ne_zero
        · rw [Function.update_of_ne (by omega), Function.update_of_ne (by omega)]
          exact hj0
  obtain ⟨k, rfl⟩ : ∃ k, j = k + 1 := ⟨j - 1, by omega⟩
  obtain ⟨h, hcan, hk0, hj0⟩ := hround k (by omega)
  have h₁ := hcan.acquire (t := 0) (by omega) rfl rfl (by simp only; omega) hk0
  have h₂ := h₁.acquire (t := 1) (k := k + 1) (by omega) (Function.update_of_ne (by omega) _ _) rfl
    hjn (by
      simp only [Function.update_of_ne (show ((k + 1 : ℕ) : ℤ) ≠ k by omega)]
      exact hj0)
  refine ⟨_, h₂, 0, 1, k, (k + 1 : ℕ), by omega, ?_, ?_⟩
  · simp only [Function.update_of_ne (show 0 ≠ 1 by omega), Function.update_self]
  · simp only [Function.update_self]

end LockSys

/-! ### The table -/

theorem createLocks_view {mem : ℕ → ℤ → ℤ} {n s : ℕ} {tab : LockTable}
    (h : createLocks mem n = some tab) (hs : s < n) :
    tab.view s = .start (Function.update (mem s) 0 1) n := by
  obtain ⟨-, hlock, hpc⟩ := createLocks_eq h
  simp only [LockTable.view, LockSys.start, hlock s hs, hpc, CallPc.at]

theorem createLocks_only {mem : ℕ → ℤ → ℤ} {n s : ℕ} {tab : LockTable}
    (h : createLocks mem n = some tab) (hs : s < n) :
    tab.only s (.start (Function.update (mem s) 0 1) n) = tab := by
  obtain ⟨-, hlock, hpc⟩ := createLocks_eq h
  have hpcs : tab.pc = fun _ => .idle := funext hpc
  simp only [LockTable.only, LockSys.start, ← hlock s hs, Function.update_eq_self, if_true, ← hpcs]

/-- Only the `T` threads are in calls, for keys of the table's partitions. -/
theorem LockTable.Reach.busy {mem : ℕ → ℤ → ℤ} {n T : ℕ} {tab₀ tab : LockTable} {log : List LockEvent}
    (hn : 0 < n) (hcreate : createLocks mem n = some tab₀) (h : LockTable.Reach T tab₀ tab log) :
    tab.nservers = n ∧ ∀ (t s : ℕ) (pc : LockPc), tab.pc t = .busy s pc → t < T ∧ s < n := by
  induction h with
  | start =>
      obtain ⟨hservers, -, hidle⟩ := createLocks_eq hcreate
      refine ⟨hservers, fun t s pc hpc => ?_⟩
      rw [hidle t] at hpc
      cases hpc
  | @step tab _ _ _ a _ ha hstep ih =>
      obtain ⟨hservers, ih⟩ := ih
      cases a with
      | call t key =>
          simp only [LockTable.step] at hstep
          split at hstep
          · cases hstep
            refine ⟨hservers, fun u s pc hpc => ?_⟩
            by_cases hut : u = t
            · rw [hut] at hpc ⊢
              simp only [Function.update_self, CallPc.busy.injEq] at hpc
              rw [← hpc.1, hashGetServer, hservers]
              exact ⟨ha, Nat.mod_lt _ hn⟩
            · simp only [Function.update_of_ne hut] at hpc
              exact ih u s pc hpc
          · cases hstep
      | next t =>
          simp only [LockTable.step] at hstep
          split at hstep
          · cases hstep
          · next s' pc' hold =>
            cases hstep
            refine ⟨hservers, fun u s pc hpc => ?_⟩
            by_cases hut : u = t
            · rw [hut] at hpc ⊢
              simp only [Function.update_self] at hpc
              split at hpc
              · cases hpc
              · rw [CallPc.busy.injEq] at hpc
                rw [← hpc.1]
                exact ih t s' pc' hold
            · simp only [Function.update_of_ne hut] at hpc
              exact ih u s pc hpc

/-- A clash on one lock is a clash in the table. -/
theorem LockTable.not_excludes_of_clash {mem : ℕ → ℤ → ℤ} {n s T : ℕ} {tab : LockTable}
    (h : createLocks mem n = some tab) (hs : s < n)
    (hclash : ∃ st, LockSys.Can T (.start (Function.update (mem s) 0 1) n) st ∧ st.Clash) :
    ∃ tab' log, LockTable.Reach T tab tab' log ∧ ¬ tab'.Excludes := by
  obtain ⟨st, ⟨log, hrun⟩, t, t', me, me', hne, ht, ht'⟩ := hclash
  have hservers := (createLocks_eq h).1
  obtain ⟨log', hreach⟩ := LockTable.reach_only tab (s := s) (by rw [hservers]; exact hs) hrun
  rw [createLocks_only h hs] at hreach
  refine ⟨_, log', hreach, ?_⟩
  intro hex
  refine hne (hex s t t' me me' ?_ ?_)
  · simp [LockTable.only, ht]
  · simp [LockTable.only, ht']

/-- **Exclusion**: the threads of the locking table exclude each other in every interleaving exactly
when there is only one of them, or when there are no more of them than servers and `memalign` returned
memory whose slots, the first one of each lock apart, were clear. -/
theorem locks_exclude_iff {mem : ℕ → ℤ → ℤ} {n T : ℕ} {tab : LockTable} (hn : 0 < n)
    (hcreate : createLocks mem n = some tab) :
    (∀ tab' log, LockTable.Reach T tab tab' log → tab'.Excludes) ↔
      T ≤ 1 ∨ T ≤ n ∧ ∀ s < n, ∀ j : ℕ, 0 < j → j < n → mem s j = 0 := by
  constructor
  · intro hex
    by_contra hcond
    obtain ⟨hT, hcond⟩ := not_or.mp hcond
    have hfirst : ∀ s, Function.update (mem s) 0 1 0 ≠ 0 := by simp
    by_cases hTn : T ≤ n
    · -- a slot holds garbage
      have hgarbage : ∃ s < n, ∃ j : ℕ, 0 < j ∧ j < n ∧ mem s j ≠ 0 := by
        by_contra hnone
        refine hcond ⟨hTn, fun s hs j hj hjn => ?_⟩
        by_contra hne
        exact hnone ⟨s, hs, j, hj, hjn, hne⟩
      obtain ⟨s, hs, j, hj, hjn, hne⟩ := hgarbage
      obtain ⟨tab', log, hreach, hnot⟩ := LockTable.not_excludes_of_clash hcreate hs
        (LockSys.clash_of_garbage (T := T) (by omega) (hfirst s) hj hjn (by
          rw [Function.update_of_ne (by omega)]
          exact hne))
      exact hnot (hex tab' log hreach)
    · obtain ⟨tab', log, hreach, hnot⟩ := LockTable.not_excludes_of_clash hcreate hn
        (LockSys.clash_of_crowd (T := T) hn (by omega) (hfirst 0))
      exact hnot (hex tab' log hreach)
  · intro hcond tab' log hreach s t t' me me' ht ht'
    have hbusy := (LockTable.Reach.busy hn hcreate hreach).2
    obtain ⟨hT, hs⟩ := hbusy t s _ ht
    obtain ⟨hT', -⟩ := hbusy t' s _ ht'
    rcases hcond with hone | ⟨hTn, hmem⟩
    · omega
    · obtain ⟨log', hview⟩ := LockTable.Reach.view hreach s
      rw [createLocks_view hcreate hs] at hview
      obtain ⟨gone, q, hline⟩ := (LockSys.Reach.of_threads hTn hview).line hn (by simp) (by
        intro j hj hjn
        rw [Function.update_of_ne (by omega)]
        exact hmem s hs j hj hjn)
      have hcrit : ∀ {t : ℕ} {me : ℤ}, tab'.pc t = .busy s (.critical me) →
          (tab'.view s).pc t = .critical me := by
        intro t me hpc
        simp only [LockTable.view, hpc, CallPc.at, if_true]
      exact hline.exclusive (hcrit ht) (hcrit ht')

theorem locks_exclude_two : ∃ tab, createLocks (fun _ _ => 0) 2 = some tab ∧
    ∀ tab' log, LockTable.Reach 2 tab tab' log → tab'.Excludes := by
  obtain ⟨tab, htab⟩ := Option.isSome_iff_exists.mp
    (show (createLocks (fun _ _ => 0) 2).isSome = true by decide)
  refine ⟨tab, htab, ?_⟩
  exact (locks_exclude_iff (by decide) htab).mpr (.inr ⟨le_rfl, fun _ _ _ _ _ => rfl⟩)

/-- Two client threads on a table with one server, both for key `0`: the second finds the only slot set
before the first has cleared it. -/
def twoClientRun : List LockAct :=
  [.call 0 0, .next 0, .next 0, .call 1 0, .next 1, .next 1, .next 1, .next 0, .next 1]

theorem locks_clash : ¬ ∀ (n T : ℕ) (mem : ℕ → ℤ → ℤ) (tab : LockTable), 1 ≤ n → T ≤ MAX_CLIENTS →
    createLocks mem n = some tab → ∀ tab' log, LockTable.Reach T tab tab' log → tab'.Excludes := by
  intro hclaim
  have hval : ((createLocks (fun _ _ => 0) 1).bind fun tab =>
      (Runs.run LockTable.step (fun _ _ a => a.thread < 2) twoClientRun tab []).map
        fun r => (r.1.pc 0, r.1.pc 1))
      = some (.busy 0 (.critical 0), .busy 0 (.critical 0)) := by
    decide +kernel
  obtain ⟨tab, htab, hval⟩ := Option.bind_eq_some_iff.mp hval
  obtain ⟨⟨tab', log⟩, hrun, hpcs⟩ := Option.map_eq_some_iff.mp hval
  rw [Prod.mk.injEq] at hpcs
  have hex := hclaim 1 2 _ tab le_rfl (by decide) htab tab' log (Runs.Reach.start.run hrun)
  exact absurd (hex 0 0 1 0 0 hpcs.1 hpcs.2) (by decide)

end SmpHashTable
