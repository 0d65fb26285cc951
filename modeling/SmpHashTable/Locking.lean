import SmpHashTable.RefCount

/-!
# The locking table

`locking_hash_lookup`, `locking_hash_insert`, `atomic_release_value` and `atomic_mark_ready`, run by any
number of threads.  The body between `anderson_acquire` and `anderson_release` of a partition is run by
one thread at a time; what it does to the partition cannot be seen by others.  So a step goes from one
access to a word that threads outside the lock can access (a `ref_count`, the heap, the lock) to the
next.  The release of an element inside `hash_insert` is a step of its own, and so is each `free`.
-/

namespace SmpHashTable

/-- The arguments of a call of `locking_hash_insert` for a key of partition `s`. -/
structure InsertCall where
  s : ℕ
  key : ℕ
  size : ℤ
  deriving DecidableEq, Repr

/-- What calls a release function or `atomic_mark_ready`. -/
inductive ReleaseRet
  /-- `hash_insert`, for the element it overwrites. -/
  | charge (c : InsertCall)
  /-- The `while (1)` loop of `hash_insert`. -/
  | evict (c : InsertCall)
  | client
  deriving DecidableEq, Repr

/-- Where a thread stands. -/
inductive LockingPc
  /-- Outside the functions of the table. -/
  | idle
  /-- In `locking_hash_lookup`, before `hash_lookup`. -/
  | lookup (s key : ℕ)
  /-- Before its `__sync_add_and_fetch`. -/
  | take (s e : ℕ)
  /-- In `locking_hash_insert`, before the `hash_lookup` of `hash_insert`. -/
  | insert (c : InsertCall)
  /-- Before the size is added. -/
  | charge (c : InsertCall)
  /-- At the `while (1)` loop. -/
  | evict (c : InsertCall)
  /-- Before `free(e)`. -/
  | free (e : ℕ) (ret : ReleaseRet)
  /-- Before `anderson_release` and the return of `value`. -/
  | leave (s value : ℕ)
  deriving DecidableEq, Repr

/-- Where a release function returns to. -/
def ReleaseRet.next : ReleaseRet → LockingPc
  | .charge c => .charge c
  | .evict c => .evict c
  | .client => .idle

/-- The table, the locks of its partitions and the threads. -/
structure Locking where
  table : Table
  lock : ℕ → Option ℕ
  pc : ℕ → LockingPc

inductive LockingEvent
  /-- A lookup takes a reference to `e`. -/
  | took (t e : ℕ)
  /-- `atomic_release_value` gives it up. -/
  | gave (t e : ℕ)
  /-- An insert makes `e`. -/
  | inserted (t e : ℕ)
  /-- `atomic_mark_ready` of `e`. -/
  | marked (t e : ℕ)
  | freed (t e : ℕ)
  /-- A call returns a pointer, or 0. -/
  | returned (t value : ℕ)
  deriving DecidableEq, Repr

inductive LockingAct
  | lookup (t key : ℕ)
  | insert (t key : ℕ) (size : ℤ)
  /-- `atomic_release_value` of the value of `e`. -/
  | release (t e : ℕ)
  /-- `atomic_mark_ready` of the value of `e`. -/
  | markReady (t e : ℕ)
  /-- Thread `t` goes on with its call; `alloc` is the answer of `memalign`, `tscs` what `read_tsc`
  returns. -/
  | next (t : ℕ) (alloc : Option ℕ) (tscs : List ℕ)

namespace Locking

def setPc (st : Locking) (t : ℕ) (pc : LockingPc) : Locking :=
  { st with pc := Function.update st.pc t pc }

/-- `anderson_acquire` of partition `s`. -/
def acquire (st : Locking) (t s : ℕ) (pc : LockingPc) : Except Stop (Locking × List LockingEvent) :=
  match st.pc t, st.lock s with
  | .idle, none => .ok ({ st with lock := Function.update st.lock s (some t) }.setPc t pc, [])
  | _, _ => .error .notEnabled

/-- `e->ref_count` becomes `w`. -/
def setRefCount (st : Locking) (e w : ℕ) : Locking :=
  let m := st.table.mem
  { st with table := { st.table with mem := m.setElem e { m.elem e with refCount := w } } }

/-- Partition `s` becomes `p`. -/
def setPart (st : Locking) (s : ℕ) (p : Partition) : Locking :=
  { st with table := st.table.setPart s p st.table.mem }

/-- An atomic operation on `e->ref_count`; the caller frees the element if the result is 0. -/
def update (st : Locking) (t e : ℕ) (f : ℕ → ℕ) (ret : ReleaseRet) : Except Stop Locking :=
  if st.table.mem.Live e then
    let w := f (st.table.mem.elem e).refCount
    .ok ((st.setRefCount e w).setPc t (if w = 0 then .free e ret else ret.next))
  else .error .fault

/-- `hash_remove` of `e` from partition `s`, which is `p`, and `atomic_release_value_`. -/
def remove (st : Locking) (t s : ℕ) (p : Partition) (e : ℕ) (ret : ReleaseRet) : Except Stop Locking :=
  (st.setPart s (hashRemove p st.table.mem e)).update t e (fun w => sub64 w 1) ret

/-- The eviction of a victim in the `while (1)` loop. -/
def evict (st : Locking) (t : ℕ) (c : InsertCall) (tscs : List ℕ) : Except Stop Locking :=
  if (st.table.part c.s).size > elemSize c.size then do
    let (l, _) ← victim (st.table.part c.s) tscs
    st.remove t c.s (st.table.part c.s) l (.evict c)
  else .error .assertFailed

/-- The end of `locking_hash_insert`, with the new block `e` allocated in `m`. -/
def link (st : Locking) (t : ℕ) (c : InsertCall) (e : ℕ) (m : Mem) : Locking :=
  let (p, m) := linkElem (st.table.part c.s) m e c.key (elemSize c.size)
  ({ st with table := st.table.setPart c.s p m }.setRefCount e (DATA_READY_MASK ||| 1)).setPc t
    (.leave c.s (valuePtr e))

/-- The next step of a call in progress. -/
def next (st : Locking) (t : ℕ) (alloc : Option ℕ) (tscs : List ℕ) :
    Except Stop (Locking × List LockingEvent) :=
  match st.pc t with
  | .idle => .error .notEnabled
  | .lookup s key =>
      let (found, p) := hashLookup (st.table.part s) st.table.mem key
      match found with
      | some e =>
          if st.table.mem.Live e then
            let ready := isValueReady st.table.mem e
            .ok ((st.setPart s p).setPc t (if ready then .take s e else .leave s 0), [])
          else .error .fault
      | none => .ok ((st.setPart s p).setPc t (.leave s 0), [])
  | .take s e =>
      if st.table.mem.Live e then
        let w := add64 (st.table.mem.elem e).refCount 1
        .ok ((st.setRefCount e w).setPc t (.leave s (valuePtr e)), [.took t e])
      else .error .fault
  | .insert c =>
      let (old, p) := hashLookup (st.table.part c.s) st.table.mem c.key
      match old with
      | some e => (st.remove t c.s p e (.charge c)).map fun st => (st, [])
      | none => .ok ((st.setPart c.s p).setPc t (.charge c), [])
  | .charge c =>
      let p := st.table.part c.s
      .ok ((st.setPart c.s { p with size := add64 p.size (elemSize c.size) }).setPc t (.evict c), [])
  | .evict c =>
      if (st.table.part c.s).size ≤ (st.table.part c.s).maxSize then do
        let (got, m) ← memalign st.table.mem (wordOfInt (sizeofElem + c.size)) CACHELINE alloc
        match got with
        | some e => return (st.link t c e m, [.inserted t e])
        | none => (st.evict t c tscs).map fun st => (st, [])
      else (st.evict t c tscs).map fun st => (st, [])
  | .free e ret => do
      let m ← free st.table.mem e
      return ({ st with table := { st.table with mem := m } }.setPc t ret.next, [.freed t e])
  | .leave s value =>
      .ok ({ st with lock := Function.update st.lock s none }.setPc t .idle, [.returned t value])

/-- One step of the threads. -/
def step (st : Locking) : LockingAct → Except Stop (Locking × List LockingEvent)
  | .lookup t key =>
      let s := hashGetServer st.table.nservers key
      st.acquire t s (.lookup s key)
  | .insert t key size =>
      let s := hashGetServer st.table.nservers key
      st.acquire t s (.insert ⟨s, key, size⟩)
  | .release t e =>
      match st.pc t with
      | .idle => (st.update t e (fun w => sub64 w 1) .client).map fun st => (st, [.gave t e])
      | _ => .error .notEnabled
  | .markReady t e =>
      match st.pc t with
      | .idle => (st.update t e clearReadyMask .client).map fun st => (st, [.marked t e])
      | _ => .error .notEnabled
  | .next t alloc tscs => st.next t alloc tscs

/-- A table before any call. -/
def init (t : Table) : Locking := ⟨t, fun _ => none, fun _ => .idle⟩

end Locking

/-- The lookups that took a reference to `e` which has not been released. -/
def handles (log : List LockingEvent) (e : ℕ) : ℕ :=
  log.foldl (fun n ev => match ev with
    | .took _ e' => if e' = e then n + 1 else n
    | .gave _ e' => if e' = e then n - 1 else n
    | _ => n) 0

/-- The inserts that made `e` and have not been followed by `atomic_mark_ready`. -/
def filling (log : List LockingEvent) (e : ℕ) : ℕ :=
  log.foldl (fun n ev => match ev with
    | .inserted _ e' => if e' = e then n + 1 else n
    | .marked _ e' => if e' = e then n - 1 else n
    | _ => n) 0

/-- What callers promise: each pointer of a lookup is released once, and each pointer of an insert is
marked ready once, by whichever thread. -/
def LockingAct.Ok (log : List LockingEvent) : LockingAct → Prop
  | .release _ e => 0 < handles log e
  | .markReady _ e => 0 < filling log e
  | _ => True

instance LockingAct.decidableOk (log : List LockingEvent) : (a : LockingAct) → Decidable (a.Ok log)
  | .release _ _ => inferInstanceAs (Decidable (_ < _))
  | .markReady _ _ => inferInstanceAs (Decidable (_ < _))
  | .lookup _ _ => isTrue trivial
  | .insert _ _ _ => isTrue trivial
  | .next _ _ _ => isTrue trivial

/-- The states and logs of the runs of a table made by `create_hash_table`. -/
def Locking.Reach (maxSize nservers : ℕ) (evictalgo : Evictalgo) : Locking → List LockingEvent → Prop :=
  Runs.Reach Locking.step (fun _ log a => a.Ok log)
    (Locking.init (createHashTable maxSize nservers evictalgo))

/-! ### The bodies under the locks -/

namespace LockingPc

/-- The partition whose lock the thread holds. -/
def holds : LockingPc → Option ℕ
  | lookup s _ | take s _ | leave s _ => some s
  | insert c | charge c | evict c => some c.s
  | free _ (.charge c) | free _ (.evict c) => some c.s
  | idle | free _ .client => none

/-- The insert under way. -/
def call : LockingPc → Option InsertCall
  | insert c | charge c | evict c | free _ (.charge c) | free _ (.evict c) => some c
  | _ => none

/-- The insert under way, once the old element of the key is gone. -/
def making : LockingPc → Option InsertCall
  | charge c | evict c | free _ (.charge c) | free _ (.evict c) => some c
  | _ => none

/-- What the partition is charged with in advance. -/
def charged : LockingPc → ℕ
  | evict c | free _ (.evict c) => elemSize c.size
  | _ => 0

variable {pc : LockingPc} {c : InsertCall}

theorem holds_of_call (h : pc.call = some c) : pc.holds = some c.s := by
  cases pc with
  | free e ret => cases ret <;> cases h <;> rfl
  | _ => cases h <;> rfl

theorem call_of_making (h : pc.making = some c) : pc.call = some c := by
  cases pc with
  | free e ret => cases ret <;> cases h <;> rfl
  | _ => cases h <;> rfl

end LockingPc

namespace Locking

/-- What a partition is charged with by the thread that holds its lock. -/
def chargedBy (pc : ℕ → LockingPc) : Option ℕ → ℕ
  | some t => (pc t).charged
  | none => 0

def charged (st : Locking) (s : ℕ) : ℕ := chargedBy st.pc (st.lock s)

/-- What the thread in the body of a partition relies on, and what nobody else disturbs. -/
structure Bodies (st : Locking) : Prop where
  shape : ∀ s < st.table.nservers, Shape (st.table.part s) st.table.mem (st.charged s)
  home : ∀ s < st.table.nservers, ∀ e ∈ (st.table.part s).elems,
    hashGetServer st.table.nservers (st.table.mem.elem e).key = s
  holding : ∀ t s, (st.pc t).holds = some s ↔ st.lock s = some t
  inside : ∀ t s, (st.pc t).holds = some s → s < st.table.nservers
  aimed : ∀ t c, (st.pc t).call = some c → hashGetServer st.table.nservers c.key = c.s
  absent : ∀ t c, (st.pc t).making = some c → ∀ a ∈ (st.table.part c.s).elems,
    (st.table.mem.elem a).key ≠ c.key
  taking : ∀ t s e, st.pc t = .take s e → e ∈ (st.table.part s).elems

theorem setPart_self (st : Locking) (s : ℕ) : st.setPart s (st.table.part s) = st := by
  rw [setPart, Table.setPart, Function.update_eq_self]

namespace Bodies

variable {st : Locking} {t s e : ℕ} {pc : LockingPc}

theorem init (maxSize : ℕ) {nservers : ℕ} (evictalgo : Evictalgo) :
    Bodies (.init (createHashTable maxSize nservers evictalgo)) := by
  have hnil : ∀ s, ((createHashTable maxSize nservers evictalgo).part s).elems = [] :=
    fun s => Lists.cat_const_nil _
  refine ⟨?_, ?_, fun t s => by simp [Locking.init, LockingPc.holds], nofun, nofun, nofun, nofun⟩
  · intro s hs
    have hn : 0 < nservers := lt_of_le_of_lt (Nat.zero_le s) hs
    have hge := initNhash_ge (maxSize / nservers) nservers hn
    exact (emptyPartition_rep Mem.empty (by omega)).toShape
  · intro s _ e he
    replace he : e ∈ ((createHashTable maxSize nservers evictalgo).part s).elems := he
    rw [hnil s] at he
    cases he

theorem charged_of_holds (h : Bodies st) (hs : (st.pc t).holds = some s) :
    st.charged s = (st.pc t).charged := by
  rw [charged, (h.holding t s).mp hs]
  rfl

/-- An element is in one partition only. -/
theorem home_unique (h : Bodies st) {s' : ℕ} (hs : s < st.table.nservers) (hs' : s' < st.table.nservers)
    (he : e ∈ (st.table.part s).elems) (he' : e ∈ (st.table.part s').elems) : s = s' :=
  (h.home s hs e he).symm.trans (h.home s' hs' e he')

/-- The memory changes, but not the keys and sizes of elements in the table, which stay live. -/
theorem keepMem (h : Bodies st) {m : Mem}
    (hkeep : ∀ s < st.table.nservers, ∀ a ∈ (st.table.part s).elems,
      m.Live a ∧ (m.elem a).key = (st.table.mem.elem a).key ∧
        (m.elem a).size = (st.table.mem.elem a).size) :
    Bodies { st with table := { st.table with mem := m } } where
  shape s hs := (h.shape s hs).congr_mem (fun a ha => (hkeep s hs a ha).2.1)
    (fun a ha => (hkeep s hs a ha).2.2) fun a ha => (hkeep s hs a ha).1
  home s hs e he := by
    show hashGetServer st.table.nservers (m.elem e).key = s
    rw [(hkeep s hs e he).2.1]
    exact h.home s hs e he
  holding := h.holding
  inside := h.inside
  aimed := h.aimed
  absent t c hc a ha := by
    have hs := h.inside t c.s (LockingPc.holds_of_call (LockingPc.call_of_making hc))
    show (m.elem a).key ≠ c.key
    rw [(hkeep c.s hs a ha).2.1]
    exact h.absent t c hc a ha
  taking := h.taking

/-- **A step of one thread.**  It may take or give back a lock, and change the partition it holds. -/
theorem move (h : Bodies st) (t : ℕ) (pc : LockingPc) (lock : ℕ → Option ℕ) (part : ℕ → Partition)
    (hself : ∀ s, pc.holds = some s ↔ lock s = some t)
    (hothers : ∀ t' ≠ t, ∀ s, st.lock s = some t' ↔ lock s = some t')
    (hpart : ∀ s, pc.holds ≠ some s → part s = st.table.part s)
    (hpaid : ∀ s, (st.pc t).holds = some s → pc.holds ≠ some s → (st.pc t).charged = 0)
    (hheld : ∀ s, pc.holds = some s → s < st.table.nservers ∧
      Shape (part s) st.table.mem pc.charged ∧ ∀ e ∈ (part s).elems,
        hashGetServer st.table.nservers (st.table.mem.elem e).key = s)
    (haimed : ∀ c, pc.call = some c → hashGetServer st.table.nservers c.key = c.s)
    (habsent : ∀ c, pc.making = some c → ∀ a ∈ (part c.s).elems, (st.table.mem.elem a).key ≠ c.key)
    (htaking : ∀ s e, pc = .take s e → e ∈ (part s).elems) :
    Bodies ⟨{ st.table with part }, lock, Function.update st.pc t pc⟩ := by
  have hthis : Function.update st.pc t pc t = pc := Function.update_self ..
  have hrest : ∀ t' ≠ t, Function.update st.pc t pc t' = st.pc t' := fun t' hne => Function.update_of_ne hne ..
  -- the partition of another thread is not the one of this thread
  have hapart : ∀ t' ≠ t, ∀ s, (st.pc t').holds = some s → part s = st.table.part s := by
    intro t' hne s hs
    refine hpart s fun heq => hne ?_
    have hlock := (hothers t' hne s).mp ((h.holding t' s).mp hs)
    rw [(hself s).mp heq] at hlock
    exact (Option.some.inj hlock).symm
  refine ⟨?_, ?_, ?_, ?_, ?_, ?_, ?_⟩
  · intro s hs
    show Shape (part s) st.table.mem (chargedBy (Function.update st.pc t pc) (lock s))
    by_cases hholds : pc.holds = some s
    · rw [(hself s).mp hholds, chargedBy, hthis]
      exact (hheld s hholds).2.1
    · have hcharged : chargedBy (Function.update st.pc t pc) (lock s) = st.charged s := by
        unfold charged
        cases hlock : lock s with
        | some t' =>
            have hne : t' ≠ t := fun heq => hholds ((hself s).mpr (heq ▸ hlock))
            rw [(hothers t' hne s).mpr hlock, chargedBy, chargedBy, hrest t' hne]
        | none =>
            cases hold : st.lock s with
            | none => rfl
            | some t' =>
                by_cases hne : t' = t
                · subst hne
                  exact (hpaid s ((h.holding t' s).mpr hold) hholds).symm
                · rw [(hothers t' hne s).mp hold] at hlock
                  cases hlock
      rw [hcharged, hpart s hholds]
      exact h.shape s hs
  · intro s hs e he
    replace he : e ∈ (part s).elems := he
    by_cases hholds : pc.holds = some s
    · exact (hheld s hholds).2.2 e he
    · rw [hpart s hholds] at he
      exact h.home s hs e he
  · intro t' s
    show ((Function.update st.pc t pc) t').holds = some s ↔ lock s = some t'
    by_cases hne : t' = t
    · subst hne
      rw [hthis]
      exact hself s
    · rw [hrest t' hne, h.holding t' s]
      exact hothers t' hne s
  · intro t' s hs
    replace hs : ((Function.update st.pc t pc) t').holds = some s := hs
    by_cases hne : t' = t
    · subst hne
      rw [hthis] at hs
      exact (hheld s hs).1
    · rw [hrest t' hne] at hs
      exact h.inside t' s hs
  · intro t' c hc
    replace hc : ((Function.update st.pc t pc) t').call = some c := hc
    by_cases hne : t' = t
    · subst hne
      rw [hthis] at hc
      exact haimed c hc
    · rw [hrest t' hne] at hc
      exact h.aimed t' c hc
  · intro t' c hc a ha
    replace hc : ((Function.update st.pc t pc) t').making = some c := hc
    replace ha : a ∈ (part c.s).elems := ha
    by_cases hne : t' = t
    · subst hne
      rw [hthis] at hc
      exact habsent c hc a ha
    · rw [hrest t' hne] at hc
      rw [hapart t' hne c.s (LockingPc.holds_of_call (LockingPc.call_of_making hc))] at ha
      exact h.absent t' c hc a ha
  · intro t' s e he
    replace he : (Function.update st.pc t pc) t' = .take s e := he
    show e ∈ (part s).elems
    by_cases hne : t' = t
    · subst hne
      rw [hthis] at he
      exact htaking s e he
    · rw [hrest t' hne] at he
      rw [hapart t' hne s (by rw [he]; rfl)]
      exact h.taking t' s e he

/-- A step outside the locks. -/
theorem outside (h : Bodies st) (hpc : (st.pc t).holds = none) (hholds : pc.holds = none) :
    Bodies (st.setPc t pc) := by
  have hnone : ∀ s, pc.holds ≠ some s := fun s hs => by rw [hholds] at hs; cases hs
  refine h.move t pc st.lock st.table.part ?_ (fun _ _ _ => Iff.rfl) (fun _ _ => rfl) ?_ ?_ ?_ ?_ ?_
  · intro s
    rw [← h.holding t s, hpc, hholds]
  · intro s hs
    rw [hpc] at hs
    cases hs
  · exact fun s hs => absurd hs (hnone s)
  · exact fun c hc => absurd (LockingPc.holds_of_call hc) (hnone _)
  · exact fun c hc => absurd (LockingPc.holds_of_call (LockingPc.call_of_making hc)) (hnone _)
  · rintro s e rfl
    exact absurd rfl (hnone s)

variable (pc) in
/-- A step in the body of partition `s`. -/
theorem within (h : Bodies st) {p : Partition} (hpc : (st.pc t).holds = some s)
    (hholds : pc.holds = some s) (hshape : Shape p st.table.mem pc.charged)
    (hhome : ∀ e ∈ p.elems, hashGetServer st.table.nservers (st.table.mem.elem e).key = s)
    (haimed : ∀ c, pc.call = some c → hashGetServer st.table.nservers c.key = c.s)
    (habsent : ∀ c, pc.making = some c → ∀ a ∈ p.elems, (st.table.mem.elem a).key ≠ c.key)
    (htaking : ∀ e, pc = .take s e → e ∈ p.elems) : Bodies ((st.setPart s p).setPc t pc) := by
  have heq : ∀ {s'}, pc.holds = some s' → s' = s := fun hs' => by
    rw [hholds] at hs'
    exact (Option.some.inj hs').symm
  refine h.move t pc st.lock (Function.update st.table.part s p) ?_ (fun _ _ _ => Iff.rfl) ?_ ?_ ?_
    haimed ?_ ?_
  · intro s'
    rw [← h.holding t s', hpc, hholds]
  · intro s' hs'
    refine Function.update_of_ne ?_ ..
    rintro rfl
    exact hs' hholds
  · intro s' hs' hs''
    rw [hpc] at hs'
    exact absurd (hholds.trans hs') hs''
  · intro s' hs'
    obtain rfl := heq hs'
    rw [Function.update_self]
    exact ⟨h.inside t s' hpc, hshape, hhome⟩
  · intro c hc a ha
    rw [heq (LockingPc.holds_of_call (LockingPc.call_of_making hc)), Function.update_self] at ha
    exact habsent c hc a ha
  · rintro s' e rfl
    obtain rfl := heq rfl
    rw [Function.update_self]
    exact htaking e rfl

variable (pc) in
/-- A step in the body of a partition that leaves it alone. -/
theorem stay (h : Bodies st) (hpc : (st.pc t).holds = some s) (hholds : pc.holds = some s)
    (hcharged : pc.charged = (st.pc t).charged)
    (haimed : ∀ c, pc.call = some c → hashGetServer st.table.nservers c.key = c.s)
    (habsent : ∀ c, pc.making = some c → ∀ a ∈ (st.table.part s).elems,
      (st.table.mem.elem a).key ≠ c.key)
    (htaking : ∀ e, pc = .take s e → e ∈ (st.table.part s).elems) : Bodies (st.setPc t pc) := by
  have hs := h.inside t s hpc
  have hshape := h.shape s hs
  rw [h.charged_of_holds hpc, ← hcharged] at hshape
  have hwithin := h.within pc hpc hholds hshape (h.home s hs) haimed habsent htaking
  rwa [setPart_self] at hwithin

/-- Two lookups never take a reference to the same element at once. -/
theorem take_alone (h : Bodies st) {t' s' : ℕ} (hpc : st.pc t = .take s e) (hpc' : st.pc t' = .take s' e) :
    t = t' := by
  have hholds : (st.pc t).holds = some s := by rw [hpc]; rfl
  have hholds' : (st.pc t').holds = some s' := by rw [hpc']; rfl
  have hss := h.home_unique (h.inside t s hholds) (h.inside t' s' hholds') (h.taking t s e hpc)
    (h.taking t' s' e hpc')
  have hlock := (h.holding t s).mp hholds
  rw [hss, (h.holding t' s').mp hholds'] at hlock
  exact (Option.some.inj hlock).symm

/-- A call acquires the lock of its partition. -/
theorem acquire (h : Bodies st) (hidle : st.pc t = .idle) (hfree : st.lock s = none)
    (hs : s < st.table.nservers) (hholds : pc.holds = some s) (hcharged : pc.charged = 0)
    (haimed : ∀ c, pc.call = some c → hashGetServer st.table.nservers c.key = c.s)
    (hmaking : pc.making = none) (htake : ∀ s e, pc ≠ .take s e) :
    Bodies ({ st with lock := Function.update st.lock s (some t) }.setPc t pc) := by
  have hnot : ∀ s', st.lock s' ≠ some t := by
    intro s' hs'
    have hholds' := (h.holding t s').mpr hs'
    rw [hidle] at hholds'
    cases hholds'
  refine h.move t pc (Function.update st.lock s (some t)) st.table.part ?_ ?_ (fun _ _ => rfl) ?_ ?_
    haimed ?_ ?_
  · intro s'
    rw [hholds]
    by_cases hss : s' = s
    · subst hss
      rw [Function.update_self]
      exact ⟨fun _ => rfl, fun _ => rfl⟩
    · rw [Function.update_of_ne hss]
      exact ⟨fun heq => absurd (Option.some.inj heq).symm hss, fun heq => absurd heq (hnot s')⟩
  · intro t' hne s'
    by_cases hss : s' = s
    · subst hss
      rw [Function.update_self, hfree]
      exact ⟨nofun, fun heq => absurd (Option.some.inj heq).symm hne⟩
    · rw [Function.update_of_ne hss]
  · intro s' hs'
    rw [hidle] at hs'
    cases hs'
  · intro s' hs'
    rw [hholds] at hs'
    obtain rfl := Option.some.inj hs'
    have hshape := h.shape s hs
    rw [charged, hfree] at hshape
    rw [hcharged]
    exact ⟨hs, hshape, h.home s hs⟩
  · intro c hc
    rw [hmaking] at hc
    cases hc
  · intro s' e he
    exact absurd he (htake s' e)

/-- The lock is given back. -/
theorem leave (h : Bodies st) {value : ℕ} (hpc : st.pc t = .leave s value) :
    Bodies ({ st with lock := Function.update st.lock s none }.setPc t .idle) := by
  have hholds : (st.pc t).holds = some s := by rw [hpc]; rfl
  refine h.move t .idle (Function.update st.lock s none) st.table.part ?_ ?_ (fun _ _ => rfl) ?_ nofun nofun
    nofun nofun
  · intro s'
    by_cases hss : s' = s
    · subst hss
      rw [Function.update_self]
      exact ⟨nofun, nofun⟩
    · rw [Function.update_of_ne hss, ← h.holding t s', hholds]
      exact ⟨nofun, fun heq => absurd (Option.some.inj heq).symm hss⟩
  · intro t' hne s'
    by_cases hss : s' = s
    · subst hss
      rw [Function.update_self, (h.holding t s').mp hholds]
      exact ⟨fun heq => absurd (Option.some.inj heq).symm hne, nofun⟩
    · rw [Function.update_of_ne hss]
  · intro s' _ _
    rw [hpc]
    rfl

end Bodies

end Locking

end SmpHashTable
