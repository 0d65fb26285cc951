import SmpHashTable.Lib.Runs
import SmpHashTable.Lib.Lists
import SmpHashTable.Util
import Mathlib.Data.Finset.Card
import Mathlib.Data.Nat.ModEq
import Mathlib.Tactic.LinearCombination
import Mathlib.Tactic.Positivity

/-!
# The Anderson lock

The functions of `alock.c`, one atomic access per step, run by any number of threads.  A thread takes
a ticket with its first `__sync_fetch_and_add`; a second one, which may come much later, takes
`nthread` off the counter whenever the tickets have gone round once.

The tickets form a queue: `Line` is the invariant that ties the counter, the slots and the places of
the threads to it.  It holds as long as no more than `nthread` threads use the lock at a time.
-/

namespace SmpHashTable

/-- `struct alock`. -/
structure Alock where
  hasLock : ℤ → ℤ
  nextSlot : ℤ
  nthread : ℕ

/-- Where a thread stands. -/
inductive LockPc
  /-- Outside `anderson_acquire` and `anderson_release`, without the lock. -/
  | idle
  /-- At the first `__sync_fetch_and_add`. -/
  | enter
  /-- At the second `__sync_fetch_and_add`. -/
  | correct (me : ℤ)
  /-- At the `while` loop. -/
  | spin (me : ℤ)
  /-- After the loop. -/
  | clear (me : ℤ)
  /-- Between `anderson_acquire` and the store of `anderson_release`. -/
  | critical (extra : ℤ)
  deriving DecidableEq, Repr

/-- `anderson_init`, on whatever the memory holds. -/
def andersonInit (hasLock : ℤ → ℤ) (nthread : ℕ) : Option Alock :=
  if nthread ≤ MAX_CLIENTS then some ⟨Function.update hasLock 0 1, 0, nthread⟩ else none

inductive LockEvent
  /-- A thread takes a ticket, which gives it a slot. -/
  | ticket (t : ℕ) (slot : ℤ)
  /-- It enters the critical section. -/
  | entered (t : ℕ)
  /-- It leaves it. -/
  | left (t : ℕ)
  deriving DecidableEq, Repr

/-- The next step of thread `t`. -/
def Alock.step (l : Alock) (t : ℕ) : LockPc → Alock × LockPc × List LockEvent
  | .idle => (l, .enter, [])
  | .enter =>
      let me := l.nextSlot
      ({ l with nextSlot := me + 1 },
        if me > 0 ∧ me.tmod l.nthread = 0 then .correct me else .spin (me.tmod l.nthread),
        [.ticket t (me.tmod l.nthread)])
  | .correct me => ({ l with nextSlot := l.nextSlot + -l.nthread }, .spin (me.tmod l.nthread), [])
  | .spin me => (l, if l.hasLock me = 0 then .spin me else .clear me, [])
  | .clear me => ({ l with hasLock := Function.update l.hasLock me 0 }, .critical me, [.entered t])
  | .critical me =>
      ({ l with hasLock := Function.update l.hasLock ((me + 1).tmod l.nthread) 1 }, .idle, [.left t])

/-- A lock and the threads that use it. -/
structure LockSys where
  lock : Alock
  pc : ℕ → LockPc

namespace LockSys

/-- A step of thread `t`. -/
def step (st : LockSys) (t : ℕ) : Except Empty (LockSys × List LockEvent) :=
  let (l, pc, evs) := st.lock.step t (st.pc t)
  .ok (⟨l, Function.update st.pc t pc⟩, evs)

/-- Fewer than `n` threads use the lock. -/
def Room (st : LockSys) (n : ℕ) : Prop :=
  ∀ S : Finset ℕ, (∀ t ∈ S, st.pc t ≠ .idle) → S.card < n

/-- The runs from `st₀` in which at most `n` threads use the lock at a time. -/
def Reach (n : ℕ) (st₀ : LockSys) : LockSys → List LockEvent → Prop :=
  Runs.Reach step (fun st _ t => st.pc t = .idle → st.Room n) st₀

/-- The lock and its threads before its use. -/
def start (hasLock : ℤ → ℤ) (n : ℕ) : LockSys := ⟨⟨hasLock, 0, n⟩, fun _ => .idle⟩

end LockSys

/-! ### What a log says -/

/-- The threads that took tickets, in order. -/
def ticketed (log : List LockEvent) : List ℕ := log.filterMap fun
  | .ticket t _ => some t
  | _ => none

/-- The slots the tickets gave, in order. -/
def slotsGiven (log : List LockEvent) : List ℤ := log.filterMap fun
  | .ticket _ slot => some slot
  | _ => none

/-- The threads that entered the critical section, in order. -/
def enteredBy (log : List LockEvent) : List ℕ := log.filterMap fun
  | .entered t => some t
  | _ => none

/-! ### The counter -/

/-- The counter after `k` tickets, when no correction is due. -/
def ticketBase (n k : ℕ) : ℕ := k - n * ((k - 1) / n)

theorem ticketBase_zero (n : ℕ) : ticketBase n 0 = 0 := by
  unfold ticketBase
  omega

theorem ticketBase_bounds {n k : ℕ} (hn : 0 < n) (hk : 0 < k) :
    1 ≤ ticketBase n k ∧ ticketBase n k ≤ n := by
  have hmod := Nat.div_add_mod (k - 1) n
  have hlt := Nat.mod_lt (k - 1) hn
  unfold ticketBase
  omega

theorem ticketBase_mod (n k : ℕ) : ticketBase n k % n = k % n := by
  rcases Nat.eq_zero_or_pos k with rfl | hk
  · rw [ticketBase_zero]
  · have hle : n * ((k - 1) / n) ≤ k := (Nat.mul_div_le _ _).trans (Nat.sub_le _ _)
    unfold ticketBase
    rw [Nat.sub_mul_mod hle]

/-- A ticket moves the counter on; every `n`-th makes a correction due. -/
theorem ticketBase_succ {n k : ℕ} (hn : 0 < n) :
    ticketBase n (k + 1) + (if 0 < k ∧ k % n = 0 then n else 0) = ticketBase n k + 1 := by
  rcases Nat.eq_zero_or_pos k with rfl | hk
  · rw [ticketBase_zero, if_neg (by simp)]
    unfold ticketBase
    simp
  · have hdiv : k / n = (k - 1) / n + if n ∣ k then 1 else 0 := by
      obtain ⟨j, rfl⟩ : ∃ j, k = j + 1 := ⟨k - 1, by omega⟩
      rw [Nat.succ_div]
      rfl
    have hle := Nat.mul_div_le k n
    have hle' := Nat.mul_div_le (k - 1) n
    unfold ticketBase
    rw [Nat.add_sub_cancel]
    by_cases hdvd : n ∣ k
    · rw [if_pos ⟨hk, Nat.dvd_iff_mod_eq_zero.mp hdvd⟩]
      rw [if_pos hdvd] at hdiv
      rw [hdiv, Nat.mul_add] at hle ⊢
      omega
    · rw [if_neg (fun h => hdvd (Nat.dvd_of_mod_eq_zero h.2))]
      rw [if_neg hdvd, Nat.add_zero] at hdiv
      rw [hdiv]
      omega

/-! ### The queue of tickets -/

/-- The thread at `pc` has a ticket. -/
def LockPc.HasTicket : LockPc → Prop
  | .idle | .enter => False
  | _ => True

/-- The thread at `pc` has the `k`-th ticket, as far as it can tell. -/
def LockPc.Place (n k : ℕ) : LockPc → Prop
  | .idle | .enter => False
  | .correct me => me.tmod n = (k % n : ℕ) ∧ k % n = 0
  | .spin me | .clear me | .critical me => me = (k % n : ℕ)

/-- The thread at `pc` has seen its slot set. -/
def LockPc.Past : LockPc → Prop
  | .clear _ | .critical _ => True
  | _ => False

/-- The thread at `pc` still has to take `nthread` off the counter. -/
def LockPc.due : LockPc → Bool
  | .correct _ => true
  | _ => false

def LockPc.isCritical : LockPc → Bool
  | .critical _ => true
  | _ => false

/-- The queue of the lock: the threads `gone` have been through the critical section, the threads `q`
have tickets and wait for it in this order, the first one possibly inside. -/
structure Line (n : ℕ) (st : LockSys) (log : List LockEvent) (gone q : List ℕ) : Prop where
  nthread : st.lock.nthread = n
  nodup : q.Nodup
  mem : ∀ t, (st.pc t).HasTicket → t ∈ q
  place : ∀ (i t : ℕ), q[i]? = some t → (st.pc t).Place n (gone.length + i)
  first : ∀ (i t : ℕ), q[i]? = some t → (st.pc t).Past → i = 0
  crowd : ∀ S : Finset ℕ, (∀ t ∈ S, st.pc t ≠ .idle) → S.card ≤ n
  -- the slot of the first ticket of the queue is set, until its thread clears it
  slot : ∀ j : ℕ, j < n → (st.lock.hasLock j ≠ 0 ↔
    j = gone.length % n ∧ ∀ t ∈ q.head?, (st.pc t).isCritical = false)
  counter : st.lock.nextSlot = ticketBase n (gone.length + q.length)
    + n * q.countP fun t => (st.pc t).due
  tickets : ticketed log = gone ++ q
  given : slotsGiven log = (List.range (gone.length + q.length)).map fun k => ((k % n : ℕ) : ℤ)
  order : enteredBy log = gone ++ (q.take 1).filter fun t => (st.pc t).isCritical

namespace Line

variable {n t i : ℕ} {st : LockSys} {log : List LockEvent} {gone q : List ℕ}

theorem start {hasLock : ℤ → ℤ} (hset : hasLock 0 ≠ 0)
    (hclear : ∀ j : ℕ, 0 < j → j < n → hasLock j = 0) :
    Line n (LockSys.start hasLock n) [] [] [] where
  nthread := rfl
  nodup := List.nodup_nil
  mem := fun _ h => h.elim
  place := by simp
  first := by simp
  crowd := by
    intro S hS
    have hempty : S = ∅ := Finset.eq_empty_of_forall_notMem fun t ht => hS t ht rfl
    rw [hempty]
    simp
  slot := by
    intro j hj
    rcases Nat.eq_zero_or_pos j with rfl | hpos
    · simpa [LockSys.start] using hset
    · simp [LockSys.start, hclear j hpos hj]
      omega
  counter := by simp [LockSys.start, ticketBase_zero]
  tickets := rfl
  given := rfl
  order := rfl

theorem hasTicket (h : Line n st log gone q) (ht : t ∈ q) : (st.pc t).HasTicket := by
  obtain ⟨i, hi⟩ := List.getElem?_of_mem ht
  have hplace := h.place i t hi
  cases hpc : st.pc t with
  | idle | enter =>
      rw [hpc] at hplace
      exact hplace
  | _ => trivial

theorem notMem (h : Line n st log gone q) (hno : ¬ (st.pc t).HasTicket) : t ∉ q :=
  fun ht => hno (h.hasTicket ht)

theorem update_of_mem {u : ℕ} {pc : LockPc} (h : Line n st log gone q)
    (hno : ¬ (st.pc t).HasTicket) (hu : u ∈ q) : Function.update st.pc t pc u = st.pc u := by
  apply Function.update_of_ne
  intro heq
  rw [heq] at hu
  exact h.notMem hno hu

theorem not_idle (h : Line n st log gone q) (ht : t ∈ q) : st.pc t ≠ .idle := by
  intro hidle
  have hticket := h.hasTicket ht
  rw [hidle] at hticket
  exact hticket

theorem length_le (h : Line n st log gone q) : q.length ≤ n := by
  rw [← List.toFinset_card_of_nodup h.nodup]
  exact h.crowd _ fun t ht => h.not_idle (List.mem_toFinset.mp ht)

/-- With a thread about to take a ticket the queue is not full. -/
theorem length_lt (h : Line n st log gone q) (ht : st.pc t = .enter) : q.length < n := by
  have hnot : t ∉ q.toFinset := by
    rw [List.mem_toFinset]
    apply h.notMem
    rw [ht]
    exact id
  have hcard := h.crowd (insert t q.toFinset) (by
    intro u hu hidle
    rcases Finset.mem_insert.mp hu with rfl | hmem
    · rw [ht] at hidle
      cases hidle
    · exact h.not_idle (List.mem_toFinset.mp hmem) hidle)
  rw [Finset.card_insert_of_notMem hnot, List.toFinset_card_of_nodup h.nodup] at hcard
  omega

theorem index_unique {j : ℕ} (h : Line n st log gone q) (hi : q[i]? = some t)
    (hj : q[j]? = some t) : i = j :=
  (List.getElem?_inj (List.getElem?_eq_some_iff.mp hi).1 h.nodup).mp (hi.trans hj.symm)

theorem index_of_mod (h : Line n st log gone q) (hi : q[i]? = some t)
    (hmod : (gone.length + i) % n = gone.length % n) : i = 0 := by
  have hlt : i < q.length := (List.getElem?_eq_some_iff.mp hi).1
  have hle := h.length_le
  have hmod' : (gone.length + i) % n = (gone.length + 0) % n := hmod
  have heq := Nat.ModEq.add_left_cancel' gone.length hmod'
  rw [Nat.ModEq, Nat.mod_eq_of_lt (show i < n by omega), Nat.zero_mod] at heq
  exact heq

/-- The counter is never more than one correction ahead: of the tickets of the queue at most one is a
multiple of `n`. -/
theorem due_le_one (h : Line n st log gone q) : q.countP (fun t => (st.pc t).due) ≤ 1 := by
  apply Lists.countP_le_one
  intro i j t u hi hj ht hu
  have hmul : ∀ {i t : ℕ}, q[i]? = some t → (st.pc t).due = true →
      i < n ∧ (gone.length + i) % n = 0 := by
    intro i t hi ht
    have hlt : i < q.length := (List.getElem?_eq_some_iff.mp hi).1
    have hle := h.length_le
    have hplace := h.place i t hi
    cases hpc : st.pc t with
    | correct me =>
        rw [hpc] at hplace
        exact ⟨by omega, hplace.2⟩
    | _ =>
        rw [hpc] at ht
        cases ht
  obtain ⟨hin, hi0⟩ := hmul hi ht
  obtain ⟨hjn, hj0⟩ := hmul hj hu
  have heq := Nat.ModEq.add_left_cancel' gone.length (show gone.length + i ≡ gone.length + j [MOD n]
    by rw [Nat.ModEq, hi0, hj0])
  rwa [Nat.ModEq, Nat.mod_eq_of_lt hin, Nat.mod_eq_of_lt hjn] at heq

theorem nextSlot_bounds (hn : 0 < n) (h : Line n st log gone q) :
    0 ≤ st.lock.nextSlot ∧ st.lock.nextSlot ≤ 2 * n := by
  have hbase : ticketBase n (gone.length + q.length) ≤ n := by
    rcases Nat.eq_zero_or_pos (gone.length + q.length) with hzero | hpos
    · rw [hzero, ticketBase_zero]
      exact Nat.zero_le n
    · exact (ticketBase_bounds hn hpos).2
  have hdue := Nat.mul_le_mul_left n h.due_le_one
  rw [h.counter]
  constructor
  · positivity
  · exact_mod_cast (by omega : ticketBase n (gone.length + q.length)
      + n * q.countP (fun t => (st.pc t).due) ≤ 2 * n)

/-- What the first `__sync_fetch_and_add` reads. -/
theorem nextSlot_mod (h : Line n st log gone q) :
    st.lock.nextSlot.tmod n = ((gone.length + q.length) % n : ℕ) := by
  rw [h.counter, Int.tmod_eq_emod_of_nonneg (by positivity), Int.add_mul_emod_self_left]
  exact_mod_cast ticketBase_mod n (gone.length + q.length)

theorem nextSlot_pos (hn : 0 < n) (h : Line n st log gone q) :
    0 < st.lock.nextSlot ↔ 0 < gone.length + q.length := by
  rw [h.counter]
  constructor
  · intro hpos
    by_contra hzero
    have hq : q = [] := List.eq_nil_of_length_eq_zero (by omega)
    rw [show gone.length + q.length = 0 by omega, ticketBase_zero, hq] at hpos
    simp at hpos
  · intro hpos
    have hbase := (ticketBase_bounds hn hpos).1
    positivity

/-! ### The steps of a thread with a ticket -/

/-- A thread in the queue moves on with its ticket. -/
theorem advance (h : Line n st log gone q) (hi : q[i]? = some t) (pc : LockPc) (lock : Alock)
    (evs : List LockEvent) (hplace : pc.Place n (gone.length + i)) (hfirst : pc.Past → i = 0)
    (hn : lock.nthread = n)
    (hslot : ∀ j : ℕ, j < n → (lock.hasLock j ≠ 0 ↔ j = gone.length % n ∧
      ∀ u ∈ q.head?, (Function.update st.pc t pc u).isCritical = false))
    (hcounter : lock.nextSlot + n * (if (st.pc t).due then 1 else 0 : ℕ)
      = st.lock.nextSlot + n * (if pc.due then 1 else 0 : ℕ))
    (htickets : ticketed evs = []) (hgiven : slotsGiven evs = [])
    (horder : enteredBy log ++ enteredBy evs = gone ++ (q.take 1).filter fun u =>
      (Function.update st.pc t pc u).isCritical) :
    Line n ⟨lock, Function.update st.pc t pc⟩ (log ++ evs) gone q where
  nthread := hn
  nodup := h.nodup
  mem := by
    intro u hu
    change (Function.update st.pc t pc u).HasTicket at hu
    by_cases hut : u = t
    · rw [hut]
      exact List.mem_of_getElem? hi
    · rw [Function.update_of_ne hut] at hu
      exact h.mem u hu
  place := by
    intro j u hj
    show (Function.update st.pc t pc u).Place n (gone.length + j)
    by_cases hut : u = t
    · rw [hut] at hj ⊢
      rw [Function.update_self, ← h.index_unique hi hj]
      exact hplace
    · rw [Function.update_of_ne hut]
      exact h.place j u hj
  first := by
    intro j u hj hpast
    change (Function.update st.pc t pc u).Past at hpast
    by_cases hut : u = t
    · rw [hut] at hj
      rw [hut, Function.update_self] at hpast
      rw [← h.index_unique hi hj]
      exact hfirst hpast
    · rw [Function.update_of_ne hut] at hpast
      exact h.first j u hj hpast
  crowd := by
    intro S hS
    apply h.crowd
    intro u hu hidle
    by_cases hut : u = t
    · rw [hut] at hidle
      exact h.not_idle (List.mem_of_getElem? hi) hidle
    · exact hS u hu (by
        show Function.update st.pc t pc u = .idle
        rw [Function.update_of_ne hut, hidle])
  slot := hslot
  counter := by
    have hcount := Lists.countP_update h.nodup (List.mem_of_getElem? hi) st.pc pc LockPc.due
    have hold := h.counter
    show lock.nextSlot = _ + n * (q.countP fun u => (Function.update st.pc t pc u).due : ℕ)
    have hcount' := congrArg (fun c : ℕ => (n * c : ℤ)) hcount
    simp only [Nat.cast_add, mul_add] at hcount'
    linear_combination hcounter + hold - hcount'
  tickets := by
    rw [ticketed, List.filterMap_append, ← ticketed, ← ticketed, htickets, List.append_nil]
    exact h.tickets
  given := by
    rw [slotsGiven, List.filterMap_append, ← slotsGiven, ← slotsGiven, hgiven, List.append_nil]
    exact h.given
  order := by
    rw [enteredBy, List.filterMap_append, ← enteredBy, ← enteredBy]
    exact horder

/-- A thread that stays outside the critical section moves on. -/
theorem advance_outside (h : Line n st log gone q) (hi : q[i]? = some t) {pc : LockPc} {next : ℤ}
    (hplace : pc.Place n (gone.length + i)) (hfirst : pc.Past → i = 0)
    (hold : (st.pc t).isCritical = false) (hnew : pc.isCritical = false)
    (hcounter : next + n * (if (st.pc t).due then 1 else 0 : ℕ)
      = st.lock.nextSlot + n * (if pc.due then 1 else 0 : ℕ)) :
    Line n ⟨{ st.lock with nextSlot := next }, Function.update st.pc t pc⟩ log gone q := by
  have hcrit : ∀ u, (Function.update st.pc t pc u).isCritical = (st.pc u).isCritical := by
    intro u
    by_cases hut : u = t
    · rw [hut, Function.update_self, hold, hnew]
    · rw [Function.update_of_ne hut]
  have hadvance := h.advance hi pc { st.lock with nextSlot := next } [] hplace hfirst
    h.nthread (by simpa only [hcrit] using h.slot) hcounter rfl rfl
    (by rw [show enteredBy [] = [] from rfl]; simpa only [hcrit] using (List.append_nil (enteredBy log)).trans h.order)
  rwa [List.append_nil] at hadvance

/-- The first thread of the queue is the one in the critical section, if there is one. -/
theorem head_of_past (h : Line n st log gone q) (hpast : (st.pc t).Past) :
    ∃ rest, q = t :: rest := by
  have hticket : (st.pc t).HasTicket := by
    cases hpc : st.pc t <;> rw [hpc] at hpast <;> simp_all [LockPc.Past, LockPc.HasTicket]
  obtain ⟨i, hi⟩ := List.getElem?_of_mem (h.mem t hticket)
  rw [h.first i t hi hpast] at hi
  cases q with
  | nil => cases hi
  | cons u rest =>
      cases hi
      exact ⟨rest, rfl⟩

theorem step_idle (h : Line n st log gone q) (hpc : st.pc t = .idle) (hroom : st.Room n) :
    Line n ⟨st.lock, Function.update st.pc t .enter⟩ log gone q := by
  have hsame : ∀ u ∈ q, Function.update st.pc t LockPc.enter u = st.pc u :=
    fun u => h.update_of_mem (by rw [hpc]; exact id)
  refine { h with mem := ?_, place := ?_, first := ?_, crowd := ?_, slot := ?_, counter := ?_, order := ?_ }
  · intro u hu
    change (Function.update st.pc t LockPc.enter u).HasTicket at hu
    by_cases hut : u = t
    · rw [hut, Function.update_self] at hu
      exact hu.elim
    · rw [Function.update_of_ne hut] at hu
      exact h.mem u hu
  · intro i u hi
    show (Function.update st.pc t LockPc.enter u).Place n (gone.length + i)
    rw [hsame u (List.mem_of_getElem? hi)]
    exact h.place i u hi
  · intro i u hi hpast
    change (Function.update st.pc t LockPc.enter u).Past at hpast
    rw [hsame u (List.mem_of_getElem? hi)] at hpast
    exact h.first i u hi hpast
  · intro S hS
    have hlt := hroom (S.erase t) (by
      intro u hu
      have hne := hS u (Finset.mem_of_mem_erase hu)
      change Function.update st.pc t LockPc.enter u ≠ .idle at hne
      rwa [Function.update_of_ne (Finset.ne_of_mem_erase hu)] at hne)
    have hcard := Finset.pred_card_le_card_erase (s := S) (a := t)
    omega
  · intro j hj
    rw [h.slot j hj]
    refine and_congr_right fun _ => forall₂_congr fun u hu => ?_
    show _ ↔ (Function.update st.pc t LockPc.enter u).isCritical = false
    rw [hsame u (List.mem_of_head? hu)]
  · have hcount : q.countP (fun u => (Function.update st.pc t LockPc.enter u).due)
        = q.countP fun u => (st.pc u).due :=
      List.countP_congr fun u hu => by rw [hsame u hu]
    rw [hcount]
    exact h.counter
  · have hfilter : ((q.take 1).filter fun u => (Function.update st.pc t LockPc.enter u).isCritical)
        = (q.take 1).filter fun u => (st.pc u).isCritical :=
      List.filter_congr fun u hu => by rw [hsame u (List.mem_of_mem_take hu)]
    rw [hfilter]
    exact h.order

/-- A thread without a ticket joins the queue. -/
theorem join (h : Line n st log gone q) (hno : ¬ (st.pc t).HasTicket) (hidle : st.pc t ≠ .idle)
    {pc : LockPc} {next : ℤ} (hplace : pc.Place n (gone.length + q.length)) (hpast : ¬ pc.Past)
    (hcounter : next = ticketBase n (gone.length + (q.length + 1))
      + n * (q.countP (fun u => (st.pc u).due) + if pc.due then 1 else 0 : ℕ)) :
    Line n ⟨{ st.lock with nextSlot := next }, Function.update st.pc t pc⟩
      (log ++ [.ticket t ((gone.length + q.length) % n : ℕ)]) gone (q ++ [t]) := by
  have hsame : ∀ u ∈ q, Function.update st.pc t pc u = st.pc u := fun u => h.update_of_mem hno
  have hcrit : pc.isCritical = false := by
    cases pc with
    | critical me => exact (hpast trivial).elim
    | _ => rfl
  -- the new thread is the first only if it is alone
  have hlast : ∀ {i u : ℕ}, (q ++ [t])[i]? = some u →
      q[i]? = some u ∧ u ∈ q ∨ i = q.length ∧ u = t := by
    intro i u hi
    rcases Nat.lt_or_ge i q.length with hlt | hge
    · rw [List.getElem?_append_left hlt] at hi
      exact .inl ⟨hi, List.mem_of_getElem? hi⟩
    · have hlen := (List.getElem?_eq_some_iff.mp hi).1
      rw [List.length_append, List.length_singleton] at hlen
      have heq : i = q.length := by omega
      rw [heq, List.getElem?_concat_length] at hi
      exact .inr ⟨heq, (Option.some.inj hi).symm⟩
  refine ⟨h.nthread, ?_, ?_, ?_, ?_, ?_, ?_, ?_, ?_, ?_, ?_⟩
  · rw [List.nodup_append_comm]
    exact List.nodup_cons.mpr ⟨h.notMem hno, h.nodup⟩
  · intro u hu
    change (Function.update st.pc t pc u).HasTicket at hu
    by_cases hut : u = t
    · rw [hut]
      exact List.mem_append_right _ (List.mem_singleton_self t)
    · rw [Function.update_of_ne hut] at hu
      exact List.mem_append_left _ (h.mem u hu)
  · intro i u hi
    show (Function.update st.pc t pc u).Place n (gone.length + i)
    rcases hlast hi with ⟨hi, hu⟩ | ⟨rfl, rfl⟩
    · rw [hsame u hu]
      exact h.place i u hi
    · rw [Function.update_self]
      exact hplace
  · intro i u hi hpast'
    change (Function.update st.pc t pc u).Past at hpast'
    rcases hlast hi with ⟨hi, hu⟩ | ⟨rfl, rfl⟩
    · rw [hsame u hu] at hpast'
      exact h.first i u hi hpast'
    · rw [Function.update_self] at hpast'
      exact (hpast hpast').elim
  · intro S hS
    apply h.crowd
    intro u hu hu'
    by_cases hut : u = t
    · rw [hut] at hu'
      exact hidle hu'
    · exact hS u hu (by
        show Function.update st.pc t pc u = .idle
        rw [Function.update_of_ne hut, hu'])
  · intro j hj
    rw [h.slot j hj]
    refine and_congr_right fun _ => ?_
    show _ ↔ ∀ u ∈ (q ++ [t]).head?, (Function.update st.pc t pc u).isCritical = false
    cases q with
    | nil => simp [hcrit]
    | cons v rest =>
        have hv := hsame v List.mem_cons_self
        simp [hv]
  · have hcount : q.countP (fun u => (Function.update st.pc t pc u).due)
        = q.countP fun u => (st.pc u).due :=
      List.countP_congr fun u hu => by rw [hsame u hu]
    show next = _
    rw [hcounter, List.length_append, List.length_singleton, List.countP_append, hcount]
    simp [List.countP_cons]
  · rw [ticketed, List.filterMap_append, ← ticketed, h.tickets, ← List.append_assoc]
    rfl
  · rw [slotsGiven, List.filterMap_append, ← slotsGiven, h.given, List.length_append,
      List.length_singleton, ← Nat.add_assoc, List.range_succ, List.map_append]
    rfl
  · rw [enteredBy, List.filterMap_append, ← enteredBy, h.order]
    cases q with
    | nil => simp [hcrit]
    | cons v rest =>
        have hv := hsame v List.mem_cons_self
        simp [List.filter_cons, hv]

/-- A thread takes a ticket. -/
theorem step_enter (hn : 0 < n) (h : Line n st log gone q) (hpc : st.pc t = .enter) :
    Line n ⟨{ st.lock with nextSlot := st.lock.nextSlot + 1 }, Function.update st.pc t
        (if st.lock.nextSlot > 0 ∧ st.lock.nextSlot.tmod st.lock.nthread = 0
          then .correct st.lock.nextSlot else .spin (st.lock.nextSlot.tmod st.lock.nthread))⟩
      (log ++ [.ticket t (st.lock.nextSlot.tmod st.lock.nthread)]) gone (q ++ [t]) := by
  have hmod := h.nextSlot_mod
  have hsucc := ticketBase_succ (n := n) (k := gone.length + q.length) hn
  have hcond : (st.lock.nextSlot > 0 ∧ (((gone.length + q.length) % n : ℕ) : ℤ) = 0)
      ↔ 0 < gone.length + q.length ∧ (gone.length + q.length) % n = 0 := by
    rw [gt_iff_lt, h.nextSlot_pos hn, Nat.cast_eq_zero]
  rw [h.nthread, hmod]
  simp only [hcond]
  have hno : ¬ (st.pc t).HasTicket := by
    rw [hpc]
    exact id
  have hidle : st.pc t ≠ .idle := by
    rw [hpc]
    exact LockPc.noConfusion
  have hold := h.counter
  by_cases hdue : 0 < gone.length + q.length ∧ (gone.length + q.length) % n = 0
  · rw [if_pos hdue] at hsucc ⊢
    refine h.join hno hidle ⟨hmod, hdue.2⟩ id ?_
    have hsucc' : (ticketBase n (gone.length + q.length + 1) : ℤ) + n
        = ticketBase n (gone.length + q.length) + 1 := by exact_mod_cast hsucc
    rw [hold, LockPc.due, if_pos rfl, ← Nat.add_assoc]
    push_cast
    linear_combination -hsucc'
  · rw [if_neg hdue] at hsucc ⊢
    refine h.join hno hidle rfl id ?_
    have hsucc' : (ticketBase n (gone.length + q.length + 1) : ℤ)
        = ticketBase n (gone.length + q.length) + 1 := by exact_mod_cast hsucc
    rw [hold, show (LockPc.spin _).due = false from rfl, if_neg Bool.false_ne_true, ← Nat.add_assoc]
    push_cast
    linear_combination -hsucc'

/-- The thread in the critical section leaves it, and the queue moves up. -/
theorem step_leave {me : ℤ} (h : Line n st log gone q) (hpc : st.pc t = .critical me) :
    ∃ rest, Line n
      ⟨{ st.lock with
          hasLock := Function.update st.lock.hasLock ((me + 1).tmod st.lock.nthread) 1 },
        Function.update st.pc t .idle⟩
      (log ++ [.left t]) (gone ++ [t]) rest := by
  obtain ⟨rest, rfl⟩ := h.head_of_past (t := t) (by rw [hpc]; trivial)
  have hnd := List.nodup_cons.mp h.nodup
  have hsame : ∀ u ∈ rest, Function.update st.pc t LockPc.idle u = st.pc u := by
    intro u hu
    apply Function.update_of_ne
    intro heq
    rw [heq] at hu
    exact hnd.1 hu
  have hplace := h.place 0 t rfl
  rw [hpc] at hplace
  have hme : me = (gone.length % n : ℕ) := hplace
  -- the next slot, in natural numbers
  have hnext : (me + 1).tmod st.lock.nthread = ((gone.length + 1) % n : ℕ) := by
    rw [h.nthread, hme, Int.tmod_eq_emod_of_nonneg (by positivity)]
    have := Nat.mod_add_mod gone.length n 1
    exact_mod_cast this
  have hrest : ∀ u ∈ rest, (st.pc u).isCritical = false := by
    intro u hu
    obtain ⟨i, hi⟩ := List.getElem?_of_mem hu
    have hnot : ¬ (st.pc u).Past := by
      intro hpast
      have := h.first (i + 1) u (by simpa using hi) hpast
      omega
    cases hpu : st.pc u with
    | critical me' =>
        rw [hpu] at hnot
        exact (hnot trivial).elim
    | _ => rfl
  rw [hnext]
  refine ⟨rest, h.nthread, hnd.2, ?_, ?_, ?_, ?_, ?_, ?_, ?_, ?_, ?_⟩
  · intro u hu
    change (Function.update st.pc t LockPc.idle u).HasTicket at hu
    by_cases hut : u = t
    · rw [hut, Function.update_self] at hu
      exact hu.elim
    · rw [Function.update_of_ne hut] at hu
      exact (List.mem_cons.mp (h.mem u hu)).resolve_left hut
  · intro i u hi
    show (Function.update st.pc t LockPc.idle u).Place n ((gone ++ [t]).length + i)
    have hold := h.place (i + 1) u (by simpa using hi)
    rw [hsame u (List.mem_of_getElem? hi), List.length_append, List.length_singleton,
      Nat.add_assoc, Nat.add_comm 1 i]
    exact hold
  · intro i u hi hpast
    change (Function.update st.pc t LockPc.idle u).Past at hpast
    rw [hsame u (List.mem_of_getElem? hi)] at hpast
    have := h.first (i + 1) u (by simpa using hi) hpast
    omega
  · intro S hS
    apply h.crowd
    intro u hu hidle
    exact hS u hu (by
      show Function.update st.pc t LockPc.idle u = .idle
      by_cases hut : u = t
      · rw [hut, Function.update_self]
      · rw [Function.update_of_ne hut, hidle])
  · intro j hj
    have hold := h.slot j hj
    have hclosed : st.lock.hasLock j = 0 := by
      by_contra hset
      have := (hold.mp hset).2 t rfl
      rw [hpc] at this
      cases this
    show Function.update st.lock.hasLock (((gone.length + 1) % n : ℕ) : ℤ) 1 (j : ℤ) ≠ 0 ↔ _
    have hfree : ∀ u ∈ rest.head?, (Function.update st.pc t LockPc.idle u).isCritical = false := by
      intro u hu
      rw [hsame u (List.mem_of_head? hu)]
      exact hrest u (List.mem_of_head? hu)
    rw [List.length_append, List.length_singleton]
    by_cases hj' : j = (gone.length + 1) % n
    · rw [← hj', Function.update_self]
      exact ⟨fun _ => ⟨rfl, hfree⟩, fun _ => one_ne_zero⟩
    · rw [Function.update_of_ne (by exact_mod_cast hj'), hclosed]
      exact ⟨fun hne => (hne rfl).elim, fun hand => (hj' hand.1).elim⟩
  · have hcount : rest.countP (fun u => (Function.update st.pc t LockPc.idle u).due)
        = rest.countP fun u => (st.pc u).due :=
      List.countP_congr fun u hu => by rw [hsame u hu]
    have hold := h.counter
    rw [List.countP_cons, hpc, show (LockPc.critical me).due = false from rfl,
      if_neg Bool.false_ne_true, Nat.add_zero, List.length_cons] at hold
    rw [hcount, List.length_append, List.length_singleton, Nat.add_assoc, Nat.add_comm 1]
    exact hold
  · rw [ticketed, List.filterMap_append, ← ticketed, h.tickets, List.append_assoc]
    simp
  · rw [slotsGiven, List.filterMap_append, ← slotsGiven, h.given, List.length_append,
      List.length_singleton, List.length_cons, Nat.add_assoc, Nat.add_comm 1]
    simp
  · rw [enteredBy, List.filterMap_append, ← enteredBy, h.order]
    have hnone : ((rest.take 1).filter fun u => (Function.update st.pc t LockPc.idle u).isCritical)
        = [] := by
      rw [List.filter_eq_nil_iff]
      intro u hu
      rw [hsame u (List.mem_of_mem_take hu), hrest u (List.mem_of_mem_take hu)]
      exact Bool.false_ne_true
    rw [hnone]
    simp [hpc, LockPc.isCritical]

/-- Every step keeps the queue, if threads come only when there is room. -/
theorem step {st' : LockSys} {evs : List LockEvent} (hn : 0 < n) (h : Line n st log gone q)
    (hroom : st.pc t = .idle → st.Room n) (hstep : st.step t = .ok (st', evs)) :
    ∃ gone' q', Line n st' (log ++ evs) gone' q' := by
  unfold LockSys.step Alock.step at hstep
  have hindex : (st.pc t).HasTicket → ∃ i, q[i]? = some t := fun ht =>
    List.getElem?_of_mem (h.mem t ht)
  cases hpc : st.pc t with
  | idle =>
      rw [hpc] at hstep
      cases hstep
      rw [List.append_nil]
      exact ⟨gone, q, h.step_idle hpc (hroom hpc)⟩
  | enter =>
      rw [hpc] at hstep
      cases hstep
      exact ⟨gone, q ++ [t], h.step_enter hn hpc⟩
  | correct me =>
      obtain ⟨i, hi⟩ := hindex (by rw [hpc]; trivial)
      have hplace := h.place i t hi
      rw [hpc] at hstep hplace
      cases hstep
      rw [List.append_nil]
      refine ⟨gone, q, h.advance_outside hi ?_ False.elim (by rw [hpc]; rfl) rfl ?_⟩
      · rw [h.nthread]
        exact hplace.1
      · rw [hpc, h.nthread]
        simp [LockPc.due]
  | spin me =>
      obtain ⟨i, hi⟩ := hindex (by rw [hpc]; trivial)
      have hplace := h.place i t hi
      rw [hpc] at hstep hplace
      cases hstep
      rw [List.append_nil]
      by_cases hset : st.lock.hasLock me = 0
      · rw [if_pos hset, ← hpc, Function.update_eq_self]
        exact ⟨gone, q, h⟩
      · -- only the slot of the first ticket is set
        rw [if_neg hset]
        have hme : me = ((gone.length + i) % n : ℕ) := hplace
        rw [hme] at hset
        have hfirst := h.index_of_mod hi ((h.slot _ (Nat.mod_lt _ hn)).mp hset).1
        refine ⟨gone, q, h.advance_outside hi hplace (fun _ => hfirst) (by rw [hpc]; rfl) rfl ?_⟩
        rw [hpc]
        rfl
  | clear me =>
      obtain ⟨i, hi⟩ := hindex (by rw [hpc]; trivial)
      have hplace := h.place i t hi
      have hzero := h.first i t hi (by rw [hpc]; trivial)
      obtain ⟨rest, hq⟩ := h.head_of_past (t := t) (by rw [hpc]; trivial)
      rw [hpc] at hstep hplace
      cases hstep
      refine ⟨gone, q, h.advance hi _ _ _ hplace (fun _ => hzero) h.nthread ?_ (by rw [hpc]; rfl) rfl rfl ?_⟩
      · intro j hj
        have hme : me = (gone.length % n : ℕ) := by
          rw [hzero] at hplace
          exact hplace
        have hslot := h.slot j hj
        have hhead : ¬ ∀ u ∈ q.head?,
            (Function.update st.pc t (LockPc.critical me) u).isCritical = false := by
          rw [hq]
          simp [LockPc.isCritical]
        show Function.update st.lock.hasLock me 0 (j : ℤ) ≠ 0 ↔ _
        by_cases hj' : j = gone.length % n
        · rw [hme, ← hj', Function.update_self, hj', ← hme]
          exact ⟨fun hne => (hne rfl).elim, fun hand => (hhead hand.2).elim⟩
        · rw [Function.update_of_ne (by rw [hme]; exact_mod_cast hj')]
          exact ⟨fun hset => (hj' (hslot.mp hset).1).elim, fun hand => (hj' hand.1).elim⟩
      · rw [h.order, hq]
        simp [hpc, LockPc.isCritical, enteredBy]
  | critical me =>
      rw [hpc] at hstep
      cases hstep
      obtain ⟨rest, hline⟩ := h.step_leave hpc
      exact ⟨_, rest, hline⟩

theorem inside_isPrefix : ((q.take 1).filter fun t => (st.pc t).isCritical) <+: q := by
  cases q with
  | nil => exact List.prefix_refl _
  | cons t rest =>
      rw [List.take_succ_cons, List.take_zero, List.filter_cons]
      split
      · exact List.prefix_append [t] rest
      · exact List.nil_prefix

/-- At most one thread is in the critical section. -/
theorem exclusive {t' : ℕ} {me me' : ℤ} (h : Line n st log gone q) (ht : st.pc t = .critical me)
    (ht' : st.pc t' = .critical me') : t = t' := by
  obtain ⟨rest, hq⟩ := h.head_of_past (t := t) (by rw [ht]; trivial)
  obtain ⟨rest', hq'⟩ := h.head_of_past (t := t') (by rw [ht']; trivial)
  rw [hq] at hq'
  exact (List.cons.inj hq').1

end Line

/-- Every run in which at most `n` threads use the lock at a time has its queue. -/
theorem LockSys.Reach.line {n : ℕ} {hasLock : ℤ → ℤ} {st : LockSys} {log : List LockEvent}
    (hn : 0 < n) (hset : hasLock 0 ≠ 0) (hclear : ∀ j : ℕ, 0 < j → j < n → hasLock j = 0)
    (h : LockSys.Reach n (.start hasLock n) st log) : ∃ gone q, Line n st log gone q := by
  refine Runs.Reach.invariant (P := fun st log => ∃ gone q, Line n st log gone q)
    ⟨[], [], .start hset hclear⟩ ?_ h
  intro st st' log evs t hline hroom hstep
  obtain ⟨gone, q, hline⟩ := hline
  exact hline.step hn hroom hstep

/-- **The Anderson lock**: in every interleaving in which at most `n` threads are at a time between
entering `anderson_acquire` and finishing `anderson_release`, at most one thread is in the critical
section, threads enter it in the order of their tickets, the tickets give the slots in turn, and the
counter stays between `0` and `2 * n`. -/
theorem anderson_lock {n : ℕ} {hasLock : ℤ → ℤ} {st : LockSys} {log : List LockEvent} (hn : 0 < n)
    (hset : hasLock 0 = 1) (hclear : ∀ j : ℕ, 0 < j → j < n → hasLock j = 0)
    (h : LockSys.Reach n (.start hasLock n) st log) :
    (∀ (t t' : ℕ) (me me' : ℤ), st.pc t = .critical me → st.pc t' = .critical me' → t = t') ∧
      enteredBy log <+: ticketed log ∧
      slotsGiven log = (List.range (ticketed log).length).map (fun k => ((k % n : ℕ) : ℤ)) ∧
      0 ≤ st.lock.nextSlot ∧ st.lock.nextSlot ≤ 2 * n := by
  obtain ⟨gone, q, hline⟩ := h.line hn (by rw [hset]; exact one_ne_zero) hclear
  refine ⟨fun t t' me me' => hline.exclusive, ?_, ?_, hline.nextSlot_bounds hn⟩
  · rw [hline.order, hline.tickets, List.prefix_append_right_inj]
    exact Line.inside_isPrefix
  · rw [hline.given, hline.tickets, List.length_append]

/-! ### A fixed set of threads -/

/-- Of `n` threads, one of them idle, fewer than `n` use the lock. -/
theorem LockSys.room_of_idle {n t : ℕ} {st : LockSys} (hout : ∀ u, n ≤ u → st.pc u = .idle)
    (ht : t < n) (hidle : st.pc t = .idle) : st.Room n := by
  intro S hS
  have hsub : S ⊆ (Finset.range n).erase t := by
    intro u hu
    rw [Finset.mem_erase, Finset.mem_range]
    constructor
    · intro hut
      rw [hut] at hu
      exact hS t hu hidle
    · by_contra hge
      exact hS u hu (hout u (by omega))
  have hcard := Finset.card_le_card hsub
  rw [Finset.card_erase_of_mem (Finset.mem_range.mpr ht), Finset.card_range] at hcard
  omega

/-- When there are at most `n` threads, no more than `n` use the lock at a time. -/
theorem LockSys.Reach.of_threads {n T : ℕ} {hasLock : ℤ → ℤ} {st : LockSys} {log : List LockEvent}
    (hT : T ≤ n) (h : Runs.Reach LockSys.step (fun _ _ t => t < T) (.start hasLock n) st log) :
    LockSys.Reach n (.start hasLock n) st log := by
  suffices hboth : LockSys.Reach n (.start hasLock n) st log ∧ ∀ u, n ≤ u → st.pc u = .idle from hboth.1
  induction h with
  | start => exact ⟨.start, fun _ _ => rfl⟩
  | @step st _ _ _ t _ ht hstep ih =>
      refine ⟨ih.1.step (fun hidle => LockSys.room_of_idle ih.2 (ht.trans_le hT) hidle) hstep, ?_⟩
      intro u hu
      cases hstep
      show Function.update st.pc t _ u = LockPc.idle
      rw [Function.update_of_ne (by omega)]
      exact ih.2 u hu

/-- Thread `0` holds the lock while thread `1` waits, leaves it to thread `1` and takes a third ticket,
whose correction is still to come. -/
def twoThreadRun : List ℕ := [0, 0, 0, 0, 1, 1, 1, 0, 1, 1, 0, 0]

theorem anderson_lock_two : ∃ st log,
    LockSys.Reach 2 (.start (Function.update 0 0 1) 2) st log ∧
      st.pc 1 = .critical 1 ∧ st.pc 0 = .correct 2 ∧ st.lock.nextSlot = 3 ∧
      ((∀ (t t' : ℕ) (me me' : ℤ), st.pc t = .critical me → st.pc t' = .critical me' → t = t') ∧
        enteredBy log <+: ticketed log ∧
        slotsGiven log = (List.range (ticketed log).length).map (fun k => ((k % 2 : ℕ) : ℤ)) ∧
        0 ≤ st.lock.nextSlot ∧ st.lock.nextSlot ≤ 2 * (2 : ℕ)) := by
  have hval : (Runs.run LockSys.step (fun _ _ t => t < 2) twoThreadRun
      (.start (Function.update 0 0 1) 2) []).map
        (fun r => (r.1.pc 1, r.1.pc 0, r.1.lock.nextSlot))
      = some (.critical 1, .correct 2, 3) := by
    decide +kernel
  obtain ⟨⟨st, log⟩, hrun, hpcs⟩ := Option.map_eq_some_iff.mp hval
  have hreach := LockSys.Reach.of_threads le_rfl (Runs.Reach.start.run hrun)
  rw [Prod.mk.injEq, Prod.mk.injEq] at hpcs
  refine ⟨st, log, hreach, hpcs.1, hpcs.2.1, hpcs.2.2, ?_⟩
  refine anderson_lock (by decide) (Function.update_self _ _ _) ?_ hreach
  intro j hpos _
  exact Function.update_of_ne (by omega) _ _

end SmpHashTable
