import SmpHashTable.Refinement
import Mathlib.Algebra.Order.BigOperators.Group.Finset

/-!
# Handles

A pointer returned by an insert is to be passed to `mp_mark_ready`, one returned by a lookup to
`mp_release_value`.  A handle is such an obligation, named by the message that will discharge it.
It is in a response not yet read, in a response not yet handed out, held by a client, or in a message
on its way; a step of the queues moves handles between these places, and only the server makes and
consumes them.
-/

namespace SmpHashTable

/-- The number of handles `h` a session has under way to or from the first `n` servers. -/
def Session.due (n : ℕ) (x : Session) (h : Msg) : ℕ :=
  (∑ s ∈ Finset.range n,
    ((x.ans s).countP (fun a => handleOf a.1 a.2 = some h) + (x.todo s).count h))
    + x.ready.countP fun a => handleOf a.1.2 a.2 = some h

/-- The number of handles `h` of the first `N` clients, wherever they are. -/
def Fifo.due (N : ℕ) (f : Fifo) (h : Msg) : ℕ :=
  (∑ c ∈ Finset.range N, (f.session c).due f.table.nservers h) + f.held.count h

/-- One summand changes. -/
theorem sum_range_update {α : Type*} (g : α → ℕ) (f : ℕ → α) {c N : ℕ} (hc : c < N) (x : α) :
    (∑ i ∈ Finset.range N, g (Function.update f c x i)) + g (f c)
      = (∑ i ∈ Finset.range N, g (f i)) + g x := by
  have hmem : c ∈ Finset.range N := Finset.mem_range.mpr hc
  have hnew := Finset.add_sum_erase (Finset.range N) (fun i => g (Function.update f c x i)) hmem
  have hold := Finset.add_sum_erase (Finset.range N) (fun i => g (f i)) hmem
  have hrest : ∑ i ∈ (Finset.range N).erase c, g (Function.update f c x i)
      = ∑ i ∈ (Finset.range N).erase c, g (f i) := by
    refine Finset.sum_congr rfl ?_
    intro i hi
    rw [Function.update_of_ne (Finset.ne_of_mem_erase hi)]
  simp only [Function.update_self] at hnew
  omega

/-! ### Sessions -/

namespace Session

variable {n s : ℕ} {x x' : Session} {h : Msg}

/-- The queues of one server change. -/
theorem due_update (hs : s < n) (todo : List Msg) (ans : List (Msg × ℕ)) (ready : List (Req × ℕ)) :
    due n { x with
        todo := Function.update x.todo s todo, ans := Function.update x.ans s ans, ready := ready } h
      + ((x.ans s).countP (fun a => handleOf a.1 a.2 = some h) + (x.todo s).count h)
      + x.ready.countP (fun a => handleOf a.1.2 a.2 = some h)
      = x.due n h + (ans.countP (fun a => handleOf a.1 a.2 = some h) + todo.count h)
        + ready.countP (fun a => handleOf a.1.2 a.2 = some h) := by
  have hsum := sum_range_update
    (fun q : List (Msg × ℕ) × List Msg => q.1.countP (fun a => handleOf a.1 a.2 = some h) + q.2.count h)
    (fun s => (x.ans s, x.todo s)) hs (ans, todo)
  have hfun : ∀ i, Function.update (fun s => (x.ans s, x.todo s)) s (ans, todo) i
      = (Function.update x.ans s ans i, Function.update x.todo s todo i) := by
    intro i
    by_cases hi : i = s
    · subst hi
      simp
    · simp [hi]
  simp only [hfun] at hsum
  simp only [due]
  omega

/-- A message that is not `h` is put into a queue. -/
theorem due_issue_of_ne {m : Msg} (hm : m ≠ h) : (x.issue s m).due n h = x.due n h := by
  have htodo : ∀ i, ((x.issue s m).todo i).count h = (x.todo i).count h := by
    intro i
    by_cases hi : i = s
    · subst hi
      simp [issue, hm]
    · simp [issue, hi]
  simp only [due, htodo]
  rfl

/-- The handle `h` is sent back to server `s`. -/
theorem due_issue_self (hs : s < n) : (x.issue s h).due n h = x.due n h + 1 := by
  have hup := due_update (x := x) (h := h) hs (x.todo s ++ [h]) (x.ans s) x.ready
  have hx : ({ x with
      todo := Function.update x.todo s (x.todo s ++ [h]), ans := Function.update x.ans s (x.ans s),
      ready := x.ready } : Session).due n h = (x.issue s h).due n h := by
    rw [Function.update_eq_self]
    rfl
  rw [hx, List.count_append, List.count_singleton_self] at hup
  omega

/-- The server executes a message: it consumes the handle the message is, and makes the one its
response is. -/
theorem due_exec (hs : s < n) {m : Msg} {rest : List Msg} (resp : Option ℕ)
    (htodo : x.todo s = m :: rest) :
    (x.exec s m rest resp).due n h + (if m = h then 1 else 0)
      = x.due n h + if resp.bind (handleOf m) = some h then 1 else 0 := by
  have hcount : (x.todo s).count h = rest.count h + if m = h then 1 else 0 := by
    rw [htodo, List.count_cons]
    simp
  cases resp with
  | none =>
      have hup := due_update (x := x) (h := h) hs rest (x.ans s) x.ready
      rw [Function.update_eq_self] at hup
      have hx : (x.exec s m rest none) = { x with todo := Function.update x.todo s rest } := rfl
      rw [hx]
      simp only [Option.bind_none, reduceCtorEq, if_false]
      omega
  | some v =>
      have hup := due_update (x := x) (h := h) hs rest (x.ans s ++ [(m, v)]) x.ready
      have hx : (x.exec s m rest (some v)) = { x with
          todo := Function.update x.todo s rest
          ans := Function.update x.ans s (x.ans s ++ [(m, v)]) } := rfl
      rw [hx]
      rw [List.countP_append, List.countP_singleton] at hup
      simp only [decide_eq_true_eq] at hup
      simp only [Option.bind_some]
      omega

/-- A response read stays under way until it is handed out. -/
theorem due_read (hs : s < n) {v : ℕ} (hread : x.read s v = some x') : x'.due n h = x.due n h := by
  unfold read at hread
  split at hread
  · next r unread a as hun hans =>
    split at hread
    · next hc =>
      obtain ⟨hr, ha⟩ := hc
      cases hread
      have hup := due_update (x := x) (h := h) hs (x.todo s) as (x.ready ++ [(r, v)])
      have hx : ({ x with
          todo := Function.update x.todo s (x.todo s), ans := Function.update x.ans s as,
          ready := x.ready ++ [(r, v)] } : Session).due n h
            = ({ x with
          unread := unread, ans := Function.update x.ans s as, ready := x.ready ++ [(r, v)] } : Session).due n h := by
        rw [Function.update_eq_self]
        rfl
      rw [hx, hans, ha, List.countP_append, List.countP_cons, List.countP_singleton] at hup
      simp only [decide_eq_true_eq] at hup
      omega
    · cases hread
  · cases hread

/-- A response is handed out. -/
theorem due_got {v : ℕ} (hgot : x.got v = some x') {a : Req × ℕ} (ha : x.ready.head? = some a) :
    x'.due n h + (if handleOf a.1.2 v = some h then 1 else 0) = x.due n h := by
  unfold got at hgot
  split at hgot
  · next a' ready hready =>
    rw [hready, List.head?_cons, Option.some.injEq] at ha
    subst ha
    split at hgot
    · next hv =>
      cases hgot
      simp only [due, hready, List.countP_cons, hv, decide_eq_true_eq]
      omega
    · cases hgot
  · cases hgot

end Session

/-! ### The whole system -/

namespace Fifo

variable {N c s : ℕ} {f f' : Fifo} {h : Msg}

/-- One session and the handles held change. -/
theorem due_set (hc : c < N) (x : Session) {t : Table} (ht : t.nservers = f.table.nservers)
    (held : List Msg) :
    ({ f.setSession c x with table := t, held := held } : Fifo).due N h
      + ((f.session c).due f.table.nservers h + f.held.count h)
      = f.due N h + (x.due f.table.nservers h + held.count h) := by
  have hsum := sum_range_update (fun y : Session => y.due f.table.nservers h) f.session hc x
  simp only [due, setSession, ht]
  omega

theorem due_issue (hc : c < N) {m : Msg} (hh : h.isRequest = false)
    (hm : m.isRequest = false → m ∈ f.held ∧ s < f.table.nservers)
    (happly : f.apply (.issue c s m) = some f') : f'.due N h = f.due N h := by
  obtain ⟨-, rfl⟩ := apply_issue happly
  have hset := due_set (f := f) (h := h) hc ((f.session c).issue s m) rfl (f.held.erase m)
  have hheld : (f.held.erase m).count h + ((f.session c).issue s m).due f.table.nservers h
      = f.held.count h + (f.session c).due f.table.nservers h := by
    by_cases hmh : m = h
    · subst hmh
      obtain ⟨hmem, hs⟩ := hm hh
      have hpos : 0 < f.held.count m := List.count_pos_iff.mpr hmem
      rw [Session.due_issue_self hs, List.count_erase_self]
      omega
    · rw [Session.due_issue_of_ne hmh, List.count_erase_of_ne (Ne.symm hmh)]
  have hf : ({ f.setSession c ((f.session c).issue s m) with held := f.held.erase m } : Fifo).due N h
      = ({ f.setSession c ((f.session c).issue s m) with
          table := f.table, held := f.held.erase m } : Fifo).due N h := rfl
  omega

theorem due_exec (hc : c < N) (hs : s < f.table.nservers) {m : Msg} {rest : List Msg}
    (resp : Option ℕ) {t : Table} (ht : t.nservers = f.table.nservers)
    (htodo : (f.session c).todo s = m :: rest) :
    ({ f.setSession c ((f.session c).exec s m rest resp) with table := t } : Fifo).due N h
      + (if m = h then 1 else 0) = f.due N h + if resp.bind (handleOf m) = some h then 1 else 0 := by
  have hset := due_set (f := f) (h := h) hc ((f.session c).exec s m rest resp) ht f.held
  have hexec := Session.due_exec (h := h) hs resp htodo
  have hf : ({ f.setSession c ((f.session c).exec s m rest resp) with table := t } : Fifo).due N h
      = ({ f.setSession c ((f.session c).exec s m rest resp) with
          table := t, held := f.held } : Fifo).due N h := rfl
  omega

theorem due_read (hc : c < N) (hs : s < f.table.nservers) {v : ℕ}
    (happly : f.apply (.read c s v) = some f') : f'.due N h = f.due N h := by
  obtain ⟨x, hx, rfl⟩ := apply_read happly
  have hset := due_set (f := f) (h := h) hc x rfl f.held
  have hread := Session.due_read (h := h) hs hx
  have hf : (f.setSession c x).due N h
      = ({ f.setSession c x with table := f.table, held := f.held } : Fifo).due N h := rfl
  omega

theorem due_got (hc : c < N) {v : ℕ} (happly : f.apply (.got c v) = some f') :
    f'.due N h = f.due N h := by
  obtain ⟨a, x, ha, hx, rfl⟩ := apply_got happly
  have hset := due_set (f := f) (h := h) hc x rfl (f.held ++ (handleOf a.1.2 v).toList)
  have hgot := Session.due_got (n := f.table.nservers) (h := h) hx ha
  have hcount : (handleOf a.1.2 v).toList.count h = if handleOf a.1.2 v = some h then 1 else 0 := by
    cases handleOf a.1.2 v with
    | none => simp
    | some h' => simp [List.count_singleton]
  have hf : ({ f.setSession c x with held := f.held ++ (handleOf a.1.2 v).toList } : Fifo).due N h
      = ({ f.setSession c x with
          table := f.table, held := f.held ++ (handleOf a.1.2 v).toList } : Fifo).due N h := rfl
  rw [List.count_append, hcount] at hset
  omega

/-- A client that does not exist yet has no handles. -/
theorem due_succ (hempty : f.session N = Session.empty) : f.due (N + 1) h = f.due N h := by
  have hzero : Session.empty.due f.table.nservers h = 0 := by
    simp [Session.due, Session.empty]
  rw [due, Finset.sum_range_succ, hempty, hzero]
  rfl

/-- A handle in a queue of messages is due. -/
theorem due_pos_of_todo (hc : c < N) (hs : s < f.table.nservers) (hmem : h ∈ (f.session c).todo s) :
    0 < f.due N h := by
  have hcount : 0 < ((f.session c).todo s).count h := List.count_pos_iff.mpr hmem
  have hx : 0 < (f.session c).due f.table.nservers h := by
    have hle := Finset.single_le_sum (f := fun s => ((f.session c).ans s).countP
      (fun a => handleOf a.1 a.2 = some h) + ((f.session c).todo s).count h)
      (fun i _ => Nat.zero_le _) (Finset.mem_range.mpr hs)
    simp only [Session.due]
    omega
  have hle := Finset.single_le_sum (f := fun c => (f.session c).due f.table.nservers h)
    (fun i _ => Nat.zero_le _) (Finset.mem_range.mpr hc)
  simp only [due]
  omega

theorem due_pos_of_held (hmem : h ∈ f.held) : 0 < f.due N h := by
  have hcount : 0 < f.held.count h := List.count_pos_iff.mpr hmem
  simp only [due]
  omega

end Fifo

/-! ### Runs in which handles are given back once -/

/-- A pointer passed to `mp_release_value` or `mp_mark_ready` is one the clients hold from a lookup or
from an insert. -/
def Act.Returns (t : Table) (log : List Event) : Act → Prop
  | .call _ (.release ptr) => ∃ f, (Fifo.init t).replay log = some f ∧
      Msg.release (sub64 ptr sizeofElem) ∈ f.held
  | .call _ (.markReady ptr) => ∃ f, (Fifo.init t).replay log = some f ∧
      Msg.markReady (sub64 ptr sizeofElem) ∈ f.held
  | _ => True

/-- Whether the clients hold a handle after a log. -/
instance decidableHeld (t : Table) (log : List Event) (m : Msg) :
    Decidable (∃ f, (Fifo.init t).replay log = some f ∧ m ∈ f.held) :=
  match h : (Fifo.init t).replay log with
  | some f => decidable_of_iff (m ∈ f.held) (by simp)
  | none => isFalse (by simp)

instance Act.decidableReturns (t : Table) (log : List Event) : (a : Act) → Decidable (a.Returns t log)
  | .call _ (.release _) => decidableHeld t log _
  | .call _ (.markReady _) => decidableHeld t log _
  | .call _ (.lookup _) => isTrue trivial
  | .call _ (.insert _ _) => isTrue trivial
  | .call _ .tryGetNext => isTrue trivial
  | .call _ .getNext => isTrue trivial
  | .call _ (.doall _) => isTrue trivial
  | .create _ _ => isTrue trivial
  | .start _ => isTrue trivial
  | .stop => isTrue trivial
  | .stopper => isTrue trivial
  | .client _ => isTrue trivial
  | .server _ _ => isTrue trivial

/-- The states and logs of the runs in which every handle is given back at most once, by the call
that is right for it. -/
def Sys.Disciplined (t : Table) : Sys → List Event → Prop :=
  Runs.Reach Sys.step (fun st log a => a.Ok st ∧ a.Returns t log) (Sys.init t)

theorem Sys.Disciplined.reach {t : Table} {st : Sys} {log : List Event} (h : Sys.Disciplined t st log) :
    Sys.Reach (Sys.init t) st log :=
  Runs.Reach.mono (fun _ _ _ hok => hok.1) h

end SmpHashTable
