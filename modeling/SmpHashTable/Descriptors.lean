import SmpHashTable.Lib.Ownership
import SmpHashTable.Releases

/-!
# Which connection a descriptor number stands for

The threads know a connection by the number of its descriptor only, and the kernel gives a number out
again once it is closed.  A slot owns its number from the store in `open_socket` to the `fclose` in
`close_socket`, and the accepting thread owns the one it has just accepted.

Between `fclose` and `close` in `close_socket` nobody owns the number, but it will be closed once more.
-/

namespace SmpHashTable.HashServer

/-! ### What owns a number -/

/-- What can own a descriptor. -/
inductive Holder
  | acceptor
  | slot (c i : ℕ)
  deriving DecidableEq

/-- The descriptor the accepting thread is dealing with. -/
def AcceptorPc.sock : AcceptorPc → Option ℤ
  | .listening => none
  | .choosing sock _ _ | .waiting sock _ | .scanning sock _ _ | .opened sock _ _
  | .counted sock _ _ => some sock

/-- The thread is in `close_socket`, past the `fclose`. -/
def ClientPc.shut : ClientPc → Bool
  | .closing (_ + 1) _ => true
  | _ => false

/-- The thread works on the connection in its slot. -/
def ClientPc.InSlot : ClientPc → Prop
  | .header _ | .value .. | .closing .. => True
  | _ => False

/-- The descriptor slot `i` owns. -/
def Client.slotFd (cl : Client) (i : ℕ) : Option ℤ :=
  if cl.cd.sockets i = -1 ∨ (i = cl.i ∧ cl.pc.shut = true) then none else some (cl.cd.sockets i)

def Server.own (st : Server) : Holder → Option ℤ
  | .acceptor => st.acceptor.sock
  | .slot c i => (st.client c).slotFd i

theorem Client.slotFd_eq_some {cl : Client} {i : ℕ} {s : ℤ} :
    cl.slotFd i = some s ↔
      cl.cd.sockets i = s ∧ s ≠ -1 ∧ ¬ (i = cl.i ∧ cl.pc.shut = true) := by
  unfold Client.slotFd
  split
  · next h =>
    refine ⟨fun hs => (Option.some_ne_none s hs.symm).elim, fun ⟨hs, hne, hshut⟩ => ?_⟩
    rcases h with h | h
    · exact absurd (hs ▸ h) hne
    · exact absurd h hshut
  · next h =>
    obtain ⟨hne, hshut⟩ := not_or.mp h
    refine ⟨fun hs => ?_, fun hs => congrArg some hs.1⟩
    cases hs
    exact ⟨rfl, hne, hshut⟩

/-- A slot in use, outside `close_socket`. -/
theorem Client.slotFd_of_open {cl : Client} {i : ℕ} (hs : cl.cd.sockets i ≠ -1)
    (hshut : cl.pc.shut = false) : cl.slotFd i = some (cl.cd.sockets i) :=
  Client.slotFd_eq_some.mpr ⟨rfl, hs, fun h => by rw [hshut] at h; exact Bool.noConfusion h.2⟩

theorem Client.slotFd_congr {cl cl' : Client} (hsock : cl'.cd.sockets = cl.cd.sockets)
    (hshut : cl.pc.shut = false) (hshut' : cl'.pc.shut = false) : cl'.slotFd = cl.slotFd := by
  funext i
  simp [Client.slotFd, hsock, hshut, hshut']

namespace Server

variable (st : Server)

/-- The slots of one client change. -/
theorem own_setClient {c i : ℕ} {cl : Client} {x : Option ℤ} (fds : ℤ → Option ℕ)
    (h : cl.slotFd = Function.update (st.client c).slotFd i x) :
    ({ st with fds := fds }.setClient c cl).own = Function.update st.own (.slot c i) x := by
  funext o
  cases o with
  | acceptor => rw [Function.update_of_ne Holder.noConfusion]; rfl
  | slot c' j =>
      by_cases hc : c' = c
      · subst hc
        show (({ st with fds := fds }.setClient c' cl).client c').slotFd j = _
        rw [setClient_self, h]
        by_cases hj : j = i
        · rw [hj, Function.update_self, Function.update_self]
        · rw [Function.update_of_ne hj, Function.update_of_ne (by simpa using hj)]
          rfl
      · show (({ st with fds := fds }.setClient c cl).client c').slotFd j = _
        rw [setClient_of_ne hc, Function.update_of_ne (by simp [hc])]
        rfl

theorem own_setClient_self {c : ℕ} {cl : Client} (fds : ℤ → Option ℕ)
    (h : cl.slotFd = (st.client c).slotFd) : ({ st with fds := fds }.setClient c cl).own = st.own := by
  rw [own_setClient st (i := 0) (x := (st.client c).slotFd 0) fds (by rw [h, Function.update_eq_self])]
  exact Function.update_eq_self _ _

theorem own_acceptor (a : AcceptorPc) (fds : ℤ → Option ℕ) (n : ℕ) :
    { st with fds := fds, nconn := n, acceptor := a }.own
      = Function.update st.own .acceptor a.sock := by
  funext o
  cases o with
  | acceptor => rw [Function.update_self]; rfl
  | slot c i => rw [Function.update_of_ne Holder.noConfusion]; rfl

end Server

/-! ### What a step does to the slots -/

/-- A step of a client thread that opens and closes nothing. -/
structure SlotsQuiet (cl cl' : Client) (fds fds' : ℤ → Option ℕ) : Prop where
  slotFd : cl'.slotFd = cl.slotFd
  fin : cl'.cd.fin = cl.cd.fin
  files : fds' = fds
  free : ∀ j, cl.cd.sockets j = -1 → cl'.cd.sockets j = -1
  inSlot : cl'.pc.InSlot → cl'.cd.sockets cl'.i ≠ -1
  target : ∀ target, cl'.pc = .closing 0 target → target = fds (cl'.cd.sockets cl'.i)
  gone : ∀ target, cl'.pc ≠ .closing 1 target

/-- A step outside `close_socket`. -/
theorem SlotsQuiet.of_cd {cl cl' : Client} {fds : ℤ → Option ℕ} (hcd : cl'.cd = cl.cd)
    (hshut : cl.pc.shut = false) (hshut' : cl'.pc.shut = false)
    (hin : cl'.pc.InSlot → cl'.cd.sockets cl'.i ≠ -1)
    (htarget : ∀ target, cl'.pc = .closing 0 target → target = fds (cl'.cd.sockets cl'.i)) :
    SlotsQuiet cl cl' fds fds where
  slotFd := Client.slotFd_congr (by rw [hcd]) hshut hshut'
  fin := by rw [hcd]
  files := rfl
  free := fun j hj => by rw [hcd]; exact hj
  inSlot := hin
  target := htarget
  gone := fun target hpc => by rw [hpc] at hshut'; exact Bool.noConfusion hshut'

/-- `close_socket` reads its slot once more to clear it. -/
theorem SlotsQuiet.clearSlot {cl : Client} {fds : ℤ → Option ℕ} (hshut : cl.pc.shut = true) :
    SlotsQuiet cl
      { cl with cd.sockets := Function.update cl.cd.sockets cl.i (-1), pc := .tail } fds fds where
  slotFd := by
    funext i
    by_cases hi : i = cl.i
    · simp [Client.slotFd, hi, hshut]
    · simp [Client.slotFd, hi, ClientPc.shut, Function.update_of_ne]
  fin := rfl
  files := rfl
  free := fun j hj => by
    by_cases hi : j = cl.i
    · exact hi ▸ Function.update_self _ _ _
    · exact (Function.update_of_ne hi _ _).trans hj
  inSlot := fun h => h.elim
  target := fun target hpc => ClientPc.noConfusion hpc
  gone := fun target hpc => ClientPc.noConfusion hpc

theorem Client.fails_shut (cl : Client) (fds : ℤ → Option ℕ) (r : ℕ) :
    (cl.fails fds r).pc.shut = false := by
  unfold Client.fails
  by_cases hr : r = 2 <;> simp [hr, ClientPc.shut]

theorem Client.fails_target {cl : Client} {fds : ℤ → Option ℕ} {r line : ℕ} {target : Option ℕ}
    (h : (cl.fails fds r).pc = .closing line target) : target = fds (cl.cd.sockets cl.i) := by
  unfold Client.fails at h
  by_cases hr : r = 2
  · simp only [hr, if_true] at h
    cases h
    rfl
  · simp only [hr, if_false] at h
    cases h

/-- A step of a client thread is quiet, an `fclose` or a `close`. -/
theorem ClientStep.slots {b c : ℕ} {cl cl' : Client} {fds fds' : ℤ → Option ℕ} {a : ClientAct}
    {evs : List ServerEvent} (hin : cl.pc.InSlot → cl.cd.sockets cl.i ≠ -1)
    (h : ClientStep b cl fds c a cl' fds' evs) :
    SlotsQuiet cl cl' fds fds' ∨
      (∃ target, cl.pc = .closing 0 target ∧ cl' = { cl with pc := .closing 1 target } ∧
        fds' = Function.update fds (cl.cd.fin cl.i) none ∧
        evs = [.closed target (fds (cl.cd.fin cl.i))]) ∨
      (∃ target, cl.pc = .closing 1 target ∧ cl' = { cl with pc := .closing 2 target } ∧
        fds' = Function.update fds (cl.cd.sockets cl.i) none ∧
        evs = [.closed target (fds (cl.cd.sockets cl.i))]) := by
  cases h with
  | fclose hpc => exact .inr (.inl ⟨_, hpc, rfl, rfl, rfl⟩)
  | close hpc => exact .inr (.inr ⟨_, hpc, rfl, rfl, rfl⟩)
  | @uncount target hpc =>
      refine .inl ⟨?_, rfl, rfl, fun _ hj => hj, fun _ => hin (by rw [hpc]; trivial),
        fun _ h => (by cases h), fun _ h => (by cases h)⟩
      funext i
      simp [Client.slotFd, ClientPc.shut, hpc]
  | @clearSlot line target hpc hline =>
      refine .inl (.clearSlot ?_)
      obtain ⟨line, rfl⟩ : ∃ n, line = n + 1 := ⟨line - 1, by omega⟩
      rw [hpc]
      rfl
  | openSlot hpc hlen hoff hsock =>
      exact .inl (.of_cd rfl (by rw [hpc]; rfl) rfl (fun _ => hsock) (fun _ h => by cases h))
  | invalid hpc =>
      refine .inl (.of_cd rfl (by rw [hpc]; rfl) rfl (fun _ => hin (by rw [hpc]; trivial)) ?_)
      intro target h
      cases h
      rfl
  | noHeader hpc | noValue hpc =>
      exact .inl (.of_cd rfl (by rw [hpc]; rfl) (Client.fails_shut _ _ _)
        (fun _ => hin (by rw [hpc]; trivial)) fun target h => Client.fails_target h)
  | moreHeader hpc | insert hpc | moreValue hpc | retryValue hpc =>
      exact .inl (.of_cd rfl (by rw [hpc]; rfl) rfl (fun _ => hin (by rw [hpc]; trivial))
        fun _ h => by cases h)
  | writeAgain hpc =>
      exact .inl (.of_cd rfl (by rw [hpc]; rfl) (by rw [hpc]; rfl) hin
        fun _ h => by rw [hpc] at h; cases h)
  | _ hpc =>
      exact .inl (.of_cd rfl (by rw [hpc]; rfl) rfl (fun h => h.elim) fun _ h => by cases h)

/-! ### The invariant -/

/-- Every number in a slot belongs to the connection in it. -/
structure Owned (st : Server) : Prop where
  owning : Ownership.Owning st.own st.fds
  nonneg : ∀ fd, st.fds fd ≠ none → 0 ≤ fd
  fin : ∀ c i s, (st.client c).slotFd i = some s → (st.client c).cd.fin i = s
  /-- A slot that the accepting thread is filling. -/
  filling : ∀ sock cid i, st.acceptor = .opened sock cid i ∨ st.acceptor = .counted sock cid i →
    (st.client cid).cd.sockets i = -1 ∧ (st.client cid).cd.fin i = sock
  inSlot : ∀ c, (st.client c).pc.InSlot → (st.client c).cd.sockets (st.client c).i ≠ -1
  target : ∀ c target, (st.client c).pc = .closing 0 target →
    target = st.fds ((st.client c).cd.sockets (st.client c).i)
  /-- Between the two closes the number is free. -/
  gone : ∀ c target, (st.client c).pc = .closing 1 target →
    st.fds ((st.client c).cd.sockets (st.client c).i) = none
  idle : ∀ c, st.nclients ≤ c → (st.client c).pc = .top

/-- The numbers that are about to be closed for the second time. -/
def ClientPc.dangling : ClientPc → Bool
  | .closing 1 _ => true
  | _ => false

/-- The queries of the batch whose results are still to be handled. -/
def Client.unanswered (cl : Client) : List Entry :=
  match cl.pc with
  | .top | .slot _ | .write .. => []
  | .result todo => todo.map (·.1)
  | _ => cl.batch

/-- `accept` returns no number that a client thread is about to close for the second time, and
`open_socket` stores no number into a slot that a lookup with a result to come was read from under the
same number. -/
def ServerAct.NoReuse (st : Server) : ServerAct → Prop
  | .acceptor (.accept fd) => ∀ c < st.nclients, (st.client c).pc.dangling = true →
      (st.client c).cd.sockets (st.client c).i ≠ fd
  | .acceptor .go =>
      match st.acceptor with
      | .counted sock cid i => ∀ e ∈ (st.client cid).unanswered, e.query.optype = OPTYPE_LOOKUP →
          e.sid = i → e.socket ≠ sock
      | _ => True
  | _ => True

instance (st : Server) (a : ServerAct) : Decidable (a.NoReuse st) := by
  unfold ServerAct.NoReuse
  split
  · infer_instance
  · split <;> infer_instance
  · infer_instance

/-- What a step can do to the owners and the open descriptors. -/
inductive OwnStep (st : Server) (a : ServerAct) : (Holder → Option ℤ) → (ℤ → Option ℕ) → ℕ → Prop
  | quiet : OwnStep st a st.own st.fds st.nconn
  | accept {fd : ℤ} : st.fds fd = none →
      OwnStep st a (Function.update st.own .acceptor (some fd))
        (Function.update st.fds fd (some st.nconn)) (st.nconn + 1)
  | drop : OwnStep st a (Function.update st.own .acceptor none) st.fds st.nconn
  | store {sock : ℤ} {c i : ℕ} : a = .acceptor .go → st.acceptor = .counted sock c i →
      st.own .acceptor = some sock → st.own (.slot c i) = none →
      OwnStep st a (Function.update (Function.update st.own .acceptor none) (.slot c i) (some sock))
        st.fds st.nconn
  | fclose {c i : ℕ} {s : ℤ} : (st.client c).pc.Gathering → st.own (.slot c i) = some s →
      OwnStep st a (Function.update st.own (.slot c i) none) (Function.update st.fds s none) st.nconn

/-- The accepting thread goes on with the descriptor it has. -/
theorem OwnStep.held {st : Server} {act : ServerAct} {x : Option ℤ} (h : st.acceptor.sock = x) :
    OwnStep st act (Function.update st.own .acceptor x) st.fds st.nconn := by
  have hown : Function.update st.own .acceptor x = st.own := h ▸ Function.update_eq_self _ _
  rw [hown]
  exact .quiet

theorem OwnStep.owning {st : Server} {a : ServerAct} {own : Holder → Option ℤ} {fds : ℤ → Option ℕ}
    {n : ℕ} (h : Ownership.Owning st.own st.fds) (hstep : OwnStep st a own fds n) :
    Ownership.Owning own fds := by
  cases hstep with
  | quiet => exact h
  | accept hfd => exact h.acquire hfd _ _
  | drop => exact h.drop _
  | store _ _ hsock => exact h.move hsock _
  | fclose _ hs => exact h.close hs

namespace OwnStep

variable {st : Server} {a : ServerAct} {own : Holder → Option ℤ} {fds : ℤ → Option ℕ} {n c i : ℕ}
  {s : ℤ}

/-- A slot gets a number from `open_socket` only. -/
theorem back (h : OwnStep st a own fds n) (hs : own (.slot c i) = some s) :
    st.own (.slot c i) = some s ∨ (a = .acceptor .go ∧ st.acceptor = .counted s c i) := by
  cases h with
  | quiet => exact .inl hs
  | accept => exact .inl (by rwa [Function.update_of_ne Holder.noConfusion] at hs)
  | drop => exact .inl (by rwa [Function.update_of_ne Holder.noConfusion] at hs)
  | store ha hpc =>
      rcases Ownership.Owning.update_some_cases hs with ⟨hci, rfl⟩ | ⟨-, hs⟩
      · cases hci
        exact .inr ⟨ha, hpc⟩
      · exact .inl (by rwa [Function.update_of_ne Holder.noConfusion] at hs)
  | fclose => exact .inl (Ownership.Owning.update_none_cases hs).2

/-- A slot loses its number while the thread gathers a batch only. -/
theorem forward (h : OwnStep st a own fds n) (hs : st.own (.slot c i) = some s) :
    own (.slot c i) = some s ∨ (st.client c).pc.Gathering := by
  cases h with
  | quiet => exact .inl hs
  | accept => exact .inl (by rwa [Function.update_of_ne Holder.noConfusion])
  | drop => exact .inl (by rwa [Function.update_of_ne Holder.noConfusion])
  | @store sock c' i' ha hpc hsock hempty =>
      refine .inl ?_
      rw [Function.update_of_ne, Function.update_of_ne Holder.noConfusion]
      · exact hs
      · intro heq
        rw [heq, hempty] at hs
        cases hs
  | @fclose c' i' s' hgather hs' =>
      by_cases hci : Holder.slot c i = .slot c' i'
      · cases hci
        exact .inr hgather
      · exact .inl (by rwa [Function.update_of_ne hci])

/-- The connection under a number does not change while a slot owns it. -/
theorem kept (how : Ownership.Owning st.own st.fds) (h : OwnStep st a own fds n)
    (hs : st.own (.slot c i) = some s) (hs' : own (.slot c i) = some s) : fds s = st.fds s := by
  cases h with
  | accept hfd => exact Function.update_of_ne (how.ne_of_closed hs hfd) _ _
  | fclose _ hown => exact how.files_of_ne hown hs (Ownership.Owning.update_none_cases hs').1
  | _ => rfl

end OwnStep

namespace Owned

variable {st : Server}

/-- A slot in use, outside the rest of `close_socket`, is open under its number. -/
theorem slotFd_inSlot (h : Owned st) {c : ℕ} (hin : (st.client c).pc.InSlot)
    (hshut : (st.client c).pc.shut = false) :
    st.own (.slot c (st.client c).i) = some ((st.client c).cd.sockets (st.client c).i) :=
  Client.slotFd_of_open (h.inSlot c hin) hshut

/-- A client thread moves, and closes at most a number that no other slot owns. -/
theorem setClient (h : Owned st) {c : ℕ} {cl : Client} {fds : ℤ → Option ℕ} (hc : c < st.nclients)
    (howning : Ownership.Owning ({ st with fds := fds }.setClient c cl).own fds)
    (hkeep : ∀ c' i s, c' ≠ c → st.own (.slot c' i) = some s → fds s = st.fds s)
    (hclosed : ∀ s, st.fds s = none → fds s = none)
    (hfin : cl.cd.fin = (st.client c).cd.fin)
    (hslot : ∀ i s, cl.slotFd i = some s → (st.client c).slotFd i = some s)
    (hfree : ∀ j, (st.client c).cd.sockets j = -1 → cl.cd.sockets j = -1)
    (hin : cl.pc.InSlot → cl.cd.sockets cl.i ≠ -1)
    (htarget : ∀ target, cl.pc = .closing 0 target → target = fds (cl.cd.sockets cl.i))
    (hgone : ∀ target, cl.pc = .closing 1 target → fds (cl.cd.sockets cl.i) = none) :
    Owned ({ st with fds := fds }.setClient c cl) where
  owning := howning
  nonneg := fun fd hfd => h.nonneg fd fun hnone => hfd (hclosed fd hnone)
  fin := fun c' i s hs => by
    by_cases hcc : c' = c
    · subst hcc
      rw [Server.setClient_self] at hs ⊢
      rw [hfin]
      exact h.fin c' i s (hslot i s hs)
    · rw [Server.setClient_of_ne hcc] at hs ⊢
      exact h.fin c' i s hs
  filling := fun sock cid i hpc => by
    by_cases hcc : cid = c
    · subst hcc
      rw [Server.setClient_self, hfin]
      exact ⟨hfree i (h.filling sock cid i hpc).1, (h.filling sock cid i hpc).2⟩
    · rw [Server.setClient_of_ne hcc]
      exact h.filling sock cid i hpc
  inSlot := fun c' hin' => by
    by_cases hcc : c' = c
    · subst hcc
      rw [Server.setClient_self] at hin' ⊢
      exact hin hin'
    · rw [Server.setClient_of_ne hcc] at hin' ⊢
      exact h.inSlot c' hin'
  target := fun c' target hpc => by
    by_cases hcc : c' = c
    · subst hcc
      rw [Server.setClient_self] at hpc ⊢
      exact htarget target hpc
    · rw [Server.setClient_of_ne hcc] at hpc ⊢
      refine (h.target c' target hpc).trans (hkeep c' _ _ hcc (h.slotFd_inSlot ?_ ?_)).symm
      · rw [hpc]; trivial
      · rw [hpc]; rfl
  gone := fun c' target hpc => by
    by_cases hcc : c' = c
    · subst hcc
      rw [Server.setClient_self] at hpc ⊢
      exact hgone target hpc
    · rw [Server.setClient_of_ne hcc] at hpc ⊢
      exact hclosed _ (h.gone c' target hpc)
  idle := fun c' hc' => by
    have hc' : st.nclients ≤ c' := hc'
    rw [Server.setClient_of_ne (by omega)]
    exact h.idle c' hc'

/-- A step of a client thread. -/
theorem client (h : Owned st) {c : ℕ} {b : ClientAct} {cl : Client} {fds : ℤ → Option ℕ}
    {evs : List ServerEvent} (hc : c < st.nclients)
    (hstep : ClientStep st.batchSize (st.client c) st.fds c b cl fds evs) :
    OwnStep st (.client c b) ({ st with fds := fds }.setClient c cl).own fds st.nconn ∧
      Owned ({ st with fds := fds }.setClient c cl) := by
  rcases hstep.slots (h.inSlot c) with hq | ⟨target, hpc, rfl, rfl, -⟩ | ⟨target, hpc, rfl, rfl, -⟩
  · have hown := Server.own_setClient_self st fds hq.slotFd
    have hfds := hq.files
    subst hfds
    rw [hown]
    refine ⟨.quiet, h.setClient hc (by rw [hown]; exact h.owning) (fun _ _ _ _ _ => rfl)
      (fun _ hs => hs) hq.fin (fun i s hs => ?_) hq.free hq.inSlot hq.target
      fun target hpc => absurd hpc (hq.gone target)⟩
    rw [hq.slotFd] at hs
    exact hs
  · have hshut : (st.client c).pc.shut = false := by rw [hpc]; rfl
    have hopen := h.slotFd_inSlot (c := c) (by rw [hpc]; trivial) hshut
    have hfin := h.fin c _ _ hopen
    have hslot : ({ st.client c with pc := ClientPc.closing 1 target } : Client).slotFd
        = Function.update (st.client c).slotFd (st.client c).i none := by
      funext i
      by_cases hi : i = (st.client c).i
      · simp [Client.slotFd, hi, ClientPc.shut]
      · simp [Client.slotFd, hi]
    have hown := Server.own_setClient st
      (Function.update st.fds ((st.client c).cd.fin (st.client c).i) none) hslot
    rw [hfin] at hown ⊢
    have hstep : OwnStep st (.client c b) _ _ _ :=
      .fclose (c := c) (i := (st.client c).i) (by rw [hpc]; trivial) hopen
    rw [hown]
    refine ⟨hstep, h.setClient hc (by rw [hown]; exact hstep.owning h.owning) ?_ ?_ rfl ?_
      (fun _ hj => hj) (fun _ => h.inSlot c (by rw [hpc]; trivial)) (fun _ h => (by cases h))
      fun _ _ => Function.update_self _ _ _⟩
    · exact fun c' i s hne hs => h.owning.files_of_ne hopen hs (by simp [hne])
    · intro s hs
      by_cases heq : s = (st.client c).cd.sockets (st.client c).i
      · rw [heq, Function.update_self]
      · rw [Function.update_of_ne heq]
        exact hs
    · intro i s hs
      rw [hslot] at hs
      exact (Ownership.Owning.update_none_cases hs).2
  · have hgone := h.gone c target hpc
    have hfds : Function.update st.fds ((st.client c).cd.sockets (st.client c).i) none = st.fds :=
      hgone ▸ Function.update_eq_self _ _
    have hslot : ({ st.client c with pc := ClientPc.closing 2 target } : Client).slotFd
        = (st.client c).slotFd := by
      funext i
      simp [Client.slotFd, ClientPc.shut, hpc]
    have hown := Server.own_setClient_self st st.fds hslot
    rw [hfds, hown]
    refine ⟨.quiet, h.setClient hc (by rw [hown]; exact h.owning) (fun _ _ _ _ _ => rfl)
      (fun _ hs => hs) rfl (fun i s hs => ?_) (fun _ hj => hj)
      (fun _ => h.inSlot c (by rw [hpc]; trivial)) (fun _ h => (by cases h)) fun _ h => (by cases h)⟩
    rw [hslot] at hs
    exact hs

/-- The accepting thread moves.  It leaves the slots in use alone. -/
theorem acceptor_frame (h : Owned st) {st' : Server} (hn : st'.nclients = st.nclients)
    (howning : Ownership.Owning st'.own st'.fds) (hnonneg : ∀ fd, st'.fds fd ≠ none → 0 ≤ fd)
    (hkeep : ∀ c i s, st.own (.slot c i) = some s → st'.fds s = st.fds s)
    (hgone : ∀ c target, (st.client c).pc = .closing 1 target →
      st'.fds ((st.client c).cd.sockets (st.client c).i) = none)
    (hclient : ∀ c, ∃ cd : ClientData, st'.client c = { st.client c with cd := cd } ∧
      ∀ i, (st.client c).cd.sockets i ≠ -1 → cd.sockets i = (st.client c).cd.sockets i)
    (hfin : ∀ c i s, (st'.client c).slotFd i = some s → (st'.client c).cd.fin i = s)
    (hfilling : ∀ sock cid i, st'.acceptor = .opened sock cid i ∨ st'.acceptor = .counted sock cid i →
      (st'.client cid).cd.sockets i = -1 ∧ (st'.client cid).cd.fin i = sock) : Owned st' where
  owning := howning
  nonneg := hnonneg
  fin := hfin
  filling := hfilling
  inSlot := fun c hin => by
    obtain ⟨cd, hcl, hcd⟩ := hclient c
    rw [hcl] at hin ⊢
    show cd.sockets (st.client c).i ≠ -1
    rw [hcd _ (h.inSlot c hin)]
    exact h.inSlot c hin
  target := fun c target hpc => by
    obtain ⟨cd, hcl, hcd⟩ := hclient c
    rw [hcl] at hpc ⊢
    have hpc : (st.client c).pc = .closing 0 target := hpc
    have hin : (st.client c).pc.InSlot := by rw [hpc]; trivial
    show target = st'.fds (cd.sockets (st.client c).i)
    rw [hcd _ (h.inSlot c hin), hkeep c _ _ (h.slotFd_inSlot hin (by rw [hpc]; rfl))]
    exact h.target c target hpc
  gone := fun c target hpc => by
    obtain ⟨cd, hcl, hcd⟩ := hclient c
    rw [hcl] at hpc ⊢
    have hpc : (st.client c).pc = .closing 1 target := hpc
    show st'.fds (cd.sockets (st.client c).i) = none
    rw [hcd _ (h.inSlot c (by rw [hpc]; trivial))]
    exact hgone c target hpc
  idle := fun c hc => by
    obtain ⟨cd, hcl, -⟩ := hclient c
    rw [hcl]
    exact h.idle c (hn ▸ hc)

/-- The accepting thread goes on with the same descriptor. -/
theorem acceptor_quiet (h : Owned st) {a : AcceptorPc} (hsock : a.sock = st.acceptor.sock)
    (hopened : ∀ sock cid i, a ≠ .opened sock cid i) (hcounted : ∀ sock cid i, a ≠ .counted sock cid i)
    (act : ServerAct) :
    OwnStep st act { st with acceptor := a }.own st.fds st.nconn ∧
      Owned { st with acceptor := a } := by
  have hown : { st with acceptor := a }.own = st.own := by
    rw [Server.own_acceptor st a st.fds st.nconn, hsock]
    exact Function.update_eq_self _ _
  refine ⟨hown ▸ .quiet, h.acceptor_frame rfl (by rw [hown]; exact h.owning) h.nonneg
    (fun _ _ _ _ => rfl) h.gone
    (fun c => ⟨_, rfl, fun _ _ => rfl⟩) h.fin ?_⟩
  intro sock cid i hpc
  rcases hpc with hpc | hpc
  · exact absurd hpc (hopened sock cid i)
  · exact absurd hpc (hcounted sock cid i)

theorem setCd_slots (st : Server) {a : AcceptorPc} {cid : ℕ} {cd : ClientData} (c : ℕ)
    (hcd : ∀ i, (st.client cid).cd.sockets i ≠ -1 → cd.sockets i = (st.client cid).cd.sockets i) :
    ∃ cd' : ClientData,
      ({ st with acceptor := a }.setCd cid cd).client c = { st.client c with cd := cd' } ∧
        ∀ i, (st.client c).cd.sockets i ≠ -1 → cd'.sockets i = (st.client c).cd.sockets i := by
  by_cases hc : c = cid
  · subst hc
    exact ⟨cd, Server.setClient_self _ _ _, hcd⟩
  · exact ⟨(st.client c).cd, Server.setClient_of_ne hc _ _, fun _ _ => rfl⟩

/-- The accepting thread prepares the empty slot `i` of client `cid`. -/
theorem acceptor_fin (h : Owned st) {a : AcceptorPc} {cid i : ℕ} {cd : ClientData} {act : ServerAct}
    (hstep : OwnStep st act (Function.update st.own .acceptor a.sock) st.fds st.nconn)
    (hempty : (st.client cid).cd.sockets i = -1) (hsock : cd.sockets = (st.client cid).cd.sockets)
    (hfin : ∀ j, j ≠ i → cd.fin j = (st.client cid).cd.fin j)
    (hfilling : ∀ sock cid' j, a = .opened sock cid' j ∨ a = .counted sock cid' j →
      cid' = cid ∧ j = i ∧ cd.fin i = sock) :
    OwnStep st act ({ st with acceptor := a }.setCd cid cd).own st.fds st.nconn ∧
      Owned ({ st with acceptor := a }.setCd cid cd) := by
  have hslot : ({ st.client cid with cd := cd } : Client).slotFd = (st.client cid).slotFd := by
    funext j
    simp [Client.slotFd, hsock]
  have hown : ({ st with acceptor := a }.setCd cid cd).own = Function.update st.own .acceptor a.sock :=
    (Server.own_setClient_self { st with acceptor := a } st.fds hslot).trans
      (Server.own_acceptor st a st.fds st.nconn)
  refine ⟨hown ▸ hstep, h.acceptor_frame rfl (by rw [hown]; exact hstep.owning h.owning) h.nonneg
    (fun _ _ _ _ => rfl) h.gone (fun c => setCd_slots st c fun i _ => by rw [hsock]) ?_ ?_⟩
  · intro c j s hs
    by_cases hc : c = cid
    · subst hc
      rw [Server.setCd, Server.setClient_self] at hs ⊢
      have hs : (st.client c).slotFd j = some s := hslot ▸ hs
      have hj : j ≠ i := by
        intro hj
        obtain ⟨rfl, hne, -⟩ := Client.slotFd_eq_some.mp hs
        exact hne (hj ▸ hempty)
      show cd.fin j = s
      rw [hfin j hj]
      exact h.fin c j s hs
    · rw [Server.setCd, Server.setClient_of_ne hc] at hs ⊢
      exact h.fin c j s hs
  · intro sock cid' j hpc
    obtain ⟨rfl, rfl, hsk⟩ := hfilling sock cid' j hpc
    rw [Server.setCd, Server.setClient_self]
    exact ⟨by rw [hsock]; exact hempty, hsk⟩

/-- `open_socket` stores the number into the slot. -/
theorem acceptor_store (h : Owned st) {sock : ℤ} {cid i : ℕ} (hpc : st.acceptor = .counted sock cid i)
    {cd : ClientData} (hcd : cd = { (st.client cid).cd with
      sockets := Function.update (st.client cid).cd.sockets i sock }) :
    ({ st with acceptor := .listening }.setCd cid cd).own
        = Function.update (Function.update st.own .acceptor none) (.slot cid i) (some sock) ∧
      Owned ({ st with acceptor := .listening }.setCd cid cd) := by
  obtain ⟨hempty, hfin⟩ := h.filling sock cid i (.inr hpc)
  have hheld : st.own .acceptor = some sock := by
    show st.acceptor.sock = some sock
    rw [hpc]
    rfl
  have hsock : sock ≠ -1 := by
    have := h.nonneg sock (h.owning.isOpen hheld)
    omega
  have hslot : ({ st.client cid with cd := cd } : Client).slotFd
      = Function.update (st.client cid).slotFd i (some sock) := by
    funext j
    by_cases hj : j = i
    · -- a thread in `close_socket` has another slot
      have hshut : ¬ (j = (st.client cid).i ∧ (st.client cid).pc.shut = true) := by
        rintro ⟨hji, hshut⟩
        refine h.inSlot cid ?_ (by rw [← hji, hj]; exact hempty)
        cases hp : (st.client cid).pc <;> simp_all [ClientPc.shut, ClientPc.InSlot]
      rw [hj, Function.update_self]
      refine Client.slotFd_eq_some.mpr ⟨?_, hsock, hj ▸ hshut⟩
      rw [hcd]
      exact Function.update_self _ _ _
    · simp [Client.slotFd, hcd, hj]
  have hown : ({ st with acceptor := .listening }.setCd cid cd).own
      = Function.update (Function.update st.own .acceptor none) (.slot cid i) (some sock) := by
    have := Server.own_setClient { st with acceptor := .listening } st.fds hslot
    rwa [Server.own_acceptor st .listening st.fds st.nconn] at this
  refine ⟨hown, h.acceptor_frame rfl (by rw [hown]; exact h.owning.move hheld _) h.nonneg
    (fun _ _ _ _ => rfl) h.gone (fun c => setCd_slots st c fun j hj => ?_) ?_ ?_⟩
  · rw [hcd]
    refine Function.update_of_ne ?_ _ _
    rintro rfl
    exact hj hempty
  · intro c j s hs
    by_cases hc : c = cid
    · subst hc
      rw [Server.setCd, Server.setClient_self] at hs ⊢
      have hs : Function.update (st.client c).slotFd i (some sock) j = some s := hslot ▸ hs
      show cd.fin j = s
      rw [hcd]
      rcases Ownership.Owning.update_some_cases hs with ⟨rfl, rfl⟩ | ⟨-, hs⟩
      · exact hfin
      · exact h.fin c j s hs
    · rw [Server.setCd, Server.setClient_of_ne hc] at hs ⊢
      exact h.fin c j s hs
  · intro sock' cid' j hpc'
    rcases hpc' with hpc' | hpc'
    · cases hpc'
    · cases hpc'

/-- A step of the accepting thread. -/
theorem acceptor (h : Owned st) {b : AcceptorAct} {st' : Server}
    (hok : (ServerAct.acceptor b).NoReuse st) (hstep : Server.AcceptorStep st b st') :
    OwnStep st (.acceptor b) st'.own st'.fds st'.nconn ∧ Owned st' := by
  cases hstep with
  | @accept fd hpc hfd hfree =>
      have hown := Server.own_acceptor st (.choosing fd 1 0)
        (Function.update st.fds fd (some st.nconn)) (st.nconn + 1)
      have hstep : OwnStep st (.acceptor (.accept fd)) _ _ _ := .accept hfree
      have hkeep : ∀ s, st.fds s ≠ none → Function.update st.fds fd (some st.nconn) s = st.fds s := by
        intro s hs
        refine Function.update_of_ne ?_ _ _
        rintro rfl
        exact hs hfree
      rw [hown]
      refine ⟨hstep, h.acceptor_frame rfl (by rw [hown]; exact hstep.owning h.owning) ?_
        (fun c i s hs => hkeep s (h.owning.isOpen hs)) ?_ (fun c => ⟨_, rfl, fun _ _ => rfl⟩) h.fin ?_⟩
      · intro fd' hfd'
        by_cases heq : fd' = fd
        · rw [heq]
          exact hfd
        · refine h.nonneg fd' fun hnone => hfd' ?_
          exact (Function.update_of_ne heq _ _).trans hnone
      · intro c target hcl
        have hc : c < st.nclients := by
          by_contra hc
          rw [h.idle c (by omega)] at hcl
          cases hcl
        exact (Function.update_of_ne (hok c hc (by rw [hcl]; rfl)) _ _).trans (h.gone c target hcl)
      · intro sock cid i hpc'
        rcases hpc' with hpc' | hpc'
        · cases hpc'
        · cases hpc'
  | choose hpc | chosen hpc | room hpc | occupied hpc =>
      refine h.acceptor_quiet ?_ (fun _ _ _ h => AcceptorPc.noConfusion h)
        (fun _ _ _ h => AcceptorPc.noConfusion h) _
      rw [hpc]
      rfl
  | full => exact ⟨.quiet, h⟩
  | @fdopen sock cid i hpc hempty =>
      refine h.acceptor_fin (.held (by rw [hpc]; rfl)) hempty rfl
        (fun j hj => Function.update_of_ne hj _ _) fun sock' cid' j ha => ?_
      rcases ha with ha | ha
      · cases ha
        exact ⟨rfl, rfl, Function.update_self _ _ _⟩
      · cases ha
  | noFile hpc hempty =>
      refine h.acceptor_fin .drop hempty rfl (fun j hj => Function.update_of_ne hj _ _)
        fun sock' cid' j ha => ?_
      rcases ha with ha | ha
      · cases ha
      · cases ha
  | @count sock cid i hpc =>
      obtain ⟨hempty, hfin⟩ := h.filling sock cid i (.inl hpc)
      refine h.acceptor_fin (.held (by rw [hpc]; rfl)) hempty rfl (fun j hj => rfl)
        fun sock' cid' j ha => ?_
      rcases ha with ha | ha
      · cases ha
      · cases ha
        exact ⟨rfl, rfl, hfin⟩
  | store hpc =>
      obtain ⟨hown, hnew⟩ := h.acceptor_store hpc rfl
      refine ⟨?_, hnew⟩
      rw [hown]
      refine .store rfl hpc ?_ ?_
      · show st.acceptor.sock = _
        rw [hpc]
        rfl
      · exact if_pos (.inl (h.filling _ _ _ (.inr hpc)).1)

end Owned

theorem Owned.step {st st' : Server} {a : ServerAct} {evs : List ServerEvent} (h : Owned st)
    (hok : a.NoReuse st) (hs : st.step a = .ok (st', evs)) :
    OwnStep st a st'.own st'.fds st'.nconn ∧ Owned st' := by
  rcases Server.step_cases hs with ⟨b, rfl, hb, -⟩ | ⟨c, b, cl, fds, rfl, hc, hb, rfl⟩
  · exact h.acceptor hok (Server.tcpserver_step hb)
  · exact h.client hc (clientgo_step hb)

theorem owned_start (b n : ℕ) : Owned (.start b n) where
  owning := by
    have hown : (Server.start b n).own = fun _ => none := by
      funext o
      cases o <;> rfl
    rw [hown]
    exact Ownership.owning_none
  nonneg := fun fd hfd => absurd rfl hfd
  fin := fun _ _ s hs => (Option.some_ne_none s (hs.symm.trans rfl)).elim
  filling := fun sock cid i hpc => by
    rcases hpc with hpc | hpc
    · cases hpc
    · cases hpc
  inSlot := fun _ hin => hin.elim
  target := fun _ _ hpc => ClientPc.noConfusion hpc
  gone := fun _ _ hpc => ClientPc.noConfusion hpc
  idle := fun _ _ => rfl

end SmpHashTable.HashServer
