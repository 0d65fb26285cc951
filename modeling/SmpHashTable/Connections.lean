import SmpHashTable.Descriptors

/-!
# Connections do not cross

A response waits in the list of the slot its lookup was read from, and is written to the number that the
slot holds then.  The code compares that number with the one the lookup was read under, which is not
enough if the slot has changed hands meanwhile and has got the same number.
-/

namespace SmpHashTable.HashServer

/-! ### What is addressed to a slot -/

theorem pieces_origin {n : ℕ} {iovs : List Iov} {p : Iov} (h : p ∈ pieces n iovs) :
    ∃ iov ∈ iovs, iov.origin = p.origin := by
  fun_induction pieces n iovs with
  | case1 => cases h
  | case2 => cases h
  | case3 n v rest hn ih =>
      rcases List.mem_cons.mp h with rfl | h
      · exact ⟨v, List.mem_cons_self, rfl⟩
      · obtain ⟨iov, hmem, horigin⟩ := ih h
        exact ⟨iov, List.mem_cons_of_mem v hmem, horigin⟩

theorem progress_origin {n : ℕ} {iovs done cur : List Iov} {p : Iov}
    (hprog : progress n iovs = (done, cur)) (h : p ∈ cur) : ∃ iov ∈ iovs, iov.origin = p.origin := by
  fun_induction progress n iovs generalizing done with
  | case1 =>
      cases hprog
      cases h
  | case2 =>
      cases hprog
      exact ⟨p, h, rfl⟩
  | case3 =>
      cases hprog
      cases h
  | case4 n v hn hle w rest done' cur' hrest ih =>
      cases hprog
      obtain ⟨iov, hmem, horigin⟩ := ih hrest
      exact ⟨iov, List.mem_cons_of_mem v hmem, horigin⟩
  | case5 n v rest hn hlt =>
      cases hprog
      rcases List.mem_cons.mp h with rfl | h
      · exact ⟨v, List.mem_cons_self, rfl⟩
      · exact ⟨p, List.mem_cons_of_mem v h, rfl⟩

theorem Client.fails_unanswered (cl : Client) (fds : ℤ → Option ℕ) (r : ℕ) :
    (cl.fails fds r).unanswered = cl.batch := by
  unfold Client.unanswered Client.fails
  by_cases hr : r = 2 <;> simp [hr]

/-- The queries with a result to come: a step adds at most one from the slot the thread works on. -/
theorem ClientStep.unanswered {b c : ℕ} {cl cl' : Client} {fds fds' : ℤ → Option ℕ} {a : ClientAct}
    {evs : List ServerEvent} (h : ClientStep b cl fds c a cl' fds' evs) {e : Entry}
    (he : e ∈ cl'.unanswered) :
    e ∈ cl.unanswered ∨ (.asked c e ∈ evs ∧ cl.pc.InSlot ∧ cl.pc.shut = false ∧ e.sid = cl.i ∧
      e.socket = cl.cd.sockets cl.i ∧ e.origin = fds (cl.cd.fin cl.i)) := by
  cases h with
  | newBatch => cases he
  | lookup hpc =>
      rcases List.mem_append.mp he with he | he
      · exact .inl (by rw [Client.unanswered, hpc]; exact he)
      · rw [List.mem_singleton.mp he]
        exact .inr ⟨List.mem_cons_self, by rw [hpc]; trivial, by rw [hpc]; rfl, rfl, rfl, rfl⟩
  | insertDone hpc hret hent =>
      rcases List.mem_append.mp he with he | he
      · exact .inl (by rw [Client.unanswered, hpc]; exact he)
      · rw [List.mem_singleton.mp he, hent]
        exact .inr ⟨List.mem_cons_self, by rw [hpc]; trivial, by rw [hpc]; rfl, rfl, rfl, rfl⟩
  | noHeader hpc | noValue hpc =>
      rw [Client.fails_unanswered] at he
      exact .inl (by rw [Client.unanswered, hpc]; exact he)
  | answer hpc =>
      obtain ⟨p, hp, rfl⟩ := List.mem_map.mp he
      refine .inl ?_
      rw [Client.unanswered, hpc]
      exact (List.of_mem_zip hp).1
  | kept hpc | dropped hpc | filled hpc =>
      refine .inl ?_
      rw [Client.unanswered, hpc]
      exact List.mem_cons_of_mem _ he
  | resultsDone | writeSlot | skipSlot | slotsDone | writeFails | writeDone | writePart => cases he
  | writeAgain hpc => exact .inl he
  | _ hpc => exact .inl (by rw [Client.unanswered, hpc]; exact he)

/-- A `writev` leaves `cur` of the list of slot `k'`. -/
theorem Client.outbox_write {cl : Client} {k k' : ℕ} {sock : ℤ} {iovs cur : List Iov} {p : Iov}
    (hpc : cl.pc = .write k' sock iovs) (hcur : ∀ q ∈ cur, ∃ iov ∈ iovs, iov.origin = q.origin)
    (hp : p ∈ Function.update cl.writeiov k' cur k) : ∃ iov ∈ cl.outbox k, iov.origin = p.origin := by
  have hout : cl.outbox = Function.update cl.writeiov k' iovs := by rw [Client.outbox, hpc]
  rw [hout]
  by_cases hk : k = k'
  · subst hk
    rw [Function.update_self] at hp ⊢
    exact hcur p hp
  · rw [Function.update_of_ne hk] at hp ⊢
    exact ⟨p, hp, rfl⟩

/-- The lists: a step adds at most the response to a lookup whose slot holds the same number. -/
theorem ClientStep.outbox {b c : ℕ} {cl cl' : Client} {fds fds' : ℤ → Option ℕ} {a : ClientAct}
    {evs : List ServerEvent} (h : ClientStep b cl fds c a cl' fds' evs) {k : ℕ} {p : Iov}
    (hp : p ∈ cl'.outbox k) :
    (∃ iov ∈ cl.outbox k, iov.origin = p.origin) ∨
      ∃ e v todo, cl.pc = .result ((e, v) :: todo) ∧ e.query.optype = OPTYPE_LOOKUP ∧
        cl.cd.sockets e.sid = e.socket ∧ k = e.sid ∧ p.origin = e.origin := by
  cases h with
  | @kept e v todo hpc hop hsock =>
      by_cases hk : k = e.sid
      · subst hk
        have hp : p ∈ Function.update cl.writeiov e.sid
          (cl.writeiov e.sid ++ [⟨v.map (·.ptr), response v, e.origin⟩]) e.sid := hp
        rw [Function.update_self] at hp
        rcases List.mem_append.mp hp with hp | hp
        · exact .inl ⟨p, by rw [Client.outbox, hpc]; exact hp, rfl⟩
        · rw [List.mem_singleton.mp hp]
          exact .inr ⟨e, v, todo, hpc, hop, hsock, rfl, rfl⟩
      · have hp : p ∈ Function.update cl.writeiov e.sid
          (cl.writeiov e.sid ++ [⟨v.map (·.ptr), response v, e.origin⟩]) k := hp
        rw [Function.update_of_ne hk] at hp
        exact .inl ⟨p, by rw [Client.outbox, hpc]; exact hp, rfl⟩
  | writeSlot hpc =>
      simp only [Client.outbox, Function.update_eq_self] at hp
      exact .inl ⟨p, by rw [Client.outbox, hpc]; exact hp, rfl⟩
  | writeFails hpc => exact .inl (Client.outbox_write hpc (fun _ h => by cases h) hp)
  | writeDone hpc => exact .inl (Client.outbox_write hpc (fun _ h => by cases h) hp)
  | writePart hpc hprog => exact .inl (Client.outbox_write hpc (fun _ h => progress_origin hprog h) hp)
  | noHeader hpc | noValue hpc =>
      rw [Client.outbox_of_gathering (Client.fails_gathering _ _ _)] at hp
      exact .inl ⟨p, by rw [Client.outbox, hpc]; exact hp, rfl⟩
  | writeAgain => exact .inl ⟨p, hp, rfl⟩
  | _ hpc => exact .inl ⟨p, by rw [Client.outbox, hpc]; exact hp, rfl⟩

theorem ClientStep.writing {b c : ℕ} {cl cl' : Client} {fds fds' : ℤ → Option ℕ} {a : ClientAct}
    {evs : List ServerEvent} (h : ClientStep b cl fds c a cl' fds' evs) {k : ℕ} {sock : ℤ}
    {iovs : List Iov} (hpc' : cl'.pc = .write k sock iovs) :
    (∃ iovs', cl.pc = .write k sock iovs') ∨ (cl.outbox k ≠ [] ∧ sock = cl.cd.sockets k) := by
  cases h with
  | writeSlot hpc hk hne =>
      cases hpc'
      exact .inr ⟨by rw [Client.outbox, hpc]; exact hne, rfl⟩
  | writeAgain => exact .inl ⟨iovs, hpc'⟩
  | writePart hpc =>
      cases hpc'
      exact .inl ⟨_, hpc⟩
  | noHeader | noValue =>
      have hgather : ClientPc.Gathering (.write k sock iovs) := hpc' ▸ Client.fails_gathering _ _ _
      exact hgather.elim
  | _ => cases hpc'

/-- What is to be written to a slot is for the connection in it, and so are the responses to come, if
the slot still has the number they were read under. -/
structure Addressed (st : Server) : Prop where
  socket : ∀ c, ∀ e ∈ (st.client c).unanswered, e.socket ≠ -1
  entries : ∀ c, ∀ e ∈ (st.client c).unanswered, e.query.optype = OPTYPE_LOOKUP →
    st.own (.slot c e.sid) = some e.socket → st.fds e.socket = e.origin
  outbox : ∀ c k, ∀ iov ∈ (st.client c).outbox k, ∃ s, st.own (.slot c k) = some s ∧
    st.fds s = iov.origin
  writing : ∀ c k sock iovs, (st.client c).pc = .write k sock iovs → st.own (.slot c k) = some sock

/-- A step of the server, seen from client thread `c`. -/
theorem Server.step_thread {st st' : Server} {a : ServerAct} {evs : List ServerEvent}
    (h : st.step a = .ok (st', evs)) (c : ℕ) :
    (∃ cd, st'.client c = { st.client c with cd := cd }) ∨
      ∃ b, ClientStep st.batchSize (st.client c) st.fds c b (st'.client c) st'.fds evs := by
  rcases Server.step_cases h with ⟨b, rfl, hb, -⟩ | ⟨c', b, cl, fds, rfl, -, hb, rfl⟩
  · exact .inl (Server.tcpserver_client hb c)
  · by_cases hc : c = c'
    · subst hc
      rw [Server.setClient_self]
      exact .inr ⟨b, clientgo_step hb⟩
    · exact .inl ⟨(st.client c).cd, Server.setClient_of_ne hc _ _⟩

namespace Addressed

variable {st st' : Server} {a : ServerAct} {evs : List ServerEvent}

/-- A response in the lists of client `c` after a step was there before, or the slot it joins has the
number of its lookup. -/
theorem addressee (h : Addressed st) (ht : ∀ c, Tidy (st.client c)) (hs : st.step a = .ok (st', evs))
    {c k : ℕ} {p : Iov} (hp : p ∈ (st'.client c).outbox k) :
    ¬ (st.client c).pc.Gathering ∧ ∃ s, st.own (.slot c k) = some s ∧ st.fds s = p.origin := by
  have hold : (∃ iov ∈ (st.client c).outbox k, iov.origin = p.origin) →
      ¬ (st.client c).pc.Gathering ∧ ∃ s, st.own (.slot c k) = some s ∧ st.fds s = p.origin := by
    rintro ⟨iov, hiov, horigin⟩
    refine ⟨fun hgather => ?_, horigin ▸ h.outbox c k iov hiov⟩
    rw [(ht c).outbox_nil hgather k] at hiov
    cases hiov
  rcases Server.step_thread hs c with ⟨cd, hcl⟩ | ⟨b, hstep⟩
  · rw [hcl] at hp
    exact hold ⟨p, hp, rfl⟩
  · rcases hstep.outbox hp with hp | ⟨e, v, todo, hpc, hop, hsock, rfl, horigin⟩
    · exact hold hp
    · have he : e ∈ (st.client c).unanswered := by
        rw [Client.unanswered, hpc]
        exact List.mem_cons_self
      have hown : st.own (.slot c e.sid) = some e.socket :=
        hsock ▸ Client.slotFd_of_open (hsock ▸ h.socket c e he) (by rw [hpc]; rfl)
      refine ⟨fun hgather => ?_, e.socket, hown, ?_⟩
      · rw [hpc] at hgather
        exact hgather
      · rw [horigin]
        exact h.entries c e he hop hown

/-- A number that a thread writes to was in its slot before the step. -/
theorem writer (h : Addressed st) (hs : st.step a = .ok (st', evs)) {c k : ℕ} {sock : ℤ}
    {iovs : List Iov} (hpc' : (st'.client c).pc = .write k sock iovs) :
    (∃ iovs', (st.client c).pc = .write k sock iovs') ∨
      ∃ iov, iov ∈ (st.client c).outbox k ∧ st.own (.slot c k) = some sock := by
  rcases Server.step_thread hs c with ⟨cd, hcl⟩ | ⟨b, hstep⟩
  · rw [hcl] at hpc'
    exact .inl ⟨iovs, hpc'⟩
  · rcases hstep.writing hpc' with hpc | ⟨hne, rfl⟩
    · exact .inl hpc
    · obtain ⟨iov, hiov⟩ := List.exists_mem_of_ne_nil _ hne
      obtain ⟨s, hown, -⟩ := h.outbox c k iov hiov
      obtain ⟨rfl, -, -⟩ := Client.slotFd_eq_some.mp hown
      exact .inr ⟨iov, hiov, hown⟩

theorem step (h : Addressed st) (hown : Owned st) (ht : ∀ c, Tidy (st.client c))
    (hok : a.NoReuse st) (hs : st.step a = .ok (st', evs))
    (hostep : OwnStep st a st'.own st'.fds st'.nconn) : Addressed st' := by
  -- a query with a result to come is old or comes from the slot the thread works on
  have hentry : ∀ c, ∀ e ∈ (st'.client c).unanswered, e ∈ (st.client c).unanswered ∨
      (e.socket ≠ -1 ∧ st.own (.slot c e.sid) = some e.socket ∧ st.fds e.socket = e.origin) := by
    intro c e he
    rcases Server.step_thread hs c with ⟨cd, hcl⟩ | ⟨b, hstep⟩
    · rw [hcl] at he
      exact .inl he
    · rcases hstep.unanswered he with he | ⟨-, hin, hshut, hsid, hsock, horigin⟩
      · exact .inl he
      · have hslot := hown.slotFd_inSlot hin hshut
        rw [← hsock, ← hsid] at hslot
        refine .inr ⟨hsock ▸ hown.inSlot c hin, hslot, ?_⟩
        rw [horigin, ← hsid, hown.fin c e.sid e.socket hslot]
  refine ⟨?_, ?_, ?_, ?_⟩
  · intro c e he
    rcases hentry c e he with he | ⟨hsock, -, -⟩
    · exact h.socket c e he
    · exact hsock
  · intro c e he hop hslot'
    have hfds : st.own (.slot c e.sid) = some e.socket → st'.fds e.socket = st.fds e.socket :=
      fun hslot => hostep.kept hown.owning hslot hslot'
    rcases hentry c e he with he | ⟨-, hslot, horigin⟩
    · rcases hostep.back hslot' with hslot | ⟨rfl, hpc⟩
      · rw [hfds hslot]
        exact h.entries c e he hop hslot
      · simp only [ServerAct.NoReuse, hpc] at hok
        exact absurd rfl (hok e he hop rfl)
    · rw [hfds hslot]
      exact horigin
  · intro c k p hp
    obtain ⟨hgather, s, hslot, horigin⟩ := h.addressee ht hs hp
    rcases hostep.forward hslot with hslot' | hg
    · exact ⟨s, hslot', (hostep.kept hown.owning hslot hslot').trans horigin⟩
    · exact absurd hg hgather
  · intro c k sock iovs hpc'
    have hslot : ¬ (st.client c).pc.Gathering ∧ st.own (.slot c k) = some sock := by
      rcases h.writer hs hpc' with ⟨iovs', hpc⟩ | ⟨iov, hiov, hslot⟩
      · exact ⟨fun hg => by rw [hpc] at hg; exact hg, h.writing c k sock iovs' hpc⟩
      · refine ⟨fun hg => ?_, hslot⟩
        rw [(ht c).outbox_nil hg k] at hiov
        cases hiov
    rcases hostep.forward hslot.2 with hslot' | hg
    · exact hslot'
    · exact absurd hg hslot.1

end Addressed

/-! ### Every run -/

/-- A response is written to the connection its lookup was read from. -/
def WritesOwn (log : List ServerEvent) : Prop :=
  ∀ conn ps, ServerEvent.wrote conn ps ∈ log → ∀ p ∈ ps, ∃ n, conn = some n ∧ p.origin = some n

/-- `close_socket` closes no connection but the one it was called for. -/
def ClosesOwn (log : List ServerEvent) : Prop :=
  ∀ target was, ServerEvent.closed target was ∈ log → was = none ∨ was = target

theorem ClientStep.wrote {b c : ℕ} {cl cl' : Client} {fds fds' : ℤ → Option ℕ} {a : ClientAct}
    {evs : List ServerEvent} (h : ClientStep b cl fds c a cl' fds' evs) {conn : Option ℕ}
    {ps : List Iov} (hev : .wrote conn ps ∈ evs) :
    ∃ k sock iovs n done, cl.pc = .write k sock iovs ∧ a = .writev (.wrote n) ∧
      evs = .wrote (fds sock) (pieces n iovs) :: releases c done ∧ conn = fds sock ∧
      ps = pieces n iovs := by
  cases h with
  | writeDone hpc | writePart hpc =>
      rcases List.mem_cons.mp hev with hev | hev
      · cases hev
        exact ⟨_, _, _, _, _, hpc, rfl, rfl, rfl, rfl⟩
      · simp [releases] at hev
  | _ => simp [releases] at hev

theorem ClientStep.closed {b c : ℕ} {cl cl' : Client} {fds fds' : ℤ → Option ℕ} {a : ClientAct}
    {evs : List ServerEvent} (h : ClientStep b cl fds c a cl' fds' evs) {target was : Option ℕ}
    (hev : .closed target was ∈ evs) :
    (cl.pc = .closing 0 target ∧ was = fds (cl.cd.fin cl.i)) ∨
      (cl.pc = .closing 1 target ∧ was = fds (cl.cd.sockets cl.i)) := by
  cases h with
  | fclose hpc =>
      cases List.mem_singleton.mp hev
      exact .inl ⟨hpc, rfl⟩
  | close hpc =>
      cases List.mem_singleton.mp hev
      exact .inr ⟨hpc, rfl⟩
  | _ => simp [releases] at hev

/-- What a step writes and closes. -/
theorem Addressed.events {st st' : Server} {a : ServerAct} {evs : List ServerEvent} (h : Addressed st)
    (hown : Owned st) (hs : st.step a = .ok (st', evs)) : WritesOwn evs ∧ ClosesOwn evs := by
  rcases Server.step_cases hs with ⟨b, rfl, -, rfl⟩ | ⟨c, b, cl, fds, rfl, hc, hb, rfl⟩
  · exact ⟨fun _ _ hev => absurd hev List.not_mem_nil, fun _ _ hev => absurd hev List.not_mem_nil⟩
  · have hstep := clientgo_step hb
    refine ⟨fun conn ps hev p hp => ?_, fun target was hev => ?_⟩
    · obtain ⟨k, sock, iovs, n, done, hpc, -, -, rfl, rfl⟩ := hstep.wrote hev
      obtain ⟨iov, hiov, horigin⟩ := pieces_origin hp
      have hout : iov ∈ (st.client c).outbox k := by
        simp only [Client.outbox, hpc, Function.update_self]
        exact hiov
      obtain ⟨s, hslot, hs⟩ := h.outbox c k iov hout
      rw [h.writing c k sock iovs hpc] at hslot
      cases hslot
      obtain ⟨n, hn⟩ := Option.ne_none_iff_exists'.mp (hown.owning.isOpen (h.writing c k sock iovs hpc))
      exact ⟨n, hn, by rw [← horigin, ← hs, hn]⟩
    · rcases hstep.closed hev with ⟨hpc, rfl⟩ | ⟨hpc, rfl⟩
      · have hslot := hown.slotFd_inSlot (c := c) (by rw [hpc]; trivial) (by rw [hpc]; rfl)
        rw [hown.fin c _ _ hslot]
        exact .inr (hown.target c target hpc).symm
      · exact .inl (hown.gone c target hpc)

theorem addressed_start (b n : ℕ) : Addressed (.start b n) where
  socket := fun _ _ he => absurd he List.not_mem_nil
  entries := fun _ _ he => absurd he List.not_mem_nil
  outbox := fun _ _ _ hiov => absurd hiov List.not_mem_nil
  writing := fun _ _ _ _ hpc => ClientPc.noConfusion hpc

/-- The slots and the lists, in every run without reuse. -/
theorem owned_addressed {ok : Server → List ServerEvent → ServerAct → Prop} {b n : ℕ} {st : Server}
    {log : List ServerEvent} (hok : ∀ st log a, ok st log a → a.NoReuse st)
    (h : Runs.Reach Server.step ok (.start b n) st log) : Owned st ∧ Addressed st := by
  induction h with
  | start => exact ⟨owned_start b n, addressed_start b n⟩
  | step hreach ha hs ih =>
      obtain ⟨hstep, hown⟩ := ih.1.step (hok _ _ _ ha) hs
      exact ⟨hown, ih.2.step ih.1 (tidy hreach) (hok _ _ _ ha) hs hstep⟩

/-- **Connections do not cross** in any run without reuse: every response goes to the connection its
lookup was read from, and `close_socket` closes no other connection than its own. -/
theorem no_crossing {b n : ℕ} {st : Server} {log : List ServerEvent}
    (h : Runs.Reach Server.step (fun st _ a => a.Ok st ∧ a.NoReuse st) (.start b n) st log) :
    WritesOwn log ∧ ClosesOwn log := by
  induction h with
  | start =>
      exact ⟨fun _ _ hev => absurd hev List.not_mem_nil, fun _ _ hev => absurd hev List.not_mem_nil⟩
  | step hreach ha hs ih =>
      obtain ⟨hown, haddr⟩ := owned_addressed (fun _ _ _ ha => ha.2) hreach
      obtain ⟨hw, hc⟩ := haddr.events hown hs
      refine ⟨fun conn ps hev => ?_, fun target was hev => ?_⟩
      · rcases List.mem_append.mp hev with hev | hev
        · exact ih.1 conn ps hev
        · exact hw conn ps hev
      · rcases List.mem_append.mp hev with hev | hev
        · exact ih.2 target was hev
        · exact hc target was hev

/-- A lookup is answered, its connection ends, and its number is given out again. -/
def reopenRun : List ServerAct :=
  releaseRun ++ List.replicate 2 (.client 0 .go) ++ [.client 0 (.read [] .eof)] ++
    List.replicate 4 (.client 0 .go) ++ .acceptor (.accept 4) :: List.replicate 5 (.acceptor .go)

theorem no_crossing_reopen : ∃ st log,
    Runs.Reach Server.step (fun st _ a => a.Ok st ∧ a.NoReuse st) (.start 1 1) st log ∧
      st.fds 4 = some 1 ∧ .wrote (some 0) [⟨some found.ptr, [2, 0], some 0⟩] ∈ log ∧
      .closed (some 0) (some 0) ∈ log ∧ WritesOwn log ∧ ClosesOwn log := by
  have hval : (Runs.run Server.step (fun st _ a => a.Ok st ∧ a.NoReuse st) reopenRun
      (.start 1 1) []).map (fun r => (r.1.fds 4,
        decide (.wrote (some 0) [⟨some found.ptr, [2, 0], some 0⟩] ∈ r.2),
        decide (.closed (some 0) (some 0) ∈ r.2))) = some (some 1, true, true) := by
    decide +kernel
  obtain ⟨⟨st, log⟩, hrun, hval⟩ := Option.map_eq_some_iff.mp hval
  obtain ⟨hfd, hval⟩ := Prod.mk.inj hval
  obtain ⟨hwrote, hclosed⟩ := Prod.mk.inj hval
  have hreach := Runs.Reach.start.run hrun
  exact ⟨st, log, hreach, hfd, of_decide_eq_true hwrote, of_decide_eq_true hclosed, no_crossing hreach⟩

/-- A connection hangs up after a lookup, and the next one gets its number and its slot before the batch
is finished. -/
def crossRun : List ServerAct :=
  lookupRun ++ List.replicate 2 (.client 0 .go) ++ [.client 0 (.read [] .eof)] ++
    List.replicate 4 (.client 0 .go) ++ .acceptor (.accept 4) :: List.replicate 5 (.acceptor .go) ++
    List.replicate 2 (.client 0 .go) ++
    [.client 0 (.read (HashQuery.bytes ⟨OPTYPE_LOOKUP, 0, 6⟩) .full)] ++
    List.replicate 2 (.client 0 .go) ++ [.client 0 (.answer [some found, none])] ++
    List.replicate 4 (.client 0 .go) ++ [.client 0 (.writev (.wrote 10))]

/-- A connection hangs up, and the next one gets its number between the two closes. -/
def recloseRun : List ServerAct :=
  .acceptor (.accept 4) :: List.replicate 5 (.acceptor .go) ++ List.replicate 2 (.client 0 .go) ++
    [.client 0 (.read [] .eof), .client 0 .go, .acceptor (.accept 4), .client 0 .go]

/-- A response goes to another connection, and another connection is closed. -/
theorem connections_cross :
    (∃ st log, Runs.Reach Server.step (fun st _ a => a.Ok st) (.start 2 1) st log ∧ ¬ WritesOwn log) ∧
      ∃ st log, Runs.Reach Server.step (fun st _ a => a.Ok st) (.start 2 1) st log ∧
        ¬ ClosesOwn log := by
  constructor
  · have hval : (Runs.run Server.step (fun st _ a => a.Ok st) crossRun (.start 2 1) []).map
        (fun r => decide (.wrote (some 1) [⟨some found.ptr, response (some found), some 0⟩,
          ⟨none, response none, some 1⟩] ∈ r.2)) = some true := by
      decide +kernel
    obtain ⟨⟨st, log⟩, hrun, hwrote⟩ := Option.map_eq_some_iff.mp hval
    refine ⟨st, log, Runs.Reach.start.run hrun, fun hclaim => ?_⟩
    obtain ⟨n, hn, horigin⟩ := hclaim _ _ (of_decide_eq_true hwrote) _ List.mem_cons_self
    cases hn
    cases horigin
  · have hval : (Runs.run Server.step (fun st _ a => a.Ok st) recloseRun (.start 2 1) []).map
        (fun r => decide (.closed (some 0) (some 1) ∈ r.2)) = some true := by
      decide +kernel
    obtain ⟨⟨st, log⟩, hrun, hclosed⟩ := Option.map_eq_some_iff.mp hval
    refine ⟨st, log, Runs.Reach.start.run hrun, fun hclaim => ?_⟩
    rcases hclaim _ _ (of_decide_eq_true hclosed) with h | h
    · cases h
    · cases h

end SmpHashTable.HashServer
