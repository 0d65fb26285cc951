import SmpHashTable.HashServer
import SmpHashTable.Lib.Lists

/-!
# What becomes of the returned values

Every value that `doqueries` returns for a lookup has to be released and every one it returns for an
insert has to be marked ready, before the client thread gathers its next batch.  A value of a lookup
waits in the result loop first, then in the `iovec` list of its slot, until `write_iovs` releases it;
the result loop drops it if the slot has changed hands since the query was read.
-/

namespace SmpHashTable.HashServer

/-! ### The log of one client thread -/

/-- The client thread whose work with values the event is. -/
def ServerEvent.thread : ServerEvent → Option ℕ
  | .asked c _ | .answered c _ _ | .handled c _ _ _ | .filled c _ _ | .markReady c _
  | .release c _ => some c
  | .wrote .. | .failed _ | .closed .. => none

def threadLog (c : ℕ) (log : List ServerEvent) : List ServerEvent :=
  log.filter fun ev => ev.thread = some c

/-- The value returned for a lookup. -/
def hit (e : Entry) (v : Option HashValue) : Option ℕ :=
  if e.query.optype = OPTYPE_LOOKUP then v.map (·.ptr) else none

/-- The value returned for an insert. -/
def fresh (e : Entry) (v : Option HashValue) : Option ℕ :=
  if e.query.optype = OPTYPE_INSERT then v.map (·.ptr) else none

/-- The values `doqueries` returned for lookups. -/
def hits (log : List ServerEvent) : List ℕ :=
  log.filterMap fun ev => match ev with
    | .answered _ e v => hit e v
    | _ => none

/-- The values `doqueries` returned for inserts. -/
def inserted (log : List ServerEvent) : List ℕ :=
  log.filterMap fun ev => match ev with
    | .answered _ e v => fresh e v
    | _ => none

/-- The values passed to `release_value`. -/
def released (log : List ServerEvent) : List ℕ :=
  log.filterMap fun ev => match ev with
    | .release _ ptr => some ptr
    | _ => none

/-- The values passed to `mark_ready`. -/
def marked (log : List ServerEvent) : List ℕ :=
  log.filterMap fun ev => match ev with
    | .markReady _ ptr => some ptr
    | _ => none

/-- The rounds of the result loop: the query, what it returned and the socket its slot held. -/
def rounds (log : List ServerEvent) : List (Entry × Option HashValue × ℤ) :=
  log.filterMap fun ev => match ev with
    | .handled _ e v now => some (e, v, now)
    | _ => none

/-- No value is leaked, released twice, left unready or marked twice by client thread `c`. -/
def Settled (c : ℕ) (log : List ServerEvent) : Prop :=
  (released (threadLog c log)).Perm (hits (threadLog c log)) ∧
    (marked (threadLog c log)).Perm (inserted (threadLog c log))

section

variable (log evs : List ServerEvent)

theorem threadLog_append (c : ℕ) :
    threadLog c (log ++ evs) = threadLog c log ++ threadLog c evs := List.filter_append _ _

variable {log evs} in
theorem threadLog_eq_self {c : ℕ} (h : ∀ ev ∈ evs, ev.thread = some c) : threadLog c evs = evs :=
  List.filter_eq_self.mpr fun ev hev => decide_eq_true (h ev hev)

variable {log evs} in
theorem threadLog_eq_nil {c : ℕ} (h : ∀ ev ∈ evs, ev.thread ≠ some c) : threadLog c evs = [] :=
  List.filter_eq_nil_iff.mpr fun ev hev => by simpa using h ev hev

theorem threadLog_cons {c : ℕ} {ev : ServerEvent} (h : ev.thread = some c) :
    threadLog c (ev :: evs) = ev :: threadLog c evs := by
  simp [threadLog, h]

theorem threadLog_cons_of_ne {c : ℕ} {ev : ServerEvent} (h : ev.thread ≠ some c) :
    threadLog c (ev :: evs) = threadLog c evs := by
  simp [threadLog, h]

theorem hits_append : hits (log ++ evs) = hits log ++ hits evs := List.filterMap_append

theorem inserted_append : inserted (log ++ evs) = inserted log ++ inserted evs :=
  List.filterMap_append

theorem released_append : released (log ++ evs) = released log ++ released evs :=
  List.filterMap_append

theorem marked_append : marked (log ++ evs) = marked log ++ marked evs := List.filterMap_append

theorem rounds_append : rounds (log ++ evs) = rounds log ++ rounds evs := List.filterMap_append

end

/-! ### The `iovec` lists -/

/-- The values in a list of `iovec`s. -/
def values (iovs : List Iov) : List ℕ := iovs.filterMap (·.value)

theorem values_cons (v : Iov) (iovs : List Iov) :
    values (v :: iovs) = v.value.toList ++ values iovs := Lists.filterMap_cons_toList _ _ _

/-- What is left to write for each slot. -/
def Client.outbox (cl : Client) : ℕ → List Iov :=
  match cl.pc with
  | .write k _ iovs => Function.update cl.writeiov k iovs
  | _ => cl.writeiov

/-- The values that wait to be released. -/
def Client.pending (cl : Client) : List ℕ := Lists.cat MAX_SOCKETS (values ∘ cl.outbox)

/-- The results that wait to be handled. -/
def Client.todo (cl : Client) : List (Entry × Option HashValue) :=
  match cl.pc with
  | .result todo => todo
  | _ => []

theorem Client.todo_result {cl : Client} {todo : List (Entry × Option HashValue)}
    (hpc : cl.pc = .result todo) : cl.todo = todo := by
  rw [Client.todo, hpc]

/-- `write_iovs` passes over no value and releases none twice. -/
theorem values_progress {n : ℕ} {iovs done cur : List Iov} (h : progress n iovs = (done, cur)) :
    values iovs = values done ++ values cur := by
  fun_induction progress n iovs generalizing done cur with
  | case1 =>
      cases h
      rfl
  | case2 =>
      cases h
      rfl
  | case3 =>
      cases h
      exact (List.append_nil _).symm
  | case4 n v hn hle w rest done' cur' hrest ih =>
      cases h
      show _ = values (v :: done') ++ values cur'
      rw [values_cons, ih hrest, ← List.append_assoc, ← values_cons]
  | case5 =>
      cases h
      rfl

/-- The thread gathers a batch. -/
def ClientPc.Gathering : ClientPc → Prop
  | .result _ | .slot _ | .write .. => False
  | _ => True

theorem Client.fails_gathering (cl : Client) (fds : ℤ → Option ℕ) (r : ℕ) :
    (cl.fails fds r).pc.Gathering := by
  unfold Client.fails
  by_cases hr : r = 2 <;> simp [hr, ClientPc.Gathering]

theorem Client.todo_of_gathering {cl : Client} (h : cl.pc.Gathering) : cl.todo = [] := by
  unfold Client.todo
  cases hpc : cl.pc <;> simp_all [ClientPc.Gathering]

theorem Client.outbox_of_gathering {cl : Client} (h : cl.pc.Gathering) : cl.outbox = cl.writeiov := by
  unfold Client.outbox
  cases hpc : cl.pc <;> simp_all [ClientPc.Gathering]

theorem threadLog_releases (c : ℕ) (iovs : List Iov) :
    threadLog c (releases c iovs) = releases c iovs :=
  threadLog_eq_self (List.forall_mem_map.mpr fun _ _ => rfl)

/-- The slots whose lists have to be empty. -/
def Client.Cleared (cl : Client) (j : ℕ) : Prop :=
  match cl.pc with
  | .result _ => MAX_SOCKETS ≤ j
  | .slot k => j < k ∨ MAX_SOCKETS ≤ j
  | .write k _ _ => j < k ∨ MAX_SOCKETS ≤ j
  | _ => True

theorem Client.cleared_of_gathering {cl : Client} (h : cl.pc.Gathering) (j : ℕ) : cl.Cleared j := by
  unfold Client.Cleared
  cases hpc : cl.pc <;> simp_all [ClientPc.Gathering]

/-- The slots in use are below `MAX_SOCKETS`, and the lists are empty outside the phase that fills and
writes them. -/
structure Tidy (cl : Client) : Prop where
  slot : cl.i < MAX_SOCKETS
  last : cl.lastSocket < MAX_SOCKETS
  batch : ∀ e ∈ cl.batch, e.sid < MAX_SOCKETS
  todo : ∀ p ∈ cl.todo, p.1.sid < MAX_SOCKETS
  writing : ∀ k sock iovs, cl.pc = .write k sock iovs → k < MAX_SOCKETS
  empty : ∀ j, cl.Cleared j → cl.writeiov j = []

theorem Tidy.outbox_nil {cl : Client} (h : Tidy cl) (hpc : cl.pc.Gathering) (k : ℕ) :
    cl.outbox k = [] := by
  rw [Client.outbox_of_gathering hpc]
  exact h.empty k (Client.cleared_of_gathering hpc k)

theorem Tidy.gather {cl cl' : Client} (h : Tidy cl) (hpc : cl.pc.Gathering) (hpc' : cl'.pc.Gathering)
    (hi : cl'.i < MAX_SOCKETS) (hlast : cl'.lastSocket < MAX_SOCKETS)
    (hbatch : ∀ e ∈ cl'.batch, e.sid < MAX_SOCKETS) (hiov : cl'.writeiov = cl.writeiov) :
    Tidy cl' where
  slot := hi
  last := hlast
  batch := hbatch
  todo := by
    rw [Client.todo_of_gathering hpc']
    exact fun p hp => absurd hp List.not_mem_nil
  writing := fun k sock iovs hk => by
    rw [hk] at hpc'
    exact hpc'.elim
  empty := fun j _ => by
    rw [hiov]
    exact h.empty j (Client.cleared_of_gathering hpc j)

/-- One query more. -/
theorem Tidy.batch_concat {cl : Client} (h : Tidy cl) {e : Entry} (he : e.sid = cl.i) :
    ∀ e' ∈ cl.batch ++ [e], e'.sid < MAX_SOCKETS := by
  intro e' he'
  rcases List.mem_append.mp he' with he' | he'
  · exact h.batch e' he'
  · rw [List.mem_singleton.mp he', he]
    exact h.slot

/-- The phase that fills and writes the lists. -/
theorem Tidy.deliver {cl cl' : Client} (h : Tidy cl) (hi : cl'.i = cl.i)
    (hlast : cl'.lastSocket = cl.lastSocket) (hbatch : cl'.batch = cl.batch)
    (htodo : ∀ p ∈ cl'.todo, p.1.sid < MAX_SOCKETS)
    (hwriting : ∀ k sock iovs, cl'.pc = .write k sock iovs → k < MAX_SOCKETS)
    (hempty : ∀ j, cl'.Cleared j → cl'.writeiov j = []) : Tidy cl' where
  slot := hi ▸ h.slot
  last := hlast ▸ h.last
  batch := hbatch ▸ h.batch
  todo := htodo
  writing := hwriting
  empty := hempty

/-- The list of slot `k` has been written. -/
theorem Tidy.written {cl : Client} {k : ℕ} {sock : ℤ} {iovs : List Iov} (h : Tidy cl)
    (hpc : cl.pc = .write k sock iovs) (j : ℕ) (hj : j < k + 1 ∨ MAX_SOCKETS ≤ j) :
    Function.update cl.writeiov k [] j = [] := by
  by_cases hjk : j = k
  · rw [hjk, Function.update_self]
  · rw [Function.update_of_ne hjk]
    refine h.empty j ?_
    simp only [Client.Cleared, hpc]
    omega

theorem Tidy.step {b c : ℕ} {cl cl' : Client} {fds fds' : ℤ → Option ℕ} {a : ClientAct}
    {evs : List ServerEvent} (h : Tidy cl) (hstep : ClientStep b cl fds c a cl' fds' evs) :
    Tidy cl' := by
  cases hstep with
  | newBatch hpc =>
      exact h.gather (by rw [hpc]; trivial) trivial h.last h.last (by simp) rfl
  | nextSlot hpc | roundDone hpc =>
      exact h.gather (by rw [hpc]; trivial) trivial (Nat.mod_lt _ (by decide)) h.last h.batch rfl
  | lookup hpc =>
      exact h.gather (by rw [hpc]; trivial) trivial h.slot h.slot (h.batch_concat rfl) rfl
  | insertDone hpc hret he =>
      exact h.gather (by rw [hpc]; trivial) trivial h.slot h.last (h.batch_concat (by rw [he])) rfl
  | insert hpc | invalid hpc =>
      exact h.gather (by rw [hpc]; trivial) trivial h.slot h.slot h.batch rfl
  | noHeader hpc | noValue hpc =>
      exact h.gather (by rw [hpc]; trivial) (Client.fails_gathering _ _ _) h.slot h.last h.batch rfl
  | answer hpc =>
      refine h.deliver rfl rfl rfl ?_ (by simp) ?_
      · exact fun p hp => h.batch p.1 (List.of_mem_zip hp).1
      · exact fun j _ => h.empty j (Client.cleared_of_gathering (by rw [hpc]; trivial) j)
  | @kept e v todo hpc =>
      refine h.deliver rfl rfl rfl ?_ (by simp) ?_
      · exact fun p hp => h.todo p (by rw [Client.todo_result hpc]; exact List.mem_cons_of_mem _ hp)
      · intro j hj
        have hj : MAX_SOCKETS ≤ j := hj
        have hsid := h.todo (e, v) (by rw [Client.todo_result hpc]; exact List.mem_cons_self)
        have hne : j ≠ e.sid := by
          simp only at hsid
          omega
        refine (Function.update_of_ne hne _ _).trans (h.empty j ?_)
        rw [Client.Cleared, hpc]
        exact hj
  | dropped hpc | filled hpc =>
      refine h.deliver rfl rfl rfl ?_ (by simp) ?_
      · exact fun p hp => h.todo p (by rw [Client.todo_result hpc]; exact List.mem_cons_of_mem _ hp)
      · exact fun j hj => h.empty j (by rw [Client.Cleared, hpc]; exact hj)
  | resultsDone hpc =>
      refine h.deliver rfl rfl rfl (by simp [Client.todo]) (by simp) ?_
      intro j hj
      have hj : j < 0 ∨ MAX_SOCKETS ≤ j := hj
      exact h.empty j (by rw [Client.Cleared, hpc]; show MAX_SOCKETS ≤ j; omega)
  | writeSlot hpc hk =>
      refine h.deliver rfl rfl rfl (by simp [Client.todo]) ?_ ?_
      · intro k sock iovs hw
        cases hw
        exact hk
      · exact fun j hj => h.empty j (by rw [Client.Cleared, hpc]; exact hj)
  | @skipSlot k hpc hk hnil =>
      refine h.deliver rfl rfl rfl (by simp [Client.todo]) (by simp) ?_
      intro j hj
      have hj : j < k + 1 ∨ MAX_SOCKETS ≤ j := hj
      by_cases hjk : j = k
      · rw [hjk]
        exact hnil
      · exact h.empty j (by rw [Client.Cleared, hpc]; show j < k ∨ MAX_SOCKETS ≤ j; omega)
  | @slotsDone k hpc hk =>
      refine h.deliver rfl rfl rfl (by simp [Client.todo]) (by simp) ?_
      exact fun j _ => h.empty j (by rw [Client.Cleared, hpc]; show j < k ∨ MAX_SOCKETS ≤ j; omega)
  | writeFails hpc | writeDone hpc =>
      exact h.deliver rfl rfl rfl (by simp [Client.todo]) (by simp) (h.written hpc)
  | writeAgain hpc => exact h
  | writePart hpc =>
      refine h.deliver rfl rfl rfl (by simp [Client.todo]) ?_ ?_
      · intro k sock iovs hw
        cases hw
        exact h.writing _ _ _ hpc
      · exact fun j hj => h.empty j (by rw [Client.Cleared, hpc]; exact hj)
  | _ hpc =>
      exact h.gather (by rw [hpc]; trivial) trivial h.slot h.last h.batch rfl

theorem tidy {ok : Server → List ServerEvent → ServerAct → Prop} {b n : ℕ} {st : Server}
    {log : List ServerEvent} (h : Runs.Reach Server.step ok (.start b n) st log) (c : ℕ) :
    Tidy (st.client c) := by
  refine Server.client_invariant (P := Tidy) ?_ ?_ ?_ h c
  · intro c
    have hpos : 0 < MAX_SOCKETS := by decide
    exact ⟨hpos, hpos, fun e he => absurd he List.not_mem_nil, fun p hp => absurd hp List.not_mem_nil,
      fun k sock iovs hk => ClientPc.noConfusion hk, fun j _ => rfl⟩
  · exact fun cd ht => ⟨ht.slot, ht.last, ht.batch, ht.todo, ht.writing, ht.empty⟩
  · exact fun _ ht hgo => ht.step (clientgo_step hgo)

/-! ### Where each value is -/

/-- The values of the lookups that the result loop handled. -/
def handledHits (log : List ServerEvent) : List ℕ :=
  (rounds log).filterMap fun p => hit p.1 p.2.1

/-- The values of those whose slot had not changed hands. -/
def keptHits (log : List ServerEvent) : List ℕ :=
  ((rounds log).filter fun p => p.2.2 = p.1.socket).filterMap fun p => hit p.1 p.2.1

theorem handledHits_append (log evs : List ServerEvent) :
    handledHits (log ++ evs) = handledHits log ++ handledHits evs := by
  rw [handledHits, rounds_append, List.filterMap_append]
  rfl

theorem keptHits_append (log evs : List ServerEvent) :
    keptHits (log ++ evs) = keptHits log ++ keptHits evs := by
  rw [keptHits, rounds_append, List.filter_append, List.filterMap_append]
  rfl

/-- The values that a client thread at `cl` has been given: the results are handled or wait, the values
that were kept are released or wait, and those of inserts are ready or wait. -/
structure Accounted (cl : Client) (log : List ServerEvent) : Prop where
  hits : hits log = handledHits log ++ cl.todo.filterMap fun p => hit p.1 p.2
  kept : (keptHits log).Perm (released log ++ cl.pending)
  inserts : inserted log = marked log ++ cl.todo.filterMap fun p => fresh p.1 p.2

/-- What a step adds on the one side it has to add on the other. -/
theorem Accounted.extend {cl cl' : Client} {log evs : List ServerEvent} (h : Accounted cl log)
    (hhits : (cl.todo.filterMap fun p => hit p.1 p.2) ++ HashServer.hits evs
      = handledHits evs ++ cl'.todo.filterMap fun p => hit p.1 p.2)
    (hkept : (cl.pending ++ keptHits evs).Perm (released evs ++ cl'.pending))
    (hinserts : (cl.todo.filterMap fun p => fresh p.1 p.2) ++ inserted evs
      = marked evs ++ cl'.todo.filterMap fun p => fresh p.1 p.2) : Accounted cl' (log ++ evs) where
  hits := by
    rw [hits_append, h.hits, List.append_assoc, hhits, handledHits_append, List.append_assoc]
  kept := by
    rw [keptHits_append, released_append, List.append_assoc]
    refine (h.kept.append_right _).trans ?_
    rw [List.append_assoc]
    exact hkept.append_left _
  inserts := by
    rw [inserted_append, h.inserts, List.append_assoc, hinserts, marked_append, List.append_assoc]

/-- The events have nothing to do with values. -/
def Silent (evs : List ServerEvent) : Prop :=
  hits evs = [] ∧ rounds evs = [] ∧ released evs = [] ∧ inserted evs = [] ∧ marked evs = []

theorem silent_nil : Silent [] := ⟨rfl, rfl, rfl, rfl, rfl⟩

theorem Accounted.silent {cl cl' : Client} {log evs : List ServerEvent} (h : Accounted cl log)
    (hevs : Silent evs) (htodo : cl'.todo = cl.todo) (hout : cl'.outbox = cl.outbox) :
    Accounted cl' (log ++ evs) := by
  obtain ⟨h₁, h₂, h₃, h₄, h₅⟩ := hevs
  refine h.extend ?_ ?_ ?_
  · rw [h₁, handledHits, h₂, htodo]
    simp
  · rw [keptHits, h₂, h₃, Client.pending, Client.pending, hout]
    simp
  · rw [h₄, h₅, htodo]
    simp

/-- A `writev` of slot `k`: the values of `done` are released, and the slot is left with `cur`. -/
theorem Accounted.write {cl cl' : Client} {log : List ServerEvent} {c k : ℕ} {sock : ℤ}
    {iovs done cur : List Iov} {ev : ServerEvent} (h : Accounted cl log) (hk : k < MAX_SOCKETS)
    (hpc : cl.pc = .write k sock iovs) (hev : ev.thread = none) (htodo' : cl'.todo = [])
    (hout' : cl'.outbox = Function.update cl.writeiov k cur)
    (hvals : values iovs = values done ++ values cur) :
    Accounted cl' (log ++ threadLog c (ev :: releases c done)) := by
  have hlog : threadLog c (ev :: releases c done) = releases c done := by
    rw [threadLog_cons_of_ne _ (by simp [hev]), threadLog_releases]
  have hrel : released (releases c done) = values done := by
    simp only [released, releases, List.filterMap_map, values]
    exact List.filterMap_some
  have hrounds : rounds (releases c done) = [] := by simp [rounds, releases]
  have htodo : cl.todo = [] := by simp [Client.todo, hpc]
  have hout : cl.outbox = Function.update cl.writeiov k iovs := by simp [Client.outbox, hpc]
  rw [hlog]
  refine h.extend ?_ ?_ ?_
  · rw [htodo, htodo', handledHits, hrounds]
    simp [HashServer.hits, releases]
  · rw [keptHits, hrounds, List.filter_nil, List.filterMap_nil, List.append_nil, hrel, Client.pending,
      Client.pending, hout, hout', Function.comp_update, Function.comp_update]
    have hsplit := Lists.cat_split hk (Function.update (values ∘ cl.writeiov) k (values iovs))
      (x := values cur) (y := values done) (by rw [Function.update_self, hvals])
    rwa [Function.update_idem] at hsplit
  · rw [htodo, htodo']
    simp [inserted, marked, releases]

/-- A round of the result loop, which puts what it keeps behind what waits. -/
theorem Accounted.round {cl cl' : Client} {log evs : List ServerEvent} {e : Entry}
    {v : Option HashValue} {now : ℤ} {todo : List (Entry × Option HashValue)} (h : Accounted cl log)
    (htodo : cl.todo = (e, v) :: todo) (htodo' : cl'.todo = todo) (hrounds : rounds evs = [(e, v, now)])
    (hhits : HashServer.hits evs = []) (hrel : released evs = []) (hins : inserted evs = [])
    (hmarked : marked evs = (fresh e v).toList)
    (hpending : cl'.pending.Perm ((if now = e.socket then (hit e v).toList else []) ++ cl.pending)) :
    Accounted cl' (log ++ evs) := by
  have hkept : keptHits evs = if now = e.socket then (hit e v).toList else [] := by
    rw [keptHits, hrounds]
    by_cases hnow : now = e.socket
    · simp [hnow, Lists.filterMap_cons_toList]
    · simp [hnow]
  refine h.extend ?_ ?_ ?_
  · rw [htodo, htodo', hhits, List.append_nil, handledHits, hrounds, Lists.filterMap_cons_toList,
      Lists.filterMap_cons_toList, List.filterMap_nil, List.append_nil]
  · rw [hkept, hrel, List.nil_append]
    exact List.perm_append_comm.trans hpending.symm
  · rw [htodo, htodo', hins, hmarked, List.append_nil, Lists.filterMap_cons_toList]

theorem Accounted.step {b c : ℕ} {cl cl' : Client} {fds fds' : ℤ → Option ℕ} {a : ClientAct}
    {log evs : List ServerEvent} (ht : Tidy cl) (h : Accounted cl log)
    (hstep : ClientStep b cl fds c a cl' fds' evs) : Accounted cl' (log ++ threadLog c evs) := by
  cases hstep with
  | @answer values hpc =>
      have hgather : cl.pc.Gathering := by rw [hpc]; trivial
      have hrounds : rounds ((cl.batch.zip values).map fun p => .answered c p.1 p.2) = [] := by
        simp [rounds]
      rw [threadLog_eq_self (List.forall_mem_map.mpr fun p _ => rfl)]
      refine h.extend ?_ ?_ ?_
      · rw [Client.todo_of_gathering hgather, handledHits, hrounds]
        simp [HashServer.hits, Client.todo, List.filterMap_map]
      · rw [keptHits, hrounds, Client.pending, Client.outbox_of_gathering hgather]
        simp [released, Client.pending, Client.outbox]
      · rw [Client.todo_of_gathering hgather]
        simp [inserted, marked, Client.todo, List.filterMap_map]
  | @kept e v todo hpc hop hsock =>
      have hsid : e.sid < MAX_SOCKETS :=
        ht.todo (e, v) (by rw [Client.todo_result hpc]; exact List.mem_cons_self)
      have hfresh : fresh e v = none := by simp [fresh, hop, OPTYPE_LOOKUP, OPTYPE_INSERT]
      have hhit : hit e v = v.map (·.ptr) := by simp [hit, hop]
      rw [threadLog_eq_self (by simp [ServerEvent.thread])]
      refine h.round (Client.todo_result hpc) rfl rfl rfl rfl rfl (by rw [hfresh]; rfl) ?_
      rw [if_pos hsock, hhit, Client.pending, Client.pending]
      simp only [Client.outbox, hpc, Function.comp_update]
      have hsplit := Lists.cat_split hsid (Function.update (values ∘ cl.writeiov) e.sid
        (values (cl.writeiov e.sid ++ [⟨v.map (·.ptr), response v, e.origin⟩])))
        (x := values (cl.writeiov e.sid)) (y := (v.map (·.ptr)).toList) (by
          rw [Function.update_self, values, List.filterMap_append]
          refine List.perm_append_comm.trans ?_
          rw [Lists.filterMap_cons_toList, List.filterMap_nil, List.append_nil]
          rfl)
      rw [Function.update_idem] at hsplit
      refine hsplit.trans ?_
      rw [show values (cl.writeiov e.sid) = (values ∘ cl.writeiov) e.sid from rfl,
        Function.update_eq_self]
  | @dropped e v todo hpc hop hsock =>
      have hfresh : fresh e v = none := by simp [fresh, hop, OPTYPE_LOOKUP, OPTYPE_INSERT]
      rw [threadLog_eq_self (by simp [ServerEvent.thread])]
      refine h.round (Client.todo_result hpc) rfl rfl rfl rfl rfl (by rw [hfresh]; rfl) ?_
      rw [if_neg hsock, List.nil_append, Client.pending, Client.pending]
      simp [Client.outbox, hpc]
  | @filled e v todo hpc hop =>
      have hfresh : fresh e (some v) = some v.ptr := by simp [fresh, hop]
      have hhit : hit e (some v) = none := by simp [hit, hop, OPTYPE_LOOKUP, OPTYPE_INSERT]
      have hrounds : rounds (threadLog c [.handled c e (some v) (cl.cd.sockets e.sid),
          .filled c v.ptr (loadBytes cl.valuebuf e.offset ((e.query.size + (2 ^ 32 - 4)) % 2 ^ 32)),
          .markReady c v.ptr]) = [(e, some v, cl.cd.sockets e.sid)] := by
        simp [threadLog, ServerEvent.thread, rounds]
      refine h.round (Client.todo_result hpc) rfl hrounds ?_ ?_ ?_ ?_ ?_
      · simp [threadLog, ServerEvent.thread, HashServer.hits]
      · simp [threadLog, ServerEvent.thread, released]
      · simp [threadLog, ServerEvent.thread, inserted]
      · simp [threadLog, ServerEvent.thread, marked, hfresh]
      · rw [hhit, Option.toList_none, ite_self, List.nil_append, Client.pending, Client.pending]
        simp [Client.outbox, hpc]
  | @writeFails k sock iovs hpc =>
      exact h.write (ht.writing _ _ _ hpc) hpc rfl rfl rfl (List.append_nil (values iovs)).symm
  | writeDone hpc hprog =>
      exact h.write (ht.writing _ _ _ hpc) hpc rfl rfl rfl (values_progress hprog)
  | writePart hpc hprog =>
      exact h.write (ht.writing _ _ _ hpc) hpc rfl rfl rfl (values_progress hprog)
  | writeAgain => exact h.silent silent_nil rfl rfl
  | lookup hpc | insertDone hpc =>
      rw [threadLog_eq_self (List.forall_mem_singleton.mpr rfl)]
      exact h.silent ⟨rfl, rfl, rfl, rfl, rfl⟩ (by simp only [Client.todo, hpc])
        (by simp only [Client.outbox, hpc])
  | writeSlot hpc =>
      exact h.silent silent_nil (by simp only [Client.todo, hpc]) (by simp [Client.outbox, hpc])
  | noHeader hpc | noValue hpc =>
      have hgather : cl.pc.Gathering := by rw [hpc]; trivial
      refine h.silent silent_nil ?_ ?_
      · rw [Client.todo_of_gathering hgather]
        exact Client.todo_of_gathering (Client.fails_gathering _ _ _)
      · rw [Client.outbox_of_gathering hgather]
        exact Client.outbox_of_gathering (Client.fails_gathering _ _ _)
  | _ hpc =>
      exact h.silent silent_nil (by simp only [Client.todo, hpc]) (by simp only [Client.outbox, hpc])

/-- A thread reports nothing in the name of another. -/
theorem threadLog_of_ne {b c c' : ℕ} {cl cl' : Client} {fds fds' : ℤ → Option ℕ} {a : ClientAct}
    {evs : List ServerEvent} (hne : c' ≠ c) (hstep : ClientStep b cl fds c a cl' fds' evs) :
    threadLog c' evs = [] := by
  have hc : some c ≠ some c' := fun h => hne (Option.some.inj h).symm
  refine threadLog_eq_nil ?_
  cases hstep with
  | answer => exact List.forall_mem_map.mpr fun p _ => hc
  | writeFails | writeDone | writePart =>
      exact List.forall_mem_cons.mpr ⟨by simp [ServerEvent.thread],
        List.forall_mem_map.mpr fun ptr _ => hc⟩
  | lookup | insertDone | kept | dropped =>
      exact List.forall_mem_singleton.mpr hc
  | filled => simp [ServerEvent.thread, hne.symm]
  | _ => simp [ServerEvent.thread]

/-! ### Every run -/

/-- The value that the lookup in the runs below finds. -/
def found : HashValue := ⟨7, [1, 2]⟩

/-- A connection whose first query is a lookup, up to the end of its first `read_object`. -/
def lookupRun : List ServerAct :=
  .acceptor (.accept 4) :: List.replicate 5 (.acceptor .go) ++ List.replicate 2 (.client 0 .go) ++
    [.client 0 (.read (HashQuery.bytes ⟨OPTYPE_LOOKUP, 0, 5⟩) .full)]

/-- A batch of one lookup: its value is written in two pieces. -/
def releaseRun : List ServerAct :=
  lookupRun ++ List.replicate 2 (.client 0 .go) ++ [.client 0 (.answer [some found])] ++
    List.replicate 3 (.client 0 .go) ++
    [.client 0 (.writev (.wrote 2)), .client 0 (.writev .again), .client 0 (.writev (.wrote 4))] ++
    List.replicate 128 (.client 0 .go)

end SmpHashTable.HashServer
