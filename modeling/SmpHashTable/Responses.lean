import SmpHashTable.Connections

/-!
# The stream of responses

The bytes written to a connection against the responses to its lookups.  The result loop puts the
responses of a slot into its list in the order of the queries, and `write_iovs` writes the list piece by
piece; what is neither written nor waits in the list waits in the result loop.

When a `writev` fails the rest of the list is given up while the connection stays open, so the stream is
right as long as nothing is written to a connection after that.
-/

namespace SmpHashTable.HashServer

/-! ### The client library -/

/-- `readvalue` of `hashclient.c` on what the stream still holds: what it returns, the bytes it stores,
and the rest of the stream. -/
def readvalue (fin : List UInt8) : ℤ × List UInt8 × List UInt8 :=
  if fin.length < 4 then (-1, [], [])
  else
    let size := Bytes.ofLe (fin.take 4)
    let fin := fin.drop 4
    if size > 0 then
      if fin.length < size then (-1, fin, [])
      else (intOfWord size, fin.take size, fin.drop size)
    else (intOfWord size, [], fin)

/-- `n` calls of `readvalue`. -/
def readvalues : ℕ → List UInt8 → List (ℤ × List UInt8)
  | 0, _ => []
  | n + 1, fin =>
      let (r, value, rest) := readvalue fin
      (r, value) :: readvalues n rest

/-- The result of a lookup: the size of the value and its bytes, `0` and none for a miss. -/
def lookupResult : Option HashValue → ℤ × List UInt8
  | none => (0, [])
  | some v => (intOfWord v.data.length, v.data)

/-- The size fits its field. -/
def Fits32 (v : Option HashValue) : Prop := ∀ w ∈ v, w.data.length < 2 ^ 32

instance (v : Option HashValue) : Decidable (Fits32 v) := by
  unfold Fits32
  infer_instance

theorem readvalue_sized {n : ℕ} {data rest : List UInt8} (hn : n < 2 ^ 32) (hlen : data.length = n) :
    readvalue (Bytes.le 4 n ++ (data ++ rest)) = (intOfWord n, data, rest) := by
  have htake : (Bytes.le 4 n ++ (data ++ rest)).take 4 = Bytes.le 4 n :=
    List.take_left' (Bytes.length_le 4 n)
  have hdrop : (Bytes.le 4 n ++ (data ++ rest)).drop 4 = data ++ rest :=
    List.drop_left' (Bytes.length_le 4 n)
  have hsize : Bytes.ofLe (Bytes.le 4 n) = n := by
    rw [Bytes.ofLe_le]
    exact Nat.mod_eq_of_lt (by omega)
  have hlong : ¬ (Bytes.le 4 n ++ (data ++ rest)).length < 4 := by
    rw [List.length_append, Bytes.length_le]
    omega
  rw [readvalue, if_neg hlong]
  simp only [htake, hdrop, hsize]
  by_cases hpos : n > 0
  · rw [if_pos hpos, if_neg (by rw [List.length_append]; omega), List.take_left' hlen,
      List.drop_left' hlen]
  · have hnil : data = [] := List.eq_nil_of_length_eq_zero (by omega)
    rw [if_neg hpos, hnil, List.nil_append]

theorem readvalue_response {v : Option HashValue} (hv : Fits32 v) (rest : List UInt8) :
    readvalue (response v ++ rest) = ((lookupResult v).1, (lookupResult v).2, rest) := by
  cases v with
  | none => exact readvalue_sized (by decide) (rfl : ([] : List UInt8).length = 0)
  | some w =>
      rw [response, List.append_assoc]
      exact readvalue_sized (hv w rfl) rfl

/-- The client library reads back the results in order. -/
theorem readvalues_responses {vs : List (Option HashValue)} (hvs : ∀ v ∈ vs, Fits32 v) :
    readvalues vs.length (vs.flatMap response) = vs.map lookupResult := by
  induction vs with
  | nil => rfl
  | cons v vs ih =>
      rw [List.length_cons, readvalues, List.flatMap_cons,
        readvalue_response (hvs v List.mem_cons_self), List.map_cons]
      exact congrArg _ (ih fun w hw => hvs w (List.mem_cons_of_mem v hw))

/-! ### What is written -/

/-- The bytes in a list of `iovec`s. -/
def bytes (iovs : List Iov) : List UInt8 := iovs.flatMap (·.left)

theorem bytes_cons (v : Iov) (iovs : List Iov) : bytes (v :: iovs) = v.left ++ bytes iovs :=
  List.flatMap_cons

theorem pieces_zero (iovs : List Iov) : pieces 0 iovs = [] := by
  cases iovs with
  | nil => rfl
  | cons v rest => rfl

theorem pieces_cons {n : ℕ} (hn : n ≠ 0) (v : Iov) (rest : List Iov) :
    pieces n (v :: rest) = { v with left := v.left.take n } :: pieces (n - v.left.length) rest :=
  if_neg hn

/-- `write_iovs` goes on exactly where the `writev` stopped. -/
theorem bytes_progress {n : ℕ} {iovs done cur : List Iov} (h : progress n iovs = (done, cur)) :
    bytes iovs = bytes (pieces n iovs) ++ bytes cur := by
  fun_induction progress n iovs generalizing done with
  | case1 =>
      cases h
      rfl
  | case2 =>
      cases h
      rfl
  | case3 n v hn hle =>
      cases h
      rw [pieces_cons hn, bytes_cons, bytes_cons]
      show v.left ++ [] = v.left.take n ++ [] ++ []
      rw [List.take_of_length_le hle, List.append_nil, List.append_nil]
  | case4 n v hn hle w rest done' cur' hrest ih =>
      cases h
      rw [pieces_cons hn, bytes_cons v, ih hrest, bytes_cons, List.append_assoc]
      show v.left ++ _ = v.left.take n ++ _
      rw [List.take_of_length_le hle]
  | case5 n v rest hn hlt =>
      cases h
      rw [pieces_cons hn, show n - v.left.length = 0 by omega, pieces_zero, bytes_cons, bytes_cons,
        bytes_cons]
      show v.left ++ bytes rest = v.left.take n ++ [] ++ (v.left.drop n ++ bytes rest)
      rw [List.append_nil, ← List.append_assoc, List.take_append_drop]

/-- The lookups of a connection. -/
def mine (conn : ℕ) (e : Entry) : Bool := e.query.optype = OPTYPE_LOOKUP ∧ e.origin = some conn

/-- The queries, in the order they were read. -/
def asks (log : List ServerEvent) : List Entry :=
  log.filterMap fun ev => match ev with
    | .asked _ e => some e
    | _ => none

/-- What the queries returned, in the order `doqueries` returned it. -/
def replies (log : List ServerEvent) : List (Entry × Option HashValue) :=
  log.filterMap fun ev => match ev with
    | .answered _ e v => some (e, v)
    | _ => none

/-- The lookups read from the connection, in the order they were read. -/
def requests (conn : ℕ) (log : List ServerEvent) : List Entry := (asks log).filter (mine conn)

/-- What the lookups of the connection returned. -/
def answers (conn : ℕ) (log : List ServerEvent) : List (Entry × Option HashValue) :=
  (replies log).filter fun p => mine conn p.1

/-- The responses to the lookups. -/
def responses (ps : List (Entry × Option HashValue)) : List UInt8 := ps.flatMap fun p => response p.2

/-- The bytes written to the connection. -/
def written (conn : ℕ) (log : List ServerEvent) : List UInt8 :=
  log.flatMap fun ev => match ev with
    | .wrote c ps => if c = some conn then bytes ps else []
    | _ => []

section

variable (conn : ℕ) (log evs : List ServerEvent)

theorem asks_append : asks (log ++ evs) = asks log ++ asks evs := List.filterMap_append

theorem replies_append : replies (log ++ evs) = replies log ++ replies evs := List.filterMap_append

theorem answers_append : answers conn (log ++ evs) = answers conn log ++ answers conn evs := by
  rw [answers, replies_append, List.filter_append]
  rfl

theorem written_append : written conn (log ++ evs) = written conn log ++ written conn evs :=
  List.flatMap_append

theorem responses_append (ps qs : List (Entry × Option HashValue)) :
    responses (ps ++ qs) = responses ps ++ responses qs := List.flatMap_append

end

theorem replies_answered (c : ℕ) (ps : List (Entry × Option HashValue)) :
    replies (ps.map fun p => .answered c p.1 p.2) = ps := by
  rw [replies, List.filterMap_map]
  exact List.filterMap_some

/-- What is still to be written to slot `i` for its connection `conn`. -/
def Client.due (cl : Client) (conn i : ℕ) : List UInt8 :=
  bytes (cl.outbox i) ++ responses (cl.todo.filter fun p => mine conn p.1)

/-- The events say nothing about the stream of the connection. -/
def Mute (conn : ℕ) (evs : List ServerEvent) : Prop := answers conn evs = [] ∧ written conn evs = []

/-- The connection in slot `i` of a thread at `cl` is `conn`: the thread writes to it for this slot only,
and the lookups that the result loop keeps for the slot are those of `conn`. -/
structure Occupied (cl : Client) (fds : ℤ → Option ℕ) (conn i : ℕ) : Prop where
  writing : ∀ k sock iovs, cl.pc = .write k sock iovs → (fds sock = some conn ↔ k = i)
  keeps : ∀ e v todo, cl.pc = .result ((e, v) :: todo) → e.query.optype = OPTYPE_LOOKUP →
    (e.origin = some conn ↔ e.sid = i ∧ cl.cd.sockets e.sid = e.socket)

theorem asks_releases (c : ℕ) (iovs : List Iov) : asks (releases c iovs) = [] := by
  simp [asks, releases]

theorem replies_releases (c : ℕ) (iovs : List Iov) : replies (releases c iovs) = [] := by
  simp [replies, releases]

theorem mute_releases (conn c : ℕ) (iovs : List Iov) : Mute conn (releases c iovs) := by
  constructor
  · rw [answers, replies_releases]
    rfl
  · refine List.flatMap_eq_nil_iff.mpr (List.forall_mem_map.mpr fun ptr _ => rfl)

theorem Client.due_quiet {cl cl' : Client} {conn i : ℕ} {evs : List ServerEvent} (hm : Mute conn evs)
    (htodo : cl'.todo = cl.todo) (hout : cl'.outbox i = cl.outbox i) :
    cl.due conn i ++ responses (answers conn evs) = written conn evs ++ cl'.due conn i := by
  rw [hm.1, hm.2, Client.due, Client.due, htodo, hout]
  exact List.append_nil _

/-- A `writev` of the list of slot `k`, which may be that of another connection. -/
theorem Client.due_write {cl cl' : Client} {fds : ℤ → Option ℕ} {c conn i k n : ℕ} {sock : ℤ}
    {iovs done cur : List Iov} (hocc : Occupied cl fds conn i) (hpc : cl.pc = .write k sock iovs)
    (hprog : progress n iovs = (done, cur)) (htodo' : cl'.todo = [])
    (hout' : cl'.outbox = Function.update cl.writeiov k cur) :
    cl.due conn i
        ++ responses (answers conn (.wrote (fds sock) (pieces n iovs) :: releases c done))
      = written conn (.wrote (fds sock) (pieces n iovs) :: releases c done) ++ cl'.due conn i := by
  have htodo : cl.todo = [] := by simp [Client.todo, hpc]
  have hout : cl.outbox = Function.update cl.writeiov k iovs := by simp [Client.outbox, hpc]
  have hanswers : answers conn (.wrote (fds sock) (pieces n iovs) :: releases c done) = [] :=
    (mute_releases conn c done).1
  have hwritten : written conn (.wrote (fds sock) (pieces n iovs) :: releases c done)
      = if k = i then bytes (pieces n iovs) else [] := by
    show (if fds sock = some conn then _ else _) ++ written conn (releases c done) = _
    rw [(mute_releases conn c done).2, List.append_nil]
    exact if_congr (hocc.writing k sock iovs hpc) rfl rfl
  rw [hanswers, hwritten, Client.due, Client.due, htodo, htodo', hout, hout']
  show bytes _ ++ [] ++ [] = _ ++ (bytes _ ++ [])
  rw [List.append_nil, List.append_nil, List.append_nil]
  by_cases hk : k = i
  · subst hk
    rw [if_pos rfl, Function.update_self, Function.update_self]
    exact bytes_progress hprog
  · have hik : i ≠ k := fun h => hk h.symm
    rw [if_neg hk, Function.update_of_ne hik, Function.update_of_ne hik, List.nil_append]

/-- A round of the result loop. -/
theorem Client.due_round {cl cl' : Client} {conn i : ℕ} {e : Entry} {v : Option HashValue}
    {todo : List (Entry × Option HashValue)} {evs : List ServerEvent} (hm : Mute conn evs)
    (hpc : cl.pc = .result ((e, v) :: todo)) (hpc' : cl'.pc = .result todo)
    (hout : bytes (cl'.writeiov i)
      = bytes (cl.writeiov i) ++ if mine conn e then response v else []) :
    cl.due conn i ++ responses (answers conn evs) = written conn evs ++ cl'.due conn i := by
  have hfirst : cl.outbox = cl.writeiov := by rw [Client.outbox, hpc]
  have hfirst' : cl'.outbox = cl'.writeiov := by rw [Client.outbox, hpc']
  rw [hm.1, hm.2, Client.due, Client.due, Client.todo_result hpc, Client.todo_result hpc', hfirst,
    hfirst', hout]
  show _ ++ [] = [] ++ _
  rw [List.append_nil, List.nil_append, List.append_assoc]
  refine congrArg _ ?_
  by_cases he : mine conn e = true
  · rw [List.filter_cons_of_pos (by exact he), if_pos he]
    rfl
  · rw [List.filter_cons_of_neg (by exact he), if_neg he, List.nil_append]

/-- What a step adds to the responses it adds to what is written or due. -/
theorem ClientStep.due {b c conn i : ℕ} {cl cl' : Client} {fds fds' : ℤ → Option ℕ} {a : ClientAct}
    {evs : List ServerEvent} (h : ClientStep b cl fds c a cl' fds' evs) (ht : Tidy cl)
    (hocc : Occupied cl fds conn i) (hfail : .failed (some conn) ∉ evs) :
    cl.due conn i ++ responses (answers conn evs) = written conn evs ++ cl'.due conn i := by
  cases h with
  | @answer values hpc =>
      have hgather : cl.pc.Gathering := by rw [hpc]; trivial
      have hanswers : answers conn ((cl.batch.zip values).map fun p => .answered c p.1 p.2)
          = (cl.batch.zip values).filter fun p => mine conn p.1 := by
        rw [answers, replies_answered]
      have hwritten : written conn ((cl.batch.zip values).map fun p => .answered c p.1 p.2) = [] :=
        List.flatMap_eq_nil_iff.mpr (List.forall_mem_map.mpr fun p _ => rfl)
      rw [hanswers, hwritten, Client.due, Client.due, ht.outbox_nil hgather,
        Client.todo_of_gathering hgather, Client.todo_result rfl]
      show _ = [] ++ (bytes (cl.writeiov i) ++ _)
      rw [ht.empty i (Client.cleared_of_gathering hgather i)]
      rfl
  | @kept e v todo hpc hop hsock =>
      have hm : Mute conn [.handled c e v (cl.cd.sockets e.sid)] := ⟨rfl, rfl⟩
      refine Client.due_round hm hpc rfl ?_
      have hmine : mine conn e = true ↔ e.sid = i := by
        rw [mine, decide_eq_true_iff, hocc.keeps e v todo hpc hop]
        exact ⟨fun h => h.2.1, fun h => ⟨hop, h, hsock⟩⟩
      show bytes (Function.update cl.writeiov e.sid _ i) = _
      by_cases hi : e.sid = i
      · rw [if_pos (hmine.mpr hi), hi, Function.update_self, bytes, List.flatMap_append]
        exact congrArg _ (List.append_nil _)
      · rw [if_neg (fun h => hi (hmine.mp h)), Function.update_of_ne (fun h => hi h.symm),
          List.append_nil]
  | @dropped e v todo hpc hop hsock =>
      have hm : Mute conn [.handled c e v (cl.cd.sockets e.sid)] := ⟨rfl, rfl⟩
      refine Client.due_round hm hpc rfl ?_
      have hmine : ¬ mine conn e = true := by
        rw [mine, decide_eq_true_iff, hocc.keeps e v todo hpc hop]
        exact fun h => hsock h.2.2
      rw [if_neg hmine, List.append_nil]
  | @filled e v todo hpc hop =>
      refine Client.due_round ⟨rfl, rfl⟩ hpc rfl ?_
      have hmine : ¬ mine conn e = true := by
        rw [mine, decide_eq_true_iff, hop]
        exact fun h => absurd h.1 (by decide)
      rw [if_neg hmine, List.append_nil]
  | @writeFails k sock iovs hpc =>
      have hki : i ≠ k := by
        rintro rfl
        rw [(hocc.writing i sock iovs hpc).mpr rfl] at hfail
        exact hfail List.mem_cons_self
      refine Client.due_quiet (mute_releases conn c iovs) (by simp [Client.todo, hpc]) ?_
      simp only [Client.outbox, hpc]
      rw [Function.update_of_ne hki, Function.update_of_ne hki]
  | writeDone hpc hprog => exact Client.due_write hocc hpc hprog rfl rfl
  | writePart hpc hprog => exact Client.due_write hocc hpc hprog rfl rfl
  | writeSlot hpc =>
      refine Client.due_quiet ⟨rfl, rfl⟩ (by simp only [Client.todo, hpc]) ?_
      simp [Client.outbox, hpc]
  | writeAgain hpc => exact Client.due_quiet ⟨rfl, rfl⟩ rfl rfl
  | noHeader hpc | noValue hpc =>
      have hgather : cl.pc.Gathering := by rw [hpc]; trivial
      refine Client.due_quiet ⟨rfl, rfl⟩ ?_ ?_
      · rw [Client.todo_of_gathering hgather]
        exact Client.todo_of_gathering (Client.fails_gathering _ _ _)
      · rw [Client.outbox_of_gathering hgather,
          Client.outbox_of_gathering (Client.fails_gathering _ _ _)]
        rfl
  | _ hpc =>
      exact Client.due_quiet ⟨rfl, rfl⟩ (by simp only [Client.todo, hpc])
        (by simp only [Client.outbox, hpc])

/-! ### Requests are answered in order -/

/-- The queries of the batch that is being gathered. -/
def Client.gathered (cl : Client) : List Entry :=
  match cl.pc with
  | .top | .result _ | .slot _ | .write .. => []
  | _ => cl.batch

theorem Client.fails_gathered (cl : Client) (fds : ℤ → Option ℕ) (r : ℕ) :
    (cl.fails fds r).gathered = cl.batch := by
  unfold Client.gathered Client.fails
  by_cases hr : r = 2 <;> simp [hr]

/-- The queries a thread has read are those that are answered and those it has gathered. -/
theorem ClientStep.gathered {b c : ℕ} {cl cl' : Client} {fds fds' : ℤ → Option ℕ} {a : ClientAct}
    {evs : List ServerEvent} (h : ClientStep b cl fds c a cl' fds' evs) (hok : a.Ok cl) :
    cl.gathered ++ asks (threadLog c evs) = (replies (threadLog c evs)).map (·.1) ++ cl'.gathered := by
  cases h with
  | newBatch hpc => simp only [Client.gathered, hpc]; rfl
  | lookup hpc | insertDone hpc =>
      rw [threadLog_eq_self (List.forall_mem_singleton.mpr rfl)]
      simp only [Client.gathered, hpc]
      rfl
  | @answer values hpc =>
      have hlen : values.length = cl.batch.length := hok
      have hasks : asks ((cl.batch.zip values).map fun p => .answered c p.1 p.2) = [] := by simp [asks]
      rw [threadLog_eq_self (List.forall_mem_map.mpr fun p _ => rfl), hasks, replies_answered,
        List.map_fst_zip (by omega)]
      simp only [Client.gathered, hpc]
  | noHeader hpc | noValue hpc =>
      rw [Client.fails_gathered]
      simp only [Client.gathered, hpc]
      exact List.append_nil _
  | writeAgain hpc => exact List.append_nil _
  | kept hpc | dropped hpc | filled hpc =>
      rw [threadLog_eq_self (by simp [ServerEvent.thread])]
      simp only [Client.gathered, hpc]
      rfl
  | writeFails hpc | writeDone hpc | writePart hpc =>
      rw [threadLog_cons_of_ne _ (by simp [ServerEvent.thread]), threadLog_releases, asks_releases,
        replies_releases]
      simp only [Client.gathered, hpc]
      rfl
  | _ hpc =>
      simp only [Client.gathered, hpc]
      exact List.append_nil _

/-- The queries of thread `c` in the order they are answered. -/
theorem gathered {ok : Server → List ServerEvent → ServerAct → Prop} {b n : ℕ} {st : Server}
    {log : List ServerEvent} (hok : ∀ st log a, ok st log a → a.Ok st)
    (h : Runs.Reach Server.step ok (.start b n) st log) (c : ℕ) :
    asks (threadLog c log) = (replies (threadLog c log)).map (·.1) ++ (st.client c).gathered := by
  induction h with
  | start => rfl
  | @step st st' log evs a hreach ha hs ih =>
      rw [threadLog_append, asks_append, replies_append, ih, List.append_assoc, List.map_append,
        List.append_assoc]
      refine congrArg _ ?_
      rcases Server.step_cases hs with ⟨b, rfl, hb, rfl⟩ | ⟨c', b, cl, fds, rfl, -, hb, rfl⟩
      · obtain ⟨cd, hcl⟩ := Server.tcpserver_client hb c
        rw [hcl]
        exact List.append_nil _
      · by_cases hc : c = c'
        · subst hc
          rw [Server.setClient_self]
          exact (clientgo_step hb).gathered (hok _ _ _ ha)
        · rw [Server.setClient_of_ne hc, threadLog_of_ne hc (clientgo_step hb)]
          exact List.append_nil _

theorem asks_threadLog_mem {c : ℕ} {log : List ServerEvent} {e : Entry} :
    e ∈ asks (threadLog c log) ↔ .asked c e ∈ log := by
  rw [asks, List.mem_filterMap]
  constructor
  · rintro ⟨ev, hev, he⟩
    obtain ⟨hev, hc⟩ := List.mem_filter.mp hev
    cases ev <;> simp_all [ServerEvent.thread]
  · intro h
    exact ⟨_, List.mem_filter.mpr ⟨h, decide_eq_true rfl⟩, rfl⟩

theorem replies_threadLog_mem {c : ℕ} {log : List ServerEvent} {e : Entry} {v : Option HashValue}
    (h : .answered c e v ∈ log) : (e, v) ∈ replies (threadLog c log) :=
  List.mem_filterMap.mpr ⟨_, List.mem_filter.mpr ⟨h, decide_eq_true rfl⟩, rfl⟩

/-- If all that matters is the work of one thread, its log is enough. -/
theorem filter_threadLog {α : Type} {c : ℕ} {log : List ServerEvent} {f : ServerEvent → Option α}
    {p : α → Bool} (h : ∀ ev ∈ log, ∀ x, f ev = some x → p x = true → ev.thread = some c) :
    (log.filterMap f).filter p = ((threadLog c log).filterMap f).filter p := by
  induction log with
  | nil => rfl
  | cons ev log ih =>
      have htail := ih fun ev' hev' => h ev' (List.mem_cons_of_mem ev hev')
      have hhead := h ev List.mem_cons_self
      by_cases hc : ev.thread = some c
      · rw [threadLog_cons _ hc, Lists.filterMap_cons_toList, Lists.filterMap_cons_toList,
          List.filter_append, List.filter_append, htail]
      · rw [threadLog_cons_of_ne _ hc, Lists.filterMap_cons_toList, List.filter_append, htail]
        refine (congrArg (· ++ _) ?_).trans (List.nil_append _)
        refine List.filter_eq_nil_iff.mpr fun x hx hpx => hc (hhead x ?_ hpx)
        exact Option.mem_toList.mp hx

end SmpHashTable.HashServer
