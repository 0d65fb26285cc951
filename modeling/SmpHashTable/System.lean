import SmpHashTable.Buffers
import SmpHashTable.Lib.Runs
import SmpHashTable.Protocol

/-!
# The client/server system

Clients, server threads and the thread that stops the servers, as one transition system.  A step
makes at most one access to a word that another thread can access, followed by local computation;
every thread may be anywhere in its code.  Places in the code are values: `ClientPc` says where a
client stands in its call, with the places it returns to and the locals it still needs.

A step reports events: a message issued, an operation executed, a response read, a value handed to
the caller.
-/

namespace SmpHashTable

/-- `MAX_PENDING_SIZE`. -/
def MAX_PENDING_SIZE : ℕ := OUTB_SIZE * MAX_SERVERS

/-- `MAX_PENDING_PER_SERVER`. -/
def MAX_PENDING_PER_SERVER : ℕ := OUTB_SIZE - (CACHELINE >>> 3)

/-- `struct box`. -/
structure Box where
  inb : InputBuffer
  out : OutputBuffer

def Box.zero : Box := ⟨InputBuffer.zero, OutputBuffer.zero⟩

/-! ### Pending requests of a client -/

/-- `struct pending_data`. -/
structure PendingData where
  pendingValues : ℕ → ℕ
  pendingServers : ℕ → ℕ
  rdIndex : ℕ
  wrIndex : ℕ
  pendingIndex : ℕ
  pendingCount : ℕ → ℤ

namespace PendingData

/-- The server of the next value to read, as `read_next_pending_value` finds it. -/
def nextServer (pd : PendingData) : ℕ := pd.pendingServers (pd.wrIndex &&& (MAX_PENDING_SIZE - 1))

/-- The end of `read_next_pending_value`. -/
def store (pd : PendingData) (ps val : ℕ) : PendingData :=
  { pd with
    pendingValues := Function.update pd.pendingValues (pd.wrIndex &&& (MAX_PENDING_SIZE - 1)) val
    pendingCount := Function.update pd.pendingCount ps (pd.pendingCount ps - 1)
    wrIndex := add64 pd.wrIndex 1 }

/-- The end of `smp_get_next` and `smp_try_get_next`: the value and the ring without it. -/
def take (pd : PendingData) : ℕ × PendingData :=
  (pd.pendingValues (pd.rdIndex &&& (MAX_PENDING_SIZE - 1)), { pd with rdIndex := add64 pd.rdIndex 1 })

/-- The end of `smp_hash_lookup` and `smp_hash_insert`. -/
def push (pd : PendingData) (s : ℕ) : PendingData :=
  { pd with
    pendingCount := Function.update pd.pendingCount s (pd.pendingCount s + 1)
    pendingServers := Function.update pd.pendingServers (pd.pendingIndex &&& (MAX_PENDING_SIZE - 1)) s
    pendingIndex := add64 pd.pendingIndex 1 }

end PendingData

/-- `OPTYPE_LOOKUP`. -/
def OPTYPE_LOOKUP : ℕ := 0

/-- `OPTYPE_INSERT`. -/
def OPTYPE_INSERT : ℕ := 1

/-- `struct hash_query`. -/
structure HashQuery where
  optype : ℕ
  size : ℕ
  key : ℕ
  deriving DecidableEq, Repr

/-- The `switch` of `smp_hash_doall`; `none` is its `default: assert(0)`. -/
def HashQuery.msg (q : HashQuery) : Option Msg :=
  if q.optype = OPTYPE_LOOKUP then some (.lookup q.key)
  else if q.optype = OPTYPE_INSERT then some (.insert q.key q.size)
  else none

/-- The locals of `smp_hash_doall`; `pindex` is the number of values stored so far. -/
structure Doall where
  queries : List HashQuery
  i : ℕ
  values : List ℕ
  pendingCount : ℕ → ℤ

/-- `values[pindex] = val; pending_count[ps]--; pindex++`. -/
def Doall.store (d : Doall) (ps val : ℕ) : Doall :=
  { d with
    values := d.values ++ [val]
    pendingCount := Function.update d.pendingCount ps (d.pendingCount ps - 1) }

/-- `pending_count[s]++` and the next round of the `for` loop. -/
def Doall.push (d : Doall) (s : ℕ) : Doall :=
  { d with i := d.i + 1, pendingCount := Function.update d.pendingCount s (d.pendingCount s + 1) }

/-- `hash_get_server(hash_table, queries[pindex].key)`. -/
def Doall.nextServer (n : ℕ) (d : Doall) : ℕ :=
  hashGetServer n ((d.queries.map HashQuery.key).getD d.values.length 0)

/-! ### Places in a client's code -/

/-- What calls `inpb_write`. -/
inductive WriteRet
  /-- `smp_hash_lookup` or `smp_hash_insert`. -/
  | request
  /-- `mp_send_release_msg_`. -/
  | release (forceFlush : Bool)
  | doall (d : Doall)

/-- What reads a response. -/
inductive ReadRet
  /-- The `while` loop of `smp_hash_lookup` or `smp_hash_insert`. -/
  | window (m : Msg)
  | getNext
  /-- The `while` loop of `smp_hash_doall`. -/
  | doall (d : Doall)
  /-- The last loop of `smp_hash_doall`. -/
  | drain (d : Doall)

/-- What calls `inpb_flush`. -/
inductive FlushRet
  | write (m : Msg) (ret : WriteRet)
  /-- Before the blocking read. -/
  | read (ret : ReadRet)
  /-- The end of `mp_send_release_msg_`. -/
  | release
  /-- The loop over all servers of `smp_hash_doall`. -/
  | doall (d : Doall)

inductive ClientPc
  /-- Outside the functions of the table. -/
  | idle
  /-- At the `while` loop of `smp_hash_lookup` or `smp_hash_insert`. -/
  | window (m : Msg)
  /-- At the start of `inpb_write`. -/
  | write (s : ℕ) (m : Msg) (ret : WriteRet)
  /-- At the copy loop of `inpb_write`. -/
  | append (s : ℕ) (m : Msg) (ret : WriteRet)
  | flush (s : ℕ) (pc : FlushPc) (ret : FlushRet)
  /-- At the start of `outb_read`. -/
  | load (s : ℕ) (blocking : Bool) (ret : ReadRet)
  /-- At the second test of `outb_read`. -/
  | take (s : ℕ) (blocking : Bool) (ret : ReadRet)
  /-- At the `for` loop of `smp_hash_doall`. -/
  | doall (d : Doall)
  /-- At its loop that flushes the buffers. -/
  | flushAll (d : Doall) (s : ℕ)
  /-- At its last loop. -/
  | drain (d : Doall)

/-- A client: its call, `pending_data[client]` and `boxes[client]`. -/
structure Client where
  pc : ClientPc
  pd : PendingData
  box : ℕ → Box

namespace Client

def setIn (cl : Client) (s : ℕ) (b : InputBuffer) : Client :=
  { cl with box := Function.update cl.box s { cl.box s with inb := b } }

def setOut (cl : Client) (s : ℕ) (b : OutputBuffer) : Client :=
  { cl with box := Function.update cl.box s { cl.box s with out := b } }

end Client

/-! ### Events -/

inductive Event
  /-- Client `c` sends `m` to server `s`. -/
  | issue (c s : ℕ) (m : Msg)
  /-- Server `s` executes an operation of client `c`. -/
  | exec (s c : ℕ) (op : Op) (o : Oracle) (resp : Option ℕ) (removed : List Removal)
  /-- Client `c` reads a response of server `s`. -/
  | read (c s v : ℕ)
  /-- Client `c` is handed a value. -/
  | got (c v : ℕ)
  /-- `smp_hash_doall` returns. -/
  | doallDone (c : ℕ) (queries : List HashQuery) (values : List ℕ)
  deriving DecidableEq

/-! ### Steps of a client -/

/-- A call a client can make. -/
inductive Call
  | lookup (key : ℕ)
  | insert (key : ℕ) (size : ℤ)
  | tryGetNext
  | getNext
  | release (ptr : ℕ)
  | markReady (ptr : ℕ)
  | doall (queries : List HashQuery)

/-- The start of `smp_hash_lookup` and `smp_hash_insert`; a full ring makes them return 0. -/
def startRequest (cl : Client) (m : Msg) : Client :=
  if sub64 cl.pd.pendingIndex cl.pd.rdIndex ≥ MAX_PENDING_SIZE then cl else { cl with pc := .window m }

/-- The end of `smp_get_next` and `smp_try_get_next`. -/
def takeValue (c : ℕ) (cl : Client) : Client × List Event :=
  ({ cl with pd := cl.pd.take.2 }, [.got c cl.pd.take.1])

/-- `mp_send_release_msg_` up to its `inpb_write`. -/
def sendReleaseMsg (t : Table) (c : ℕ) (cl : Client) (ptr : ℕ) (msg : ℕ → Msg) (forceFlush : Bool) :
    Except Stop (Client × List Event) :=
  let e := sub64 ptr sizeofElem
  if e = operandOf (e ||| HASHOP_RELEASE) then
    if t.mem.Live e then
      let s := hashGetServer t.nservers (t.mem.elem e).key
      .ok ({ cl with pc := .write s (msg e) (.release forceFlush) }, [.issue c s (msg e)])
    else .error .fault
  else .error .assertFailed

/-- A call up to its first shared access. -/
def startCall (t : Table) (c : ℕ) (cl : Client) : Call → Except Stop (Client × List Event)
  | .lookup key => .ok (startRequest cl (.lookup key), [])
  | .insert key size => .ok (startRequest cl (.insert key size), [])
  | .tryGetNext => .ok (if cl.pd.rdIndex = cl.pd.wrIndex then (cl, []) else takeValue c cl)
  | .getNext =>
      .ok (if cl.pd.rdIndex = cl.pd.pendingIndex then (cl, [])
        else if cl.pd.rdIndex = cl.pd.wrIndex then
          ({ cl with pc := .load cl.pd.nextServer false .getNext }, [])
        else takeValue c cl)
  | .release ptr => sendReleaseMsg t c cl ptr .release false
  | .markReady ptr => sendReleaseMsg t c cl ptr .markReady true
  | .doall queries => .ok ({ cl with pc := .doall ⟨queries, 0, [], fun _ => 0⟩ }, [])

/-- Where `inpb_flush` on server `s` returns to. -/
def FlushRet.next (s : ℕ) : FlushRet → ClientPc
  | .write m ret => .append s m ret
  | .read ret => .load s true ret
  | .release => .idle
  | .doall d => .flushAll d (s + 1)

/-- What a caller does with a value read from server `s`. -/
def deliver (c s v : ℕ) (cl : Client) : ReadRet → Client × List Event
  | .window m => ({ cl with pd := cl.pd.store s v, pc := .window m }, [.read c s v])
  | .getNext =>
      let (cl, evs) := takeValue c { cl with pd := cl.pd.store s v, pc := .idle }
      (cl, .read c s v :: evs)
  | .doall d => ({ cl with pc := .doall (d.store s v) }, [.read c s v, .got c v])
  | .drain d => ({ cl with pc := .drain (d.store s v) }, [.read c s v, .got c v])

/-- What a caller does after the words of `m` are in the local buffer for server `s`. -/
def written (c s : ℕ) (m : Msg) (cl : Client) : WriteRet → Client × List Event
  | .request => ({ cl with pd := cl.pd.push s, pc := .idle }, [.issue c s m])
  | .release forceFlush => ({ cl with pc := if forceFlush then .flush s .enter .release else .idle }, [])
  | .doall d => ({ cl with pc := .doall (d.push s) }, [.issue c s m])

/-- The next step of a call in progress, on `n` servers. -/
def clientStep (n c : ℕ) (cl : Client) : Except Stop (Client × List Event) :=
  match cl.pc with
  | .idle => .error .notEnabled
  | .window m =>
      let s := hashGetServer n m.key
      if cl.pd.pendingCount s ≥ MAX_PENDING_PER_SERVER then
        .ok ({ cl with pc := .load cl.pd.nextServer false (.window m) }, [])
      else .ok ({ cl with pc := .write s m .request }, [])
  | .write s m ret =>
      if m.words.length ≤ INPB_SIZE then
        if (cl.box s).inb.localIndex + m.words.length > INPB_SIZE then
          .ok ({ cl with pc := .flush s .enter (.write m ret) }, [])
        else .ok ({ cl with pc := .append s m ret }, [])
      else .error .assertFailed
  | .append s m ret => .ok (written c s m (cl.setIn s ((cl.box s).inb.append m.words)) ret)
  | .flush s pc ret =>
      match inpbFlushStep (cl.box s).inb pc with
      | (b, some pc) => .ok ({ cl.setIn s b with pc := .flush s pc ret }, [])
      | (b, none) => .ok ({ cl.setIn s b with pc := ret.next s }, [])
  | .load s blocking ret =>
      .ok ({ cl.setOut s (outbReadLoad (cl.box s).out) with pc := .take s blocking ret }, [])
  | .take s blocking ret =>
      match outbReadTake (cl.box s).out with
      | (_, none) =>
          .ok ({ cl with pc := if blocking then .load s true ret else .flush s .enter (.read ret) }, [])
      | (b, some v) => .ok (deliver c s v (cl.setOut s b) ret)
  | .doall d =>
      match d.queries[d.i]? with
      | some q =>
          let s := hashGetServer n q.key
          if d.pendingCount s ≥ MAX_PENDING_PER_SERVER then
            .ok ({ cl with pc := .load (d.nextServer n) false (.doall d) }, [])
          else
            match q.msg with
            | some m => .ok ({ cl with pc := .write s m (.doall d) }, [])
            | none => .error .assertFailed
      | none => .ok ({ cl with pc := .flushAll d 0 }, [])
  | .flushAll d s =>
      if s < n then .ok ({ cl with pc := .flush s .enter (.doall d) }, [])
      else .ok ({ cl with pc := .drain d }, [])
  | .drain d =>
      if d.values.length < d.queries.length then
        .ok ({ cl with pc := .load (d.nextServer n) true (.drain d) }, [])
      else .ok ({ cl with pc := .idle }, [.doallDone c d.queries d.values])

/-! ### Server threads and the stopping thread -/

inductive ServerPc
  /-- At the top of the main loop. -/
  | top
  /-- Before `nclients` is read. -/
  | clients
  /-- At the `for` loop over the clients. -/
  | poll (i n : ℕ)
  /-- In `inpb_read` for client `i`. -/
  | read (i n : ℕ) (pc : InpbReadPc)
  /-- At the `while (k < count)` loop. -/
  | exec (i n count k j : ℕ)
  /-- In `outb_write` of `j` words, at word `m`. -/
  | write (i n j m : ℕ)
  /-- The thread has returned, or was not started. -/
  | returned
  deriving DecidableEq, Repr

/-- The locals of `hash_table_server`. -/
structure Server where
  pc : ServerPc
  localbuf : ℕ → ℕ
  quitting : Bool

/-- Where the thread in `stop_hash_table_servers` stands. -/
inductive StopPc
  | idle
  | loop (i k : ℕ)
  | flush (i k : ℕ) (pc : FlushPc)
  | quit
  | join (i : ℕ)
  deriving DecidableEq, Repr

/-- `struct hash_table` and its threads. -/
structure Sys where
  table : Table
  nclients : ℕ
  quitting : Bool
  client : ℕ → Client
  server : ℕ → Server
  stopper : StopPc

namespace Sys

def nservers (st : Sys) : ℕ := st.table.nservers

def setClient (st : Sys) (c : ℕ) (cl : Client) : Sys :=
  { st with client := Function.update st.client c cl }

def setServer (st : Sys) (s : ℕ) (srv : Server) : Sys :=
  { st with server := Function.update st.server s srv }

end Sys

/-- The next step of server thread `s`. -/
def serverStep (st : Sys) (s : ℕ) (o : Oracle) : Except Stop (Sys × List Event) :=
  let srv := st.server s
  match srv.pc with
  | .top => .ok (st.setServer s { srv with quitting := st.quitting, pc := .clients }, [])
  | .clients => .ok (st.setServer s { srv with pc := .poll 0 st.nclients }, [])
  | .poll i n =>
      .ok (st.setServer s { srv with
        pc := if i < n then .read i n (.test 0) else if srv.quitting then .returned else .top }, [])
  | .read i n pc =>
      let cl := st.client i
      match inpbReadStep (cl.box s).inb srv.localbuf pc with
      | (_, buf, .goto pc) => .ok (st.setServer s { srv with localbuf := buf, pc := .read i n pc }, [])
      | (b, buf, .ret count) =>
          .ok ((st.setClient i (cl.setIn s b)).setServer s { srv with
            localbuf := buf
            pc := if count = 0 then .poll (i + 1) n else .exec i n count 0 0 }, [])
  | .exec i n count k j =>
      if k < count then
        match decodeAt srv.localbuf k with
        | none => .error .assertFailed
        | some (op, w) => do
            let (t, resp, removed) ← serverOp st.table s o op
            return ({ st with table := t }.setServer s (match resp with
              | some v => { srv with
                  localbuf := Function.update srv.localbuf j v, pc := .exec i n count (k + w) (j + 1) }
              | none => { srv with pc := .exec i n count (k + w) j }),
              [.exec s i op o resp removed])
      else if j ≤ OUTB_SIZE then .ok (st.setServer s { srv with pc := .write i n j 0 }, [])
      else .error .assertFailed
  | .write i n j m =>
      let cl := st.client i
      match outbWriteStep (cl.box s).out srv.localbuf j m with
      | (b, some m) =>
          .ok ((st.setClient i (cl.setOut s b)).setServer s { srv with pc := .write i n j m }, [])
      | (b, none) =>
          .ok ((st.setClient i (cl.setOut s b)).setServer s { srv with pc := .poll (i + 1) n }, [])
  | .returned => .error .notEnabled

/-- The next step of `stop_hash_table_servers`. -/
def stopperStep (st : Sys) : Except Stop Sys :=
  match st.stopper with
  | .idle => .error .notEnabled
  | .loop i k =>
      .ok { st with
        stopper := if i < st.nservers then
          if k < st.nclients then .flush i k .enter else .loop (i + 1) 0
        else .quit }
  | .flush i k pc =>
      let cl := st.client k
      match inpbFlushStep (cl.box i).inb pc with
      | (b, some pc) =>
          .ok { st with client := Function.update st.client k (cl.setIn i b), stopper := .flush i k pc }
      | (b, none) =>
          .ok { st with client := Function.update st.client k (cl.setIn i b), stopper := .loop i (k + 1) }
  | .quit => .ok { st with quitting := true, stopper := .join 0 }
  | .join i =>
      if i < st.nservers then
        if (st.server i).pc = .returned then .ok { st with stopper := .join (i + 1) }
        else .error .notEnabled
      else .ok { st with stopper := .idle }

/-- `create_hash_table_client`; the arrays of the new `pending_data` are not initialised.  The
assertion lets one client more pass than the arrays have room for. -/
def createClient (st : Sys) (values servers : ℕ → ℕ) : Except Stop Sys :=
  if st.nclients ≤ MAX_CLIENTS then
    if st.nclients < MAX_CLIENTS then
      .ok { st with
        nclients := st.nclients + 1
        client := Function.update st.client st.nclients
          ⟨.idle, ⟨values, servers, 0, 0, 0, fun _ => 0⟩, fun _ => Box.zero⟩ }
    else .error .fault
  else .error .assertFailed

/-- `start_hash_table_servers`, when no server thread runs; `stack s` is what `localbuf` of the
thread of server `s` happens to hold. -/
def startServers (st : Sys) (stack : ℕ → ℕ → ℕ) : Except Stop Sys :=
  if st.stopper = .idle ∧ ∀ s ∈ List.range st.nservers, (st.server s).pc = .returned then
    .ok { st with
      quitting := false
      server := fun s => if s < st.nservers then ⟨.top, stack s, false⟩ else st.server s }
  else .error .notEnabled

/-! ### The system -/

inductive Act
  | create (values servers : ℕ → ℕ)
  | start (stack : ℕ → ℕ → ℕ)
  | stop
  | stopper
  | call (c : ℕ) (k : Call)
  | client (c : ℕ)
  | server (s : ℕ) (o : Oracle)

/-- One step of the system. -/
def Sys.step (st : Sys) : Act → Except Stop (Sys × List Event)
  | .create values servers => (createClient st values servers).map fun st => (st, [])
  | .start stack => (startServers st stack).map fun st => (st, [])
  | .stop => if st.stopper = .idle then .ok ({ st with stopper := .loop 0 0 }, []) else .error .notEnabled
  | .stopper => (stopperStep st).map fun st => (st, [])
  | .call c k =>
      match (st.client c).pc with
      | .idle =>
          if c < st.nclients then
            (startCall st.table c (st.client c) k).map fun (cl, evs) => (st.setClient c cl, evs)
          else .error .notEnabled
      | _ => .error .notEnabled
  | .client c =>
      (clientStep st.nservers c (st.client c)).map fun (cl, evs) => (st.setClient c cl, evs)
  | .server s o => if s < st.nservers then serverStep st s o else .error .notEnabled

/-- A table before any client or server thread is created. -/
def Sys.init (t : Table) : Sys where
  table := t
  nclients := 0
  quitting := false
  client := fun _ => ⟨.idle, ⟨fun _ => 0, fun _ => 0, 0, 0, 0, fun _ => 0⟩, fun _ => Box.zero⟩
  server := fun _ => ⟨.returned, fun _ => 0, false⟩
  stopper := .idle

/-- What the caller of a function promises: 60-bit keys, positive sizes, and `smp_hash_doall` only
when no result is pending. -/
def Call.Ok (cl : Client) : Call → Prop
  | .lookup key => key < 2 ^ 60
  | .insert key size => key < 2 ^ 60 ∧ 0 < size ∧ size < 2 ^ 31
  | .doall queries => cl.pd.rdIndex = cl.pd.pendingIndex ∧
      ∀ q ∈ queries, q.key < 2 ^ 60 ∧ (q.optype = OPTYPE_INSERT → 0 < q.size ∧ q.size < 2 ^ 32)
  | _ => True

/-- The contract of the functions: calls as above, and no calls of clients while the servers are
being stopped. -/
def Act.Ok (st : Sys) : Act → Prop
  | .create _ _ => st.stopper = .idle
  | .call c k => st.stopper = .idle ∧ k.Ok (st.client c)
  | .stop => ∀ c < st.nclients, (st.client c).pc = .idle
  | _ => True

instance Call.decidableOk (cl : Client) : (k : Call) → Decidable (k.Ok cl)
  | .lookup _ => inferInstanceAs (Decidable (_ < _))
  | .insert _ _ => inferInstanceAs (Decidable (_ ∧ _ ∧ _))
  | .doall queries => inferInstanceAs (Decidable (_ ∧ ∀ q ∈ queries, _ ∧ (_ → _)))
  | .tryGetNext => isTrue trivial
  | .getNext => isTrue trivial
  | .release _ => isTrue trivial
  | .markReady _ => isTrue trivial

instance ClientPc.decidableIdle : (pc : ClientPc) → Decidable (pc = .idle)
  | .idle => isTrue rfl
  | .window _ => isFalse (by simp)
  | .write _ _ _ => isFalse (by simp)
  | .append _ _ _ => isFalse (by simp)
  | .flush _ _ _ => isFalse (by simp)
  | .load _ _ _ => isFalse (by simp)
  | .take _ _ _ => isFalse (by simp)
  | .doall _ => isFalse (by simp)
  | .flushAll _ _ => isFalse (by simp)
  | .drain _ => isFalse (by simp)

instance Act.decidableOk (st : Sys) : (a : Act) → Decidable (a.Ok st)
  | .create _ _ => inferInstanceAs (Decidable (st.stopper = .idle))
  | .call c k => inferInstanceAs (Decidable (st.stopper = .idle ∧ k.Ok (st.client c)))
  | .stop => inferInstanceAs (Decidable (∀ c < st.nclients, (st.client c).pc = .idle))
  | .start _ => isTrue trivial
  | .stopper => isTrue trivial
  | .client _ => isTrue trivial
  | .server _ _ => isTrue trivial

/-- The states and logs of the runs from `st₀` that keep the contract. -/
def Sys.Reach (st₀ : Sys) : Sys → List Event → Prop := Runs.Reach Sys.step (fun st _ a => a.Ok st) st₀

end SmpHashTable
