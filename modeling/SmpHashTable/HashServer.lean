import SmpHashTable.Lib.Bytes
import SmpHashTable.Lib.Runs
import SmpHashTable.System

/-!
# The TCP server

`hashserver2.c`: one thread accepts connections and deals them out to client threads.  A client thread
gathers a batch of queries from its connections, has it executed and writes the answers back.

Every access to what threads share, every `fread`, `writev`, `fclose` and `close` is a step of its own.
What the kernel and the hash table answer is part of the action that takes the step.
-/

namespace SmpHashTable

/-- `MAX_SOCKETS` of `hashserver2.c`. -/
def MAX_SOCKETS : ℕ := 128

/-- `MAX_VALUE_SIZE` of `hashserver2.c`. -/
def MAX_VALUE_SIZE : ℕ := 1024 * 1024

/-- `VALUE_BUFFER_SIZE` of `hashserver2.c`. -/
def VALUE_BUFFER_SIZE : ℕ := 2 * MAX_VALUE_SIZE

/-- `sizeof(struct hash_query)`. -/
def QUERY_SIZE : ℕ := 16

/-- A query as it stands in memory. -/
def HashQuery.bytes (q : HashQuery) : List UInt8 :=
  Bytes.le 4 q.optype ++ (Bytes.le 4 q.size ++ Bytes.le 8 q.key)

/-- The query that stands in memory. -/
def HashQuery.ofBytes (bs : List UInt8) : HashQuery :=
  ⟨Bytes.ofLe (bs.take 4), Bytes.ofLe ((bs.drop 4).take 4), Bytes.ofLe (bs.drop 8)⟩

namespace HashServer

/-! ### Reading an object -/

/-- How an `fread` ended: with everything it asked for, at the end of the stream, with `EAGAIN`, or
with another error. -/
inductive ReadEnd
  | full
  | eof
  | again
  | fail
  deriving DecidableEq, Repr

/-- `stream_error`, right after an `fread`. -/
def streamError : ReadEnd → Bool
  | .eof | .fail => true
  | _ => false

/-- What C promises of an `fread` of `n` bytes. -/
def FreadOk (n : ℕ) (bs : List UInt8) (e : ReadEnd) : Prop :=
  bs.length ≤ n ∧ (e = .full ↔ bs.length = n)

instance (n : ℕ) (bs : List UInt8) (e : ReadEnd) : Decidable (FreadOk n bs e) :=
  inferInstanceAs (Decidable (_ ∧ _))

/-- Where `read_object` is after an `fread`. -/
inductive ReadState
  /-- In its loop, with `bread` bytes read. -/
  | more (bread : ℕ)
  /-- It has returned. -/
  | ret (r : ℕ)
  deriving DecidableEq, Repr

/-- `read_object`, one `fread` of it: `bread` bytes have been read before, `r` were read now. -/
def readObject (size bread r : ℕ) (e : ReadEnd) : ReadState :=
  if bread = 0 then
    if r = 0 then .ret (if streamError e then 2 else 1)
    else if r < size then .more r else .ret 0
  else if streamError e then .ret 2
  else if bread + r < size then .more (bread + r) else .ret 0

/-! ### The state of a client thread -/

/-- The part of `struct client_data` that the threads share. -/
structure ClientData where
  nsockets : ℤ
  sockets : ℕ → ℤ
  /-- The descriptor under each `FILE`. -/
  fin : ℕ → ℤ

/-- A query of the batch: `queries[k]`, `query_sid[k]`, `query_socket[k]` and `valueoffset[k]`.  The
code sets the slot and the socket for a lookup only and the offset for an insert only. -/
structure Entry where
  query : HashQuery
  sid : ℕ
  socket : ℤ
  offset : ℤ
  /-- The connection it was read from, which the code does not store. -/
  origin : Option ℕ
  deriving DecidableEq, Repr

/-- What a query returns: the value in memory, which begins with its size. -/
structure HashValue where
  ptr : ℕ
  data : List UInt8
  deriving DecidableEq, Repr

/-- `struct iovec`: what is left to write of `value`, or of `NULL_VALUE`. -/
structure Iov where
  value : Option ℕ
  left : List UInt8
  origin : Option ℕ
  deriving DecidableEq, Repr

/-- Where a client thread stands in `clientgo`. -/
inductive ClientPc
  /-- At the head of the outer loop. -/
  | top
  /-- At the head of the gather loop. -/
  | check
  /-- In `read_object` for a query, with the bytes read so far. -/
  | header (got : List UInt8)
  /-- In `read_object` for the value of the query `q`, with the number of bytes read so far. -/
  | value (q : HashQuery) (bread : ℕ)
  /-- In `close_socket`, called for the connection `target`, at its line `line`. -/
  | closing (line : ℕ) (target : Option ℕ)
  /-- At the end of the body of the gather loop. -/
  | tail
  /-- At `doqueries`. -/
  | query
  /-- In the loop over the results, with those still to handle. -/
  | result (todo : List (Entry × Option HashValue))
  /-- In the loop over the slots, at slot `k`. -/
  | slot (k : ℕ)
  /-- In `write_iovs` for slot `k`, with `iov[ciov]` and what follows it. -/
  | write (k : ℕ) (sock : ℤ) (iovs : List Iov)
  deriving DecidableEq, Repr

/-- A client thread, with the local variables of `clientgo`. -/
structure Client where
  cd : ClientData
  writeiov : ℕ → List Iov
  lastSocket : ℕ
  i : ℕ
  r : ℕ
  batch : List Entry
  bufoffset : ℤ
  valuebuf : ℤ → UInt8
  pc : ClientPc

/-- The outcome of a `writev`. -/
inductive Writev
  | wrote (n : ℕ)
  | again
  | fail
  deriving DecidableEq, Repr

/-- A step of a client thread, with what it gets from outside. -/
inductive ClientAct
  | go
  | read (bs : List UInt8) (e : ReadEnd)
  | answer (values : List (Option HashValue))
  | writev (out : Writev)
  deriving DecidableEq, Repr

inductive ServerEvent
  /-- A query joins the batch of client thread `c`. -/
  | asked (c : ℕ) (e : Entry)
  /-- `doqueries` returns `v` for it. -/
  | answered (c : ℕ) (e : Entry) (v : Option HashValue)
  /-- The result loop handles it, while its slot holds the socket `now`. -/
  | handled (c : ℕ) (e : Entry) (v : Option HashValue) (now : ℤ)
  /-- A value is filled in. -/
  | filled (c ptr : ℕ) (data : List UInt8)
  | markReady (c ptr : ℕ)
  | release (c ptr : ℕ)
  /-- A `writev` writes the pieces to the connection `conn`. -/
  | wrote (conn : Option ℕ) (pieces : List Iov)
  /-- A `writev` to the connection `conn` fails. -/
  | failed (conn : Option ℕ)
  /-- `close_socket`, called for `target`, closes the connection `was`. -/
  | closed (target was : Option ℕ)
  deriving DecidableEq, Repr

inductive ServerStop
  /-- The step is not this thread's next one. -/
  | notEnabled
  /-- An assertion fails. -/
  | assert
  deriving DecidableEq, Repr

/-! ### The gather loop -/

/-- `memcpy` and `fread` into the value buffer. -/
def storeBytes (buf : ℤ → UInt8) (off : ℤ) (bs : List UInt8) : ℤ → UInt8 :=
  fun j => if off ≤ j ∧ j < off + bs.length then bs.getD (j - off).toNat 0 else buf j

/-- The bytes of the value buffer from `off` on. -/
def loadBytes (buf : ℤ → UInt8) (off : ℤ) (n : ℕ) : List UInt8 :=
  (List.range n).map fun j : ℕ => buf (off + j)

/-- `bufoffset += queries[nqueries].size`: an `int` and a `uint32_t`. -/
def bumpOffset (bufoffset : ℤ) (size : ℕ) : ℤ := intOfWord (wordOfInt (bufoffset + size))

/-- The thread leaves `read_object` with `r`, other than `0`. -/
def Client.fails (cl : Client) (fds : ℤ → Option ℕ) (r : ℕ) : Client :=
  { cl with r := r, pc := if r = 2 then .closing 0 (fds (cl.cd.sockets cl.i)) else .tail }

/-- The query `q` has been read. -/
def Client.gotQuery (cl : Client) (fds : ℤ → Option ℕ) (c : ℕ) (q : HashQuery) :
    Client × List ServerEvent :=
  if q.optype = OPTYPE_LOOKUP then
    let e : Entry := ⟨q, cl.i, cl.cd.sockets cl.i, 0, fds (cl.cd.fin cl.i)⟩
    ({ cl with r := 0, lastSocket := cl.i, batch := cl.batch ++ [e], pc := .tail }, [.asked c e])
  else if q.optype = OPTYPE_INSERT then
    ({ cl with r := 0, lastSocket := cl.i, pc := .value q 0 }, [])
  else
    ({ cl with
      r := 2
      lastSocket := cl.i
      pc := .closing 0 (fds (cl.cd.sockets cl.i)) }, [])

/-- The value of the query `q` has been read. -/
def Client.gotValue (cl : Client) (fds : ℤ → Option ℕ) (c : ℕ) (q : HashQuery) :
    Client × List ServerEvent :=
  let e : Entry := ⟨{ q with size := (q.size + 4) % 2 ^ 32 }, cl.i, cl.cd.sockets cl.i, cl.bufoffset,
    fds (cl.cd.fin cl.i)⟩
  ({ cl with
    r := 0
    batch := cl.batch ++ [e]
    bufoffset := bumpOffset cl.bufoffset q.size
    pc := .tail }, [.asked c e])

/-- An `fread` of `read_object`. -/
def Client.read (cl : Client) (fds : ℤ → Option ℕ) (c : ℕ) (bs : List UInt8) (e : ReadEnd) :
    Except ServerStop (Client × List ServerEvent) :=
  match cl.pc with
  | .header got =>
      match readObject QUERY_SIZE got.length bs.length e with
      | .more _ => .ok ({ cl with pc := .header (got ++ bs) }, [])
      | .ret 0 => .ok (cl.gotQuery fds c (.ofBytes (got ++ bs)))
      | .ret r => .ok (cl.fails fds r, [])
  | .value q bread =>
      let cl := { cl with valuebuf := storeBytes cl.valuebuf (cl.bufoffset + bread) bs }
      match readObject q.size bread bs.length e with
      | .more bread => .ok ({ cl with pc := .value q bread }, [])
      | .ret 0 => .ok (cl.gotValue fds c q)
      -- the do loop calls read_object again
      | .ret 1 => .ok ({ cl with r := 1, pc := .value q 0 }, [])
      | .ret r => .ok (cl.fails fds r, [])
  | _ => .error .notEnabled

/-- `close_socket`, its line `line`. -/
def Client.close (cl : Client) (fds : ℤ → Option ℕ) (target : Option ℕ) (line : ℕ) :
    Client × (ℤ → Option ℕ) × List ServerEvent :=
  let next : Client := { cl with pc := .closing (line + 1) target }
  match line with
  | 0 =>
      let fd := cl.cd.fin cl.i
      (next, Function.update fds fd none, [.closed target (fds fd)])
  | 1 =>
      let fd := cl.cd.sockets cl.i
      (next, Function.update fds fd none, [.closed target (fds fd)])
  | 2 => ({ next with cd.nsockets := cl.cd.nsockets - 1 }, fds, [])
  | _ => ({ cl with cd.sockets := Function.update cl.cd.sockets cl.i (-1), pc := .tail }, fds, [])

/-! ### The results -/

/-- `val->size` and the bytes of the value, or `NULL_VALUE`. -/
def response : Option HashValue → List UInt8
  | none => Bytes.le 4 0
  | some v => Bytes.le 4 v.data.length ++ v.data

/-- One round of the result loop. -/
def Client.handle (cl : Client) (c : ℕ) (e : Entry) (v : Option HashValue)
    (todo : List (Entry × Option HashValue)) : Except ServerStop (Client × List ServerEvent) :=
  let now := cl.cd.sockets e.sid
  if e.query.optype = OPTYPE_LOOKUP then
    let iov : Iov := ⟨v.map (·.ptr), response v, e.origin⟩
    .ok ({ cl with
      writeiov := if now = e.socket
        then Function.update cl.writeiov e.sid (cl.writeiov e.sid ++ [iov]) else cl.writeiov
      pc := .result todo }, [.handled c e v now])
  else if e.query.optype = OPTYPE_INSERT then
    match v with
    | some val =>
        let size := (e.query.size + (2 ^ 32 - 4)) % 2 ^ 32
        .ok ({ cl with pc := .result todo },
          [.handled c e v now, .filled c val.ptr (loadBytes cl.valuebuf e.offset size),
            .markReady c val.ptr])
    | none => .error .assert
  else .error .assert

/-- The inner loop of `write_iovs`, after a `writev` of `r` bytes: the values it releases, and
`iov[ciov]` with what follows it. -/
def progress : ℕ → List Iov → List Iov × List Iov
  | _, [] => ([], [])
  | r, v :: rest =>
      if r = 0 then ([], v :: rest)
      else if v.left.length ≤ r then
        match rest with
        -- `ciov == iovcnt` ends both loops, and the last value is released
        | [] => ([v], [])
        | w :: rest' =>
            let (done, cur) := progress (r - v.left.length) (w :: rest')
            (v :: done, cur)
      else ([], { v with left := v.left.drop r } :: rest)

/-- The pieces that a `writev` of `r` bytes writes. -/
def pieces : ℕ → List Iov → List Iov
  | _, [] => []
  | r, v :: rest =>
      if r = 0 then [] else { v with left := v.left.take r } :: pieces (r - v.left.length) rest

/-- `release_value` for each value; `NULL_VALUE` is none. -/
def releases (c : ℕ) (iovs : List Iov) : List ServerEvent :=
  (iovs.filterMap (·.value)).map (.release c)

/-- A `writev` of `write_iovs`. -/
def Client.writev (cl : Client) (fds : ℤ → Option ℕ) (c k : ℕ) (sock : ℤ) (iovs : List Iov) :
    Writev → Client × List ServerEvent
  | .fail =>
      ({ cl with r := 2, writeiov := Function.update cl.writeiov k [], pc := .slot (k + 1) },
        .failed (fds sock) :: releases c iovs)
  | .again => (cl, [])
  | .wrote n =>
      let (done, cur) := progress n iovs
      let evs := .wrote (fds sock) (pieces n iovs) :: releases c done
      if cur = [] then
        ({ cl with r := 0, writeiov := Function.update cl.writeiov k [], pc := .slot (k + 1) }, evs)
      else ({ cl with pc := .write k sock cur }, evs)

/-! ### A client thread -/

/-- The next step of client thread `c`. -/
def clientgo (batchSize : ℕ) (cl : Client) (fds : ℤ → Option ℕ) (c : ℕ) :
    ClientAct → Except ServerStop (Client × (ℤ → Option ℕ) × List ServerEvent)
  | .go =>
      match cl.pc with
      | .top =>
          .ok ({ cl with batch := [], bufoffset := 0, i := cl.lastSocket, pc := .check }, fds, [])
      | .check =>
          if batchSize ≤ cl.batch.length ∨ cl.bufoffset + MAX_VALUE_SIZE ≥ VALUE_BUFFER_SIZE then
            .ok ({ cl with pc := .query }, fds, [])
          else if cl.cd.sockets cl.i ≠ -1 then .ok ({ cl with pc := .header [] }, fds, [])
          else .ok ({ cl with pc := .tail }, fds, [])
      | .closing line target => .ok (cl.close fds target line)
      | .tail =>
          if cl.cd.sockets cl.i = -1 ∨ cl.r = 1 then
            let i := (cl.i + 1) % MAX_SOCKETS
            if cl.batch ≠ [] ∧ i = cl.lastSocket then .ok ({ cl with i := i, pc := .query }, fds, [])
            else .ok ({ cl with i := i, pc := .check }, fds, [])
          else .ok ({ cl with pc := .check }, fds, [])
      | .result [] => .ok ({ cl with pc := .slot 0 }, fds, [])
      | .result ((e, v) :: todo) =>
          match cl.handle c e v todo with
          | .ok (cl, evs) => .ok (cl, fds, evs)
          | .error s => .error s
      | .slot k =>
          if k < MAX_SOCKETS then
            if cl.writeiov k ≠ [] then
              .ok ({ cl with pc := .write k (cl.cd.sockets k) (cl.writeiov k) }, fds, [])
            else .ok ({ cl with pc := .slot (k + 1) }, fds, [])
          else .ok ({ cl with pc := .top }, fds, [])
      | _ => .error .notEnabled
  | .read bs e =>
      match cl.read fds c bs e with
      | .ok (cl, evs) => .ok (cl, fds, evs)
      | .error s => .error s
  | .answer values =>
      match cl.pc with
      | .query =>
          .ok ({ cl with pc := .result (cl.batch.zip values) }, fds,
            (cl.batch.zip values).map fun p => .answered c p.1 p.2)
      | _ => .error .notEnabled
  | .writev out =>
      match cl.pc with
      | .write k sock iovs =>
          let (cl, evs) := cl.writev fds c k sock iovs out
          .ok (cl, fds, evs)
      | _ => .error .notEnabled

/-- What the kernel and the hash table promise of the step of a client thread. -/
def ClientAct.Ok (cl : Client) : ClientAct → Prop
  | .go => True
  | .read bs e =>
      match cl.pc with
      | .header got => FreadOk (QUERY_SIZE - got.length) bs e
      | .value q bread => FreadOk (q.size - bread) bs e
      | _ => True
  | .answer values => values.length = cl.batch.length
  | .writev (.wrote n) =>
      match cl.pc with
      | .write _ _ iovs => n ≤ (iovs.map (·.left.length)).sum
      | _ => True
  | .writev _ => True

instance (cl : Client) (a : ClientAct) : Decidable (a.Ok cl) := by
  unfold ClientAct.Ok
  split
  · infer_instance
  · split <;> infer_instance
  · infer_instance
  · split <;> infer_instance
  · infer_instance

/-! ### The acceptor -/

/-- Where the accepting thread stands in `tcpserver` and `open_socket`. -/
inductive AcceptorPc
  /-- At `accept`. -/
  | listening
  /-- Looking for the client with the fewest connections. -/
  | choosing (sock : ℤ) (i cid : ℕ)
  /-- Waiting for a place. -/
  | waiting (sock : ℤ) (cid : ℕ)
  /-- In `open_socket`, looking for a slot. -/
  | scanning (sock : ℤ) (cid i : ℕ)
  /-- After the store to `fin[i]`. -/
  | opened (sock : ℤ) (cid i : ℕ)
  /-- After the increment of `nsockets`. -/
  | counted (sock : ℤ) (cid i : ℕ)
  deriving DecidableEq, Repr

/-- A step of the accepting thread. -/
inductive AcceptorAct
  | go
  /-- `accept` returns the number `fd`. -/
  | accept (fd : ℤ)
  /-- `fdopen` fails. -/
  | noFile
  deriving DecidableEq, Repr

/-- The server: the open descriptors with their connections, the number of connections so far, and the
threads. -/
structure Server where
  batchSize : ℕ
  nclients : ℕ
  fds : ℤ → Option ℕ
  nconn : ℕ
  acceptor : AcceptorPc
  client : ℕ → Client

inductive ServerAct
  | acceptor (a : AcceptorAct)
  | client (c : ℕ) (a : ClientAct)
  deriving DecidableEq, Repr

namespace Server

def setClient (st : Server) (c : ℕ) (cl : Client) : Server :=
  { st with client := Function.update st.client c cl }

/-- The accepting thread writes to the shared data of client `c`. -/
def setCd (st : Server) (c : ℕ) (cd : ClientData) : Server :=
  st.setClient c { st.client c with cd := cd }

/-- The next step of the accepting thread. -/
def tcpserver (st : Server) : AcceptorAct → Except ServerStop Server
  | .accept fd =>
      match st.acceptor with
      | .listening =>
          -- the kernel gives out any number that is not in use
          if 0 ≤ fd ∧ st.fds fd = none then
            .ok { st with
              fds := Function.update st.fds fd (some st.nconn)
              nconn := st.nconn + 1
              acceptor := .choosing fd 1 0 }
          else .error .notEnabled
      | _ => .error .notEnabled
  | .noFile =>
      match st.acceptor with
      | .scanning _ cid i =>
          let cd := (st.client cid).cd
          if cd.sockets i = -1 then
            .ok ({ st with acceptor := .listening }.setCd cid
              { cd with fin := Function.update cd.fin i (-1) })
          else .error .notEnabled
      | _ => .error .notEnabled
  | .go =>
      match st.acceptor with
      | .listening => .error .notEnabled
      | .choosing sock i cid =>
          if i < st.nclients then
            let cid := if (st.client i).cd.nsockets < (st.client cid).cd.nsockets then i else cid
            .ok { st with acceptor := .choosing sock (i + 1) cid }
          else .ok { st with acceptor := .waiting sock cid }
      | .waiting sock cid =>
          if (st.client cid).cd.nsockets ≥ MAX_SOCKETS then .ok st
          else .ok { st with acceptor := .scanning sock cid 0 }
      | .scanning sock cid i =>
          let cd := (st.client cid).cd
          if cd.sockets i = -1 then
            .ok ({ st with acceptor := .opened sock cid i }.setCd cid
              { cd with fin := Function.update cd.fin i sock })
          else .ok { st with acceptor := .scanning sock cid ((i + 1) % MAX_SOCKETS) }
      | .opened sock cid i =>
          let cd := (st.client cid).cd
          .ok ({ st with acceptor := .counted sock cid i }.setCd cid
            { cd with nsockets := cd.nsockets + 1 })
      | .counted sock cid i =>
          let cd := (st.client cid).cd
          .ok ({ st with acceptor := .listening }.setCd cid
            { cd with sockets := Function.update cd.sockets i sock })

/-- A step of the server. -/
def step (st : Server) : ServerAct → Except ServerStop (Server × List ServerEvent)
  | .acceptor a =>
      match st.tcpserver a with
      | .ok st => .ok (st, [])
      | .error s => .error s
  | .client c a =>
      if c < st.nclients then
        match clientgo st.batchSize (st.client c) st.fds c a with
        | .ok (cl, fds, evs) => .ok ({ st with fds := fds }.setClient c cl, evs)
        | .error s => .error s
      else .error .notEnabled

end Server

/-- What the kernel and the hash table promise of a step. -/
def ServerAct.Ok (st : Server) : ServerAct → Prop
  | .acceptor _ => True
  | .client c a => a.Ok (st.client c)

instance (st : Server) (a : ServerAct) : Decidable (a.Ok st) := by
  unfold ServerAct.Ok
  split <;> infer_instance

/-- `run_server`, up to the start of the threads. -/
def Server.start (batchSize nclients : ℕ) : Server where
  batchSize := batchSize
  nclients := nclients
  fds := fun _ => none
  nconn := 0
  acceptor := .listening
  client := fun _ =>
    { cd := ⟨0, fun _ => -1, fun _ => -1⟩
      writeiov := fun _ => []
      lastSocket := 0
      i := 0
      r := 0
      batch := []
      bufoffset := 0
      valuebuf := fun _ => 0
      pc := .top }

/-! ### What a step leaves alone -/

namespace Server

variable {st st' : Server} {a : ServerAct} {evs : List ServerEvent}

@[simp] theorem setClient_self (st : Server) (c : ℕ) (cl : Client) :
    (st.setClient c cl).client c = cl := Function.update_self _ _ _

theorem setClient_of_ne {c c' : ℕ} (h : c' ≠ c) (st : Server) (cl : Client) :
    (st.setClient c cl).client c' = st.client c' := Function.update_of_ne h _ _

/-- A step is one of the accepting thread or one of a client thread. -/
theorem step_cases (h : st.step a = .ok (st', evs)) :
    (∃ b, a = .acceptor b ∧ st.tcpserver b = .ok st' ∧ evs = []) ∨
      ∃ c b cl fds, a = .client c b ∧ c < st.nclients ∧
        clientgo st.batchSize (st.client c) st.fds c b = .ok (cl, fds, evs) ∧
        st' = { st with fds := fds }.setClient c cl := by
  cases a with
  | acceptor b =>
      simp only [step] at h
      split at h
      · next hb =>
        cases h
        exact .inl ⟨b, rfl, hb, rfl⟩
      · cases h
  | client c b =>
      simp only [step] at h
      split at h
      · next hc =>
        split at h
        · next cl fds evs hb =>
          cases h
          exact .inr ⟨c, b, cl, fds, rfl, hc, hb, rfl⟩
        · cases h
      · cases h

theorem setCd_client (st : Server) (c : ℕ) (cd : ClientData) (c' : ℕ) :
    ∃ cd', (st.setCd c cd).client c' = { st.client c' with cd := cd' } := by
  by_cases hc : c' = c
  · rw [hc]
    exact ⟨cd, Function.update_self _ _ _⟩
  · exact ⟨(st.client c').cd, Function.update_of_ne hc _ _⟩

/-- What a step of the accepting thread can be. -/
inductive AcceptorStep (st : Server) : AcceptorAct → Server → Prop
  | accept {fd : ℤ} : st.acceptor = .listening → 0 ≤ fd → st.fds fd = none →
      AcceptorStep st (.accept fd)
        { st with
          fds := Function.update st.fds fd (some st.nconn)
          nconn := st.nconn + 1
          acceptor := .choosing fd 1 0 }
  | choose {sock : ℤ} {i cid cid' : ℕ} : st.acceptor = .choosing sock i cid →
      AcceptorStep st .go { st with acceptor := .choosing sock (i + 1) cid' }
  | chosen {sock : ℤ} {i cid : ℕ} : st.acceptor = .choosing sock i cid →
      AcceptorStep st .go { st with acceptor := .waiting sock cid }
  | full {sock : ℤ} {cid : ℕ} : st.acceptor = .waiting sock cid → AcceptorStep st .go st
  | room {sock : ℤ} {cid : ℕ} : st.acceptor = .waiting sock cid →
      AcceptorStep st .go { st with acceptor := .scanning sock cid 0 }
  | occupied {sock : ℤ} {cid i : ℕ} : st.acceptor = .scanning sock cid i →
      AcceptorStep st .go { st with acceptor := .scanning sock cid ((i + 1) % MAX_SOCKETS) }
  | fdopen {sock : ℤ} {cid i : ℕ} : st.acceptor = .scanning sock cid i →
      (st.client cid).cd.sockets i = -1 →
      AcceptorStep st .go ({ st with acceptor := .opened sock cid i }.setCd cid
        { (st.client cid).cd with fin := Function.update (st.client cid).cd.fin i sock })
  | noFile {sock : ℤ} {cid i : ℕ} : st.acceptor = .scanning sock cid i →
      (st.client cid).cd.sockets i = -1 →
      AcceptorStep st .noFile ({ st with acceptor := .listening }.setCd cid
        { (st.client cid).cd with fin := Function.update (st.client cid).cd.fin i (-1) })
  | count {sock : ℤ} {cid i : ℕ} : st.acceptor = .opened sock cid i →
      AcceptorStep st .go ({ st with acceptor := .counted sock cid i }.setCd cid
        { (st.client cid).cd with nsockets := (st.client cid).cd.nsockets + 1 })
  | store {sock : ℤ} {cid i : ℕ} : st.acceptor = .counted sock cid i →
      AcceptorStep st .go ({ st with acceptor := .listening }.setCd cid
        { (st.client cid).cd with sockets := Function.update (st.client cid).cd.sockets i sock })

theorem tcpserver_step {b : AcceptorAct} (h : st.tcpserver b = .ok st') : AcceptorStep st b st' := by
  unfold tcpserver at h
  cases b with
  | accept fd =>
      cases hpc : st.acceptor <;> simp only [hpc] at h <;> try cases h
      split at h
      · next hfd =>
        cases h
        exact .accept hpc hfd.1 hfd.2
      · cases h
  | noFile =>
      cases hpc : st.acceptor <;> simp only [hpc] at h <;> try cases h
      split at h
      · next hslot =>
        cases h
        exact .noFile hpc hslot
      · cases h
  | go =>
      cases hpc : st.acceptor <;> simp only [hpc] at h
      case listening => cases h
      case choosing =>
        split at h
        · cases h
          exact .choose hpc
        · cases h
          exact .chosen hpc
      case waiting =>
        split at h
        · cases h
          exact .full hpc
        · cases h
          exact .room hpc
      case scanning =>
        split at h
        · next hslot =>
          cases h
          exact .fdopen hpc hslot
        · cases h
          exact .occupied hpc
      case opened =>
        cases h
        exact .count hpc
      case counted =>
        cases h
        exact .store hpc

/-- The accepting thread writes to the shared data only. -/
theorem tcpserver_client {b : AcceptorAct} (h : st.tcpserver b = .ok st') (c : ℕ) :
    ∃ cd, st'.client c = { st.client c with cd := cd } := by
  cases tcpserver_step h with
  | fdopen | noFile | count | store => exact setCd_client _ _ _ c
  | _ => exact ⟨_, rfl⟩

/-- What holds of a client thread at the start, whatever the accepting thread writes and after each of
its steps holds in every run. -/
theorem client_invariant {ok : Server → List ServerEvent → ServerAct → Prop} {P : Client → Prop}
    {b n : ℕ} {log : List ServerEvent} (h₀ : ∀ c, P ((start b n).client c))
    (hcd : ∀ {cl : Client} (cd : ClientData), P cl → P { cl with cd := cd })
    (hstep : ∀ {st : Server} {log evs : List ServerEvent} {c : ℕ} {a : ClientAct} {cl : Client}
      {fds : ℤ → Option ℕ}, ok st log (.client c a) → P (st.client c) →
      clientgo st.batchSize (st.client c) st.fds c a = .ok (cl, fds, evs) → P cl)
    (h : Runs.Reach step ok (start b n) st log) (c : ℕ) : P (st.client c) := by
  induction h generalizing c with
  | start => exact h₀ c
  | step _ hok hs ih =>
      rcases step_cases hs with ⟨b, rfl, hb, -⟩ | ⟨c', b, cl, fds, rfl, -, hb, rfl⟩
      · obtain ⟨cd, hcl⟩ := tcpserver_client hb c
        rw [hcl]
        exact hcd cd (ih c)
      · by_cases hc : c = c'
        · rw [hc, setClient_self]
          exact hstep hok (ih c') hb
        · rw [setClient_of_ne hc]
          exact ih c

end Server

/-- What a step of a client thread can be. -/
inductive ClientStep (b : ℕ) (cl : Client) (fds : ℤ → Option ℕ) (c : ℕ) :
    ClientAct → Client → (ℤ → Option ℕ) → List ServerEvent → Prop
  | newBatch : cl.pc = .top → ClientStep b cl fds c .go
      { cl with batch := [], bufoffset := 0, i := cl.lastSocket, pc := .check } fds []
  | batchFull : cl.pc = .check →
      b ≤ cl.batch.length ∨ cl.bufoffset + MAX_VALUE_SIZE ≥ VALUE_BUFFER_SIZE →
      ClientStep b cl fds c .go { cl with pc := .query } fds []
  | openSlot : cl.pc = .check → cl.batch.length < b →
      cl.bufoffset + MAX_VALUE_SIZE < VALUE_BUFFER_SIZE → cl.cd.sockets cl.i ≠ -1 →
      ClientStep b cl fds c .go { cl with pc := .header [] } fds []
  | emptySlot : cl.pc = .check → cl.batch.length < b →
      cl.bufoffset + MAX_VALUE_SIZE < VALUE_BUFFER_SIZE → cl.cd.sockets cl.i = -1 →
      ClientStep b cl fds c .go { cl with pc := .tail } fds []
  | nextSlot : cl.pc = .tail → cl.cd.sockets cl.i = -1 ∨ cl.r = 1 →
      ¬ (cl.batch ≠ [] ∧ (cl.i + 1) % MAX_SOCKETS = cl.lastSocket) →
      ClientStep b cl fds c .go { cl with i := (cl.i + 1) % MAX_SOCKETS, pc := .check } fds []
  | roundDone : cl.pc = .tail → cl.cd.sockets cl.i = -1 ∨ cl.r = 1 → cl.batch ≠ [] →
      (cl.i + 1) % MAX_SOCKETS = cl.lastSocket →
      ClientStep b cl fds c .go { cl with i := (cl.i + 1) % MAX_SOCKETS, pc := .query } fds []
  | sameSlot : cl.pc = .tail → cl.cd.sockets cl.i ≠ -1 → cl.r ≠ 1 →
      ClientStep b cl fds c .go { cl with pc := .check } fds []
  | fclose {target : Option ℕ} : cl.pc = .closing 0 target →
      ClientStep b cl fds c .go { cl with pc := .closing 1 target }
        (Function.update fds (cl.cd.fin cl.i) none) [.closed target (fds (cl.cd.fin cl.i))]
  | close {target : Option ℕ} : cl.pc = .closing 1 target →
      ClientStep b cl fds c .go { cl with pc := .closing 2 target }
        (Function.update fds (cl.cd.sockets cl.i) none) [.closed target (fds (cl.cd.sockets cl.i))]
  | uncount {target : Option ℕ} : cl.pc = .closing 2 target →
      ClientStep b cl fds c .go
        { cl with cd.nsockets := cl.cd.nsockets - 1, pc := .closing 3 target } fds []
  | clearSlot {line : ℕ} {target : Option ℕ} : cl.pc = .closing line target → 3 ≤ line →
      ClientStep b cl fds c .go
        { cl with cd.sockets := Function.update cl.cd.sockets cl.i (-1), pc := .tail } fds []
  | moreHeader {got bs : List UInt8} {e : ReadEnd} {bread : ℕ} : cl.pc = .header got →
      readObject QUERY_SIZE got.length bs.length e = .more bread →
      ClientStep b cl fds c (.read bs e) { cl with pc := .header (got ++ bs) } fds []
  | lookup {got bs : List UInt8} {e : ReadEnd} {q : HashQuery} : cl.pc = .header got →
      readObject QUERY_SIZE got.length bs.length e = .ret 0 → q = .ofBytes (got ++ bs) →
      q.optype = OPTYPE_LOOKUP →
      ClientStep b cl fds c (.read bs e)
        { cl with
          r := 0
          lastSocket := cl.i
          batch := cl.batch ++ [⟨q, cl.i, cl.cd.sockets cl.i, 0, fds (cl.cd.fin cl.i)⟩]
          pc := .tail } fds
        [.asked c ⟨q, cl.i, cl.cd.sockets cl.i, 0, fds (cl.cd.fin cl.i)⟩]
  | insert {got bs : List UInt8} {e : ReadEnd} {q : HashQuery} : cl.pc = .header got →
      readObject QUERY_SIZE got.length bs.length e = .ret 0 → q = .ofBytes (got ++ bs) →
      q.optype = OPTYPE_INSERT →
      ClientStep b cl fds c (.read bs e) { cl with r := 0, lastSocket := cl.i, pc := .value q 0 } fds []
  | invalid {got bs : List UInt8} {e : ReadEnd} {q : HashQuery} : cl.pc = .header got →
      readObject QUERY_SIZE got.length bs.length e = .ret 0 → q = .ofBytes (got ++ bs) →
      q.optype ≠ OPTYPE_LOOKUP → q.optype ≠ OPTYPE_INSERT →
      ClientStep b cl fds c (.read bs e)
        { cl with r := 2, lastSocket := cl.i, pc := .closing 0 (fds (cl.cd.sockets cl.i)) } fds []
  | noHeader {got bs : List UInt8} {e : ReadEnd} {r : ℕ} : cl.pc = .header got →
      readObject QUERY_SIZE got.length bs.length e = .ret r → r ≠ 0 →
      ClientStep b cl fds c (.read bs e) (cl.fails fds r) fds []
  | moreValue {q : HashQuery} {bread bread' : ℕ} {bs : List UInt8} {e : ReadEnd} :
      cl.pc = .value q bread → readObject q.size bread bs.length e = .more bread' →
      ClientStep b cl fds c (.read bs e)
        { cl with
          valuebuf := storeBytes cl.valuebuf (cl.bufoffset + bread) bs
          pc := .value q bread' } fds []
  | insertDone {q : HashQuery} {bread : ℕ} {bs : List UInt8} {e : ReadEnd} {ent : Entry} :
      cl.pc = .value q bread → readObject q.size bread bs.length e = .ret 0 →
      ent = ⟨{ q with size := (q.size + 4) % 2 ^ 32 }, cl.i, cl.cd.sockets cl.i, cl.bufoffset,
        fds (cl.cd.fin cl.i)⟩ →
      ClientStep b cl fds c (.read bs e)
        { cl with
          valuebuf := storeBytes cl.valuebuf (cl.bufoffset + bread) bs
          r := 0
          batch := cl.batch ++ [ent]
          bufoffset := bumpOffset cl.bufoffset q.size
          pc := .tail } fds [.asked c ent]
  | retryValue {q : HashQuery} {bread : ℕ} {bs : List UInt8} {e : ReadEnd} :
      cl.pc = .value q bread → readObject q.size bread bs.length e = .ret 1 →
      ClientStep b cl fds c (.read bs e)
        { cl with
          valuebuf := storeBytes cl.valuebuf (cl.bufoffset + bread) bs
          r := 1
          pc := .value q 0 } fds []
  | noValue {q : HashQuery} {bread : ℕ} {bs : List UInt8} {e : ReadEnd} {r : ℕ} :
      cl.pc = .value q bread → readObject q.size bread bs.length e = .ret r → r ≠ 0 → r ≠ 1 →
      ClientStep b cl fds c (.read bs e)
        ({ cl with valuebuf := storeBytes cl.valuebuf (cl.bufoffset + bread) bs }.fails fds r) fds []
  | answer {values : List (Option HashValue)} : cl.pc = .query →
      ClientStep b cl fds c (.answer values) { cl with pc := .result (cl.batch.zip values) } fds
        ((cl.batch.zip values).map fun p => .answered c p.1 p.2)
  | kept {e : Entry} {v : Option HashValue} {todo : List (Entry × Option HashValue)} :
      cl.pc = .result ((e, v) :: todo) → e.query.optype = OPTYPE_LOOKUP →
      cl.cd.sockets e.sid = e.socket →
      ClientStep b cl fds c .go
        { cl with
          writeiov := Function.update cl.writeiov e.sid
            (cl.writeiov e.sid ++ [⟨v.map (·.ptr), response v, e.origin⟩])
          pc := .result todo } fds [.handled c e v (cl.cd.sockets e.sid)]
  | dropped {e : Entry} {v : Option HashValue} {todo : List (Entry × Option HashValue)} :
      cl.pc = .result ((e, v) :: todo) → e.query.optype = OPTYPE_LOOKUP →
      cl.cd.sockets e.sid ≠ e.socket →
      ClientStep b cl fds c .go { cl with pc := .result todo } fds
        [.handled c e v (cl.cd.sockets e.sid)]
  | filled {e : Entry} {v : HashValue} {todo : List (Entry × Option HashValue)} :
      cl.pc = .result ((e, some v) :: todo) → e.query.optype = OPTYPE_INSERT →
      ClientStep b cl fds c .go { cl with pc := .result todo } fds
        [.handled c e (some v) (cl.cd.sockets e.sid),
          .filled c v.ptr (loadBytes cl.valuebuf e.offset ((e.query.size + (2 ^ 32 - 4)) % 2 ^ 32)),
          .markReady c v.ptr]
  | resultsDone : cl.pc = .result [] → ClientStep b cl fds c .go { cl with pc := .slot 0 } fds []
  | writeSlot {k : ℕ} : cl.pc = .slot k → k < MAX_SOCKETS → cl.writeiov k ≠ [] →
      ClientStep b cl fds c .go { cl with pc := .write k (cl.cd.sockets k) (cl.writeiov k) } fds []
  | skipSlot {k : ℕ} : cl.pc = .slot k → k < MAX_SOCKETS → cl.writeiov k = [] →
      ClientStep b cl fds c .go { cl with pc := .slot (k + 1) } fds []
  | slotsDone {k : ℕ} : cl.pc = .slot k → MAX_SOCKETS ≤ k →
      ClientStep b cl fds c .go { cl with pc := .top } fds []
  | writeFails {k : ℕ} {sock : ℤ} {iovs : List Iov} : cl.pc = .write k sock iovs →
      ClientStep b cl fds c (.writev .fail)
        { cl with r := 2, writeiov := Function.update cl.writeiov k [], pc := .slot (k + 1) } fds
        (.failed (fds sock) :: releases c iovs)
  | writeAgain {k : ℕ} {sock : ℤ} {iovs : List Iov} : cl.pc = .write k sock iovs →
      ClientStep b cl fds c (.writev .again) cl fds []
  | writeDone {k n : ℕ} {sock : ℤ} {iovs done : List Iov} : cl.pc = .write k sock iovs →
      progress n iovs = (done, []) →
      ClientStep b cl fds c (.writev (.wrote n))
        { cl with r := 0, writeiov := Function.update cl.writeiov k [], pc := .slot (k + 1) } fds
        (.wrote (fds sock) (pieces n iovs) :: releases c done)
  | writePart {k n : ℕ} {sock : ℤ} {iovs done cur : List Iov} : cl.pc = .write k sock iovs →
      progress n iovs = (done, cur) → cur ≠ [] →
      ClientStep b cl fds c (.writev (.wrote n)) { cl with pc := .write k sock cur } fds
        (.wrote (fds sock) (pieces n iovs) :: releases c done)

theorem Client.handle_cases {b c : ℕ} {cl cl' : Client} {fds : ℤ → Option ℕ} {e : Entry}
    {v : Option HashValue} {todo : List (Entry × Option HashValue)} {evs : List ServerEvent}
    (hpc : cl.pc = .result ((e, v) :: todo)) (h : cl.handle c e v todo = .ok (cl', evs)) :
    ClientStep b cl fds c .go cl' fds evs := by
  unfold Client.handle at h
  split at h
  · next hop =>
    cases h
    by_cases hsock : cl.cd.sockets e.sid = e.socket
    · simp only [if_pos hsock]
      exact .kept hpc hop hsock
    · simp only [if_neg hsock]
      exact .dropped hpc hop hsock
  · split at h
    · next hop =>
      split at h
      · cases h
        exact .filled hpc hop
      · cases h
    · cases h

theorem Client.read_cases {b c : ℕ} {cl cl' : Client} {fds : ℤ → Option ℕ} {bs : List UInt8}
    {e : ReadEnd} {evs : List ServerEvent} (h : cl.read fds c bs e = .ok (cl', evs)) :
    ClientStep b cl fds c (.read bs e) cl' fds evs := by
  unfold Client.read at h
  split at h
  · next got hpc =>
    split at h
    · next hret =>
      cases h
      exact .moreHeader hpc hret
    · next hret =>
      rw [Except.ok.injEq] at h
      unfold Client.gotQuery at h
      split at h
      · next hop =>
        cases h
        exact .lookup hpc hret rfl hop
      · next hlookup =>
        split at h
        · next hop =>
          cases h
          exact .insert hpc hret rfl hop
        · next hinsert =>
          cases h
          exact .invalid hpc hret rfl hlookup hinsert
    · next hne hret =>
      cases h
      exact .noHeader hpc hret hne
  · next q bread hpc =>
    simp only at h
    split at h
    · next hret =>
      cases h
      exact .moreValue hpc hret
    · next hret =>
      cases h
      exact .insertDone hpc hret rfl
    · next hret =>
      cases h
      exact .retryValue hpc hret
    · next hne0 hne1 hret =>
      cases h
      exact .noValue hpc hret hne0 hne1
  · cases h

theorem clientgo_step {b c : ℕ} {cl cl' : Client} {fds fds' : ℤ → Option ℕ} {a : ClientAct}
    {evs : List ServerEvent} (h : clientgo b cl fds c a = .ok (cl', fds', evs)) :
    ClientStep b cl fds c a cl' fds' evs := by
  cases a with
  | go =>
      simp only [clientgo] at h
      split at h
      · next hpc =>
        cases h
        exact .newBatch hpc
      · next hpc =>
        split at h
        · next hfull =>
          cases h
          exact .batchFull hpc hfull
        · next hfull =>
          obtain ⟨hlen, hoff⟩ := not_or.mp hfull
          split at h
          · next hsock =>
            cases h
            exact .openSlot hpc (by omega) (by omega) hsock
          · next hsock =>
            cases h
            exact .emptySlot hpc (by omega) (by omega) (not_not.mp hsock)
      · next line target hpc =>
        rw [Except.ok.injEq] at h
        unfold Client.close at h
        split at h
        · cases h
          exact .fclose hpc
        · cases h
          exact .close hpc
        · cases h
          exact .uncount hpc
        · next h0 h1 h2 =>
          cases h
          have h0' : line ≠ 0 := h0
          have h1' : line ≠ 1 := h1
          have h2' : line ≠ 2 := h2
          exact .clearSlot hpc (by omega)
      · next hpc =>
        split at h
        · next hmove =>
          split at h
          · next hround =>
            cases h
            exact .roundDone hpc hmove hround.1 hround.2
          · next hround =>
            cases h
            exact .nextSlot hpc hmove hround
        · next hmove =>
          cases h
          obtain ⟨hsock, hr⟩ := not_or.mp hmove
          exact .sameSlot hpc hsock hr
      · next hpc =>
        cases h
        exact .resultsDone hpc
      · next e v todo hpc =>
        split at h
        · next hcl =>
          cases h
          exact Client.handle_cases hpc hcl
        · cases h
      · next k hpc =>
        split at h
        · next hk =>
          split at h
          · next hiov =>
            cases h
            exact .writeSlot hpc hk hiov
          · next hiov =>
            cases h
            exact .skipSlot hpc hk (not_not.mp hiov)
        · next hk =>
          cases h
          exact .slotsDone hpc (by omega)
      · cases h
  | read bs e =>
      simp only [clientgo] at h
      split at h
      · next hcl =>
        cases h
        exact Client.read_cases hcl
      · cases h
  | answer values =>
      simp only [clientgo] at h
      split at h
      · next hpc =>
        cases h
        exact .answer hpc
      · cases h
  | writev out =>
      simp only [clientgo] at h
      split at h
      · next k sock iovs hpc =>
        cases out with
        | fail =>
            cases h
            exact .writeFails hpc
        | again =>
            cases h
            exact .writeAgain hpc
        | wrote n =>
            simp only [Client.writev] at h
            split at h
            · next hcur =>
              cases h
              exact .writeDone hpc (Prod.ext rfl hcur)
            · next hcur =>
              cases h
              exact .writePart hpc rfl hcur
      · cases h

end HashServer

end SmpHashTable
