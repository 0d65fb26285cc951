import Mathlib.Algebra.BigOperators.Ring.Finset
import SmpHashTable.Pending

/-!
# The calls on the pending ring

`smp_hash_lookup`, `smp_hash_insert`, `smp_try_get_next` and `smp_get_next` of one client, each as one
function on `pending_data[client]`.  What they do outside the ring is recorded in order: the messages
given to `inpb_write`, the words read from the servers, and the values handed to the caller; a record
of a store into the ring also holds the three indices at that moment.  The words the reads return are
any sequence.
-/

namespace SmpHashTable

open PendingData

/-! ### The functions -/

/-- `rd_index`, `wr_index` and `pending_index` at one moment. -/
structure Indices where
  rd : ℕ
  wr : ℕ
  pending : ℕ
  deriving DecidableEq, Repr

def PendingData.indices (pd : PendingData) : Indices := ⟨pd.rdIndex, pd.wrIndex, pd.pendingIndex⟩

/-- A request sent: the indices before it, its server and its message. -/
structure PendingWrite where
  idx : Indices
  server : ℕ
  msg : Msg
  deriving DecidableEq, Repr

/-- A call of `read_next_pending_value`: the indices before it, the server and the value. -/
structure PendingRead where
  idx : Indices
  server : ℕ
  value : ℕ
  deriving DecidableEq, Repr

/-- `pending_data[client]`, with the requests sent, the values read and those handed out so far. -/
structure PendingClient where
  pd : PendingData
  writes : List PendingWrite
  reads : List PendingRead
  got : List ℕ

/-- The pending data after `create_hash_table_client`, which leaves both arrays as `memalign` gave
them. -/
def createPendingData (values servers : ℕ → ℕ) : PendingData := ⟨values, servers, 0, 0, 0, fun _ => 0⟩

def createPendingClient (values servers : ℕ → ℕ) : PendingClient :=
  ⟨createPendingData values servers, [], [], []⟩

/-- `read_next_pending_value`; `answers i` is the word that read number `i` returns. -/
def readNextPendingValue (answers : ℕ → ℕ) (cl : PendingClient) : PendingClient :=
  let ps := cl.pd.nextServer
  let val := answers cl.reads.length
  { cl with pd := cl.pd.store ps val, reads := cl.reads ++ [⟨cl.pd.indices, ps, val⟩] }

/-- The `while` loop of `smp_hash_lookup` and `smp_hash_insert`.  The fuel bounds the number of
reads; the callers supply more than there are unread requests. -/
def windowLoop (answers : ℕ → ℕ) (s : ℕ) : ℕ → PendingClient → Except Stop PendingClient
  | 0, _ => .error .diverged
  | fuel + 1, cl =>
      if cl.pd.pendingCount s ≥ MAX_PENDING_PER_SERVER then
        windowLoop answers s fuel (readNextPendingValue answers cl)
      else .ok cl

/-- `inpb_write` and the update of the pending data that follows it. -/
def sendRequest (s : ℕ) (m : Msg) (cl : PendingClient) : PendingClient :=
  { cl with pd := cl.pd.push s, writes := cl.writes ++ [⟨cl.pd.indices, s, m⟩] }

/-- The common body of `smp_hash_lookup` and `smp_hash_insert`. -/
def smpRequest (n : ℕ) (answers : ℕ → ℕ) (cl : PendingClient) (m : Msg) :
    Except Stop (ℕ × PendingClient) :=
  if sub64 cl.pd.pendingIndex cl.pd.rdIndex ≥ MAX_PENDING_SIZE then .ok (0, cl)
  else do
    let s := hashGetServer n m.key
    let cl ← windowLoop answers s (sub64 cl.pd.pendingIndex cl.pd.wrIndex + 1) cl
    return (1, sendRequest s m cl)

/-- `smp_hash_lookup` on `n` servers. -/
def smpHashLookup (n : ℕ) (answers : ℕ → ℕ) (cl : PendingClient) (key : ℕ) :
    Except Stop (ℕ × PendingClient) := smpRequest n answers cl (.lookup key)

/-- `smp_hash_insert` on `n` servers. -/
def smpHashInsert (n : ℕ) (answers : ℕ → ℕ) (cl : PendingClient) (key : ℕ) (size : ℤ) :
    Except Stop (ℕ × PendingClient) := smpRequest n answers cl (.insert key size)

/-- `*value = ...; pd->rd_index++`. -/
def handOut (cl : PendingClient) : PendingClient :=
  { cl with pd := cl.pd.take.2, got := cl.got ++ [cl.pd.take.1] }

/-- `smp_try_get_next`. -/
def smpTryGetNext (cl : PendingClient) : ℕ × PendingClient :=
  if cl.pd.rdIndex = cl.pd.wrIndex then (0, cl) else (1, handOut cl)

/-- `smp_get_next`. -/
def smpGetNext (answers : ℕ → ℕ) (cl : PendingClient) : ℕ × PendingClient :=
  if cl.pd.rdIndex = cl.pd.pendingIndex then (0, cl)
  else if cl.pd.rdIndex = cl.pd.wrIndex then (1, handOut (readNextPendingValue answers cl))
  else (1, handOut cl)

/-! ### Sequences of calls -/

inductive PendingCall
  | lookup (key : ℕ)
  | insert (key : ℕ) (size : ℤ)
  | tryGetNext
  | getNext
  deriving DecidableEq, Repr

def PendingCall.isRequest : PendingCall → Bool
  | .lookup _ => true
  | .insert _ _ => true
  | .tryGetNext => false
  | .getNext => false

/-- One call: its return value and the client after it. -/
def PendingCall.run (n : ℕ) (answers : ℕ → ℕ) (cl : PendingClient) :
    PendingCall → Except Stop (ℕ × PendingClient)
  | .lookup key => smpHashLookup n answers cl key
  | .insert key size => smpHashInsert n answers cl key size
  | .tryGetNext => .ok (smpTryGetNext cl)
  | .getNext => .ok (smpGetNext answers cl)

/-- Calls one after the other, with their return values. -/
def runPending (n : ℕ) (answers : ℕ → ℕ) (cl : PendingClient) :
    List PendingCall → Except Stop (List (PendingCall × ℕ) × PendingClient)
  | [] => .ok ([], cl)
  | c :: cs => do
      let (r, cl) ← c.run n answers cl
      let (log, cl) ← runPending n answers cl cs
      return ((c, r) :: log, cl)

/-- The requests accepted: the calls of `smp_hash_lookup` and `smp_hash_insert` that returned 1. -/
def acceptedRequests (log : List (PendingCall × ℕ)) : ℕ := log.countP fun x => x.1.isRequest ∧ x.2 = 1

/-- The requests retrieved: the calls of `smp_get_next` and `smp_try_get_next` that returned 1. -/
def retrievedRequests (log : List (PendingCall × ℕ)) : ℕ := log.countP fun x => ¬ x.1.isRequest ∧ x.2 = 1

/-! ### What a store may not touch -/

/-- The cell of a ring position. -/
def pendingCell (i : ℕ) : ℕ := i &&& (MAX_PENDING_SIZE - 1)

/-- A value is read for a request that is pending, and its cell holds no value still to be handed
out. -/
def Indices.ReadSafe (x : Indices) : Prop :=
  x.wr ≠ x.pending ∧ ∀ i < sub64 x.wr x.rd, pendingCell (add64 x.rd i) ≠ pendingCell x.wr

/-- The server of a new request goes to a cell that holds no server still to be read from. -/
def Indices.PushSafe (x : Indices) : Prop :=
  ∀ i < sub64 x.pending x.wr, pendingCell (add64 x.wr i) ≠ pendingCell x.pending

/-- What holds of a client between two calls: the values `vals` are read and not handed out, the
requests to the servers `srvs` are not read. -/
structure PendingInv (n : ℕ) (answers : ℕ → ℕ) (cl : PendingClient) (vals srvs : List ℕ) : Prop where
  rep : PdRep cl.pd vals srvs
  answered : cl.reads.map PendingRead.value = (List.range cl.reads.length).map answers
  values : cl.reads.map PendingRead.value = cl.got ++ vals
  servers : cl.writes.map PendingWrite.server = cl.reads.map PendingRead.server ++ srvs
  routed : ∀ w ∈ cl.writes, w.server = hashGetServer n w.msg.key
  readSafe : ∀ r ∈ cl.reads, r.idx.ReadSafe
  pushSafe : ∀ w ∈ cl.writes, w.idx.PushSafe

theorem pendingInv_create (n : ℕ) (values servers answers : ℕ → ℕ) :
    PendingInv n answers (createPendingClient values servers) [] [] :=
  ⟨pdRep_zero values servers, rfl, rfl, rfl, by simp [createPendingClient], by simp [createPendingClient],
    by simp [createPendingClient]⟩

section

variable {pd : PendingData} {vals srvs : List ℕ}

theorem PdRep.lengths_lt (h : PdRep pd vals srvs) : vals.length + srvs.length < 2 ^ 64 := by
  have hfits := h.fits
  simp only [MAX_PENDING_SIZE, OUTB_SIZE, CACHELINE, MAX_SERVERS] at hfits
  omega

theorem PdRep.wr_sub (h : PdRep pd vals srvs) : sub64 pd.wrIndex pd.rdIndex = vals.length := by
  have := h.lengths_lt
  rw [h.wr_eq, sub64_add64 (by omega)]

theorem PdRep.unread_sub (h : PdRep pd vals srvs) : sub64 pd.pendingIndex pd.wrIndex = srvs.length := by
  have := h.lengths_lt
  rw [h.pending_eq, sub64_add64 (by omega)]

/-- Two positions in one window of the ring are different cells. -/
theorem pendingCell_ne {lo i k : ℕ} (hi : i < k) (hk : k < MAX_PENDING_SIZE) :
    pendingCell (add64 lo i) ≠ pendingCell (add64 lo k) := by
  unfold pendingCell
  rw [pending_cell, pending_cell, add64_mod_pending, add64_mod_pending]
  exact Ring.cell_ne (by omega) hk (by omega)

theorem PdRep.readSafe {s : ℕ} (h : PdRep pd vals (s :: srvs)) : pd.indices.ReadSafe := by
  have hfits := h.fits
  rw [List.length_cons] at hfits
  constructor
  · show pd.wrIndex ≠ pd.pendingIndex
    intro heq
    have hsub := h.unread_sub
    rw [← heq, List.length_cons] at hsub
    unfold sub64 at hsub
    omega
  · intro i hi
    have hi' : i < vals.length := by
      rw [← h.wr_sub]
      exact hi
    show pendingCell (add64 pd.rdIndex i) ≠ pendingCell pd.wrIndex
    rw [h.wr_eq]
    exact pendingCell_ne hi' (by omega)

theorem PdRep.pushSafe (h : PdRep pd vals srvs) (hroom : srvs.length < MAX_PENDING_SIZE) :
    pd.indices.PushSafe := by
  intro i hi
  have hi' : i < srvs.length := by
    rw [← h.unread_sub]
    exact hi
  show pendingCell (add64 pd.wrIndex i) ≠ pendingCell pd.pendingIndex
  rw [h.pending_eq]
  exact pendingCell_ne hi' hroom

end

/-! ### One call -/

section

variable {n : ℕ} {answers : ℕ → ℕ} {cl : PendingClient} {vals srvs : List ℕ}

/-- A read takes the oldest unread request and adds a value. -/
theorem PendingInv.read {s : ℕ} (h : PendingInv n answers cl vals (s :: srvs)) :
    PendingInv n answers (readNextPendingValue answers cl) (vals ++ [answers cl.reads.length]) srvs := by
  have hnext : cl.pd.nextServer = s := h.rep.nextServer
  unfold readNextPendingValue
  rw [hnext]
  refine ⟨h.rep.store _, ?_, ?_, ?_, h.routed, ?_, h.pushSafe⟩
  · rw [List.map_append, h.answered, List.length_append, List.length_singleton, List.range_succ,
      List.map_append]
    rfl
  · rw [List.map_append, h.values, List.append_assoc]
    rfl
  · rw [List.map_append, h.servers, List.append_assoc]
    rfl
  · intro r hr
    rcases List.mem_append.mp hr with hold | hnew
    · exact h.readSafe r hold
    · rw [List.mem_singleton] at hnew
      subst hnew
      exact h.rep.readSafe

/-- What the window loop does: it reads some of the unread requests, and then the server has room. -/
structure WindowDone (n : ℕ) (answers : ℕ → ℕ) (s : ℕ) (cl cl' : PendingClient) (vals srvs vals' srvs' : List ℕ) : Prop where
  inv : PendingInv n answers cl' vals' srvs'
  total : vals'.length + srvs'.length = vals.length + srvs.length
  room : srvs'.count s < MAX_PENDING_PER_SERVER
  writes : cl'.writes = cl.writes
  got : cl'.got = cl.got

/-- The loop ends when there is fuel for every unread request: each round reads one of them, and
without any the counter of the server is zero. -/
theorem windowLoop_ends (s fuel : ℕ) (h : PendingInv n answers cl vals srvs) (hfuel : srvs.length < fuel) :
    ∃ cl' vals' srvs', windowLoop answers s fuel cl = .ok cl' ∧
      WindowDone n answers s cl cl' vals srvs vals' srvs' := by
  induction srvs generalizing cl vals fuel with
  | nil =>
    obtain ⟨fuel, rfl⟩ : ∃ k, fuel = k + 1 := ⟨fuel - 1, by omega⟩
    have hzero : cl.pd.pendingCount s = 0 := by
      rw [h.rep.count s]
      rfl
    have hlt : ¬ cl.pd.pendingCount s ≥ MAX_PENDING_PER_SERVER := by
      rw [hzero]
      decide
    refine ⟨cl, vals, [], ?_, h, rfl, ?_, rfl, rfl⟩
    · rw [windowLoop, if_neg hlt]
    · rw [List.count_nil]
      decide
  | cons s' srvs ih =>
    obtain ⟨fuel, rfl⟩ : ∃ k, fuel = k + 1 := ⟨fuel - 1, by omega⟩
    by_cases hfull : cl.pd.pendingCount s ≥ MAX_PENDING_PER_SERVER
    · rw [List.length_cons] at hfuel
      have hread : PendingInv n answers (readNextPendingValue answers cl) _ srvs := h.read
      obtain ⟨cl', vals', srvs', hrun, hdone⟩ := ih fuel hread (by omega)
      have htotal := hdone.total
      refine ⟨cl', vals', srvs', ?_, hdone.inv, ?_, hdone.room, hdone.writes, hdone.got⟩
      · rw [windowLoop, if_pos hfull]
        exact hrun
      · rw [htotal, List.length_append, List.length_singleton, List.length_cons]
        omega
    · refine ⟨cl, vals, s' :: srvs, ?_, h, rfl, ?_, rfl, rfl⟩
      · rw [windowLoop, if_neg hfull]
      · have hcount := h.rep.count s
        omega

theorem PendingInv.send (h : PendingInv n answers cl vals srvs) (m : Msg)
    (hroom : vals.length + srvs.length < MAX_PENDING_SIZE)
    (hwin : srvs.count (hashGetServer n m.key) < MAX_PENDING_PER_SERVER) :
    PendingInv n answers (sendRequest (hashGetServer n m.key) m cl) vals (srvs ++ [hashGetServer n m.key]) := by
  refine ⟨h.rep.push hroom hwin, h.answered, h.values, ?_, ?_, h.readSafe, ?_⟩
  · show (cl.writes ++ [_]).map PendingWrite.server = _
    rw [List.map_append, h.servers, List.append_assoc]
    rfl
  · intro w hw
    rcases List.mem_append.mp hw with hold | hnew
    · exact h.routed w hold
    · rw [List.mem_singleton] at hnew
      subst hnew
      rfl
  · intro w hw
    rcases List.mem_append.mp hw with hold | hnew
    · exact h.pushSafe w hold
    · rw [List.mem_singleton] at hnew
      subst hnew
      exact h.rep.pushSafe (by omega)

/-- A request on a full ring returns 0 and changes nothing. -/
theorem smpRequest_full (h : PendingInv n answers cl vals srvs) (m : Msg)
    (hfull : vals.length + srvs.length = MAX_PENDING_SIZE) : smpRequest n answers cl m = .ok (0, cl) := by
  have hsub := h.rep.pending_sub
  rw [smpRequest, if_pos (by omega)]

/-- A request on a ring with room returns 1. -/
theorem smpRequest_room (h : PendingInv n answers cl vals srvs) (m : Msg)
    (hroom : vals.length + srvs.length < MAX_PENDING_SIZE) :
    ∃ cl' vals' srvs' idx, smpRequest n answers cl m = .ok (1, cl') ∧ PendingInv n answers cl' vals' srvs' ∧
      vals'.length + srvs'.length = vals.length + srvs.length + 1 ∧
      cl'.writes = cl.writes ++ [⟨idx, hashGetServer n m.key, m⟩] ∧ cl'.got = cl.got := by
  have hsub := h.rep.pending_sub
  have hfuel : srvs.length < sub64 cl.pd.pendingIndex cl.pd.wrIndex + 1 := by
    rw [h.rep.unread_sub]
    omega
  obtain ⟨cl', vals', srvs', hrun, hdone⟩ : ∃ cl' vals' srvs', windowLoop answers _ _ cl = .ok cl' ∧ _ :=
    windowLoop_ends (hashGetServer n m.key) _ h hfuel
  have htotal := hdone.total
  refine ⟨sendRequest (hashGetServer n m.key) m cl', vals', srvs' ++ [hashGetServer n m.key],
    cl'.pd.indices, ?_, hdone.inv.send m (by omega) hdone.room, ?_, ?_, hdone.got⟩
  · rw [smpRequest, if_neg (by omega)]
    exact Outcome.bind_ok.mpr ⟨cl', hrun, rfl⟩
  · rw [List.length_append, List.length_singleton]
    omega
  · show cl'.writes ++ [_] = _
    rw [hdone.writes]

theorem PendingInv.handOut {v : ℕ} (h : PendingInv n answers cl (v :: vals) srvs) :
    PendingInv n answers (handOut cl) vals srvs ∧ (SmpHashTable.handOut cl).got = cl.got ++ [v] := by
  obtain ⟨hv, hrep⟩ := h.rep.take
  have hgot : (SmpHashTable.handOut cl).got = cl.got ++ [v] := by
    show cl.got ++ [cl.pd.take.1] = _
    rw [hv]
  refine ⟨⟨hrep, h.answered, ?_, h.servers, h.routed, h.readSafe, h.pushSafe⟩, hgot⟩
  rw [hgot, List.append_assoc]
  exact h.values

/-- `smp_get_next` hands out the value of the oldest request not retrieved, and returns 0 if there is
none. -/
theorem smpGetNext_spec (h : PendingInv n answers cl vals srvs) :
    (vals = [] ∧ srvs = [] ∧ smpGetNext answers cl = (0, cl)) ∨
    ∃ vals' srvs' v, (smpGetNext answers cl).1 = 1 ∧ PendingInv n answers (smpGetNext answers cl).2 vals' srvs' ∧
      vals'.length + srvs'.length + 1 = vals.length + srvs.length ∧
      (smpGetNext answers cl).2.writes = cl.writes ∧ (smpGetNext answers cl).2.got = cl.got ++ [v] := by
  unfold smpGetNext
  cases vals with
  | cons v vals =>
    right
    have hne : ¬ cl.pd.rdIndex = cl.pd.wrIndex := fun heq => by cases h.rep.vals_nil_iff.mp heq
    have hall : ¬ cl.pd.rdIndex = cl.pd.pendingIndex := fun heq => by cases (h.rep.all_nil_iff.mp heq).1
    rw [if_neg hall, if_neg hne]
    refine ⟨vals, srvs, v, rfl, h.handOut.1, ?_, rfl, h.handOut.2⟩
    rw [List.length_cons]
    omega
  | nil =>
    cases srvs with
    | nil =>
      left
      rw [if_pos (h.rep.all_nil_iff.mpr ⟨rfl, rfl⟩)]
      exact ⟨rfl, rfl, rfl⟩
    | cons s srvs =>
      right
      have hall : ¬ cl.pd.rdIndex = cl.pd.pendingIndex := fun heq => by cases (h.rep.all_nil_iff.mp heq).2
      have hread : PendingInv n answers (readNextPendingValue answers cl) _ srvs := h.read
      rw [if_neg hall, if_pos (h.rep.vals_nil_iff.mpr rfl)]
      refine ⟨[], srvs, answers cl.reads.length, rfl, hread.handOut.1, ?_, rfl, hread.handOut.2⟩
      rw [List.length_cons]
      omega

theorem smpTryGetNext_spec (h : PendingInv n answers cl vals srvs) :
    (vals = [] ∧ smpTryGetNext cl = (0, cl)) ∨
    ∃ vals' v, (smpTryGetNext cl).1 = 1 ∧ PendingInv n answers (smpTryGetNext cl).2 vals' srvs ∧
      vals'.length + 1 = vals.length ∧
      (smpTryGetNext cl).2.writes = cl.writes ∧ (smpTryGetNext cl).2.got = cl.got ++ [v] := by
  unfold smpTryGetNext
  cases vals with
  | nil =>
    left
    rw [if_pos (h.rep.vals_nil_iff.mpr rfl)]
    exact ⟨rfl, rfl⟩
  | cons v vals =>
    right
    have hne : ¬ cl.pd.rdIndex = cl.pd.wrIndex := fun heq => by cases h.rep.vals_nil_iff.mp heq
    rw [if_neg hne]
    exact ⟨vals, v, rfl, h.handOut.1, rfl, rfl, h.handOut.2⟩

/-- `smp_hash_lookup` and `smp_hash_insert` return 0 on a full ring and change nothing, and otherwise
send one request. -/
theorem PendingCall.request_spec {c : PendingCall} (hc : c.isRequest = true) (h : PendingInv n answers cl vals srvs) :
    (vals.length + srvs.length = MAX_PENDING_SIZE ∧ c.run n answers cl = .ok (0, cl)) ∨
    (vals.length + srvs.length < MAX_PENDING_SIZE ∧ ∃ cl' vals' srvs', c.run n answers cl = .ok (1, cl') ∧
      PendingInv n answers cl' vals' srvs' ∧ cl'.writes.length = cl.writes.length + 1 ∧ cl'.got = cl.got) := by
  have hrequest : ∀ m, (vals.length + srvs.length = MAX_PENDING_SIZE ∧
        smpRequest n answers cl m = .ok (0, cl)) ∨
      (vals.length + srvs.length < MAX_PENDING_SIZE ∧ ∃ cl' vals' srvs',
        smpRequest n answers cl m = .ok (1, cl') ∧ PendingInv n answers cl' vals' srvs' ∧
        cl'.writes.length = cl.writes.length + 1 ∧ cl'.got = cl.got) := by
    intro m
    have hfits := h.rep.fits
    by_cases hroom : vals.length + srvs.length < MAX_PENDING_SIZE
    · obtain ⟨cl', vals', srvs', idx, hrun, hinv, -, hwrites, hgot⟩ := smpRequest_room h m hroom
      refine Or.inr ⟨hroom, cl', vals', srvs', hrun, hinv, ?_, hgot⟩
      rw [hwrites, List.length_append, List.length_singleton]
    · exact Or.inl ⟨by omega, smpRequest_full h m (by omega)⟩
  cases c with
  | lookup key => exact hrequest (.lookup key)
  | insert key size => exact hrequest (.insert key size)
  | tryGetNext => cases hc
  | getNext => cases hc

theorem acceptedRequests_of_isRequest {c : PendingCall} (hc : c.isRequest = true) (r : ℕ) :
    acceptedRequests [(c, r)] = (if r = 1 then 1 else 0) ∧ retrievedRequests [(c, r)] = 0 := by
  simp [acceptedRequests, retrievedRequests, hc, List.countP_cons]

/-- A call of any kind: it returns, and the records grow by what its return value says. -/
theorem PendingCall.run_spec (c : PendingCall) (h : PendingInv n answers cl vals srvs) :
    ∃ r cl' vals' srvs', c.run n answers cl = .ok (r, cl') ∧ PendingInv n answers cl' vals' srvs' ∧
      cl'.writes.length = cl.writes.length + acceptedRequests [(c, r)] ∧
      cl'.got.length = cl.got.length + retrievedRequests [(c, r)] := by
  by_cases hc : c.isRequest = true
  · rcases request_spec hc h with ⟨-, hrun⟩ | ⟨-, cl', vals', srvs', hrun, hinv, hwrites, hgot⟩
    · obtain ⟨hacc, hret⟩ := acceptedRequests_of_isRequest hc 0
      exact ⟨0, cl, vals, srvs, hrun, h, by rw [hacc]; rfl, by rw [hret]; rfl⟩
    · obtain ⟨hacc, hret⟩ := acceptedRequests_of_isRequest hc 1
      exact ⟨1, cl', vals', srvs', hrun, hinv, by rw [hacc, hwrites]; rfl, by rw [hret, hgot]; rfl⟩
  · cases c with
    | lookup key => exact absurd rfl hc
    | insert key size => exact absurd rfl hc
    | tryGetNext =>
      rcases smpTryGetNext_spec h with ⟨-, hrun⟩ | ⟨vals', v, hr, hinv, -, hwrites, hgot⟩
      · exact ⟨0, cl, vals, srvs, congrArg Except.ok hrun, h, rfl, rfl⟩
      · refine ⟨1, _, vals', srvs, congrArg Except.ok (Prod.ext hr rfl), hinv, ?_, ?_⟩
        · rw [hwrites]
          rfl
        · rw [hgot, List.length_append]
          rfl
    | getNext =>
      rcases smpGetNext_spec h with ⟨-, -, hrun⟩ | ⟨vals', srvs', v, hr, hinv, -, hwrites, hgot⟩
      · exact ⟨0, cl, vals, srvs, congrArg Except.ok hrun, h, rfl, rfl⟩
      · refine ⟨1, _, vals', srvs', congrArg Except.ok (Prod.ext hr rfl), hinv, ?_, ?_⟩
        · rw [hwrites]
          rfl
        · rw [hgot, List.length_append]
          rfl

end

/-! ### Runs of calls -/

theorem runPending_spec {n : ℕ} {answers : ℕ → ℕ} (calls : List PendingCall) {cl : PendingClient}
    {vals srvs : List ℕ} (h : PendingInv n answers cl vals srvs) :
    ∃ log cl' vals' srvs', runPending n answers cl calls = .ok (log, cl') ∧
      log.map Prod.fst = calls ∧ PendingInv n answers cl' vals' srvs' ∧
      cl'.writes.length = cl.writes.length + acceptedRequests log ∧
      cl'.got.length = cl.got.length + retrievedRequests log := by
  induction calls generalizing cl vals srvs with
  | nil => exact ⟨[], cl, vals, srvs, rfl, rfl, h, rfl, rfl⟩
  | cons c cs ih =>
    obtain ⟨r, cl₁, vals₁, srvs₁, hstep, hinv₁, hacc₁, hret₁⟩ :
        ∃ r cl₁ vals₁ srvs₁, c.run n answers cl = .ok (r, cl₁) ∧ _ := c.run_spec h
    obtain ⟨log, cl₂, vals₂, srvs₂, hrest, hcalls, hinv₂, hacc₂, hret₂⟩ := ih hinv₁
    refine ⟨(c, r) :: log, cl₂, vals₂, srvs₂, ?_, ?_, hinv₂, ?_, ?_⟩
    · rw [runPending]
      exact Outcome.bind_ok.mpr ⟨_, hstep, Outcome.bind_ok.mpr ⟨_, hrest, rfl⟩⟩
    · rw [List.map_cons, hcalls]
    · have hsplit : acceptedRequests ((c, r) :: log) = acceptedRequests [(c, r)] + acceptedRequests log := by
        show List.countP _ ([(c, r)] ++ log) = _
        exact List.countP_append
      omega
    · have hsplit : retrievedRequests ((c, r) :: log)
          = retrievedRequests [(c, r)] + retrievedRequests log := by
        show List.countP _ ([(c, r)] ++ log) = _
        exact List.countP_append
      omega

/-- **What the pending ring promises** after the calls in `log`. -/
structure PendingOk (n : ℕ) (answers : ℕ → ℕ) (log : List (PendingCall × ℕ)) (cl : PendingClient) :
    Prop where
  /-- `rd_index`, `wr_index` and `pending_index` follow each other in this order. -/
  order : sub64 cl.pd.wrIndex cl.pd.rdIndex ≤ sub64 cl.pd.pendingIndex cl.pd.rdIndex
  fits : sub64 cl.pd.pendingIndex cl.pd.rdIndex ≤ MAX_PENDING_SIZE
  counts : ∑ s ∈ Finset.range n, cl.pd.pendingCount s = sub64 cl.pd.pendingIndex cl.pd.wrIndex
  /-- The requests accepted and not retrieved are those between `rd_index` and `pending_index`. -/
  outstanding : acceptedRequests log
    = retrievedRequests log + sub64 cl.pd.pendingIndex cl.pd.rdIndex
  /-- The next request returns, with 0 exactly on a full ring, and then nothing has changed. -/
  request : ∀ c : PendingCall, c.isRequest = true → ∃ r cl', c.run n answers cl = .ok (r, cl') ∧
    r = (if acceptedRequests log = retrievedRequests log + MAX_PENDING_SIZE then 0 else 1) ∧
    (r = 0 → cl' = cl)
  readSafe : ∀ r ∈ cl.reads, r.idx.ReadSafe
  pushSafe : ∀ w ∈ cl.writes, w.idx.PushSafe
  /-- The ring still holds the values not retrieved. -/
  values : ∀ i < sub64 cl.pd.wrIndex cl.pd.rdIndex,
    (cl.reads.map PendingRead.value)[cl.got.length + i]?
      = some (cl.pd.pendingValues (pendingCell (add64 cl.pd.rdIndex i)))
  /-- The ring still holds the servers of the requests not read. -/
  servers : ∀ i < sub64 cl.pd.pendingIndex cl.pd.wrIndex,
    (cl.writes.map PendingWrite.server)[cl.reads.length + i]?
      = some (cl.pd.pendingServers (pendingCell (add64 cl.pd.wrIndex i)))
  /-- Values are handed out in the order they were read, and read in the order of the requests. -/
  got : cl.got <+: cl.reads.map PendingRead.value
  readServers : cl.reads.map PendingRead.server <+: cl.writes.map PendingWrite.server

/-- The counters of the servers add up to the number of requests not read. -/
theorem PendingInv.sum_counts {n : ℕ} {answers : ℕ → ℕ} (hn : 0 < n) {cl : PendingClient} {vals srvs : List ℕ}
    (h : PendingInv n answers cl vals srvs) : ∑ s ∈ Finset.range n, cl.pd.pendingCount s = srvs.length := by
  have hmem : ∀ s ∈ (srvs : Multiset ℕ), s ∈ Finset.range n := by
    intro s hs
    have hs' : s ∈ cl.writes.map PendingWrite.server := by
      rw [h.servers]
      exact List.mem_append_right _ hs
    obtain ⟨w, hw, rfl⟩ := List.mem_map.mp hs'
    rw [Finset.mem_range, h.routed w hw]
    exact Nat.mod_lt _ hn
  have hsum : ∑ s ∈ Finset.range n, srvs.count s = srvs.length := by
    simpa using Multiset.sum_count_eq_card hmem
  calc ∑ s ∈ Finset.range n, cl.pd.pendingCount s = ∑ s ∈ Finset.range n, (srvs.count s : ℤ) :=
        Finset.sum_congr rfl fun s _ => h.rep.count s
    _ = ((∑ s ∈ Finset.range n, srvs.count s : ℕ) : ℤ) := (Nat.cast_sum _ _).symm
    _ = srvs.length := by rw [hsum]

/-- A segment of the ring, read through the index arithmetic of the code. -/
theorem seg_cell {f : ℕ → ℕ} {lo : ℕ} {l l' : List ℕ} (h : Ring.Seg MAX_PENDING_SIZE f lo l) {i : ℕ}
    (hi : i < l.length) : (l' ++ l)[l'.length + i]? = some (f (pendingCell (add64 lo i))) := by
  rw [List.getElem?_append_right (Nat.le_add_right _ _), Nat.add_sub_cancel_left,
    List.getElem?_eq_getElem hi]
  have hcell := h i _ (List.getElem?_eq_getElem hi)
  unfold pendingCell
  rw [pending_cell, add64_mod_pending]
  exact congrArg some hcell.symm

/-- **The pending ring keeps its promise over every sequence of calls (proved).** -/
theorem pending_ring {n : ℕ} (hn : 0 < n) (values servers answers : ℕ → ℕ) (calls : List PendingCall) :
    ∃ log cl, runPending n answers (createPendingClient values servers) calls = .ok (log, cl) ∧
      log.map Prod.fst = calls ∧ PendingOk n answers log cl := by
  obtain ⟨log, cl, vals, srvs, hrun, hcalls, h, hacc, hret⟩ :=
    runPending_spec calls (pendingInv_create n values servers answers)
  have hacc' : cl.writes.length = acceptedRequests log := by
    rw [hacc]
    exact Nat.zero_add _
  have hret' : cl.got.length = retrievedRequests log := by
    rw [hret]
    exact Nat.zero_add _
  have hvals := congrArg List.length h.values
  have hsrvs := congrArg List.length h.servers
  simp only [List.length_map, List.length_append] at hvals hsrvs
  have hsub := h.rep.pending_sub
  have hwr := h.rep.wr_sub
  have hunread := h.rep.unread_sub
  have hfits := h.rep.fits
  refine ⟨log, cl, hrun, hcalls, ?_, ?_, ?_, ?_, ?_, h.readSafe, h.pushSafe, ?_, ?_, ?_, ?_⟩
  · omega
  · omega
  · rw [hunread]
    exact h.sum_counts hn
  · omega
  · intro c hc
    rcases c.request_spec hc h with ⟨hfull, hnext⟩ | ⟨hroom, cl', -, -, hnext, -⟩
    · refine ⟨0, cl, hnext, ?_, fun _ => rfl⟩
      rw [if_pos (by omega)]
    · refine ⟨1, cl', hnext, ?_, fun h0 => by cases h0⟩
      rw [if_neg (by omega)]
  · intro i hi
    rw [h.values]
    exact seg_cell h.rep.values (by omega)
  · intro i hi
    rw [h.servers, ← List.length_map PendingRead.server]
    exact seg_cell h.rep.servers (by omega)
  · rw [h.values]
    exact List.prefix_append _ _
  · rw [h.servers]
    exact List.prefix_append _ _

/-- Two servers, with values and servers as `memalign` may leave them, and a read in every call of
`smp_get_next`. -/
theorem pending_ring_two : ∃ log cl,
    runPending 2 (fun i => 128 * i) (createPendingClient (fun _ => 7) fun _ => 9)
      [.lookup 3, .insert 4 100, .getNext, .tryGetNext, .getNext] = .ok (log, cl) ∧
    log.map Prod.fst = [.lookup 3, .insert 4 100, .getNext, .tryGetNext, .getNext] ∧
    PendingOk 2 (fun i => 128 * i) log cl :=
  pending_ring (by decide) _ _ _ _

end SmpHashTable
