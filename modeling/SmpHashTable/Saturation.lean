import SmpHashTable.Ledger

/-!
# Where the reference count is full

The count of an element has 63 bits below its flag.  A client that looks up one key again and again
and keeps every handle gets there: `2 ^ 63 - 1` handles and the reference of the table carry into the
flag.  Here such a run is built, one lookup after the other, for one client and one server.
-/

namespace SmpHashTable

/-- What the threads of one client and one server see of the system. -/
structure Lane (t : Table) (cl : Client) (srv : Server) (st : Sys) : Prop where
  table : st.table = t
  nservers : t.nservers = 1
  nclients : st.nclients = 1
  quitting : st.quitting = false
  stopper : st.stopper = .idle
  client : st.client 0 = cl
  server : st.server 0 = srv

/-- A disciplined run leads to a state in which these threads see this. -/
def Reached (t₀ t : Table) (cl : Client) (srv : Server) : Prop :=
  ∃ st log, Sys.Disciplined t₀ st log ∧ Lane t cl srv st

/-! ### Single steps -/

section

variable {t₀ t t' : Table} {cl cl' : Client} {srv : Server} {st : Sys} {evs : List Event}

theorem Lane.setClient (h : Lane t cl srv st) (cl' : Client) : Lane t cl' srv (st.setClient 0 cl') :=
  ⟨h.table, h.nservers, h.nclients, h.quitting, h.stopper, by simp [Sys.setClient], h.server⟩

theorem Lane.setServer (h : Lane t cl srv st) (srv' : Server) : Lane t cl srv' (st.setServer 0 srv') :=
  ⟨h.table, h.nservers, h.nclients, h.quitting, h.stopper, h.client, by simp [Sys.setServer]⟩

theorem Lane.nservers_eq (h : Lane t cl srv st) : st.nservers = 1 := by
  rw [Sys.nservers, h.table, h.nservers]

theorem Lane.server_step (h : Lane t cl srv st) (o : Oracle) :
    st.step (.server 0 o) = serverStep st 0 o := by
  have hs : 0 < st.nservers := by rw [h.nservers_eq]; exact Nat.one_pos
  simp only [Sys.step, if_pos hs]

theorem Sys.Disciplined.next {st' : Sys} {log : List Event} (h : Sys.Disciplined t₀ st log) (a : Act)
    (hok : a.Ok st) (hret : a.Returns t₀ log) (hstep : st.step a = .ok (st', evs)) :
    Sys.Disciplined t₀ st' (log ++ evs) := Runs.Reach.step h ⟨hok, hret⟩ hstep

namespace Reached

theorem client (h : Reached t₀ t cl srv) (cl' : Client) (evs : List Event)
    (hstep : clientStep 1 0 cl = .ok (cl', evs)) : Reached t₀ t cl' srv := by
  obtain ⟨st, log, hd, hl⟩ := h
  have hs : st.step (.client 0) = .ok (st.setClient 0 cl', evs) := by
    simp only [Sys.step, hl.nservers_eq, hl.client, hstep]
    rfl
  exact ⟨_, _, hd.next (.client 0) trivial trivial hs, hl.setClient cl'⟩

/-- A lookup or the fetching of a result. -/
theorem call (h : Reached t₀ t cl srv) {k : Call} (hidle : cl.pc = .idle) (hok : k.Ok cl)
    (hk : k = .lookup 5 ∨ k = .getNext) (cl' : Client) (evs : List Event)
    (hstep : startCall t 0 cl k = .ok (cl', evs)) : Reached t₀ t cl' srv := by
  obtain ⟨st, log, hd, hl⟩ := h
  have hc : 0 < st.nclients := by rw [hl.nclients]; exact Nat.one_pos
  have hs : st.step (.call 0 k) = .ok (st.setClient 0 cl', evs) := by
    simp only [Sys.step, hl.client, hidle, if_pos hc, hl.table, hstep]
    rfl
  have hret : (Act.call 0 k).Returns t₀ log := by
    rcases hk with rfl | rfl
    · trivial
    · trivial
  exact ⟨_, _, hd.next (.call 0 k) ⟨hl.stopper, by rw [hl.client]; exact hok⟩ hret hs, hl.setClient cl'⟩

/-- A step of the server that changes nothing but the server. -/
theorem serve (h : Reached t₀ t cl srv) {srv' : Server} (hstep : ∀ st, Lane t cl srv st →
    serverStep st 0 ⟨[], []⟩ = .ok (st.setServer 0 srv', [])) : Reached t₀ t cl srv' := by
  obtain ⟨st, log, hd, hl⟩ := h
  have hs := hl.server_step ⟨[], []⟩
  rw [hstep st hl] at hs
  exact ⟨_, _, hd.next (.server 0 ⟨[], []⟩) trivial trivial hs, hl.setServer srv'⟩

/-- The same when it also writes to the client's box. -/
theorem serveBox (h : Reached t₀ t cl srv) {srv' : Server} (hstep : ∀ st, Lane t cl srv st →
    serverStep st 0 ⟨[], []⟩ = .ok ((st.setClient 0 cl').setServer 0 srv', [])) :
    Reached t₀ t cl' srv' := by
  obtain ⟨st, log, hd, hl⟩ := h
  have hs := hl.server_step ⟨[], []⟩
  rw [hstep st hl] at hs
  exact ⟨_, _, hd.next (.server 0 ⟨[], []⟩) trivial trivial hs, (hl.setClient cl').setServer srv'⟩

theorem top (h : Reached t₀ t cl srv) (hpc : srv.pc = .top) :
    Reached t₀ t cl { srv with quitting := false, pc := .clients } :=
  h.serve fun st hl => by simp only [serverStep, hl.server, hpc, hl.quitting]

theorem clients (h : Reached t₀ t cl srv) (hpc : srv.pc = .clients) :
    Reached t₀ t cl { srv with pc := .poll 0 1 } :=
  h.serve fun st hl => by simp only [serverStep, hl.server, hpc, hl.nclients]

theorem poll (h : Reached t₀ t cl srv) {i n : ℕ} (hpc : srv.pc = .poll i n) :
    Reached t₀ t cl { srv with
      pc := if i < n then .read i n (.test 0) else if srv.quitting then .returned else .top } :=
  h.serve fun st hl => by simp only [serverStep, hl.server, hpc]

theorem readGoto (h : Reached t₀ t cl srv) {n : ℕ} {pc : InpbReadPc} (pc' : InpbReadPc)
    (hpc : srv.pc = .read 0 n pc) {b : InputBuffer} {buf : ℕ → ℕ}
    (hread : inpbReadStep (cl.box 0).inb srv.localbuf pc = (b, buf, .goto pc')) :
    Reached t₀ t cl { srv with localbuf := buf, pc := .read 0 n pc' } :=
  h.serve fun st hl => by simp only [serverStep, hl.server, hpc, hl.client, hread]

theorem readRet (h : Reached t₀ t cl srv) {n count : ℕ} {pc : InpbReadPc} (hpc : srv.pc = .read 0 n pc)
    {b : InputBuffer} {buf : ℕ → ℕ}
    (hread : inpbReadStep (cl.box 0).inb srv.localbuf pc = (b, buf, .ret count)) :
    Reached t₀ t (cl.setIn 0 b) { srv with
      localbuf := buf
      pc := if count = 0 then .poll 1 n else .exec 0 n count 0 0 } :=
  h.serveBox fun st hl => by simp only [serverStep, hl.server, hpc, hl.client, hread]

theorem execDone (h : Reached t₀ t cl srv) {n count k j : ℕ} (hpc : srv.pc = .exec 0 n count k j)
    (hk : ¬ k < count) (hj : j ≤ OUTB_SIZE) : Reached t₀ t cl { srv with pc := .write 0 n j 0 } :=
  h.serve fun st hl => by simp only [serverStep, hl.server, hpc, if_neg hk, if_pos hj]

theorem write (h : Reached t₀ t cl srv) {n j m m' : ℕ} (hpc : srv.pc = .write 0 n j m) {b : OutputBuffer}
    (hw : outbWriteStep (cl.box 0).out srv.localbuf j m = (b, some m')) :
    Reached t₀ t (cl.setOut 0 b) { srv with pc := .write 0 n j m' } :=
  h.serveBox fun st hl => by simp only [serverStep, hl.server, hpc, hl.client, hw]

theorem writeDone (h : Reached t₀ t cl srv) {n j m : ℕ} (hpc : srv.pc = .write 0 n j m) {b : OutputBuffer}
    (hw : outbWriteStep (cl.box 0).out srv.localbuf j m = (b, none)) :
    Reached t₀ t (cl.setOut 0 b) { srv with pc := .poll 1 n } :=
  h.serveBox fun st hl => by simp only [serverStep, hl.server, hpc, hl.client, hw]

end Reached

/-- The server executes an operation that is answered. -/
theorem Lane.exec (h : Lane t cl srv st) (o : Oracle) {n count k j w v : ℕ} {op : Op}
    {removed : List Removal} (hpc : srv.pc = .exec 0 n count k j) (hk : k < count)
    (hdec : decodeAt srv.localbuf k = some (op, w))
    (hop : serverOp t 0 o op = .ok (t', some v, removed)) :
    ∃ st', st.step (.server 0 o) = .ok (st', [.exec 0 0 op o (some v) removed]) ∧
      Lane t' cl { srv with
        localbuf := Function.update srv.localbuf j v, pc := .exec 0 n count (k + w) (j + 1) } st' := by
  refine ⟨{ st with table := t' }.setServer 0 { srv with
    localbuf := Function.update srv.localbuf j v, pc := .exec 0 n count (k + w) (j + 1) }, ?_, ?_⟩
  · rw [h.server_step]
    simp only [serverStep, h.server, hpc, if_pos hk, hdec, h.table, hop]
    rfl
  · exact ⟨rfl, (serverOp_resp hop).2.trans h.nservers, h.nclients, h.quitting, h.stopper, h.client,
      by simp [Sys.setServer]⟩

theorem Reached.exec (h : Reached t₀ t cl srv) {n count k j w v : ℕ} {op : Op}
    {removed : List Removal} (hpc : srv.pc = .exec 0 n count k j) (hk : k < count)
    (hdec : decodeAt srv.localbuf k = some (op, w))
    (hop : serverOp t 0 ⟨[], []⟩ op = .ok (t', some v, removed)) :
    Reached t₀ t' cl { srv with
      localbuf := Function.update srv.localbuf j v, pc := .exec 0 n count (k + w) (j + 1) } := by
  obtain ⟨st, log, hd, hl⟩ := h
  obtain ⟨st', hs, hl'⟩ := hl.exec ⟨[], []⟩ hpc hk hdec hop
  exact ⟨st', _, hd.next (.server 0 ⟨[], []⟩) trivial trivial hs, hl'⟩

end

/-! ### One lookup -/

/-- The word of a lookup of key 5. -/
def lookupWord : ℕ := 5 ||| HASHOP_LOOKUP

/-- The client has stored and taken all values, and read all responses. -/
structure CaughtUp (cl : Client) : Prop where
  rd : cl.pd.rdIndex < 2 ^ 64
  wr : cl.pd.wrIndex = cl.pd.rdIndex
  out : (cl.box 0).out.wrIndex < 2 ^ 64
  outRd : (cl.box 0).out.localRdIndex = (cl.box 0).out.wrIndex
  outWr : (cl.box 0).out.localWrIndex = (cl.box 0).out.wrIndex

/-- The client is outside a call, and nothing is under way. -/
structure AtRest (cl : Client) : Prop extends CaughtUp cl where
  pc : cl.pc = .idle
  pending : cl.pd.pendingIndex = cl.pd.rdIndex
  count : cl.pd.pendingCount 0 = 0
  index : (cl.box 0).inb.localIndex = 0
  slot : (cl.box 0).inb.dataWr = (cl.box 0).inb.dataRd
  slotLt : (cl.box 0).inb.dataRd < INPB_COUNT
  slots : ∀ j < INPB_COUNT, (cl.box 0).inb.data j 0 = 0

/-- It has issued a lookup. -/
structure Asked (cl : Client) : Prop extends CaughtUp cl where
  pc : cl.pc = .idle
  pending : cl.pd.pendingIndex = add64 cl.pd.rdIndex 1
  count : cl.pd.pendingCount 0 = 1
  next : cl.pd.nextServer = 0
  index : (cl.box 0).inb.localIndex = 1
  word : (cl.box 0).inb.localData 0 = lookupWord
  slot : (cl.box 0).inb.dataWr = (cl.box 0).inb.dataRd
  slotLt : (cl.box 0).inb.dataRd < INPB_COUNT
  slots : ∀ j < INPB_COUNT, (cl.box 0).inb.data j 0 = 0

/-- It waits for the response, with the lookup in the slot the server reads next. -/
structure Waits (cl : Client) : Prop extends CaughtUp cl where
  pc : cl.pc = .load 0 true .getNext
  pending : cl.pd.pendingIndex = add64 cl.pd.rdIndex 1
  count : cl.pd.pendingCount 0 = 1
  index : (cl.box 0).inb.localIndex = 0
  word : (cl.box 0).inb.data (cl.box 0).inb.dataRd 0 = lookupWord
  stop : (cl.box 0).inb.data (cl.box 0).inb.dataRd 1 = 0
  slot : (cl.box 0).inb.dataWr = ((cl.box 0).inb.dataRd + 1) &&& (INPB_COUNT - 1)
  slotLt : (cl.box 0).inb.dataRd < INPB_COUNT
  slots : ∀ j < INPB_COUNT, j ≠ (cl.box 0).inb.dataRd → (cl.box 0).inb.data j 0 = 0

/-- The response is in the ring. -/
structure Answered (cl : Client) : Prop where
  pc : cl.pc = .load 0 true .getNext
  rd : cl.pd.rdIndex < 2 ^ 64
  wr : cl.pd.wrIndex = cl.pd.rdIndex
  pending : cl.pd.pendingIndex = add64 cl.pd.rdIndex 1
  count : cl.pd.pendingCount 0 = 1
  index : (cl.box 0).inb.localIndex = 0
  slot : (cl.box 0).inb.dataWr = (cl.box 0).inb.dataRd
  slotLt : (cl.box 0).inb.dataRd < INPB_COUNT
  slots : ∀ j < INPB_COUNT, (cl.box 0).inb.data j 0 = 0
  outRd : (cl.box 0).out.localRdIndex < 2 ^ 64
  outWr : (cl.box 0).out.localWrIndex = (cl.box 0).out.localRdIndex
  out : (cl.box 0).out.wrIndex = add64 (cl.box 0).out.localRdIndex 1

section

variable {t₀ t : Table} {cl : Client} {srv : Server}

theorem sub64_self (a : ℕ) : sub64 a a = 0 := by
  unfold sub64
  omega

theorem add64_one_ne (a : ℕ) : add64 a 1 ≠ a := by
  unfold add64
  omega

theorem outbReadLoad_of_eq {b : OutputBuffer} (h : b.localWrIndex = b.wrIndex) : outbReadLoad b = b := by
  obtain ⟨data, wr, rd, lwr⟩ := b
  simp only at h
  subst h
  unfold outbReadLoad
  split
  · rfl
  · rfl

/-- `smp_hash_lookup` when nothing is under way. -/
theorem Reached.ask (h : Reached t₀ t cl srv) (hr : AtRest cl) :
    ∃ cl', Reached t₀ t cl' srv ∧ Asked cl' := by
  obtain ⟨pc, pd, box⟩ := cl
  obtain ⟨hup, rfl, hpend, hcount, hidx, hslot, hlt, hslots⟩ := hr
  simp only at *
  have h₁ := h.call (k := .lookup 5) rfl (by decide : 5 < 2 ^ 60) (Or.inl rfl)
    ⟨.window (.lookup 5), pd, box⟩ [] (by
      simp only [startCall, startRequest, hpend, sub64_self]
      rfl)
  have h₂ := h₁.client ⟨.write 0 (.lookup 5) .request, pd, box⟩ [] (by
    simp only [clientStep, Msg.key, hashGetServer, Nat.mod_one, hcount]
    rfl)
  have h₃ := h₂.client ⟨.append 0 (.lookup 5) .request, pd, box⟩ [] (by
    simp only [clientStep, hidx]
    rfl)
  have h₄ := h₃.client _ _ (by
    simp only [clientStep, written]
    rfl)
  refine ⟨_, h₄, ⟨hup.rd, hup.wr, hup.out, hup.outRd, hup.outWr⟩, rfl, ?_, ?_, ?_, ?_, ?_, hslot, hlt,
    hslots⟩
  · show add64 pd.pendingIndex 1 = add64 pd.rdIndex 1
    rw [hpend]
  · simp [PendingData.push, Client.setIn, hcount]
  · have hwr : pd.wrIndex = pd.rdIndex := hup.wr
    show Function.update pd.pendingServers (pd.pendingIndex &&& (MAX_PENDING_SIZE - 1)) 0
      (pd.wrIndex &&& (MAX_PENDING_SIZE - 1)) = 0
    rw [hpend, hwr, Function.update_self]
  · simp [Client.setIn, InputBuffer.append, hidx, Msg.words]
  · simp [Client.setIn, InputBuffer.append, hidx, Msg.words, Ring.store, lookupWord]

/-- `smp_get_next` flushes the lookup before it waits. -/
theorem Reached.wait (h : Reached t₀ t cl srv) (hr : Asked cl) :
    ∃ cl', Reached t₀ t cl' srv ∧ Waits cl' := by
  obtain ⟨pc, pd, box⟩ := cl
  obtain ⟨hup, rfl, hpend, hcount, hnext, hidx, hword, hslot, hlt, hslots⟩ := hr
  simp only at *
  have hwr : pd.wrIndex = pd.rdIndex := hup.wr
  have hrd : pd.rdIndex < 2 ^ 64 := hup.rd
  have hbox : Function.update box 0 ⟨(box 0).inb, (box 0).out⟩ = box := Function.update_eq_self 0 box
  have hne : ¬ pd.rdIndex = pd.pendingIndex := by
    rw [hpend]
    exact Ne.symm (add64_one_ne _)
  have h₁ := h.call (k := .getNext) rfl trivial (Or.inr rfl) ⟨.load 0 false .getNext, pd, box⟩ [] (by
    simp only [startCall, if_neg hne, if_pos hwr.symm, hnext])
  -- the ring is empty
  have hload : outbReadLoad (box 0).out = (box 0).out := outbReadLoad_of_eq hup.outWr
  have htake : outbReadTake (box 0).out = ((box 0).out, none) := by
    unfold outbReadTake
    rw [if_pos (hup.outRd.trans hup.outWr.symm)]
  have h₂ := h₁.client ⟨.take 0 false .getNext, pd, box⟩ [] (by
    simp only [clientStep, hload, Client.setOut]
    rw [hbox])
  have h₃ := h₂.client ⟨.flush 0 .enter (.read .getNext), pd, box⟩ [] (by
    simp only [clientStep, htake]
    rfl)
  have hfree : (box 0).inb.data (box 0).inb.dataWr 0 = 0 := by
    rw [hslot]
    exact hslots _ hlt
  have h₄ := h₃.client ⟨.flush 0 .wait (.read .getNext), pd, box⟩ [] (by
    simp only [clientStep, inpbFlushStep, hidx, Client.setIn, Nat.one_ne_zero, if_false, hbox])
  have h₅ := h₄.client ⟨.flush 0 (.copy 1) (.read .getNext), pd, box⟩ [] (by
    simp only [clientStep, inpbFlushStep, hfree, Client.setIn, ne_eq, not_true_eq_false, if_false, hbox])
  have h₆ := h₅.client _ _ (by
    simp only [clientStep, inpbFlushStep, hidx, Client.setIn]
    rfl)
  have h₇ := h₆.client _ _ (by
    simp only [clientStep, inpbFlushStep, Client.setIn, Function.update_self, Function.update_idem]
    rfl)
  refine ⟨_, h₇, ⟨hrd, hwr, ?_, ?_, ?_⟩, rfl, hpend, hcount, ?_, ?_, ?_, ?_, ?_, ?_⟩
  · simpa using hup.out
  · simpa using hup.outRd
  · simpa using hup.outWr
  · simp
  · simp [Ring.setWord, hslot, hword]
  · simp [Ring.setWord, hslot]
  · simp [hslot]
  · simpa using hlt
  · intro j hj hne
    have hne' : j ≠ (box 0).inb.dataRd := by simpa using hne
    simp [Ring.setWord, hslot, hne', hslots j hj]

theorem decodeAt_lookupWord {buf : ℕ → ℕ} (h : buf 0 = lookupWord) :
    decodeAt buf 0 = some (.lookup 5, 1) := by
  have hop : opcodeOf lookupWord = HASHOP_LOOKUP := by decide
  have harg : operandOf lookupWord = 5 := by decide
  rw [decodeAt, h, if_pos hop, harg]

/-- The server takes the lookup and is about to execute it. -/
theorem Reached.take (h : Reached t₀ t cl srv) (hr : Waits cl) (hpc : srv.pc = .top) :
    ∃ cl' srv', Reached t₀ t cl' srv' ∧ Answered { cl' with
        box := Function.update cl'.box 0 { cl'.box 0 with
          out := { (cl'.box 0).out with wrIndex := add64 (cl'.box 0).out.wrIndex 1 } } } ∧
      srv'.pc = .exec 0 1 1 0 0 ∧ srv'.localbuf 0 = lookupWord ∧ srv'.quitting = false := by
  obtain ⟨pc, pd, box⟩ := cl
  obtain ⟨hup, rfl, hpend, hcount, hidx, hword, hstop, hslot, hlt, hslots⟩ := hr
  simp only at *
  have h₁ := ((h.top hpc).clients rfl).poll rfl
  have hnz : lookupWord ≠ 0 := by decide
  have h₂ := h₁.readGoto (.copy 0) rfl (by
    simp only [inpbReadStep, hword]
    rfl)
  have h₃ := h₂.readGoto (.test 1) rfl (by
    simp only [inpbReadStep, hword]
    rfl)
  have h₄ := h₃.readGoto (.clear 1) rfl (by
    simp only [inpbReadStep, hstop]
    rfl)
  have h₅ := h₄.readRet rfl (by
    simp only [inpbReadStep]
    rfl)
  refine ⟨_, _, h₅, ⟨rfl, hup.rd, hup.wr, hpend, hcount, ?_, ?_, ?_, ?_, ?_, ?_, ?_⟩, rfl, ?_, rfl⟩
  · simpa [Client.setIn] using hidx
  · simpa [Client.setIn] using hslot
  · have hmod : ((box 0).inb.dataRd + 1) &&& (INPB_COUNT - 1) < INPB_COUNT := by
      rw [next_slot]
      exact Nat.mod_lt _ (by decide)
    simpa [Client.setIn] using hmod
  · intro j hj
    by_cases hne : j = (box 0).inb.dataRd
    · simp [Client.setIn, Ring.setWord, hne]
    · simpa [Client.setIn, Ring.setWord, hne] using hslots j hj hne
  · have := hup.out
    have := hup.outRd
    simp only [Client.setIn, Function.update_self] at *
    omega
  · have := hup.outRd
    have := hup.outWr
    simp only [Client.setIn, Function.update_self] at *
    omega
  · have := hup.outRd
    simp only [Client.setIn, Function.update_self] at *
    rw [this]
  · simp

/-- It has executed the lookup, and answers. -/
theorem Reached.answer (h : Reached t₀ t cl srv) (hpc : srv.pc = .exec 0 1 1 1 1)
    (hquit : srv.quitting = false)
    (hr : Answered { cl with
      box := Function.update cl.box 0 { cl.box 0 with
        out := { (cl.box 0).out with wrIndex := add64 (cl.box 0).out.wrIndex 1 } } }) :
    ∃ cl' srv', Reached t₀ t cl' srv' ∧ Answered cl' ∧ srv'.pc = .top ∧ srv'.quitting = false := by
  obtain ⟨pc, pd, box⟩ := cl
  obtain ⟨rfl, hrd, hwr, hpend, hcount, hidx, hslot, hlt, hslots, hord, howr, hout⟩ := hr
  simp only [Function.update_self] at *
  have h₁ := h.execDone hpc (by omega) (by decide)
  have h₂ := h₁.write rfl (by
    simp only [outbWriteStep]
    rfl)
  have h₃ := h₂.writeDone rfl (by
    simp only [outbWriteStep]
    rfl)
  have h₄ := h₃.poll rfl
  refine ⟨_, _, h₄, ⟨rfl, hrd, hwr, hpend, hcount, ?_, ?_, ?_, ?_, ?_, ?_, ?_⟩, ?_, hquit⟩
  · simpa [Client.setOut] using hidx
  · simpa [Client.setOut] using hslot
  · simpa [Client.setOut] using hlt
  · simpa [Client.setOut] using hslots
  · simpa [Client.setOut] using hord
  · simpa [Client.setOut] using howr
  · simpa [Client.setOut] using hout
  · simp [hquit]

/-- The client takes the response. -/
theorem Reached.fetch (h : Reached t₀ t cl srv) (hr : Answered cl) :
    ∃ cl', Reached t₀ t cl' srv ∧ AtRest cl' := by
  obtain ⟨pc, pd, box⟩ := cl
  obtain ⟨rfl, hrd, hwr, hpend, hcount, hidx, hslot, hlt, hslots, hord, howr, hout⟩ := hr
  simp only at *
  have hload : outbReadLoad (box 0).out
      = { (box 0).out with localWrIndex := (box 0).out.wrIndex } := if_pos howr.symm
  have h₁ := h.client _ _ (by
    simp only [clientStep, hload, Client.setOut]
    rfl)
  have hne : ¬ (box 0).out.localRdIndex = (box 0).out.wrIndex := by
    rw [hout]
    exact Ne.symm (add64_one_ne _)
  have h₂ := h₁.client _ _ (by
    simp only [clientStep, outbReadTake, Function.update_self, if_neg hne, deliver, takeValue,
      Client.setOut]
    rfl)
  refine ⟨_, h₂, ⟨?_, ?_, ?_, ?_, ?_⟩, rfl, ?_, ?_, ?_, ?_, ?_, ?_⟩
  · exact Nat.mod_lt _ (by decide)
  · show add64 pd.wrIndex 1 = add64 pd.rdIndex 1
    rw [hwr]
  · simp [hout, add64]
    omega
  · simp [hout]
  · simp [hout]
  · exact hpend
  · simp [PendingData.take, PendingData.store, hcount]
  · simpa using hidx
  · simpa using hslot
  · simpa using hlt
  · simpa using hslots

end

/-! ### All lookups -/

/-- The table has the element at 64 under key 5, with this count. -/
structure HasFive (t : Table) (rc : ℕ) : Prop where
  algo : (t.part 0).evictalgo = .random
  found : ((t.part 0).table (hashGetBucket (t.part 0) 5)).find? (fun e => (t.mem.elem e).key = 5) = some 64
  count : (t.mem.elem 64).refCount = rc

theorem HasFive.hashLookup {t : Table} {rc : ℕ} (h : HasFive t rc) :
    hashLookup (t.part 0) t.mem 5 = (some 64, t.part 0) := by
  have halgo : ¬ (t.part 0).evictalgo = .lru := by simp [h.algo]
  simp only [SmpHashTable.hashLookup, h.found, if_neg halgo]

theorem HasFive.ready {t : Table} {rc : ℕ} (h : HasFive t rc) (hlt : rc < 2 ^ 63) :
    isValueReady t.mem 64 = true := by
  simp only [isValueReady, h.count, and_readyMask, decide_eq_true_eq]
  rw [Nat.div_eq_of_lt hlt, Nat.zero_mod, Nat.zero_mul]

theorem HasFive.add {t : Table} {rc : ℕ} (h : HasFive t rc) (hlt : rc < 2 ^ 63) :
    HasFive (t.setPart 0 (t.part 0)
      (t.mem.setElem 64 { t.mem.elem 64 with refCount := add64 (t.mem.elem 64).refCount 1 })) (rc + 1) := by
  have hkey : (fun e => decide (((t.mem.setElem 64 { t.mem.elem 64 with
      refCount := add64 (t.mem.elem 64).refCount 1 }).elem e).key = 5))
      = fun e => decide ((t.mem.elem e).key = 5) := by
    funext e
    by_cases he : e = 64
    · subst he
      simp
    · rw [Mem.setElem_of_ne _ _ he]
  refine ⟨?_, ?_, ?_⟩
  · rw [Table.setPart_part_self]
    exact h.algo
  · rw [Table.setPart_part_self]
    show List.find? (fun e => decide (((t.mem.setElem 64 _).elem e).key = 5)) _ = _
    rw [hkey]
    exact h.found
  · simp only [Table.setPart, Mem.setElem_self, h.count]
    exact add64_eq (by omega)

theorem HasFive.lookup {t : Table} {rc : ℕ} (h : HasFive t rc) (hlt : rc < 2 ^ 63) :
    ∃ t', serverOp t 0 ⟨[], []⟩ (.lookup 5) = .ok (t', some 128, []) ∧ HasFive t' (rc + 1) := by
  refine ⟨_, ?_, h.add hlt⟩
  simp only [serverOp, h.hashLookup, h.ready hlt, if_true]
  rfl

/-- A full count looks like a value that is not ready. -/
theorem HasFive.full {t : Table} (h : HasFive t (2 ^ 63)) :
    ∃ t', serverOp t 0 ⟨[], []⟩ (.lookup 5) = .ok (t', some 0, []) := by
  have hready : isValueReady t.mem 64 = false := by
    simp only [isValueReady, h.count]
    decide
  refine ⟨t.setPart 0 (t.part 0) t.mem, ?_⟩
  simp only [serverOp, h.hashLookup, hready]
  rfl

/-- A state between two lookups. -/
def Between (t₀ : Table) (rc : ℕ) : Prop :=
  ∃ t cl srv, Reached t₀ t cl srv ∧ AtRest cl ∧ srv.pc = .top ∧ HasFive t rc

/-- **One more lookup** adds a reference, while there is room in the count. -/
theorem Between.lookup {t₀ : Table} {rc : ℕ} (h : Between t₀ rc) (hlt : rc < 2 ^ 63) :
    Between t₀ (rc + 1) := by
  obtain ⟨t, cl, srv, h, hrest, htop, hfive⟩ := h
  obtain ⟨cl₁, h₁, hasked⟩ := h.ask hrest
  obtain ⟨cl₂, h₂, hwaits⟩ := h₁.wait hasked
  obtain ⟨cl₃, srv₃, h₃, hans, hpc, hbuf, hquit⟩ := h₂.take hwaits htop
  obtain ⟨t', hop, hfive'⟩ := hfive.lookup hlt
  have h₄ := h₃.exec hpc Nat.one_pos (decodeAt_lookupWord hbuf) hop
  obtain ⟨cl₅, srv₅, h₅, hans', htop', -⟩ := h₄.answer rfl hquit hans
  obtain ⟨cl₆, h₆, hrest'⟩ := h₅.fetch hans'
  exact ⟨t', cl₆, srv₅, h₆, hrest', htop', hfive'⟩

theorem Between.lookups {t₀ : Table} {rc : ℕ} (h : Between t₀ rc) (n : ℕ) (hle : rc + n ≤ 2 ^ 63) :
    Between t₀ (rc + n) := by
  induction n with
  | zero => exact h
  | succ n ih => exact (ih (by omega)).lookup (by omega)

/-- An insert of key 5, marked ready. -/
def fiveRun : List Act := List.flatten [
  [.create (fun _ => 0) (fun _ => 0), .start fun _ _ => 0],
  .call 0 (.insert 5 8) :: List.replicate 3 (.client 0),
  .call 0 .getNext :: List.replicate 7 (.client 0),
  List.replicate 13 (.server 0 ⟨[some 64], []⟩), List.replicate 2 (.client 0),
  .call 0 (.markReady 128) :: List.replicate 6 (.client 0),
  List.replicate 12 (.server 0 ⟨[], []⟩)]

theorem between_fiveRun : Between (createHashTable 1024 1 .random) 1 := by
  have hval : (Runs.run Sys.step
      (fun st log a => a.Ok st ∧ a.Returns (createHashTable 1024 1 .random) log) fiveRun
      (Sys.init (createHashTable 1024 1 .random)) []).any (fun r =>
        let cl := r.1.client 0
        decide (((r.1.nclients = 1 ∧ r.1.table.nservers = 1 ∧ r.1.quitting = false ∧
            r.1.stopper = .idle) ∧ (r.1.server 0).pc = .top) ∧
          (cl.pd.rdIndex < 2 ^ 64 ∧ cl.pd.wrIndex = cl.pd.rdIndex ∧
            (cl.box 0).out.wrIndex < 2 ^ 64 ∧ (cl.box 0).out.localRdIndex = (cl.box 0).out.wrIndex ∧
            (cl.box 0).out.localWrIndex = (cl.box 0).out.wrIndex) ∧
          (cl.pc = .idle ∧ cl.pd.pendingIndex = cl.pd.rdIndex ∧ cl.pd.pendingCount 0 = 0 ∧
            (cl.box 0).inb.localIndex = 0 ∧ (cl.box 0).inb.dataWr = (cl.box 0).inb.dataRd ∧
            (cl.box 0).inb.dataRd < INPB_COUNT ∧ ∀ j < INPB_COUNT, (cl.box 0).inb.data j 0 = 0) ∧
          (r.1.table.part 0).evictalgo = .random ∧
            ((r.1.table.part 0).table (hashGetBucket (r.1.table.part 0) 5)).find?
              (fun e => (r.1.table.mem.elem e).key = 5) = some 64 ∧
            (r.1.table.mem.elem 64).refCount = 1)) = true := by
    decide +kernel
  obtain ⟨⟨st, log⟩, hrun, hok⟩ := (Option.any_eq_true _ _).mp hval
  obtain ⟨⟨⟨hcl, hn, hquit, hstop⟩, htop⟩, ⟨hrd, hwr, hout, hord, howr⟩,
    ⟨hpc, hpend, hcount, hidx, hslot, hlt, hslots⟩, halgo, hfound, hrc⟩ := of_decide_eq_true hok
  have hreach : Sys.Disciplined (createHashTable 1024 1 .random) st log := Runs.Reach.start.run hrun
  exact ⟨st.table, st.client 0, st.server 0, ⟨st, log, hreach, rfl, hn, hcl, hquit, hstop, rfl, rfl⟩,
    ⟨⟨hrd, hwr, hout, hord, howr⟩, hpc, hpend, hcount, hidx, hslot, hlt, hslots⟩, htop,
    ⟨halgo, hfound, hrc⟩⟩

theorem between_full : Between (createHashTable 1024 1 .random) (2 ^ 63) := by
  have h := between_fiveRun.lookups (2 ^ 63 - 1) (by decide)
  rwa [show 1 + (2 ^ 63 - 1) = 2 ^ 63 from by decide] at h

/-- What the invariant says where the count is full. -/
theorem Settled.full {N : ℕ} {f : Fifo} (h : Settled N f) (hn : f.table.nservers = 1)
    (hfive : HasFive f.table (2 ^ 63)) :
    f.table.mem.Live 64 ∧ f.refs N 64 = 2 ^ 63 ∧ f.table.Has 64 ∧ (f.table.mem.elem 64).key = 5 ∧
      f.due N (.markReady 64) = 0 := by
  have hs : 0 < f.table.nservers := by omega
  have hfound : (hashLookup (f.table.part 0) f.table.mem 5).1 = some 64 := by rw [hfive.hashLookup]
  obtain ⟨hin, hkey⟩ := (hashLookup_eq_some (h.refs.shape 0 hs) 5 64).mp hfound
  have hlive := (h.refs.shape 0 hs).live 64 hin
  have hhas := Table.has_of_mem hs hin
  have hok := h.refs.counted.ok 64 ((h.refs.counted.live_iff 64).mp hlive)
  rw [hfive.count] at hok
  rcases hok with ⟨-, -, hrc⟩ | ⟨hp, -, hrc⟩ | ⟨-, -, hrc⟩
  · exact absurd hrc (by decide)
  · refine ⟨hlive, hrc.symm, hhas, hkey, ?_⟩
    by_contra hne
    exact hp ⟨hhas, Nat.pos_of_ne_zero hne⟩
  · exact absurd hrc (by decide)

/-- A live element whose count is not the number of its references. -/
theorem refCount_full : ∃ st log f,
    Sys.Disciplined (createHashTable 1024 1 .random) st log ∧
      (Fifo.init (createHashTable 1024 1 .random)).replay log = some f ∧ f.table = st.table ∧
      f.table.mem.Live 64 ∧ (f.table.mem.elem 64).refCount % 2 ^ 63 ≠ f.refs st.nclients 64 := by
  obtain ⟨t, cl, srv, ⟨st, log, hd, hl⟩, -, -, hfive⟩ := between_full
  obtain ⟨f, hlog, hcoup, hset⟩ := disciplined_settled hd
  have htable : f.table = t := hcoup.table.trans hl.table
  rw [← htable] at hfive
  obtain ⟨hlive, hrefs, -⟩ := hset.full (by rw [htable]; exact hl.nservers) hfive
  refine ⟨st, log, f, hd, hlog, hcoup.table, hlive, ?_⟩
  rw [hfive.count, hrefs]
  decide

/-- A lookup that misses the element of the last insert, which is marked ready and in the table. -/
theorem lookup_misses_full : ∃ st log st' evs f l,
    Sys.Disciplined (createHashTable 1024 1 .random) st log ∧
      Fifo.replayWith Ledger.follow (Fifo.init (createHashTable 1024 1 .random), Ledger.empty) log
        = some (f, l) ∧
      st.step (.server 0 ⟨[], []⟩) = .ok (st', evs) ∧
      .exec 0 0 (.lookup 5) ⟨[], []⟩ (some 0) [] ∈ evs ∧ l 5 = some ⟨64, true⟩ := by
  obtain ⟨t, cl, srv, h, hrest, htop, hfive⟩ := between_full
  obtain ⟨cl₁, h₁, hasked⟩ := h.ask hrest
  obtain ⟨cl₂, h₂, hwaits⟩ := h₁.wait hasked
  obtain ⟨cl₃, srv₃, ⟨st, log, hd, hl⟩, -, hpc, hbuf, -⟩ := h₂.take hwaits htop
  obtain ⟨t', hop⟩ := hfive.full
  obtain ⟨st', hstep, -⟩ := hl.exec ⟨[], []⟩ hpc Nat.one_pos (decodeAt_lookupWord hbuf) hop
  obtain ⟨f, l, hlog, hcoup, hset, hledger⟩ := disciplined_ledger hd
  have htable : f.table = t := hcoup.table.trans hl.table
  rw [← htable] at hfive
  obtain ⟨-, -, hhas, hkey, hmark⟩ := hset.full (by rw [htable]; exact hl.nservers) hfive
  exact ⟨st, log, st', _, f, l, hd, hlog, hstep, List.mem_cons_self,
    (hledger 5 ⟨64, true⟩).mpr ⟨hhas, hkey, by simp [hmark]⟩⟩

end SmpHashTable
