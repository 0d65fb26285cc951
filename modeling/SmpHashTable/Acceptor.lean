import SmpHashTable.Descriptors

/-!
# Slots for new connections

The accepting thread counts a connection before it stores its number into a slot, and a client thread
counts it off before it clears the slot.  Both store to the same array without a lock.  So `nsockets` is
the number of slots in use but for the threads that are between the two, and the search for a slot in
`open_socket`, which has no bound of its own, always has one to find.
-/

namespace SmpHashTable.HashServer

/-! ### Counting slots -/

/-- The slots in use. -/
def ClientData.used (cd : ClientData) : Finset ℕ := {i ∈ Finset.range MAX_SOCKETS | cd.sockets i ≠ -1}

/-- The thread is in `close_socket`, between the decrement and the store. -/
def ClientPc.uncounted : ClientPc → ℕ
  | .closing (_ + 3) _ => 1
  | _ => 0

/-- The accepting thread is in `open_socket` for client `c`, between the increment and the store. -/
def AcceptorPc.counting (c : ℕ) : AcceptorPc → ℕ
  | .counted _ cid _ => if cid = c then 1 else 0
  | _ => 0

/-- The slot the accepting thread has found. -/
def AcceptorPc.slot : AcceptorPc → Option (ℕ × ℕ)
  | .opened _ cid i | .counted _ cid i => some (cid, i)
  | _ => none

/-- The client whose slots it searches, or to which it is about to add one. -/
def AcceptorPc.adding : AcceptorPc → Option ℕ
  | .scanning _ cid _ | .opened _ cid _ => some cid
  | _ => none

theorem ClientData.mem_used {cd : ClientData} {i : ℕ} :
    i ∈ cd.used ↔ i < MAX_SOCKETS ∧ cd.sockets i ≠ -1 := by
  rw [ClientData.used, Finset.mem_filter, Finset.mem_range]

theorem ClientData.used_le (cd : ClientData) : cd.used.card ≤ MAX_SOCKETS := by
  have hle := Finset.card_filter_le (Finset.range MAX_SOCKETS) fun i => cd.sockets i ≠ -1
  rwa [Finset.card_range] at hle

/-- A free slot leaves room. -/
theorem ClientData.used_lt_iff {cd : ClientData} :
    cd.used.card < MAX_SOCKETS ↔ ∃ i < MAX_SOCKETS, cd.sockets i = -1 := by
  constructor
  · intro hlt
    by_contra hnone
    push Not at hnone
    have hall : cd.used = Finset.range MAX_SOCKETS :=
      Finset.filter_true_of_mem fun i hi => hnone i (Finset.mem_range.mp hi)
    rw [hall, Finset.card_range] at hlt
    exact Nat.lt_irrefl _ hlt
  · rintro ⟨i, hi, hfree⟩
    have hsub : cd.used ⊆ (Finset.range MAX_SOCKETS).erase i := by
      intro j hj
      obtain ⟨hlt, hne⟩ := ClientData.mem_used.mp hj
      refine Finset.mem_erase.mpr ⟨?_, Finset.mem_range.mpr hlt⟩
      rintro rfl
      exact hne hfree
    have hle := Finset.card_le_card hsub
    rw [Finset.card_erase_of_mem (Finset.mem_range.mpr hi), Finset.card_range] at hle
    have hpos : 0 < MAX_SOCKETS := by decide
    omega

/-- A number is stored into a free slot. -/
theorem ClientData.used_store {cd cd' : ClientData} {i : ℕ} (hi : i < MAX_SOCKETS) (hfree : cd.sockets i = -1)
    {sock : ℤ} (hsock : sock ≠ -1) (hcd : cd'.sockets = Function.update cd.sockets i sock) :
    cd'.used.card = cd.used.card + 1 := by
  have hset : cd'.used = insert i cd.used := by
    ext j
    rw [Finset.mem_insert, ClientData.mem_used, ClientData.mem_used, hcd]
    by_cases hj : j = i
    · subst hj
      simp [hi, hsock]
    · simp [hj]
  rw [hset, Finset.card_insert_of_notMem fun hin => (ClientData.mem_used.mp hin).2 hfree]

/-- A slot in use is cleared. -/
theorem ClientData.used_clear {cd cd' : ClientData} {i : ℕ} (hi : i < MAX_SOCKETS) (hused : cd.sockets i ≠ -1)
    (hcd : cd'.sockets = Function.update cd.sockets i (-1)) : cd'.used.card + 1 = cd.used.card := by
  have hset : cd'.used = cd.used.erase i := by
    ext j
    rw [Finset.mem_erase, ClientData.mem_used, ClientData.mem_used, hcd]
    by_cases hj : j = i
    · subst hj
      simp
    · simp [hj]
  have hin : i ∈ cd.used := ClientData.mem_used.mpr ⟨hi, hused⟩
  have hpos := Finset.card_pos.mpr ⟨i, hin⟩
  rw [hset, Finset.card_erase_of_mem hin]
  omega

/-! ### A step of a client thread -/

section

variable {b c : ℕ} {cl cl' : Client} {fds fds' : ℤ → Option ℕ} {a : ClientAct} {evs : List ServerEvent}

/-- The thread looks at slots that exist. -/
def Client.Cursor (cl : Client) : Prop := cl.i < MAX_SOCKETS ∧ cl.lastSocket < MAX_SOCKETS

theorem ClientStep.cursor (h : ClientStep b cl fds c a cl' fds' evs) (hcur : cl.Cursor) : cl'.Cursor := by
  have hmod : (cl.i + 1) % MAX_SOCKETS < MAX_SOCKETS := Nat.mod_lt _ (by decide)
  cases h with
  | newBatch => exact ⟨hcur.2, hcur.2⟩
  | nextSlot | roundDone => exact ⟨hmod, hcur.2⟩
  | lookup | insert | invalid => exact ⟨hcur.1, hcur.1⟩
  | _ => exact hcur

/-- A client thread fills no slot. -/
theorem ClientStep.free (h : ClientStep b cl fds c a cl' fds' evs)
    (hin : cl.pc.InSlot → cl.cd.sockets cl.i ≠ -1) {j : ℕ} (hj : cl.cd.sockets j = -1) :
    cl'.cd.sockets j = -1 := by
  rcases h.slots hin with hq | ⟨_, _, rfl, _⟩ | ⟨_, _, rfl, _⟩
  · exact hq.free j hj
  · exact hj
  · exact hj

/-- **A client thread counts a connection off and clears its slot**, and does nothing else to the counter
and the slots in use. -/
theorem ClientStep.counted (h : ClientStep b cl fds c a cl' fds' evs) (hi : cl.i < MAX_SOCKETS)
    (hin : cl.pc.InSlot → cl.cd.sockets cl.i ≠ -1) :
    cl'.cd.nsockets + cl'.pc.uncounted + cl.cd.used.card = cl.cd.nsockets + cl.pc.uncounted + cl'.cd.used.card ∧
      cl'.cd.nsockets ≤ cl.cd.nsockets := by
  have hfails : ∀ (cl : Client) (r : ℕ), (cl.fails fds r).pc.uncounted = 0 := by
    intro cl r
    by_cases hr : r = 2 <;> simp [Client.fails, hr, ClientPc.uncounted]
  have hsame : ∀ cl' : Client, cl'.cd = cl.cd → cl'.pc.uncounted = 0 → cl.pc.uncounted = 0 →
      cl'.cd.nsockets + cl'.pc.uncounted + cl.cd.used.card
        = cl.cd.nsockets + cl.pc.uncounted + cl'.cd.used.card ∧ cl'.cd.nsockets ≤ cl.cd.nsockets := by
    intro cl' hcd h' h
    rw [hcd, h', h]
    exact ⟨rfl, le_rfl⟩
  cases h with
  | @uncount target hpc =>
      rw [hpc]
      have hused : ({ cl.cd with nsockets := cl.cd.nsockets - 1 } : ClientData).used = cl.cd.used := rfl
      simp only [hused, ClientPc.uncounted]
      omega
  | @clearSlot line target hpc hline =>
      obtain ⟨line, rfl⟩ : ∃ n, line = n + 3 := ⟨line - 3, by omega⟩
      rw [hpc]
      have hclear : ({ cl.cd with sockets := Function.update cl.cd.sockets cl.i (-1) } : ClientData).used.card + 1
          = cl.cd.used.card := ClientData.used_clear hi (hin (by rw [hpc]; trivial)) rfl
      refine ⟨?_, le_rfl⟩
      rw [← hclear]
      simp only [ClientPc.uncounted]
      push_cast
      ring
  | noHeader hpc | noValue hpc => exact hsame _ rfl (hfails _ _) (by rw [hpc]; rfl)
  | writeAgain hpc => exact ⟨rfl, le_rfl⟩
  | _ hpc => exact hsame _ rfl rfl (by rw [hpc]; rfl)

end

/-! ### The invariant -/

/-- The counters and the slots agree, and whoever stores to the slots finds what it expects there. -/
structure Slots (st : Server) : Prop where
  cursor : ∀ c, (st.client c).Cursor
  inSlot : ∀ c, (st.client c).pc.InSlot → (st.client c).cd.sockets (st.client c).i ≠ -1
  /-- **Two counts**: of the connections in `nsockets`, and of the slots in use. -/
  count : ∀ c, (st.client c).cd.nsockets + (st.client c).pc.uncounted
    = (st.client c).cd.used.card + st.acceptor.counting c
  le : ∀ c, (st.client c).cd.nsockets ≤ MAX_SOCKETS
  valid : ∀ sock, st.acceptor.sock = some sock → sock ≠ -1
  scan : ∀ sock cid i, st.acceptor = .scanning sock cid i → i < MAX_SOCKETS
  slot : ∀ cid i, st.acceptor.slot = some (cid, i) → i < MAX_SOCKETS ∧ (st.client cid).cd.sockets i = -1
  room : ∀ cid, st.acceptor.adding = some cid → (st.client cid).cd.nsockets < MAX_SOCKETS

theorem Slots.start (b n : ℕ) : Slots (.start b n) := by
  have hnone : ClientData.used ⟨0, fun _ => -1, fun _ => -1⟩ = ∅ := by
    rw [ClientData.used, Finset.filter_false_of_mem]
    exact fun _ _ hne => hne rfl
  refine ⟨fun _ => ⟨(by decide : 0 < MAX_SOCKETS), (by decide : 0 < MAX_SOCKETS)⟩, fun _ h => h.elim,
    fun c => ?_, fun _ => (by decide : (0 : ℤ) ≤ MAX_SOCKETS), fun _ h => ?_, fun _ _ _ h => ?_,
    fun _ _ h => ?_, fun _ h => ?_⟩
  · show (0 : ℤ) + 0 = (ClientData.used ⟨0, fun _ => -1, fun _ => -1⟩).card + 0
    rw [hnone]
    rfl
  all_goals cases h

/-- A step of a client thread. -/
theorem Slots.client {st : Server} (h : Slots st) {c : ℕ} {a : ClientAct} {cl : Client} {fds : ℤ → Option ℕ}
    {evs : List ServerEvent} (hstep : ClientStep st.batchSize (st.client c) st.fds c a cl fds evs) :
    Slots ({ st with fds := fds }.setClient c cl) := by
  obtain ⟨hcount, hle⟩ := hstep.counted (h.cursor c).1 (h.inSlot c)
  have hin : cl.pc.InSlot → cl.cd.sockets cl.i ≠ -1 := by
    rcases hstep.slots (h.inSlot c) with hq | ⟨target, hpc, rfl, _⟩ | ⟨target, hpc, rfl, _⟩
    · exact hq.inSlot
    · exact fun _ => h.inSlot c (by rw [hpc]; trivial)
    · exact fun _ => h.inSlot c (by rw [hpc]; trivial)
  -- what holds of each client thread
  have hall : ∀ {P : ℕ → Client → Prop}, (∀ c', P c' (st.client c')) → P c cl →
      ∀ c', P c' (({ st with fds := fds }.setClient c cl).client c') := by
    intro P hold hnew c'
    by_cases hc : c' = c
    · subst hc
      rw [Server.setClient_self]
      exact hnew
    · rw [Server.setClient_of_ne hc]
      exact hold c'
  refine ⟨hall (P := fun _ cl => cl.Cursor) h.cursor (hstep.cursor (h.cursor c)),
    hall (P := fun _ cl => cl.pc.InSlot → cl.cd.sockets cl.i ≠ -1) h.inSlot hin,
    hall (P := fun c' cl => cl.cd.nsockets + cl.pc.uncounted = cl.cd.used.card + st.acceptor.counting c')
      h.count (by have := h.count c; omega),
    hall (P := fun _ cl => cl.cd.nsockets ≤ MAX_SOCKETS) h.le (le_trans hle (h.le c)), h.valid, h.scan,
    fun cid i hslot => ?_, fun cid hadd => ?_⟩
  · obtain ⟨hi, hnone⟩ := h.slot cid i hslot
    exact ⟨hi, hall (P := fun c' cl => c' = cid → cl.cd.sockets i = -1) (fun c' hc => hc ▸ hnone)
      (fun hc => hstep.free (h.inSlot c) (hc ▸ hnone)) cid rfl⟩
  · exact hall (P := fun c' cl => c' = cid → cl.cd.nsockets < MAX_SOCKETS) (fun c' hc => hc ▸ h.room cid hadd)
      (fun hc => lt_of_le_of_lt hle (hc ▸ h.room cid hadd)) cid rfl

/-- The accepting thread writes to the data of client `cid`. -/
theorem Slots.setCd {st : Server} (h : Slots st) {cid : ℕ} {cd : ClientData} {a : AcceptorPc}
    (hfree : ∀ j, (st.client cid).cd.sockets j ≠ -1 → cd.sockets j ≠ -1)
    (hcount : cd.nsockets + (st.client cid).pc.uncounted = cd.used.card + a.counting cid)
    (hother : ∀ c, c ≠ cid → a.counting c = st.acceptor.counting c) (hle : cd.nsockets ≤ MAX_SOCKETS)
    (hvalid : ∀ sock, a.sock = some sock → sock ≠ -1)
    (hscan : ∀ sock cid i, a = .scanning sock cid i → i < MAX_SOCKETS)
    (hslot : ∀ c i, a.slot = some (c, i) → c = cid ∧ i < MAX_SOCKETS ∧ cd.sockets i = -1)
    (hroom : ∀ c, a.adding = some c → c = cid ∧ cd.nsockets < MAX_SOCKETS) :
    Slots ({ st with acceptor := a }.setCd cid cd) := by
  have hall : ∀ {P : ℕ → Client → Prop}, (∀ c, c ≠ cid → P c (st.client c)) →
      P cid { st.client cid with cd := cd } → ∀ c, P c (({ st with acceptor := a }.setCd cid cd).client c) := by
    intro P hold hnew c
    by_cases hc : c = cid
    · subst hc
      rw [Server.setCd, Server.setClient_self]
      exact hnew
    · rw [Server.setCd, Server.setClient_of_ne hc]
      exact hold c hc
  refine ⟨hall (P := fun _ cl => cl.Cursor) (fun c _ => h.cursor c) (h.cursor cid),
    hall (P := fun _ cl => cl.pc.InSlot → cl.cd.sockets cl.i ≠ -1) (fun c _ => h.inSlot c)
      (fun hpc => hfree _ (h.inSlot cid hpc)),
    hall (P := fun c cl => cl.cd.nsockets + cl.pc.uncounted = cl.cd.used.card + a.counting c)
      (fun c hc => by rw [hother c hc]; exact h.count c) hcount,
    hall (P := fun _ cl => cl.cd.nsockets ≤ MAX_SOCKETS) (fun c _ => h.le c) hle, hvalid, hscan,
    fun c i hs => ?_, fun c ha => ?_⟩
  · obtain ⟨rfl, hi, hnone⟩ := hslot c i hs
    exact ⟨hi, by rw [Server.setCd, Server.setClient_self]; exact hnone⟩
  · obtain ⟨rfl, hlt⟩ := hroom c ha
    rw [Server.setCd, Server.setClient_self]
    exact hlt

/-- A step of the accepting thread. -/
theorem Slots.tcpserver {st st' : Server} (h : Slots st) {a : AcceptorAct} (hstep : st.tcpserver a = .ok st') :
    Slots st' := by
  have hsame : ∀ {acc : AcceptorPc} (fds : ℤ → Option ℕ) (n : ℕ),
      (∀ c, acc.counting c = st.acceptor.counting c) → (∀ sock, acc.sock = some sock → sock ≠ -1) →
      (∀ sock cid i, acc = .scanning sock cid i → i < MAX_SOCKETS) → acc.slot = none →
      (∀ cid, acc.adding = some cid → (st.client cid).cd.nsockets < MAX_SOCKETS) →
      Slots { st with fds := fds, nconn := n, acceptor := acc } := by
    intro acc fds n hcount hvalid hscan hslot hroom
    refine ⟨h.cursor, h.inSlot, fun c => ?_, h.le, hvalid, hscan, fun cid i hs => ?_, hroom⟩
    · show _ = _ + (acc.counting c : ℤ)
      rw [hcount c]
      exact h.count c
    · have hs : acc.slot = some (cid, i) := hs
      rw [hslot] at hs
      cases hs
  unfold Server.tcpserver at hstep
  cases a with
  | accept fd =>
      cases hpc : st.acceptor <;> simp only [hpc] at hstep <;> try cases hstep
      split at hstep
      · next hfd =>
        cases hstep
        refine hsame _ _ (fun c => by rw [hpc]; rfl) (fun sock hs => ?_) (fun _ _ _ hs => by cases hs) rfl
          fun _ hs => by cases hs
        cases hs
        omega
      · cases hstep
  | noFile =>
      cases hpc : st.acceptor <;> simp only [hpc] at hstep <;> try cases hstep
      next sock cid i =>
      split at hstep
      · cases hstep
        have hcount := h.count cid
        rw [hpc] at hcount
        exact h.setCd (fun _ hj => hj) hcount (fun c _ => by rw [hpc]; rfl) (h.le cid) (fun _ hs => by cases hs)
          (fun _ _ _ hs => by cases hs) (fun _ _ hs => by cases hs) fun _ hs => by cases hs
      · cases hstep
  | go =>
      cases hpc : st.acceptor with
      | listening =>
          simp only [hpc] at hstep
          cases hstep
      | choosing sock i cid =>
          have hsock := h.valid sock (by rw [hpc]; rfl)
          simp only [hpc] at hstep
          split at hstep
          · cases hstep
            exact hsame st.fds st.nconn (fun c => by rw [hpc]; rfl) (fun _ hs => by cases hs; exact hsock)
              (fun _ _ _ hs => by cases hs) rfl fun _ hs => by cases hs
          · cases hstep
            exact hsame st.fds st.nconn (fun c => by rw [hpc]; rfl) (fun _ hs => by cases hs; exact hsock)
              (fun _ _ _ hs => by cases hs) rfl fun _ hs => by cases hs
      | waiting sock cid =>
          have hsock := h.valid sock (by rw [hpc]; rfl)
          simp only [hpc] at hstep
          split at hstep
          · cases hstep
            exact h
          · next hfull =>
            cases hstep
            refine hsame st.fds st.nconn (fun c => by rw [hpc]; rfl) (fun _ hs => by cases hs; exact hsock)
              (fun _ _ _ hs => ?_) rfl fun _ hs => ?_
            · cases hs
              decide
            · cases hs
              omega
      | scanning sock cid i =>
          have hsock := h.valid sock (by rw [hpc]; rfl)
          have hroom := h.room cid (by rw [hpc]; rfl)
          have hi := h.scan sock cid i hpc
          have hcount := h.count cid
          rw [hpc] at hcount
          simp only [hpc] at hstep
          split at hstep
          · next hnone =>
            cases hstep
            refine h.setCd (fun _ hj => hj) hcount (fun c _ => by rw [hpc]; rfl) (h.le cid)
              (fun _ hs => by cases hs; exact hsock) (fun _ _ _ hs => by cases hs) (fun c j hs => ?_)
              fun c hs => ?_
            · cases hs
              exact ⟨rfl, hi, hnone⟩
            · cases hs
              exact ⟨rfl, hroom⟩
          · cases hstep
            refine hsame st.fds st.nconn (fun c => by rw [hpc]; rfl) (fun _ hs => by cases hs; exact hsock)
              (fun _ _ _ hs => ?_) rfl fun _ hs => ?_
            · cases hs
              exact Nat.mod_lt _ (by decide)
            · cases hs
              exact hroom
      | opened sock cid i =>
          have hsock := h.valid sock (by rw [hpc]; rfl)
          have hroom := h.room cid (by rw [hpc]; rfl)
          obtain ⟨hi, hnone⟩ := h.slot cid i (by rw [hpc]; rfl)
          have hcount := h.count cid
          rw [hpc] at hcount
          simp only [hpc] at hstep
          cases hstep
          refine h.setCd (fun _ hj => hj) ?_ (fun c hc => ?_) (by simp only; omega)
            (fun _ hs => by cases hs; exact hsock) (fun _ _ _ hs => by cases hs) (fun c j hs => ?_)
            fun c hs => by cases hs
          · have hused : ({ (st.client cid).cd with nsockets := (st.client cid).cd.nsockets + 1 } : ClientData).used
                = (st.client cid).cd.used := rfl
            simp only [hused, AcceptorPc.counting, if_true]
            simp only [AcceptorPc.counting] at hcount
            omega
          · rw [hpc, AcceptorPc.counting, if_neg (Ne.symm hc)]
            rfl
          · cases hs
            exact ⟨rfl, hi, hnone⟩
      | counted sock cid i =>
          have hsock := h.valid sock (by rw [hpc]; rfl)
          obtain ⟨hi, hnone⟩ := h.slot cid i (by rw [hpc]; rfl)
          have hcount := h.count cid
          rw [hpc] at hcount
          simp only [hpc] at hstep
          cases hstep
          have hstore : ({ (st.client cid).cd with
              sockets := Function.update (st.client cid).cd.sockets i sock } : ClientData).used.card
              = (st.client cid).cd.used.card + 1 := ClientData.used_store hi hnone hsock rfl
          refine h.setCd (fun j hj => ?_) ?_ (fun c hc => ?_) (h.le cid) (fun _ hs => by cases hs)
            (fun _ _ _ hs => by cases hs) (fun _ _ hs => by cases hs) fun _ hs => by cases hs
          · by_cases hji : j = i
            · exact absurd (hji ▸ hnone) hj
            · exact fun hs => hj ((Function.update_of_ne hji _ _).symm.trans hs)
          · rw [hstore]
            simp only [AcceptorPc.counting, if_true] at hcount ⊢
            push_cast
            omega
          · rw [hpc]
            exact (if_neg (Ne.symm hc)).symm

/-- **Every reachable state accounts for its slots.** -/
theorem reach_slots {ok : Server → List ServerEvent → ServerAct → Prop} {b n : ℕ} {st : Server}
    {log : List ServerEvent} (h : Runs.Reach Server.step ok (.start b n) st log) : Slots st := by
  refine h.invariant (P := fun st _ => Slots st) (.start b n) fun hs _ hstep => ?_
  rcases Server.step_cases hstep with ⟨_, -, hacc, -⟩ | ⟨_, _, _, _, -, -, hcl, rfl⟩
  · exact hs.tcpserver hacc
  · exact hs.client (clientgo_step hcl)

/-- A thread is at the store that frees its slot, or the count leaves a free one. -/
theorem Slots.free_slot {st : Server} (h : Slots st) {sock : ℤ} {cid i : ℕ}
    (hpc : st.acceptor = .scanning sock cid i) :
    (∃ j < MAX_SOCKETS, (st.client cid).cd.sockets j = -1) ∨
      ∃ line target, (st.client cid).pc = .closing line target ∧ 3 ≤ line := by
  have hcount := h.count cid
  have hroom := h.room cid (by rw [hpc]; rfl)
  rw [hpc] at hcount
  simp only [AcceptorPc.counting] at hcount
  by_cases hclosing : (st.client cid).pc.uncounted = 0
  · refine .inl (ClientData.used_lt_iff.mp ?_)
    omega
  · refine .inr ?_
    unfold ClientPc.uncounted at hclosing
    split at hclosing
    · next line target hcl => exact ⟨line + 3, target, hcl, Nat.le_add_left _ _⟩
    · exact absurd rfl hclosing

/-- The threads that count a connection off before they clear its slot do not take it below zero. -/
theorem Slots.nonneg {st : Server} (h : Slots st) (c : ℕ) : 0 ≤ (st.client c).cd.nsockets := by
  have hcount := h.count c
  have hpos : (st.client c).pc.uncounted ≤ (st.client c).cd.used.card := by
    by_cases hclosing : (st.client c).pc.uncounted = 0
    · omega
    · have hmem : (st.client c).i ∈ (st.client c).cd.used := by
        refine ClientData.mem_used.mpr ⟨(h.cursor c).1, h.inSlot c ?_⟩
        unfold ClientPc.uncounted at hclosing
        split at hclosing
        · next hcl =>
          rw [hcl]
          trivial
        · exact absurd rfl hclosing
      have hle : (st.client c).pc.uncounted ≤ 1 := by
        unfold ClientPc.uncounted
        split <;> omega
      exact le_trans hle (Finset.card_pos.mpr ⟨_, hmem⟩)
  omega

/-! ### The search for a slot -/

/-- The accepting thread looks for a slot of client `cid`. -/
def Server.Scanning (cid : ℕ) (st : Server) : Prop := ∃ sock i, st.acceptor = .scanning sock cid i

/-- The step is one of the accepting thread. -/
def ServerAct.accepting : ServerAct → Bool
  | .acceptor _ => true
  | .client .. => false

/-- How far the search is from slot `j`. -/
def Server.distance (j : ℕ) (st : Server) : ℕ :=
  match st.acceptor with
  | .scanning _ _ i => (j + MAX_SOCKETS - i) % MAX_SOCKETS + 1
  | _ => 0

/-- Slot `j` of client `cid` is free as long as the accepting thread looks for one. -/
def Server.Leaves (cid j : ℕ) (st : Server) : Prop :=
  Slots st ∧ (st.Scanning cid → (st.client cid).cd.sockets j = -1)

/-- Each look at a slot in use brings the search closer to the free one. -/
theorem Server.Leaves.step {st st' : Server} {cid j : ℕ} {a : ServerAct} {evs : List ServerEvent}
    (h : st.Leaves cid j) (hj : j < MAX_SOCKETS) (hscan : st.Scanning cid) (hstep : st.step a = .ok (st', evs)) :
    st'.Leaves cid j ∧ st'.distance j + (if a.accepting then 1 else 0) ≤ st.distance j := by
  obtain ⟨hslots, hfree⟩ := h
  obtain ⟨sock, i, hpc⟩ := hscan
  have hfree := hfree ⟨sock, i, hpc⟩
  have hi := hslots.scan sock cid i hpc
  have hd : st.distance j = (j + MAX_SOCKETS - i) % MAX_SOCKETS + 1 := by
    rw [Server.distance, hpc]
  rcases Server.step_cases hstep with ⟨act, rfl, hacc, -⟩ | ⟨c, act, cl, fds, rfl, -, hcl, rfl⟩
  · have hslots' := hslots.tcpserver hacc
    rw [hd]
    -- it has found a slot
    have hdone : st'.acceptor.adding = none ∨ st'.acceptor.slot ≠ none → st'.Leaves cid j ∧
        st'.distance j + (if (ServerAct.acceptor act).accepting then 1 else 0)
          ≤ (j + MAX_SOCKETS - i) % MAX_SOCKETS + 1 := by
      intro hout
      have hnot : ∀ sock cid i, st'.acceptor ≠ .scanning sock cid i := by
        rintro sock' cid' i' hpc'
        rw [hpc'] at hout
        rcases hout with h | h
        · cases h
        · exact h rfl
      refine ⟨⟨hslots', fun ⟨_, _, h⟩ => absurd h (hnot _ _ _)⟩, ?_⟩
      have hzero : st'.distance j = 0 := by
        unfold Server.distance
        split
        · next hpc' => exact absurd hpc' (hnot _ _ _)
        · rfl
      rw [hzero]
      exact Nat.add_le_add (Nat.zero_le _) le_rfl
    unfold Server.tcpserver at hacc
    cases act with
    | accept =>
        simp only [hpc] at hacc
        cases hacc
    | noFile =>
        simp only [hpc] at hacc
        split at hacc
        · cases hacc
          exact hdone (.inl rfl)
        · cases hacc
    | go =>
        simp only [hpc] at hacc
        split at hacc
        · cases hacc
          exact hdone (.inr (Option.some_ne_none _))
        · next hused =>
          cases hacc
          have hne : i ≠ j := fun hij => hused (hij ▸ hfree)
          refine ⟨⟨hslots', fun _ => hfree⟩, ?_⟩
          show (j + MAX_SOCKETS - (i + 1) % MAX_SOCKETS) % MAX_SOCKETS + 1 + 1
            ≤ (j + MAX_SOCKETS - i) % MAX_SOCKETS + 1
          simp only [MAX_SOCKETS] at hi hj ⊢
          omega
  · refine ⟨⟨hslots.client (clientgo_step hcl), fun _ => ?_⟩, le_rfl⟩
    by_cases hc : cid = c
    · subst hc
      rw [Server.setClient_self]
      exact (clientgo_step hcl).free (hslots.inSlot cid) hfree
    · rw [Server.setClient_of_ne hc]
      exact hfree

/-- **The counter and the slots agree in every run**, however the accepting thread and the client threads
interleave: `nsockets` is between zero and the number of slots, and differs from the number of slots in use
only while a thread is between its two writes.  No connection is stored over another one, and the search
of `open_socket` ends: there is a free slot for it, or its client thread is about to free one, and from then
on it looks at each slot once at most. -/
theorem slots_counted {b n : ℕ} {st : Server} {log : List ServerEvent}
    (h : Runs.Reach Server.step (fun st _ a => a.Ok st) (.start b n) st log) :
    (∀ c, (st.client c).cd.nsockets + (st.client c).pc.uncounted
        = (st.client c).cd.used.card + st.acceptor.counting c ∧
      0 ≤ (st.client c).cd.nsockets ∧ (st.client c).cd.nsockets ≤ MAX_SOCKETS) ∧
    (∀ cid i, st.acceptor.slot = some (cid, i) → i < MAX_SOCKETS ∧ (st.client cid).cd.sockets i = -1) ∧
    (∀ cid, st.Scanning cid → (∃ j < MAX_SOCKETS, (st.client cid).cd.sockets j = -1) ∨
      ∃ line target, (st.client cid).pc = .closing line target ∧ 3 ≤ line) ∧
    ∀ cid, (∃ j < MAX_SOCKETS, (st.client cid).cd.sockets j = -1) → ∀ st' as,
      Runs.Trace Server.step (fun st a => st.Scanning cid ∧ a.Ok st) st st' as →
        as.countP ServerAct.accepting ≤ MAX_SOCKETS := by
  have hslots := reach_slots h
  refine ⟨fun c => ⟨hslots.count c, hslots.nonneg c, hslots.le c⟩, hslots.slot, ?_, ?_⟩
  · rintro cid ⟨sock, i, hpc⟩
    exact hslots.free_slot hpc
  · rintro cid ⟨j, hj, hfree⟩ st' as htrace
    have hle := (htrace.countP_add_rank (I := Server.Leaves cid j) ServerAct.accepting (Server.distance j)
      ⟨hslots, fun _ => hfree⟩ fun hI hok hs => hI.step hj hok.1 hs).2
    have hdist : st.distance j ≤ MAX_SOCKETS := by
      unfold Server.distance
      split
      · exact Nat.mod_lt _ (by decide)
      · exact Nat.zero_le _
    omega

/-- A connection is in slot 0, and another one is to get a slot. -/
def secondRun : List ServerAct :=
  .acceptor (.accept 3) :: List.replicate 5 (.acceptor .go) ++ .acceptor (.accept 4) ::
    List.replicate 2 (.acceptor .go)

theorem slots_counted_second : ∃ st log,
    Runs.Reach Server.step (fun st _ a => a.Ok st) (.start 1 1) st log ∧
      st.acceptor = .scanning 4 0 0 ∧ (st.client 0).cd.nsockets = 1 ∧ (st.client 0).cd.used.card = 1 ∧
      ∀ st' as, Runs.Trace Server.step (fun st a => st.Scanning 0 ∧ a.Ok st) st st' as →
        as.countP ServerAct.accepting ≤ MAX_SOCKETS := by
  have hval : (Runs.run Server.step (fun st _ a => a.Ok st) secondRun (.start 1 1) []).map
      (fun r => (r.1.acceptor, (r.1.client 0).cd.nsockets, (r.1.client 0).pc, (r.1.client 0).cd.sockets 1))
        = some (.scanning 4 0 0, 1, .top, -1) := by
    decide +kernel
  obtain ⟨⟨st, log⟩, hrun, hval⟩ := Option.map_eq_some_iff.mp hval
  obtain ⟨hacc, hval⟩ := Prod.mk.inj hval
  obtain ⟨hcount, hval⟩ := Prod.mk.inj hval
  obtain ⟨hpc, hfree⟩ := Prod.mk.inj hval
  have hreach := Runs.Reach.start.run hrun
  obtain ⟨hcounts, -, -, hscan⟩ := slots_counted hreach
  refine ⟨st, log, hreach, hacc, hcount, ?_, hscan 0 ⟨1, by decide, hfree⟩⟩
  have hused := (hcounts 0).1
  rw [hacc, hpc, hcount] at hused
  simp only [ClientPc.uncounted, AcceptorPc.counting] at hused
  omega

end SmpHashTable.HashServer
