import SmpHashTable.Delivery
import SmpHashTable.Shutdown

/-!
# What a client waits for

A client waits in two places: in `outb_blocking_read` for a response, and in `inpb_flush` for a slot.
It flushes its local buffer for a server before it waits for a response of that server, so whatever it
waits for is with the server: published, in the server's hands, or in a slot.
-/

namespace SmpHashTable

/-- A batch is in the slot the server reads next: `data[data_rd][0]` is not 0. -/
def InputBuffer.Filled (b : InputBuffer) : Prop := b.data b.dataRd 0 ≠ 0

instance (b : InputBuffer) : Decidable b.Filled := inferInstanceAs (Decidable (_ ≠ _))

/-- There are responses the reader has not taken. -/
def OutputBuffer.Unread (b : OutputBuffer) : Prop := b.localRdIndex ≠ b.wrIndex

instance (b : OutputBuffer) : Decidable b.Unread := inferInstanceAs (Decidable (_ ≠ _))

/-- The server is between `inpb_read` and the end of `outb_write` for client `c`. -/
def ServerPc.Serves (c : ℕ) : ServerPc → Prop
  | .exec i _ _ _ _ => i = c
  | .write i _ _ _ => i = c
  | _ => False

/-- The client is in `outb_blocking_read` on server `s`. -/
def ClientPc.Reads (s : ℕ) : ClientPc → Prop
  | .load s' blocking _ => s' = s ∧ blocking = true
  | .take s' blocking _ => s' = s ∧ blocking = true
  | _ => False

instance ClientPc.decidableReads (s : ℕ) : (pc : ClientPc) → Decidable (pc.Reads s)
  | .load _ _ _ => inferInstanceAs (Decidable (_ ∧ _))
  | .take _ _ _ => inferInstanceAs (Decidable (_ ∧ _))
  | .idle => isFalse id
  | .window _ => isFalse id
  | .write _ _ _ => isFalse id
  | .append _ _ _ => isFalse id
  | .flush _ _ _ => isFalse id
  | .doall _ => isFalse id
  | .flushAll _ _ => isFalse id
  | .drain _ => isFalse id

/-- The client is in the loop of `inpb_flush` that waits for a slot of server `s`, and the slot is
not free. -/
def Client.WaitsSlot (cl : Client) (s : ℕ) : Prop :=
  (∃ ret, cl.pc = .flush s .wait ret) ∧ (cl.box s).inb.data (cl.box s).inb.dataWr 0 ≠ 0

/-! ### What a box holds -/

section

variable {b : Box} {turn : Turn} {fl : Option FlushPc} {todo : List Msg} {ans : List ℕ}

/-- A full input buffer has a batch for the server. -/
theorem BoxInv.filled_of_full (h : BoxInv b turn fl todo ans) (hwr : b.inb.data b.inb.dataWr 0 ≠ 0) :
    b.inb.Filled := by
  obtain ⟨x, hx, rfl, rfl⟩ := h
  have hring := hx.inb.ring
  intro hzero
  -- with no batch at all, reader and writer are at the same slot
  have hnil := hring.empty_iff.mp hzero
  have hwr_eq := hring.wr_eq
  rw [hnil, List.length_nil, Nat.add_zero, Nat.mod_eq_of_lt hring.rd_lt] at hwr_eq
  rw [hwr_eq] at hwr
  exact hwr hzero

/-- A step of `inpb_flush` does not empty the slot the server reads next. -/
theorem BoxInv.filled_flushStep {pc : FlushPc} (h : BoxInv b turn (some pc) todo ans)
    (hfilled : b.inb.Filled) : (inpbFlushStep b.inb pc).1.Filled := by
  obtain ⟨x, hx, rfl, rfl⟩ := h
  have hne : x.slots.map enc ≠ [] := fun hnil => hfilled (hx.inb.ring.empty_iff.mpr hnil)
  have hstep := hx.inb.flushStep
  split at hstep
  · next b' pc' heq =>
    rw [heq]
    exact fun hzero => hne (hstep.ring.empty_iff.mp hzero)
  · next b' heq =>
    rw [heq]
    intro hzero
    exact hne (List.append_eq_nil_iff.mp (hstep.ring.empty_iff.mp hzero)).1

/-- With nothing left in the local buffer, what a client waits for is published, in the hands of the
server, or in a slot. -/
theorem BoxInv.awaited (h : BoxInv b turn fl todo ans) (hidx : b.inb.localIndex = 0)
    (hne : todo ≠ [] ∨ ans ≠ []) :
    b.out.Unread ∨ b.inb.Filled ∨ (∃ count k j buf, turn = .exec count k j buf) ∨
      ∃ j m buf, turn = .write j m buf := by
  obtain ⟨x, hx, rfl, rfl⟩ := h
  have hloc : x.loc = [] := enc_eq_nil.mp (List.length_eq_zero_iff.mp (hx.inb.index.symm.trans hidx))
  by_cases hring : x.ring = []
  · by_cases hslots : x.slots = []
    · -- only the batch of the server and its responses are left
      have hhand : x.batch ≠ [] ∨ x.fresh ≠ [] := by
        simpa [Spread.todo, Spread.ans, hloc, hring, hslots] using hne
      have hturn := hx.turn
      cases turn with
      | away => exact absurd hhand (by simp [hturn.1, hturn.2.1])
      | read pc buf => exact absurd hhand (by simp [hturn.1, hturn.2.1])
      | exec count k j buf => exact Or.inr (Or.inr (Or.inl ⟨count, k, j, buf, rfl⟩))
      | write j m buf => exact Or.inr (Or.inr (Or.inr ⟨j, m, buf, rfl⟩))
    · refine Or.inr (Or.inl fun hzero => hslots ?_)
      exact List.map_eq_nil_iff.mp (hx.inb.ring.empty_iff.mp hzero)
  · refine Or.inl fun heq => hring ?_
    have hfits := hx.out.fits
    have hsize : OUTB_SIZE = 64 := rfl
    have hwr := heq.trans hx.out.wr_eq
    exact List.length_eq_zero_iff.mp ((add64_eq_self_iff hx.out.rd_lt (by omega)).mp hwr)

end

/-! ### Flushed before waiting -/

/-- The server a call is at. -/
def ClientPc.server? : ClientPc → Option ℕ
  | .write s _ _ => some s
  | .append s _ _ => some s
  | .flush s _ _ => some s
  | .load s _ _ => some s
  | .take s _ _ => some s
  | _ => none

/-- The last loop of `smp_hash_doall`, which comes after the flush of all buffers. -/
def ReadRet.isDrain : ReadRet → Bool
  | .drain _ => true
  | _ => false

/-- The local buffer for server `s` has been flushed and nothing was written to it since. -/
def ClientPc.Flushed (n : ℕ) : ClientPc → ℕ → Prop
  | .flush _ _ (.read ret), s => ret.isDrain = true ∧ s < n
  | .flush s' _ (.doall _), s => s < s'
  | .load s' blocking ret, s => blocking = true ∧ s = s' ∨ ret.isDrain = true ∧ s < n
  | .take s' blocking ret, s => blocking = true ∧ s = s' ∨ ret.isDrain = true ∧ s < n
  | .flushAll _ s', s => s < s'
  | .drain _, s => s < n
  | _, _ => False

/-- Calls are at servers that exist, and flushed buffers are empty. -/
structure Placed (n : ℕ) (cl : Client) : Prop where
  server : ∀ s, cl.pc.server? = some s → s < n
  flushed : ∀ s, cl.pc.Flushed n s → (cl.box s).inb.localIndex = 0

theorem placed_idle {n : ℕ} {cl : Client} (h : cl.pc = .idle) : Placed n cl := by
  constructor
  · intro s hs
    rw [h] at hs
    cases hs
  · intro s hs
    rw [h] at hs
    exact hs.elim

/-- A step of `inpb_flush` keeps the local index until it returns; then the index is 0. -/
theorem inpbFlushStep_localIndex (b : InputBuffer) (pc : FlushPc) :
    match inpbFlushStep b pc with
    | (b', some _) => b'.localIndex = b.localIndex
    | (b', none) => b'.localIndex = 0 := by
  cases pc with
  | enter =>
      by_cases h0 : b.localIndex = 0
      · simp [inpbFlushStep, h0]
      · simp [inpbFlushStep, h0]
  | wait =>
      by_cases h0 : b.data b.dataWr 0 = 0
      · simp [inpbFlushStep, h0]
      · simp [inpbFlushStep, h0]
  | copy i =>
      by_cases hi : i < b.localIndex
      · simp [inpbFlushStep, hi]
      · by_cases hs : b.localIndex < INPB_SIZE
        · simp [inpbFlushStep, hi, hs]
        · simp [inpbFlushStep, hi, hs]
  | publish => rfl

theorem written_box (c s : ℕ) (m : Msg) (cl : Client) (ret : WriteRet) :
    (written c s m cl ret).1.box = cl.box := by
  cases ret <;> rfl

theorem deliver_box (c s v : ℕ) (cl : Client) (ret : ReadRet) : (deliver c s v cl ret).1.box = cl.box := by
  cases ret <;> rfl

section

variable {n c : ℕ} {cl cl' : Client} {evs : List Event}

/-- What a step of a client does to its input buffers. -/
theorem clientStep_inb (hstep : clientStep n c cl = .ok (cl', evs)) (s : ℕ) :
    (cl'.box s).inb = (cl.box s).inb ∨
      (∃ m ret, cl.pc = .append s m ret ∧ (cl'.box s).inb = (cl.box s).inb.append m.words) ∨
      ∃ pc ret, cl.pc = .flush s pc ret ∧ (cl'.box s).inb = (inpbFlushStep (cl.box s).inb pc).1 := by
  have hset : ∀ (x : Client) (s' : ℕ) (b : InputBuffer), s ≠ s' →
      ((x.setIn s' b).box s).inb = (x.box s).inb := by
    intro x s' b hne
    simp [Client.setIn, hne]
  have hout : ∀ (x : Client) (s' : ℕ) (b : OutputBuffer),
      ((x.setOut s' b).box s).inb = (x.box s).inb := by
    intro x s' b
    by_cases heq : s = s'
    · subst heq
      simp [Client.setOut]
    · simp [Client.setOut, heq]
  unfold clientStep at hstep
  cases hpc : cl.pc with
  | idle =>
      rw [hpc] at hstep
      cases hstep
  | window m =>
      simp only [hpc] at hstep
      split at hstep <;> cases hstep <;> exact Or.inl rfl
  | write s' m ret =>
      simp only [hpc] at hstep
      split at hstep
      · split at hstep <;> cases hstep <;> exact Or.inl rfl
      · cases hstep
  | append s' m ret =>
      simp only [hpc] at hstep
      have hbox := written_box c s' m (cl.setIn s' ((cl.box s').inb.append m.words)) ret
      rw [Except.ok.inj hstep] at hbox
      by_cases heq : s = s'
      · subst heq
        refine Or.inr (Or.inl ⟨m, ret, rfl, ?_⟩)
        rw [hbox]
        simp [Client.setIn]
      · refine Or.inl ?_
        rw [hbox]
        exact hset cl s' _ heq
  | flush s' pc ret =>
      simp only [hpc] at hstep
      by_cases heq : s = s'
      · subst heq
        refine Or.inr (Or.inr ⟨pc, ret, rfl, ?_⟩)
        split at hstep
        · next b pc' hf =>
          cases hstep
          rw [hf]
          simp [Client.setIn]
        · next b hf =>
          cases hstep
          rw [hf]
          simp [Client.setIn]
      · refine Or.inl ?_
        split at hstep <;> cases hstep <;> exact hset cl s' _ heq
  | load s' blocking ret =>
      simp only [hpc] at hstep
      cases hstep
      exact Or.inl (hout cl s' _)
  | take s' blocking ret =>
      simp only [hpc] at hstep
      split at hstep
      · cases hstep
        exact Or.inl rfl
      · next b v hf =>
        have hbox := deliver_box c s' v (cl.setOut s' b) ret
        rw [Except.ok.inj hstep] at hbox
        refine Or.inl ?_
        rw [hbox]
        exact hout cl s' b
  | doall d =>
      simp only [hpc] at hstep
      split at hstep
      · split at hstep
        · cases hstep
          exact Or.inl rfl
        · split at hstep <;> cases hstep
          exact Or.inl rfl
      · cases hstep
        exact Or.inl rfl
  | flushAll d s' =>
      simp only [hpc] at hstep
      split at hstep <;> cases hstep <;> exact Or.inl rfl
  | drain d =>
      simp only [hpc] at hstep
      split at hstep <;> cases hstep <;> exact Or.inl rfl

theorem clientStep_localIndex (hstep : clientStep n c cl = .ok (cl', evs)) (s : ℕ)
    (hno : ∀ m ret, cl.pc ≠ .append s m ret) (h0 : (cl.box s).inb.localIndex = 0) :
    (cl'.box s).inb.localIndex = 0 := by
  rcases clientStep_inb hstep s with heq | ⟨m, ret, hpc, -⟩ | ⟨pc, ret, -, heq⟩
  · rw [heq]
    exact h0
  · exact absurd hpc (hno m ret)
  · have hidx := inpbFlushStep_localIndex (cl.box s).inb pc
    rw [heq]
    split at hidx
    · next b' pc' hf =>
      rw [hf]
      exact hidx.trans h0
    · next b' hf =>
      rw [hf]
      exact hidx

/-- Whatever is flushed after a step was flushed before, or the step is the end of its flush. -/
theorem clientStep_flushed (hn : 0 < n) (hstep : clientStep n c cl = .ok (cl', evs)) {s : ℕ}
    (hs : cl'.pc.Flushed n s) :
    (cl.pc.Flushed n s ∧ ∀ m ret, cl.pc ≠ .append s m ret) ∨ (cl'.box s).inb.localIndex = 0 := by
  unfold clientStep at hstep
  cases hpc : cl.pc with
  | idle =>
      rw [hpc] at hstep
      cases hstep
  | window m =>
      simp only [hpc] at hstep
      split at hstep
      · cases hstep
        simp [ClientPc.Flushed, ReadRet.isDrain] at hs
      · cases hstep
        exact hs.elim
  | write s' m ret =>
      simp only [hpc] at hstep
      split at hstep
      · split at hstep <;> cases hstep <;> exact hs.elim
      · cases hstep
  | append s' m ret =>
      simp only [hpc] at hstep
      cases ret with
      | request => cases hstep; exact hs.elim
      | release forceFlush => cases hstep; cases forceFlush <;> exact hs.elim
      | doall d => cases hstep; exact hs.elim
  | flush s' pc ret =>
      simp only [hpc] at hstep
      have hidx := inpbFlushStep_localIndex (cl.box s').inb pc
      split at hstep
      · next b pc' hf =>
        cases hstep
        refine Or.inl ⟨?_, by simp⟩
        cases ret <;> exact hs
      · next b hf =>
        cases hstep
        rw [hf] at hidx
        by_cases heq : s = s'
        · refine Or.inr ?_
          subst heq
          simpa [Client.setIn] using hidx
        · -- the other buffers that are flushed now were flushed before
          refine Or.inl ⟨?_, by simp⟩
          cases ret with
          | write m wret => exact hs.elim
          | read rret => exact hs.elim (fun h => absurd h.2 heq) id
          | release => exact hs.elim
          | doall d =>
              have hlt : s < s' + 1 := hs
              show s < s'
              omega
  | load s' blocking ret =>
      simp only [hpc] at hstep
      cases hstep
      exact Or.inl ⟨hs, by simp⟩
  | take s' blocking ret =>
      simp only [hpc] at hstep
      split at hstep
      · cases hstep
        refine Or.inl ⟨?_, by simp⟩
        cases blocking with
        | true => exact hs
        | false => exact Or.inr hs
      · cases ret with
        | window m => cases hstep; exact hs.elim
        | getNext => cases hstep; exact hs.elim
        | doall d => cases hstep; exact hs.elim
        | drain d => cases hstep; exact Or.inl ⟨Or.inr ⟨rfl, hs⟩, by simp⟩
  | doall d =>
      simp only [hpc] at hstep
      split at hstep
      · split at hstep
        · cases hstep
          simp [ClientPc.Flushed, ReadRet.isDrain] at hs
        · split at hstep
          · cases hstep
            exact hs.elim
          · cases hstep
      · cases hstep
        exact absurd hs (Nat.not_lt_zero s)
  | flushAll d s' =>
      simp only [hpc] at hstep
      split at hstep
      · cases hstep
        exact Or.inl ⟨hs, by simp⟩
      · next hge =>
        cases hstep
        have hlt : s < n := hs
        refine Or.inl ⟨?_, by simp⟩
        show s < s'
        omega
  | drain d =>
      simp only [hpc] at hstep
      split at hstep
      · cases hstep
        have hnext : d.nextServer n < n := hashGetServer_lt hn _
        rcases hs with ⟨-, heq⟩ | ⟨-, hlt⟩
        · exact Or.inl ⟨heq ▸ hnext, by simp⟩
        · exact Or.inl ⟨hlt, by simp⟩
      · cases hstep
        exact hs.elim

theorem startCall_box {t : Table} {k : Call} (hstep : startCall t c cl k = .ok (cl', evs)) :
    cl'.box = cl.box := by
  have hrequest : ∀ m, (startRequest cl m).box = cl.box := by
    intro m
    unfold startRequest
    split <;> rfl
  have hsend : ∀ ptr msg b, sendReleaseMsg t c cl ptr msg b = .ok (cl', evs) → cl'.box = cl.box := by
    intro ptr msg b hstep
    unfold sendReleaseMsg at hstep
    simp only at hstep
    split at hstep
    · split at hstep <;> cases hstep
      rfl
    · cases hstep
  cases k with
  | lookup key => cases hstep; exact hrequest _
  | insert key size => cases hstep; exact hrequest _
  | tryGetNext =>
      simp only [startCall] at hstep
      split at hstep <;> cases hstep <;> rfl
  | getNext =>
      simp only [startCall] at hstep
      split at hstep
      · cases hstep
        rfl
      · split at hstep <;> cases hstep <;> rfl
  | release ptr => exact hsend ptr .release false hstep
  | markReady ptr => exact hsend ptr .markReady true hstep
  | doall queries => cases hstep; rfl

/-- A call stays at servers that exist if the server of the oldest unread request does. -/
theorem clientStep_server (hn : 0 < n) (hp : ∀ s, cl.pc.server? = some s → s < n)
    (hload : ∀ s ret, cl'.pc = .load s false ret → s < n)
    (hstep : clientStep n c cl = .ok (cl', evs)) : ∀ s, cl'.pc.server? = some s → s < n := by
  intro s hs
  unfold clientStep at hstep
  cases hpc : cl.pc with
  | idle =>
      rw [hpc] at hstep
      cases hstep
  | window m =>
      simp only [hpc] at hstep
      split at hstep
      · cases hstep
        cases hs
        exact hload _ _ rfl
      · cases hstep
        cases hs
        exact hashGetServer_lt hn _
  | write s' m ret =>
      have hp := hp s' (by rw [hpc]; rfl)
      simp only [hpc] at hstep
      split at hstep
      · split at hstep <;> cases hstep <;> cases hs <;> exact hp
      · cases hstep
  | append s' m ret =>
      have hp := hp s' (by rw [hpc]; rfl)
      simp only [hpc] at hstep
      cases ret with
      | request => cases hstep; cases hs
      | release forceFlush =>
          cases hstep
          cases forceFlush with
          | true => cases hs; exact hp
          | false => cases hs
      | doall d => cases hstep; cases hs
  | flush s' pc ret =>
      have hp := hp s' (by rw [hpc]; rfl)
      simp only [hpc] at hstep
      split at hstep
      · cases hstep
        cases hs
        exact hp
      · cases hstep
        cases ret with
        | write m wret => cases hs; exact hp
        | read rret => cases hs; exact hp
        | release => cases hs
        | doall d => cases hs
  | load s' blocking ret =>
      have hp := hp s' (by rw [hpc]; rfl)
      simp only [hpc] at hstep
      cases hstep
      cases hs
      exact hp
  | take s' blocking ret =>
      have hp := hp s' (by rw [hpc]; rfl)
      simp only [hpc] at hstep
      split at hstep
      · cases hstep
        cases blocking <;> cases hs <;> exact hp
      · cases ret <;> cases hstep <;> cases hs
  | doall d =>
      simp only [hpc] at hstep
      split at hstep
      · split at hstep
        · cases hstep
          cases hs
          exact hload _ _ rfl
        · split at hstep
          · cases hstep
            cases hs
            exact hashGetServer_lt hn _
          · cases hstep
      · cases hstep
        cases hs
  | flushAll d s' =>
      simp only [hpc] at hstep
      split at hstep
      · next hlt =>
        cases hstep
        cases hs
        exact hlt
      · cases hstep
        cases hs
  | drain d =>
      simp only [hpc] at hstep
      split at hstep
      · cases hstep
        cases hs
        exact hashGetServer_lt hn _
      · cases hstep
        cases hs

theorem Placed.clientStep (h : Placed n cl) (hn : 0 < n)
    (hload : ∀ s ret, cl'.pc = .load s false ret → s < n)
    (hstep : clientStep n c cl = .ok (cl', evs)) : Placed n cl' := by
  refine ⟨clientStep_server hn h.server hload hstep, ?_⟩
  intro s hs
  rcases clientStep_flushed hn hstep hs with ⟨hbefore, hno⟩ | h0
  · exact clientStep_localIndex hstep s hno (h.flushed s hbefore)
  · exact h0

theorem placed_startCall {t : Table} {k : Call} (hn : 0 < t.nservers)
    (hload : ∀ s ret, cl'.pc = .load s false ret → s < t.nservers) (hidle : cl.pc = .idle)
    (hstep : startCall t c cl k = .ok (cl', evs)) : Placed t.nservers cl' := by
  have hrequest : ∀ m, (startRequest cl m).pc = .idle ∨ (startRequest cl m).pc = .window m := by
    intro m
    unfold startRequest
    split
    · exact Or.inl hidle
    · exact Or.inr rfl
  have hplain : ∀ {cl'' : Client} {m : Msg}, cl''.pc = .idle ∨ cl''.pc = .window m →
      Placed t.nservers cl'' := by
    intro cl'' m hpc
    rcases hpc with hpc | hpc
    · exact placed_idle hpc
    · exact ⟨by simp [hpc, ClientPc.server?], by simp [hpc, ClientPc.Flushed]⟩
  have hsend : ∀ ptr msg b, sendReleaseMsg t c cl ptr msg b = .ok (cl', evs) → Placed t.nservers cl' := by
    intro ptr msg b hstep
    unfold sendReleaseMsg at hstep
    simp only at hstep
    split at hstep
    · split at hstep
      · cases hstep
        refine ⟨?_, fun _ hs => hs.elim⟩
        rintro s ⟨⟩
        exact hashGetServer_lt hn _
      · cases hstep
    · cases hstep
  cases k with
  | lookup key =>
      cases hstep
      exact hplain (hrequest _)
  | insert key size =>
      cases hstep
      exact hplain (hrequest _)
  | tryGetNext =>
      simp only [startCall] at hstep
      split at hstep <;> cases hstep <;> exact placed_idle hidle
  | getNext =>
      simp only [startCall] at hstep
      split at hstep
      · cases hstep
        exact placed_idle hidle
      · split at hstep
        · cases hstep
          refine ⟨?_, by simp [ClientPc.Flushed, ReadRet.isDrain]⟩
          rintro s ⟨⟩
          exact hload _ _ rfl
        · cases hstep
          exact placed_idle hidle
  | release ptr => exact hsend ptr .release false hstep
  | markReady ptr => exact hsend ptr .markReady true hstep
  | doall queries =>
      cases hstep
      exact ⟨by simp [ClientPc.server?], fun _ hs => hs.elim⟩

end

/-! ### Every state of every run -/

section

variable {t : Table} {st st' : Sys} {f : Fifo} {log evs : List Event}

/-- A server a response is read from exists. -/
theorem Fifo.fetch_lt (hf : (Fifo.init t).replay log = some f)
    (hn : 0 < t.nservers) {c s : ℕ} {ret : ReadRet} (h : FetchInv (f.session c) s ret) :
    s < t.nservers := by
  obtain ⟨⟨m, unread, hun⟩, -⟩ := h
  have hmem : (s, m) ∈ accepted c log := by
    rw [(Fifo.replay_told hf c).accepted_eq, hun]
    exact List.mem_append_right _ List.mem_cons_self
  rw [Fifo.accepted_routed hf hmem]
  exact hashGetServer_lt hn _

/-- Nothing but the client itself moves it to another place or fills its local buffers. -/
theorem Placed.congr {n : ℕ} {cl cl' : Client} (h : Placed n cl) (hpc : cl'.pc = cl.pc)
    (hidx : ∀ s, (cl'.box s).inb.localIndex = (cl.box s).inb.localIndex) : Placed n cl' := by
  constructor
  · intro s hs
    exact h.server s (hpc ▸ hs)
  · intro s hs
    rw [hidx]
    exact h.flushed s (hpc ▸ hs)

theorem ServerFrame.localIndex_eq {s : ℕ} (h : ServerFrame s st st') (c s' : ℕ) :
    ((st'.client c).box s').inb.localIndex = ((st.client c).box s').inb.localIndex := by
  by_cases heq : s' = s
  · subst heq
    exact h.localIndex c
  · rw [h.box c s' heq]

/-- What a step of the stopping thread does to the clients. -/
theorem stopperStep_inb (h : stopperStep st = .ok st') (c s : ℕ) :
    (st'.client c).pc = (st.client c).pc ∧
      (((st'.client c).box s).inb = ((st.client c).box s).inb ∨
        ∃ pc, st.stopper = .flush s c pc ∧
          ((st'.client c).box s).inb = (inpbFlushStep ((st.client c).box s).inb pc).1) := by
  have hset : ∀ k i b, ((Function.update st.client k ((st.client k).setIn i b)) c).pc = (st.client c).pc ∧
      (((Function.update st.client k ((st.client k).setIn i b) c).box s).inb = ((st.client c).box s).inb ∨
        (k = c ∧ i = s ∧
          ((Function.update st.client k ((st.client k).setIn i b) c).box s).inb = b)) := by
    intro k i b
    by_cases hk : c = k
    · subst hk
      by_cases hi : s = i
      · subst hi
        simp [Client.setIn]
      · simp [Client.setIn, hi]
    · simp [hk]
  unfold stopperStep at h
  cases hpc : st.stopper with
  | idle =>
      rw [hpc] at h
      cases h
  | loop i k =>
      simp only [hpc] at h
      cases h
      exact ⟨rfl, Or.inl rfl⟩
  | flush i k pc =>
      simp only [hpc] at h
      have hgoal : ∀ b, b = (inpbFlushStep ((st.client k).box i).inb pc).1 →
          st'.client = Function.update st.client k ((st.client k).setIn i b) →
          (st'.client c).pc = (st.client c).pc ∧
            (((st'.client c).box s).inb = ((st.client c).box s).inb ∨
              ∃ pc', StopPc.flush i k pc = .flush s c pc' ∧
                ((st'.client c).box s).inb = (inpbFlushStep ((st.client c).box s).inb pc').1) := by
        intro b hb hcl
        rw [hcl]
        obtain ⟨hpc', hinb⟩ := hset k i b
        refine ⟨hpc', hinb.imp_right ?_⟩
        rintro ⟨rfl, rfl, heq⟩
        exact ⟨pc, rfl, heq.trans hb⟩
      split at h
      · next b pc' hf =>
        cases h
        exact hgoal b (by rw [hf]) rfl
      · next b hf =>
        cases h
        exact hgoal b (by rw [hf]) rfl
  | quit =>
      simp only [hpc] at h
      cases h
      exact ⟨rfl, Or.inl rfl⟩
  | join i =>
      simp only [hpc] at h
      split at h
      · split at h
        · cases h
          exact ⟨rfl, Or.inl rfl⟩
        · cases h
      · cases h
        exact ⟨rfl, Or.inl rfl⟩

theorem placed_step (hc : Coupled st f) (hp : ∀ c, Placed st.nservers (st.client c))
    (hn : 0 < st.nservers) {a : Act} (hok : a.Ok st) (hstep : st.step a = .ok (st', evs))
    (hload : ∀ c s ret, (st'.client c).pc = .load s false ret → s < st'.nservers) :
    st'.nservers = st.nservers ∧ ∀ c, Placed st'.nservers (st'.client c) := by
  have hone : ∀ (cl : Client) (c c' : ℕ), Placed st.nservers cl →
      Placed st.nservers (Function.update st.client c cl c') := by
    intro cl c c' hcl
    by_cases heq : c' = c
    · rw [heq, Function.update_self]
      exact hcl
    · rw [Function.update_of_ne heq]
      exact hp c'
  cases a with
  | create values servers =>
      obtain ⟨st₁, h₁, heq⟩ := Outcome.map_ok.mp hstep
      cases heq
      unfold createClient at h₁
      split at h₁
      · split at h₁
        · cases h₁
          exact ⟨rfl, fun c => hone _ _ c (placed_idle rfl)⟩
        · cases h₁
      · cases h₁
  | start stack =>
      obtain ⟨st₁, h₁, heq⟩ := Outcome.map_ok.mp hstep
      cases heq
      unfold startServers at h₁
      split at h₁
      · cases h₁
        exact ⟨rfl, hp⟩
      · cases h₁
  | stop =>
      simp only [Sys.step] at hstep
      split at hstep
      · cases hstep
        exact ⟨rfl, hp⟩
      · cases hstep
  | stopper =>
      obtain ⟨st₁, h₁, heq⟩ := Outcome.map_ok.mp hstep
      cases heq
      -- it runs only while all clients are idle
      have hne : st.stopper ≠ .idle := by
        intro hidle
        simp only [stopperStep, hidle] at h₁
        cases h₁
      refine ⟨(stopperStep_frame h₁).2.1, fun c => placed_idle ?_⟩
      rw [(stopperStep_inb h₁ c 0).1]
      exact hc.stopping hne c
  | call c k =>
      simp only [Sys.step] at hstep
      split at hstep
      · next hidle =>
        split at hstep
        · obtain ⟨⟨cl, evs'⟩, h₁, heq⟩ := Outcome.map_ok.mp hstep
          cases heq
          refine ⟨rfl, fun c' => hone cl c c' (placed_startCall hn ?_ hidle h₁)⟩
          intro s ret hpc
          exact hload c s ret (by simpa [Sys.setClient] using hpc)
        · cases hstep
      · cases hstep
  | client c =>
      obtain ⟨⟨cl, evs'⟩, h₁, heq⟩ := Outcome.map_ok.mp hstep
      cases heq
      refine ⟨rfl, fun c' => hone cl c c' ((hp c).clientStep hn ?_ h₁)⟩
      intro s ret hpc
      exact hload c s ret (by simpa [Sys.setClient] using hpc)
  | server s o =>
      simp only [Sys.step] at hstep
      split at hstep
      · obtain ⟨hf, -⟩ := serverStep_frame hstep
        refine ⟨hf.nservers, fun c => ?_⟩
        rw [hf.nservers]
        exact (hp c).congr (hf.pc c) (hf.localIndex_eq c)
      · cases hstep

theorem reach_nservers (h : Sys.Reach (Sys.init t) st log) : st.nservers = t.nservers := by
  obtain ⟨f, hf, hc⟩ := reach_coupled h
  rw [Sys.nservers, ← hc.table]
  exact (Fifo.replay_routed hf).1

/-- In every state of every run the clients are in their places. -/
theorem reach_placed (h : Sys.Reach (Sys.init t) st log) (hn : 0 < t.nservers) :
    ∀ c, Placed st.nservers (st.client c) := by
  induction h with
  | start => exact fun _ => placed_idle rfl
  | step hreach hok hstep ih =>
      obtain ⟨f, -, hc⟩ := reach_coupled hreach
      obtain ⟨f', hf', hc'⟩ := reach_coupled (hreach.step hok hstep)
      have hn' := reach_nservers (hreach.step hok hstep)
      refine (placed_step hc ih (reach_nservers hreach ▸ hn) hok hstep ?_).2
      intro c s ret hpc
      have hfetch := (hc'.client c).pc
      rw [hpc] at hfetch
      rw [hn']
      exact Fifo.fetch_lt hf' hn hfetch

theorem Server.serves_of_turn {srv : Server} {c : ℕ}
    (h : (∃ count k j buf, srv.turn c = .exec count k j buf) ∨ ∃ j m buf, srv.turn c = .write j m buf) :
    srv.pc.Serves c := by
  cases hpc : srv.pc with
  | exec i n count k j =>
      by_cases hi : i = c
      · exact hi
      · simp [Server.turn, hpc, hi] at h
  | write i n j m =>
      by_cases hi : i = c
      · exact hi
      · simp [Server.turn, hpc, hi] at h
  | read i n pc =>
      by_cases hi : i = c
      · simp [Server.turn, hpc, hi] at h
      · simp [Server.turn, hpc, hi] at h
  | top => simp [Server.turn, hpc] at h
  | clients => simp [Server.turn, hpc] at h
  | poll i n => simp [Server.turn, hpc] at h
  | returned => simp [Server.turn, hpc] at h

/-- The place of a client that waits for a response, and what it waits for. -/
theorem Coupled.fetching (hc : Coupled st f) {c s : ℕ} (hr : (st.client c).pc.Reads s) :
    (∃ ret, FetchInv (f.session c) s ret) ∧ (st.client c).pc.server? = some s ∧
      (st.client c).pc.Flushed st.nservers s ∧ (st.client c).pc.sending s = [] := by
  have hpc := (hc.client c).pc
  cases heq : (st.client c).pc with
  | load s' blocking ret =>
      rw [heq] at hr hpc
      obtain ⟨rfl, hb⟩ := hr
      exact ⟨⟨ret, hpc⟩, rfl, Or.inl ⟨hb, rfl⟩, rfl⟩
  | take s' blocking ret =>
      rw [heq] at hr hpc
      obtain ⟨rfl, hb⟩ := hr
      exact ⟨⟨ret, hpc⟩, rfl, Or.inl ⟨hb, rfl⟩, rfl⟩
  | _ => rw [heq] at hr; exact hr.elim

/-- What a client waits for in `outb_blocking_read` is with the server, and nothing of it is in the
client's local buffer. -/
theorem Coupled.awaited (hc : Coupled st f) (hp : ∀ c, Placed st.nservers (st.client c)) {c s : ℕ}
    (hr : (st.client c).pc.Reads s) :
    (((st.client c).box s).out.Unread ∨ ((st.client c).box s).inb.Filled ∨ (st.server s).pc.Serves c) ∧
      ((st.client c).box s).inb.localIndex = 0 := by
  obtain ⟨⟨ret, ⟨m, unread, hun⟩, -⟩, -, hflushed, hsend⟩ := hc.fetching hr
  have hidx := (hp c).flushed s hflushed
  obtain ⟨t', htodo, hbox⟩ := (hc.client c).box s
  rw [hsend, List.append_nil] at htodo
  -- the oldest unread request is not executed yet or answered
  have hmatch := hc.matched c s
  rw [hun, List.filter_cons_of_pos (by simp)] at hmatch
  have hne : t' ≠ [] ∨ ((f.session c).ans s).map Prod.snd ≠ [] := by
    by_contra hno
    obtain ⟨htodo_nil, hans⟩ := not_or.mp hno
    rw [htodo, not_not.mp htodo_nil, List.map_eq_nil_iff.mp (not_not.mp hans)] at hmatch
    cases hmatch
  refine ⟨?_, hidx⟩
  rcases hbox.awaited hidx hne with h | h | h | h
  · exact Or.inl h
  · exact Or.inr (Or.inl h)
  · exact Or.inr (Or.inr (Server.serves_of_turn (Or.inl h)))
  · exact Or.inr (Or.inr (Server.serves_of_turn (Or.inr h)))

end

end SmpHashTable
