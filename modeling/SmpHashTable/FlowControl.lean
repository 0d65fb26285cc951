import SmpHashTable.Refinement

/-!
# Flow control

`outb_write` has no space check: that the output ring never overflows rests on `pending_count`, which
the client keeps.  Here the messages and responses under way are counted in the buffers themselves,
word by word, and the counter is shown to agree.
-/

namespace SmpHashTable

/-! ### Counting what is under way -/

/-- The number of lookups and inserts among the messages in a list of words. -/
def requestsIn : List ℕ → ℕ
  | [] => 0
  | [w] => if opcodeOf w = HASHOP_LOOKUP ∨ opcodeOf w = HASHOP_INSERT then 1 else 0
  | w :: w' :: ws =>
      if opcodeOf w = HASHOP_INSERT then requestsIn ws + 1
      else if opcodeOf w = HASHOP_LOOKUP then requestsIn (w' :: ws) + 1
      else requestsIn (w' :: ws)

/-- The words in the slots, each slot up to its first zero word, from the reader's slot on. -/
def InputBuffer.slotWords (b : InputBuffer) : List (List ℕ) :=
  (List.range INPB_COUNT).map fun i =>
    Ring.visible ((List.range INPB_SIZE).map (b.data ((b.dataRd + i) % INPB_COUNT)))

/-- The words of the current batch that are still to be decoded. -/
def Turn.batchWords : Turn → List ℕ
  | .exec count k _ buf => (List.range (count - k)).map fun i => buf (k + i)
  | _ => []

/-- The number of responses computed and not yet published. -/
def Turn.computed : Turn → ℕ
  | .exec _ _ j _ => j
  | .write j _ _ => j
  | _ => 0

/-- The lookups and inserts of client `c` that server `s` has not executed. -/
def Sys.unexecuted (st : Sys) (c s : ℕ) : ℕ :=
  requestsIn ((st.client c).box s).inb.localWords
    + (((st.client c).box s).inb.slotWords.map requestsIn).sum
    + requestsIn ((st.server s).turn c).batchWords

/-- The responses of server `s` that client `c` has not read. -/
def Sys.unread (st : Sys) (c s : ℕ) : ℕ :=
  sub64 ((st.client c).box s).out.wrIndex ((st.client c).box s).out.localRdIndex
    + ((st.server s).turn c).computed

theorem requestsIn_lookup {w : ℕ} (h : opcodeOf w = HASHOP_LOOKUP) (ws : List ℕ) :
    requestsIn (w :: ws) = requestsIn ws + 1 := by
  have hne : ¬ HASHOP_LOOKUP = HASHOP_INSERT := by decide
  cases ws with
  | nil => simp [requestsIn, h]
  | cons w' ws => rw [requestsIn, h, if_neg hne, if_pos rfl]

theorem requestsIn_insert {w : ℕ} (h : opcodeOf w = HASHOP_INSERT) (w' : ℕ) (ws : List ℕ) :
    requestsIn (w :: w' :: ws) = requestsIn ws + 1 := by
  rw [requestsIn, if_pos h]

theorem requestsIn_release {w : ℕ} (h : opcodeOf w = HASHOP_RELEASE) (ws : List ℕ) :
    requestsIn (w :: ws) = requestsIn ws := by
  have hne : ¬ HASHOP_RELEASE = HASHOP_INSERT := by decide
  have hne' : ¬ HASHOP_RELEASE = HASHOP_LOOKUP := by decide
  cases ws with
  | nil => simp [requestsIn, h, hne, hne']
  | cons w' ws => rw [requestsIn, h, if_neg hne, if_neg hne']

/-- The count agrees with the messages the words encode. -/
theorem requestsIn_enc {ms : List Msg} (hv : ∀ m ∈ ms, m.Valid) :
    requestsIn (enc ms) = (ms.filter Msg.isRequest).length := by
  induction ms with
  | nil => rfl
  | cons m ms ih =>
      have ih := ih fun m' hm' => hv m' (List.mem_cons_of_mem m hm')
      have hm := hv m List.mem_cons_self
      cases m with
      | lookup key =>
          have hop : opcodeOf (key ||| HASHOP_LOOKUP) = HASHOP_LOOKUP := opcodeOf_of_lt (c := 1) hm (by decide)
          exact (requestsIn_lookup hop (enc ms)).trans (congrArg (· + 1) ih)
      | insert key size =>
          have hop : opcodeOf (key ||| HASHOP_INSERT) = HASHOP_INSERT :=
            opcodeOf_of_lt (c := 2) hm.1 (by decide)
          exact (requestsIn_insert hop (wordOfInt size) (enc ms)).trans (congrArg (· + 1) ih)
      | release e =>
          have hop : opcodeOf (e ||| HASHOP_RELEASE) = HASHOP_RELEASE := opcodeOf_of_lt (c := 3) hm (by decide)
          exact (requestsIn_release hop (enc ms)).trans ih
      | markReady e =>
          have hop : opcodeOf (e ||| HASHOP_RELEASE) = HASHOP_RELEASE := opcodeOf_of_lt (c := 3) hm (by decide)
          exact (requestsIn_release hop (enc ms)).trans ih

/-! ### One box -/

section

variable {b : InputBuffer} {fl : Option FlushPc} {bs : List (List ℕ)} {loc : List ℕ}

theorem InInv.slotWords_eq (h : InInv b fl bs loc) :
    b.slotWords = bs.map Ring.visible ++ List.replicate (INPB_COUNT - bs.length) [] :=
  h.ring.seen (by decide)

theorem OutInv.sub_eq {b : OutputBuffer} {ring part : List ℕ} (h : OutInv b ring part) :
    sub64 b.wrIndex b.localRdIndex = ring.length := by
  have hfits := h.fits
  have hsize : OUTB_SIZE = 64 := rfl
  rw [h.wr_eq, sub64_add64 (by omega)]

end

section

variable {b : Box} {turn : Turn} {fl : Option FlushPc} {todo : List Msg} {ans : List ℕ}

/-- The requests not yet executed, counted in the buffers. -/
theorem BoxInv.unexecuted_eq (h : BoxInv b turn fl todo ans) :
    requestsIn b.inb.localWords + (b.inb.slotWords.map requestsIn).sum + requestsIn turn.batchWords
      = (todo.filter Msg.isRequest).length := by
  obtain ⟨x, hx, rfl, rfl⟩ := h
  have hvalid := hx.valid
  simp only [Spread.todo, List.mem_append] at hvalid
  have hloc : requestsIn b.inb.localWords = (x.loc.filter Msg.isRequest).length := by
    rw [hx.inb.localWords_eq]
    exact requestsIn_enc fun m hm => hvalid m (Or.inr hm)
  have hslots : (b.inb.slotWords.map requestsIn).sum = (x.slots.flatten.filter Msg.isRequest).length := by
    have hslot : ∀ ms ∈ x.slots, requestsIn (Ring.visible (enc ms)) = (ms.filter Msg.isRequest).length := by
      intro ms hms
      have hms' : ∀ m ∈ ms, m.Valid :=
        fun m hm => hvalid m (Or.inl (Or.inr (List.mem_flatten.mpr ⟨ms, hms, hm⟩)))
      rw [Ring.visible_of_ne_zero, requestsIn_enc hms']
      intro w hw
      obtain ⟨m, hm, hw⟩ := List.mem_flatMap.mp hw
      exact Msg.words_ne_zero (hms' m hm) w hw
    have hfree : ∀ k, (List.replicate k (requestsIn [])).sum = 0 := fun k => by simp [requestsIn]
    rw [hx.inb.slotWords_eq, List.map_append, List.sum_append, List.map_replicate, hfree,
      List.map_map, List.map_map, List.filter_flatten, List.length_flatten, List.map_map]
    exact congrArg List.sum (List.map_congr_left hslot)
  have hbatch : requestsIn turn.batchWords = (x.batch.filter Msg.isRequest).length := by
    have hturn := hx.turn
    cases turn with
    | exec count k j buf =>
        obtain ⟨-, hcount, -, hbuf, -⟩ := hturn
        have hmap := hbuf.map_range
        have hlen : count - k = (enc x.batch).length := by omega
        rw [Turn.batchWords, hlen, hmap]
        exact requestsIn_enc fun m hm => hvalid m (Or.inl (Or.inl hm))
    | away => rw [hturn.1]; rfl
    | read pc buf => rw [hturn.1]; rfl
    | write j m buf => rw [hturn.1]; rfl
  rw [hloc, hslots, hbatch, Spread.todo, List.filter_append, List.filter_append, List.length_append,
    List.length_append]
  omega

/-- The responses not yet read, counted in the buffers. -/
theorem BoxInv.unread_eq (h : BoxInv b turn fl todo ans) :
    sub64 b.out.wrIndex b.out.localRdIndex + turn.computed = ans.length := by
  obtain ⟨x, hx, rfl, rfl⟩ := h
  have hturn := hx.turn
  have hfresh : turn.computed = x.fresh.length := by
    cases turn with
    | exec count k j buf => exact hturn.2.2.2.2.2.1.symm
    | write j m buf => exact hturn.2.1.symm
    | away => rw [hturn.2.1]; rfl
    | read pc buf => rw [hturn.2.1]; rfl
  rw [hx.out.sub_eq, hfresh, Spread.ans, List.length_append]

/-- The cell `outb_write` is about to write holds no response that is still to be read. -/
theorem BoxInv.write_cell {j m : ℕ} {buf : ℕ → ℕ} (h : BoxInv b (.write j m buf) fl todo ans)
    (hroom : ans.length ≤ OUTB_SIZE) (hm : m < j) {k : ℕ}
    (hk : k < sub64 b.out.wrIndex b.out.localRdIndex + m) :
    add64 b.out.wrIndex m &&& (OUTB_SIZE - 1) ≠ add64 b.out.localRdIndex k &&& (OUTB_SIZE - 1) := by
  have hlen := h.unread_eq
  obtain ⟨x, hx, rfl, rfl⟩ := h
  have hsub := hx.out.sub_eq
  have hlen' : sub64 b.out.wrIndex b.out.localRdIndex + j = x.ans.length := hlen
  rw [outb_cell, outb_cell, add64_mod_outb, add64_mod_outb, hx.out.wr_eq, Nat.add_mod, add64_mod_outb,
    ← Nat.add_mod, Nat.add_assoc]
  rw [hsub] at hk hlen'
  exact Ring.cell_ne (by omega) (by omega) (by omega)

end

/-! ### Every state of every run -/

/-- **Flow control**: whenever a client is outside its calls, `pending_count` is the number of its
requests not yet executed and of the responses not yet read, and at most `MAX_PENDING_PER_SERVER`.
In every state the unread responses fit the ring, and `outb_write` writes to none of their cells. -/
theorem reach_pendingCount {t : Table} {st : Sys} {log : List Event}
    (h : Sys.Reach (Sys.init t) st log) (c s : ℕ) :
    ((st.client c).pc = .idle →
      (st.client c).pd.pendingCount s = (st.unexecuted c s + st.unread c s : ℕ) ∧
      (st.client c).pd.pendingCount s ≤ MAX_PENDING_PER_SERVER) ∧
    sub64 ((st.client c).box s).out.wrIndex ((st.client c).box s).out.localRdIndex ≤ OUTB_SIZE ∧
    ∀ n j m, (st.server s).pc = .write c n j m → m < j →
      ∀ k < sub64 ((st.client c).box s).out.wrIndex ((st.client c).box s).out.localRdIndex + m,
        add64 ((st.client c).box s).out.wrIndex m &&& (OUTB_SIZE - 1)
          ≠ add64 ((st.client c).box s).out.localRdIndex k &&& (OUTB_SIZE - 1) := by
  obtain ⟨f, -, hcoupled⟩ := reach_coupled h
  have hcl := hcoupled.client c
  obtain ⟨t', htodo, hbox⟩ := hcl.box s
  have hcount := (hcoupled.matched c).count s
  have hwin := hcl.pend.window s
  have hans := hbox.unread_eq
  rw [List.length_map] at hans
  have hsize : OUTB_SIZE = 64 := rfl
  have hmax : MAX_PENDING_PER_SERVER = 56 := rfl
  rw [Session.pending, hmax] at hwin
  refine ⟨?_, ?_, ?_⟩
  · intro hidle
    have hpend := hcl.pend
    rw [hidle] at hpend htodo
    have hpd : PdRep _ _ _ := hpend
    have hnil : (f.session c).todo s = t' := by
      rw [htodo]
      exact List.append_nil t'
    have hun := hbox.unexecuted_eq
    rw [← hnil] at hun
    have htotal : ((f.session c).unread.map Prod.fst).count s = st.unexecuted c s + st.unread c s := by
      rw [hcount, ← hun, ← hans, Nat.add_comm]
      rfl
    rw [hpd.count s, htotal]
    refine ⟨rfl, ?_⟩
    rw [htotal] at hwin
    exact_mod_cast hwin
  · omega
  · intro n j m hpc hm k hk
    have hturn : (st.server s).turn c = .write j m (st.server s).localbuf := by
      rw [Server.turn_write hpc, if_pos rfl]
    simp only [hturn] at hbox
    refine hbox.write_cell ?_ hm hk
    rw [List.length_map]
    omega

/-- One client of one server: an insert and a lookup in one batch, the first response taken, and
another lookup. -/
def oneServerRun : List Act := List.flatten [
  [.create (fun _ => 0) (fun _ => 0), .start fun _ _ => 0],
  .call 0 (.insert 5 8) :: List.replicate 3 (.client 0),
  .call 0 (.lookup 6) :: List.replicate 3 (.client 0),
  .call 0 .getNext :: List.replicate 8 (.client 0),
  List.replicate 17 (.server 0 ⟨[some 64], []⟩), List.replicate 2 (.client 0),
  .call 0 (.lookup 7) :: List.replicate 3 (.client 0)]

theorem reach_pendingCount_two : ∃ st log,
    Sys.Reach (Sys.init (emptyTable 4 1024 1 .lru)) st log ∧ st.unexecuted 0 0 = 1 ∧ st.unread 0 0 = 1 ∧
      (st.client 0).pd.pendingCount 0 = (1 + 1 : ℕ) := by
  have hval : (Runs.run Sys.step (fun st _ a => a.Ok st) oneServerRun
      (Sys.init (emptyTable 4 1024 1 .lru)) []).map
        (fun r => (r.1.unexecuted 0 0, r.1.unread 0 0, decide ((r.1.client 0).pc = .idle)))
      = some (1, 1, true) := by
    decide +kernel
  obtain ⟨⟨st, log⟩, hrun, heq⟩ := Option.map_eq_some_iff.mp hval
  have hreach : Sys.Reach (Sys.init (emptyTable 4 1024 1 .lru)) st log := Runs.Reach.start.run hrun
  obtain ⟨hun, heq⟩ := Prod.mk.inj heq
  obtain ⟨hread, hidle⟩ := Prod.mk.inj heq
  have hcount := ((reach_pendingCount hreach 0 0).1 (of_decide_eq_true hidle)).1
  rw [hun, hread] at hcount
  exact ⟨st, log, hreach, hun, hread, hcount⟩

end SmpHashTable
