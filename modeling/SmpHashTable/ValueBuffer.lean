import SmpHashTable.HashServer

/-!
# The value buffer of a client thread

The values of a batch are read into `valuebuf` one behind the other.  The gather loop leaves room for
`MAX_VALUE_SIZE` bytes before it reads a query; how many bytes the value has is read from the network
and not checked.  So the values stay inside the buffer exactly as long as the sizes in the headers, added
up over the batch, do.
-/

namespace SmpHashTable

namespace HashServer

/-! ### Regions in a row -/

/-- The regions, given by offset and length, follow one another from `off` on. -/
def Laid : ℤ → List (ℤ × ℕ) → Prop
  | _, [] => True
  | off, r :: rs => r.1 = off ∧ Laid (off + r.2) rs

/-- Two regions do not meet. -/
def Apart (r r' : ℤ × ℕ) : Prop := r.1 + r.2 ≤ r'.1 ∨ r'.1 + r'.2 ≤ r.1

/-- The length of the regions. -/
def extent (rs : List (ℤ × ℕ)) : ℕ := (rs.map Prod.snd).sum

@[simp] theorem extent_nil : extent [] = 0 := rfl

@[simp] theorem extent_cons (r : ℤ × ℕ) (rs : List (ℤ × ℕ)) : extent (r :: rs) = r.2 + extent rs := by
  simp [extent]

@[simp] theorem extent_append (rs rs' : List (ℤ × ℕ)) : extent (rs ++ rs') = extent rs + extent rs' := by
  simp [extent]

theorem laid_append {off : ℤ} {rs rs' : List (ℤ × ℕ)} :
    Laid off (rs ++ rs') ↔ Laid off rs ∧ Laid (off + extent rs) rs' := by
  induction rs generalizing off with
  | nil => simp [Laid]
  | cons r rs ih =>
      rw [List.cons_append, Laid, Laid, ih, extent_cons, Nat.cast_add, and_assoc, add_assoc]

theorem Laid.bounds {off : ℤ} {rs : List (ℤ × ℕ)} (h : Laid off rs) {r : ℤ × ℕ} (hr : r ∈ rs) :
    off ≤ r.1 ∧ r.1 + r.2 ≤ off + extent rs := by
  induction rs generalizing off with
  | nil => cases hr
  | cons r' rs ih =>
      rw [extent_cons]
      push_cast
      rcases List.mem_cons.mp hr with rfl | hmem
      · have := h.1
        omega
      · have := ih h.2 hmem
        omega

/-- Regions in a row do not meet. -/
theorem Laid.pairwise {off : ℤ} {rs : List (ℤ × ℕ)} (h : Laid off rs) : rs.Pairwise Apart := by
  induction rs generalizing off with
  | nil => exact .nil
  | cons r rs ih =>
      refine .cons (fun r' hr' => ?_) (ih h.2)
      have hstart := h.1
      have hnext := (Laid.bounds h.2 hr').1
      exact .inl (by omega)

/-! ### The regions of a batch -/

/-- The number of bytes of the value of an insert, as the result loop computes it. -/
def Entry.valueSize (e : Entry) : ℕ := (e.query.size + (2 ^ 32 - 4)) % 2 ^ 32

/-- Where the values of a batch stand. -/
def batchRegions (batch : List Entry) : List (ℤ × ℕ) :=
  (batch.filter fun e => e.query.optype = OPTYPE_INSERT).map fun e => (e.offset, e.valueSize)

/-- The region that `read_object` is called for. -/
def Client.reading (cl : Client) : List (ℤ × ℕ) :=
  match cl.pc with
  | .value q _ => [(cl.bufoffset, q.size)]
  | _ => []

/-- Every value of the batch, the one being read included, is inside the buffer, and no two meet. -/
def Client.Fits (cl : Client) : Prop :=
  (∀ r ∈ batchRegions cl.batch ++ cl.reading, 0 ≤ r.1 ∧ r.1 + r.2 ≤ VALUE_BUFFER_SIZE) ∧
    (batchRegions cl.batch ++ cl.reading).Pairwise Apart

def Server.Fits (st : Server) : Prop := ∀ c, (st.client c).Fits

/-- A header that asks for an insert leaves the values of the batch within `VALUE_BUFFER_SIZE` bytes. -/
def ClientAct.Room (cl : Client) : ClientAct → Prop
  | .read bs e =>
      match cl.pc with
      | .header got => readObject QUERY_SIZE got.length bs.length e = .ret 0 →
          (HashQuery.ofBytes (got ++ bs)).optype = OPTYPE_INSERT →
          extent (batchRegions cl.batch) + (HashQuery.ofBytes (got ++ bs)).size ≤ VALUE_BUFFER_SIZE
      | _ => True
  | _ => True

def ClientAct.decidableRoomAt (cl : Client) (bs : List UInt8) (e : ReadEnd) :
    (pc : ClientPc) → Decidable (ClientAct.Room { cl with pc } (.read bs e))
  | .header _ => inferInstanceAs (Decidable (_ → _ → _))
  | .top | .check | .tail | .query | .value _ _ | .closing _ _ | .result _ | .slot _ | .write _ _ _ =>
      isTrue trivial

instance ClientAct.decidableRoom (cl : Client) : (a : ClientAct) → Decidable (a.Room cl)
  | .read bs e => ClientAct.decidableRoomAt cl bs e cl.pc
  | .go | .answer _ | .writev _ => isTrue trivial

def ServerAct.Room (st : Server) : ServerAct → Prop
  | .client c a => a.Room (st.client c)
  | .acceptor _ => True

instance ServerAct.decidableRoom (st : Server) : (a : ServerAct) → Decidable (a.Room st)
  | .client c a => ClientAct.decidableRoom (st.client c) a
  | .acceptor _ => isTrue trivial

/-- The values of the batch stand in a row, and the next one comes behind them. -/
structure Packed (cl : Client) : Prop where
  laid : Laid 0 (batchRegions cl.batch)
  offset : cl.bufoffset = extent (batchRegions cl.batch)
  bound : extent (batchRegions cl.batch) ≤ VALUE_BUFFER_SIZE
  value : ∀ q n, cl.pc = .value q n → q.optype = OPTYPE_INSERT ∧
    extent (batchRegions cl.batch) + q.size ≤ VALUE_BUFFER_SIZE

theorem Packed.fits {cl : Client} (h : Packed cl) : cl.Fits := by
  have hboth : Laid 0 (batchRegions cl.batch ++ cl.reading) ∧
      extent (batchRegions cl.batch ++ cl.reading) ≤ VALUE_BUFFER_SIZE := by
    rw [laid_append, extent_append]
    cases hpc : cl.pc with
    | value q n =>
        simp only [Client.reading, hpc, Laid, extent_cons, extent_nil, Nat.add_zero, and_true]
        exact ⟨⟨h.laid, by rw [h.offset, zero_add]⟩, (h.value q n hpc).2⟩
    | _ =>
        simp only [Client.reading, hpc, Laid, extent_nil, Nat.add_zero, and_true]
        exact ⟨h.laid, h.bound⟩
  refine ⟨fun r hr => ?_, hboth.1.pairwise⟩
  have hin := hboth.1.bounds hr
  have hle := hboth.2
  omega

theorem Packed.congr {cl cl' : Client} (h : Packed cl) (hbatch : cl'.batch = cl.batch)
    (hoff : cl'.bufoffset = cl.bufoffset)
    (hpc : ∀ q n, cl'.pc = .value q n → ∃ m, cl.pc = .value q m) : Packed cl' where
  laid := by rw [hbatch]; exact h.laid
  offset := by rw [hbatch, hoff]; exact h.offset
  bound := by rw [hbatch]; exact h.bound
  value := by
    intro q n hq
    obtain ⟨m, hm⟩ := hpc q n hq
    rw [hbatch]
    exact h.value q m hm

theorem batchRegions_lookup (batch : List Entry) {e : Entry} (h : e.query.optype = OPTYPE_LOOKUP) :
    batchRegions (batch ++ [e]) = batchRegions batch := by
  have hne : e.query.optype ≠ OPTYPE_INSERT := by
    rw [h]
    decide
  simp [batchRegions, hne]

theorem batchRegions_insert {batch : List Entry} {e : Entry} (h : e.query.optype = OPTYPE_INSERT) :
    batchRegions (batch ++ [e]) = batchRegions batch ++ [(e.offset, e.valueSize)] := by
  simp [batchRegions, h]

/-- The value that was read joins the row. -/
theorem Packed.insertDone {cl cl' : Client} {q : HashQuery} {n : ℕ} {e : Entry} (h : Packed cl)
    (hpc : cl.pc = .value q n) (hbatch : cl'.batch = cl.batch ++ [e])
    (he : e.query = { q with size := (q.size + 4) % 2 ^ 32 }) (hoff : e.offset = cl.bufoffset)
    (hoff' : cl'.bufoffset = bumpOffset cl.bufoffset q.size) (hpc' : cl'.pc = .tail) : Packed cl' := by
  obtain ⟨hop, hfit⟩ := h.value q n hpc
  have hsmall : VALUE_BUFFER_SIZE < 2 ^ 31 := by decide
  have hop' : e.query.optype = OPTYPE_INSERT := by rw [he]; exact hop
  have hsize : e.valueSize = q.size := by
    simp only [Entry.valueSize, he]
    omega
  have hregions : batchRegions cl'.batch = batchRegions cl.batch ++ [(cl.bufoffset, q.size)] := by
    rw [hbatch, batchRegions_insert hop', hoff, hsize]
  have hextent : extent (batchRegions cl'.batch) = extent (batchRegions cl.batch) + q.size := by
    rw [hregions, extent_append, extent_cons, extent_nil, Nat.add_zero]
  refine ⟨?_, ?_, by rw [hextent]; exact hfit, ?_⟩
  · rw [hregions, laid_append]
    exact ⟨h.laid, by rw [h.offset, zero_add], trivial⟩
  · rw [hoff', bumpOffset, hextent, intOfWord_wordOfInt (by rw [h.offset]; omega)
      (by rw [h.offset]; omega), h.offset]
    push_cast
    rfl
  · intro q' n' hq'
    rw [hpc'] at hq'
    cases hq'

theorem Packed.step {b c : ℕ} {cl cl' : Client} {fds fds' : ℤ → Option ℕ} {a : ClientAct}
    {evs : List ServerEvent} (h : Packed cl) (hroom : a.Room cl)
    (hstep : ClientStep b cl fds c a cl' fds' evs) : Packed cl' := by
  cases hstep with
  | newBatch hpc =>
      exact ⟨trivial, rfl, Nat.zero_le _, fun q n hq => by cases hq⟩
  | lookup hpc hret hq hop =>
      have hregions := batchRegions_lookup cl.batch
        (e := ⟨_, cl.i, cl.cd.sockets cl.i, 0, fds (cl.cd.fin cl.i)⟩) hop
      refine ⟨?_, ?_, ?_, fun q n hq => by cases hq⟩
      · rw [hregions]
        exact h.laid
      · rw [hregions]
        exact h.offset
      · rw [hregions]
        exact h.bound
  | @insert got bs e q hpc hret hq hop =>
      refine ⟨h.laid, h.offset, h.bound, ?_⟩
      intro q' n hq'
      cases hq'
      rw [hq] at hop ⊢
      simp only [ClientAct.Room, hpc] at hroom
      exact ⟨hop, hroom hret hop⟩
  | insertDone hpc hret he =>
      exact h.insertDone hpc rfl (by rw [he]) (by rw [he]) rfl rfl
  | moreValue hpc hret =>
      refine h.congr rfl rfl fun q n hq => ?_
      cases hq
      exact ⟨_, hpc⟩
  | retryValue hpc hret =>
      refine h.congr rfl rfl fun q n hq => ?_
      cases hq
      exact ⟨_, hpc⟩
  | noHeader hpc hret hr =>
      refine h.congr rfl rfl fun q n hq => ?_
      simp only [Client.fails] at hq
      split at hq <;> cases hq
  | noValue hpc hret hr hr' =>
      refine h.congr rfl rfl fun q n hq => ?_
      simp only [Client.fails] at hq
      split at hq <;> cases hq
  | writeAgain hpc => exact h
  | _ =>
      refine h.congr rfl rfl fun q n hq => ?_
      cases hq

/-! ### Every run -/

/-- The runs in which every header leaves room. -/
theorem packed {b n : ℕ} {st : Server} {log : List ServerEvent}
    (h : Runs.Reach Server.step (fun st _ a => a.Room st) (.start b n) st log) (c : ℕ) :
    Packed (st.client c) := by
  refine Server.client_invariant (P := Packed) ?_ ?_ ?_ h c
  · exact fun _ => ⟨trivial, rfl, Nat.zero_le _, fun q n hq => by cases hq⟩
  · exact fun cd hp => hp.congr rfl rfl fun q n hq => ⟨n, hq⟩
  · exact fun hroom hp hgo => hp.step hroom (clientgo_step hgo)

end HashServer

end SmpHashTable
