import SmpHashTable.Lib.Ring
import SmpHashTable.Lib.Runs
import SmpHashTable.Memory

/-!
# The one-way circular buffer

`onewaybuffer.c`: one producer, one consumer and three indices.  The producer waits until there is
space behind `tmp_wr_index`, but the consumer sees words up to `wr_index` only.  A step of a run
accesses one index of the other side or one word of `data` at most.
-/

namespace SmpHashTable

/-- `ONEWAY_BUFFER_SIZE` of `onewaybuffer.h`. -/
def ONEWAY_BUFFER_SIZE : ℕ := 2 * (CACHELINE >>> 3)

/-- `BUFFER_FLUSH_COUNT` of `onewaybuffer.h`. -/
def BUFFER_FLUSH_COUNT : ℕ := 8

/-- `struct onewaybuffer`. -/
structure OnewayBuffer where
  data : ℕ → ℕ
  rdIndex : ℕ
  wrIndex : ℕ
  tmpWrIndex : ℕ

namespace OnewayBuffer

def zero : OnewayBuffer := ⟨fun _ => 0, 0, 0, 0⟩

/-- The cell of an index. -/
def cell (i : ℕ) : ℕ := i &&& (ONEWAY_BUFFER_SIZE - 1)

/-! ### The producer's calls -/

/-- `buffer_write` and `buffer_write_all`. -/
inductive WriteCall
  | write (data : ℕ)
  | writeAll (data : List ℕ) (forceFlush : Bool)
  deriving DecidableEq, Repr

namespace WriteCall

def words : WriteCall → List ℕ
  | write data => [data]
  | writeAll data _ => data

/-- The condition of the loop that waits for space. -/
def waits (b : OnewayBuffer) : WriteCall → Bool
  | write _ => b.tmpWrIndex ≥ add64 b.rdIndex ONEWAY_BUFFER_SIZE
  | writeAll data _ => sub64 (add64 b.tmpWrIndex data.length) 1 ≥ add64 b.rdIndex ONEWAY_BUFFER_SIZE

/-- The condition of the flush at the end. -/
def flushes (b : OnewayBuffer) : WriteCall → Bool
  | write _ => b.tmpWrIndex ≥ add64 b.wrIndex BUFFER_FLUSH_COUNT
  | writeAll _ forceFlush => forceFlush || b.tmpWrIndex ≥ add64 b.wrIndex BUFFER_FLUSH_COUNT

end WriteCall

/-- Where the producer stands. -/
inductive Producer
  | idle
  /-- In the loop that waits for space. -/
  | wait (call : WriteCall)
  /-- Before the word with index `i` of the call. -/
  | copy (call : WriteCall) (i : ℕ)
  /-- Before the test for a flush. -/
  | test (call : WriteCall)
  /-- In `buffer_flush`. -/
  | flush
  deriving DecidableEq, Repr

/-- Where the consumer stands in `buffer_read_all`. -/
inductive Consumer
  | idle
  /-- Before the read of `wr_index`. -/
  | count (maxReadCount : ℤ)
  /-- With the words copied so far. -/
  | copy (count : ℤ) (out : List ℕ)
  deriving DecidableEq, Repr

/-- A buffer with its producer and its consumer. -/
structure Sides where
  b : OnewayBuffer
  producer : Producer
  consumer : Consumer

inductive OnewayEvent
  /-- A call that writes begins. -/
  | called (words : List ℕ)
  /-- One of its words is in the buffer. -/
  | stored (word : ℕ)
  /-- `buffer_read_all` has returned. -/
  | returned (words : List ℕ)
  deriving DecidableEq, Repr

inductive OnewayAct
  | call (call : WriteCall)
  | flush
  | readAll (maxReadCount : ℤ)
  /-- The next step of the producer's call. -/
  | produce
  /-- The next step of the consumer's call. -/
  | consume
  deriving DecidableEq, Repr

namespace Sides

/-- A step of the producer inside a call. -/
def produce (st : Sides) : Except Stop (Sides × List OnewayEvent) :=
  match st.producer with
  | .idle => .error .notEnabled
  | .wait call => .ok (if call.waits st.b then st else { st with producer := .copy call 0 }, [])
  | .copy call i =>
      match call.words[i]? with
      | some w =>
          .ok ({ st with
            b := { st.b with data := Function.update st.b.data (cell (add64 st.b.tmpWrIndex i)) w }
            producer := .copy call (i + 1) }, [.stored w])
      | none =>
          .ok ({ st with
            b := { st.b with tmpWrIndex := add64 st.b.tmpWrIndex call.words.length }
            producer := .test call }, [])
  | .test call => .ok ({ st with producer := if call.flushes st.b then .flush else .idle }, [])
  | .flush => .ok ({ st with b := { st.b with wrIndex := st.b.tmpWrIndex }, producer := .idle }, [])

/-- A step of `buffer_read_all`. -/
def consume (st : Sides) : Except Stop (Sides × List OnewayEvent) :=
  match st.consumer with
  | .idle => .error .notEnabled
  | .count maxReadCount =>
      let count := intOfWord (sub64 st.b.wrIndex st.b.rdIndex)
      .ok (if count = 0 then ({ st with consumer := .idle }, [.returned []])
        else ({ st with consumer := .copy (if maxReadCount < count then maxReadCount else count) [] }, []))
  | .copy count out =>
      if out.length < count then
        .ok ({ st with
          consumer := .copy count (out ++ [st.b.data (cell (add64 st.b.rdIndex out.length))]) }, [])
      else
        .ok ({ st with
          b := { st.b with rdIndex := add64 st.b.rdIndex (wordOfInt count) }
          consumer := .idle }, [.returned out])

def step (st : Sides) : OnewayAct → Except Stop (Sides × List OnewayEvent)
  | .call call =>
      match st.producer with
      | .idle =>
          if call.words.length ≤ ONEWAY_BUFFER_SIZE then
            .ok ({ st with producer := .wait call }, [.called call.words])
          else .error .assertFailed
      | _ => .error .notEnabled
  | .flush =>
      match st.producer with
      | .idle => .ok ({ st with producer := .flush }, [])
      | _ => .error .notEnabled
  | .readAll maxReadCount =>
      match st.consumer with
      | .idle => .ok ({ st with consumer := .count maxReadCount }, [])
      | _ => .error .notEnabled
  | .produce => st.produce
  | .consume => st.consume

/-- A zeroed buffer. -/
def start : Sides := ⟨OnewayBuffer.zero, .idle, .idle⟩

end Sides

/-- What the two sides may do: writes of 1 to `ONEWAY_BUFFER_SIZE` words that keep the indices below
`2 ^ 64 - ONEWAY_BUFFER_SIZE`, and reads of at least one word. -/
def OnewayAct.Ok (st : Sides) : OnewayAct → Prop
  | .call w => w.words ≠ [] ∧ w.words.length ≤ ONEWAY_BUFFER_SIZE ∧
      st.b.tmpWrIndex + w.words.length < 2 ^ 64 - ONEWAY_BUFFER_SIZE
  | .readAll maxReadCount => 0 < maxReadCount
  | _ => True

/-- The words of the call and the unflushed words fit into the buffer together. -/
def OnewayAct.Roomy (st : Sides) : OnewayAct → Prop
  | .call (.writeAll data _) => st.b.tmpWrIndex - st.b.wrIndex + data.length ≤ ONEWAY_BUFFER_SIZE
  | _ => True

instance OnewayAct.decidableOk (st : Sides) : (a : OnewayAct) → Decidable (a.Ok st)
  | .call _ => inferInstanceAs (Decidable (_ ∧ _ ∧ _))
  | .readAll _ => inferInstanceAs (Decidable (_ < _))
  | .flush => inferInstanceAs (Decidable True)
  | .produce => inferInstanceAs (Decidable True)
  | .consume => inferInstanceAs (Decidable True)

instance OnewayAct.decidableRoomy (st : Sides) : (a : OnewayAct) → Decidable (a.Roomy st)
  | .call (.writeAll _ _) => inferInstanceAs (Decidable (_ ≤ _))
  | .call (.write _) => inferInstanceAs (Decidable True)
  | .readAll _ => inferInstanceAs (Decidable True)
  | .flush => inferInstanceAs (Decidable True)
  | .produce => inferInstanceAs (Decidable True)
  | .consume => inferInstanceAs (Decidable True)

namespace Sides

/-- The runs. -/
def Reach : Sides → List OnewayEvent → Prop :=
  Runs.Reach step (fun st _ a => a.Ok st) start

/-- The runs in which no `buffer_write_all` is too long for what its own side has not flushed. -/
def RoomyReach : Sides → List OnewayEvent → Prop :=
  Runs.Reach step (fun st _ a => a.Ok st ∧ a.Roomy st) start

/-- The producer is in the loop that waits for space, and there is none. -/
def Waiting (st : Sides) : Prop := ∃ call, st.producer = .wait call ∧ call.waits st.b = true

end Sides

/-! ### What a log says -/

/-- The words of the calls so far. -/
def calledWords (log : List OnewayEvent) : List ℕ :=
  (log.filterMap fun | .called words => some words | _ => none).flatten

/-- The words written to the buffer so far. -/
def storedWords (log : List OnewayEvent) : List ℕ :=
  log.filterMap fun | .stored word => some word | _ => none

/-- The words read so far. -/
def returnedWords (log : List OnewayEvent) : List ℕ :=
  (log.filterMap fun | .returned words => some words | _ => none).flatten

section

variable (log : List OnewayEvent)

theorem log_called (words : List ℕ) :
    calledWords (log ++ [.called words]) = calledWords log ++ words ∧
      storedWords (log ++ [.called words]) = storedWords log ∧
      returnedWords (log ++ [.called words]) = returnedWords log := by
  simp [calledWords, storedWords, returnedWords]

theorem log_stored (word : ℕ) :
    calledWords (log ++ [.stored word]) = calledWords log ∧
      storedWords (log ++ [.stored word]) = storedWords log ++ [word] ∧
      returnedWords (log ++ [.stored word]) = returnedWords log := by
  simp [calledWords, storedWords, returnedWords]

theorem log_returned (words : List ℕ) :
    calledWords (log ++ [.returned words]) = calledWords log ∧
      storedWords (log ++ [.returned words]) = storedWords log ∧
      returnedWords (log ++ [.returned words]) = returnedWords log ++ words := by
  simp [calledWords, storedWords, returnedWords]

end

/-! ### The invariant -/

/-- The words of the call that are in the buffer, behind `tmp_wr_index`. -/
def Producer.copied : Producer → ℕ
  | copy _ i => i
  | _ => 0

/-- The words of the call that are not in the buffer yet. -/
def Producer.rest : Producer → List ℕ
  | wait call => call.words
  | copy call i => call.words.drop i
  | _ => []

/-- What the producer knows where it stands. -/
def Producer.Fits (b : OnewayBuffer) : Producer → Prop
  | idle => b.tmpWrIndex < b.wrIndex + BUFFER_FLUSH_COUNT
  | wait call => b.tmpWrIndex < b.wrIndex + BUFFER_FLUSH_COUNT ∧ 0 < call.words.length ∧
      call.words.length ≤ ONEWAY_BUFFER_SIZE ∧
      b.tmpWrIndex + call.words.length < 2 ^ 64 - ONEWAY_BUFFER_SIZE
  | copy call i => i ≤ call.words.length ∧
      b.tmpWrIndex + call.words.length ≤ b.rdIndex + ONEWAY_BUFFER_SIZE ∧
      b.tmpWrIndex + call.words.length < 2 ^ 64 - ONEWAY_BUFFER_SIZE
  | test _ => True
  | flush => True

/-- What the consumer knows where it stands, with the words it has not read yet. -/
def Consumer.Fits (b : OnewayBuffer) (unread : List ℕ) : Consumer → Prop
  | idle => True
  | count maxReadCount => 0 < maxReadCount
  | copy n out => (out.length : ℤ) ≤ n ∧ b.rdIndex + n ≤ b.wrIndex ∧ out <+: unread

/-- `unread` is what is in the buffer and has not been read. -/
structure OnewayInv (st : Sides) (log : List OnewayEvent) (unread : List ℕ) : Prop where
  split : storedWords log = returnedWords log ++ unread
  called : calledWords log = storedWords log ++ st.producer.rest
  rd : st.b.rdIndex = (returnedWords log).length
  rd_le : st.b.rdIndex ≤ st.b.wrIndex
  wr_le : st.b.wrIndex ≤ st.b.tmpWrIndex
  end_eq : st.b.tmpWrIndex + st.producer.copied = st.b.rdIndex + unread.length
  room : unread.length ≤ ONEWAY_BUFFER_SIZE
  bound : st.b.tmpWrIndex < 2 ^ 64 - ONEWAY_BUFFER_SIZE
  seg : Ring.Seg ONEWAY_BUFFER_SIZE st.b.data st.b.rdIndex unread
  producer : st.producer.Fits st.b
  consumer : st.consumer.Fits st.b unread

theorem onewayInv_start : OnewayInv Sides.start [] [] := by
  refine ⟨rfl, rfl, rfl, le_rfl, le_rfl, rfl, by decide, by decide, Ring.seg_nil _ _ _, ?_, trivial⟩
  show 0 < 0 + BUFFER_FLUSH_COUNT
  decide

theorem oneway_size : ONEWAY_BUFFER_SIZE = 16 := rfl

theorem cell_eq (i : ℕ) : cell i = i % ONEWAY_BUFFER_SIZE := Nat.and_two_pow_sub_one_eq_mod i 4

section

variable {st st' : Sides} {log evs : List OnewayEvent} {unread : List ℕ}

/-- The wait condition, as long as the indices do not wrap. -/
theorem WriteCall.waits_iff {b : OnewayBuffer} {call : WriteCall} (hpos : 0 < call.words.length)
    (hrd : b.rdIndex ≤ b.tmpWrIndex)
    (hlt : b.tmpWrIndex + call.words.length < 2 ^ 64 - ONEWAY_BUFFER_SIZE) :
    call.waits b = true ↔ b.rdIndex + ONEWAY_BUFFER_SIZE < b.tmpWrIndex + call.words.length := by
  rw [oneway_size] at hlt ⊢
  cases call with
  | write data =>
      have hlen : (WriteCall.write data).words.length = 1 := rfl
      rw [hlen] at hlt ⊢
      rw [WriteCall.waits, decide_eq_true_iff, oneway_size, add64_eq (by omega)]
      omega
  | writeAll data forceFlush =>
      have hlen : (WriteCall.writeAll data forceFlush).words.length = data.length := rfl
      rw [hlen] at hlt hpos ⊢
      rw [WriteCall.waits, decide_eq_true_iff, oneway_size, add64_eq (by omega), add64_eq (by omega),
        sub64_eq (by omega) (by omega)]
      omega

/-- A call that does not flush leaves few words unflushed. -/
theorem WriteCall.lt_of_not_flushes {b : OnewayBuffer} {call : WriteCall} (h : call.flushes b = false)
    (hlt : b.wrIndex < 2 ^ 64 - ONEWAY_BUFFER_SIZE) : b.tmpWrIndex < b.wrIndex + BUFFER_FLUSH_COUNT := by
  have hadd : add64 b.wrIndex BUFFER_FLUSH_COUNT = b.wrIndex + BUFFER_FLUSH_COUNT := by
    refine add64_eq ?_
    unfold BUFFER_FLUSH_COUNT
    rw [oneway_size] at hlt
    omega
  cases call with
  | write data =>
      rw [WriteCall.flushes, decide_eq_false_iff_not, hadd] at h
      omega
  | writeAll data forceFlush =>
      rw [WriteCall.flushes, Bool.or_eq_false_iff, decide_eq_false_iff_not, hadd] at h
      omega

/-- What `buffer_read_all` takes for the number of words. -/
theorem OnewayInv.count_eq (h : OnewayInv st log unread) :
    intOfWord (sub64 st.b.wrIndex st.b.rdIndex) = (st.b.wrIndex - st.b.rdIndex : ℕ) := by
  have hend := h.end_eq
  have hroom := h.room
  have hbound := h.bound
  have hwr := h.wr_le
  rw [oneway_size] at hroom hbound
  rw [sub64_eq h.rd_le (by omega), intOfWord, Nat.mod_eq_of_lt (by omega), if_pos (by omega)]

/-- A call begins. -/
theorem OnewayInv.call (h : OnewayInv st log unread) {c : WriteCall} (hidle : st.producer = .idle)
    (hok : (OnewayAct.call c).Ok st) :
    OnewayInv { st with producer := .wait c } (log ++ [.called c.words]) unread := by
  obtain ⟨hcalled, hstored, hreturned⟩ := log_called log c.words
  obtain ⟨hne, hlen, hbound⟩ := hok
  have hfits := h.producer
  have hold := h.called
  have hend := h.end_eq
  rw [hidle] at hfits hold hend
  refine ⟨?_, ?_, ?_, h.rd_le, h.wr_le, hend, h.room, h.bound, h.seg, ?_, h.consumer⟩
  · rw [hstored, hreturned]
    exact h.split
  · rw [hcalled, hstored, hold]
    exact congrArg (· ++ c.words) (List.append_nil _)
  · rw [hreturned]
    exact h.rd
  · exact ⟨hfits, List.length_pos_iff.mpr hne, hlen, hbound⟩

/-- A step of the producer that only moves on. -/
theorem OnewayInv.moveProducer (h : OnewayInv st log unread) {pc : Producer}
    (hrest : pc.rest = st.producer.rest) (hcopied : pc.copied = st.producer.copied)
    (hfits : pc.Fits st.b) : OnewayInv { st with producer := pc } (log ++ []) unread := by
  rw [List.append_nil]
  refine ⟨h.split, ?_, h.rd, h.rd_le, h.wr_le, ?_, h.room, h.bound, h.seg, hfits, h.consumer⟩
  · show calledWords log = storedWords log ++ pc.rest
    rw [hrest]
    exact h.called
  · show st.b.tmpWrIndex + pc.copied = _
    rw [hcopied]
    exact h.end_eq

/-- There is space: the call begins to copy. -/
theorem OnewayInv.wait (h : OnewayInv st log unread) {c : WriteCall} (hpc : st.producer = .wait c)
    (hroom : c.waits st.b = false) : OnewayInv { st with producer := .copy c 0 } (log ++ []) unread := by
  have hfits := h.producer
  rw [hpc] at hfits
  obtain ⟨-, hpos, -, hbound⟩ := hfits
  have hnot := (WriteCall.waits_iff hpos (h.rd_le.trans h.wr_le) hbound).not.mp (by rw [hroom]; simp)
  refine h.moveProducer ?_ ?_ ⟨Nat.zero_le _, by omega, hbound⟩
  · rw [hpc]
    rfl
  · rw [hpc]
    rfl

/-- **A word is stored behind the unread ones**, in a cell that none of them occupies. -/
theorem OnewayInv.store (h : OnewayInv st log unread) {c : WriteCall} {i w : ℕ}
    (hpc : st.producer = .copy c i) (hw : c.words[i]? = some w) :
    OnewayInv { st with
      b := { st.b with data := Function.update st.b.data (cell (add64 st.b.tmpWrIndex i)) w }
      producer := .copy c (i + 1) } (log ++ [.stored w]) (unread ++ [w]) := by
  obtain ⟨hcalled, hstored, hreturned⟩ := log_stored log w
  have hfits := h.producer
  have hold := h.called
  have hend := h.end_eq
  rw [hpc] at hfits hold hend
  obtain ⟨-, hroom, hbound⟩ := hfits
  replace hold : calledWords log = storedWords log ++ c.words.drop i := hold
  replace hend : st.b.tmpWrIndex + i = st.b.rdIndex + unread.length := hend
  obtain ⟨hi, hget⟩ := List.getElem?_eq_some_iff.mp hw
  have hcell : cell (add64 st.b.tmpWrIndex i) = (st.b.rdIndex + unread.length) % ONEWAY_BUFFER_SIZE := by
    rw [cell_eq, add64_eq (by omega), hend]
  have hlen : unread.length < ONEWAY_BUFFER_SIZE := by omega
  refine ⟨?_, ?_, ?_, h.rd_le, h.wr_le, ?_, ?_, h.bound, ?_, ⟨hi, hroom, hbound⟩, ?_⟩
  · rw [hstored, hreturned, h.split, List.append_assoc]
  · rw [hcalled, hstored, hold, List.append_assoc, List.drop_eq_getElem_cons hi, hget]
    rfl
  · rw [hreturned]
    exact h.rd
  · show st.b.tmpWrIndex + (i + 1) = st.b.rdIndex + (unread ++ [w]).length
    rw [List.length_append, List.length_singleton]
    omega
  · rw [List.length_append, List.length_singleton]
    omega
  · show Ring.Seg _ (Function.update _ _ _) _ _
    rw [hcell]
    exact h.seg.concat w hlen
  · have hcons := h.consumer
    cases hcpc : st.consumer with
    | idle => trivial
    | count n =>
        rw [hcpc] at hcons
        exact hcons
    | copy n out =>
        rw [hcpc] at hcons
        exact ⟨hcons.1, hcons.2.1, hcons.2.2.trans (List.prefix_append unread [w])⟩

/-- The indices of the producer change once a call has copied all its words, or flushes. -/
theorem OnewayInv.moveIndices (h : OnewayInv st log unread) {wr tmp : ℕ} {pc : Producer}
    (hrest : pc.rest = st.producer.rest) (hwr : st.b.wrIndex ≤ wr) (hle : wr ≤ tmp)
    (hend : tmp + pc.copied = st.b.rdIndex + unread.length)
    (hbound : tmp < 2 ^ 64 - ONEWAY_BUFFER_SIZE)
    (hfits : pc.Fits { st.b with wrIndex := wr, tmpWrIndex := tmp }) :
    OnewayInv { st with b := { st.b with wrIndex := wr, tmpWrIndex := tmp }, producer := pc } (log ++ [])
      unread := by
  rw [List.append_nil]
  refine ⟨h.split, ?_, h.rd, h.rd_le.trans hwr, hle, hend, h.room, hbound, h.seg, hfits, ?_⟩
  · show calledWords log = storedWords log ++ pc.rest
    rw [hrest]
    exact h.called
  · have hcons := h.consumer
    cases hcpc : st.consumer with
    | idle => trivial
    | count n =>
        rw [hcpc] at hcons
        exact hcons
    | copy n out =>
        rw [hcpc] at hcons
        refine ⟨hcons.1, ?_, hcons.2.2⟩
        have hle' := hcons.2.1
        show (st.b.rdIndex : ℤ) + n ≤ (wr : ℕ)
        omega

theorem OnewayInv.produce (h : OnewayInv st log unread) (hstep : st.produce = .ok (st', evs)) :
    ∃ unread', OnewayInv st' (log ++ evs) unread' := by
  have hend := h.end_eq
  have hfits := h.producer
  have hbound := h.bound
  have hwr := h.wr_le
  unfold Sides.produce at hstep
  cases hpc : st.producer with
  | idle =>
      rw [hpc] at hstep
      cases hstep
  | wait c =>
      rw [hpc] at hstep
      cases hstep
      by_cases hwait : c.waits st.b = true
      · rw [if_pos hwait, List.append_nil]
        exact ⟨unread, h⟩
      · rw [if_neg hwait]
        exact ⟨unread, h.wait hpc (Bool.eq_false_iff.mpr hwait)⟩
  | copy c i =>
      rw [hpc] at hstep hfits hend
      obtain ⟨hi, hroom, hlt⟩ := hfits
      replace hend : st.b.tmpWrIndex + i = st.b.rdIndex + unread.length := hend
      cases hw : c.words[i]? with
      | some w =>
          simp only [hw] at hstep
          cases hstep
          exact ⟨unread ++ [w], h.store hpc hw⟩
      | none =>
          simp only [hw] at hstep
          cases hstep
          have hlen := List.getElem?_eq_none_iff.mp hw
          have hadd : add64 st.b.tmpWrIndex c.words.length = st.b.tmpWrIndex + i := by
            rw [add64_eq (by omega)]
            omega
          rw [hadd]
          refine ⟨unread, h.moveIndices ?_ le_rfl (by omega) ?_ (by omega) trivial⟩
          · rw [hpc]
            exact (List.drop_eq_nil_of_le hlen).symm
          · exact hend
  | test c =>
      rw [hpc] at hstep hend
      cases hstep
      by_cases hflush : c.flushes st.b = true
      · rw [if_pos hflush]
        refine ⟨unread, h.moveProducer ?_ ?_ trivial⟩
        · rw [hpc]
          rfl
        · rw [hpc]
          rfl
      · rw [if_neg hflush]
        refine ⟨unread, h.moveProducer ?_ ?_ ?_⟩
        · rw [hpc]
          rfl
        · rw [hpc]
          rfl
        · exact WriteCall.lt_of_not_flushes (Bool.eq_false_iff.mpr hflush) (by omega)
  | flush =>
      rw [hpc] at hstep hend
      cases hstep
      refine ⟨unread, h.moveIndices ?_ hwr le_rfl hend hbound ?_⟩
      · rw [hpc]
        rfl
      · exact Nat.lt_add_of_pos_right (by decide)

/-- What the producer knows stays true when words are read. -/
theorem Producer.Fits.read {b : OnewayBuffer} {pc : Producer} (h : pc.Fits b) {rd : ℕ}
    (hrd : b.rdIndex ≤ rd) : pc.Fits { b with rdIndex := rd } := by
  cases pc with
  | idle => exact h
  | wait c => exact h
  | copy c i =>
      obtain ⟨hi, hroom, hlt⟩ := h
      exact ⟨hi, hroom.trans (Nat.add_le_add_right hrd _), hlt⟩
  | test c => trivial
  | flush => trivial

/-- A step of the consumer that only moves on. -/
theorem OnewayInv.moveConsumer (h : OnewayInv st log unread) {pc : Consumer}
    (hfits : pc.Fits st.b unread) : OnewayInv { st with consumer := pc } log unread :=
  ⟨h.split, h.called, h.rd, h.rd_le, h.wr_le, h.end_eq, h.room, h.bound, h.seg, h.producer, hfits⟩

/-- `buffer_read_all` returns: its words are read. -/
theorem OnewayInv.returned (h : OnewayInv st log unread) {out rest : List ℕ}
    (hunread : unread = out ++ rest) (hle : st.b.rdIndex + out.length ≤ st.b.wrIndex) :
    OnewayInv { st with
      b := { st.b with rdIndex := st.b.rdIndex + out.length }
      consumer := .idle } (log ++ [.returned out]) rest := by
  obtain ⟨hcalled, hstored, hreturned⟩ := log_returned log out
  have hend := h.end_eq
  have hroom := h.room
  have hseg := h.seg
  rw [hunread] at hseg
  rw [hunread, List.length_append] at hend hroom
  refine ⟨?_, ?_, ?_, hle, h.wr_le, ?_, by omega, h.bound, (Ring.seg_append.mp hseg).2, ?_, trivial⟩
  · rw [hstored, hreturned, h.split, hunread, List.append_assoc]
  · rw [hcalled, hstored]
    exact h.called
  · rw [hreturned, List.length_append]
    exact congrArg (· + out.length) h.rd
  · show st.b.tmpWrIndex + st.producer.copied = st.b.rdIndex + out.length + rest.length
    omega
  · exact h.producer.read (Nat.le_add_right _ _)

theorem OnewayInv.consume (h : OnewayInv st log unread) (hstep : st.consume = .ok (st', evs)) :
    ∃ unread', OnewayInv st' (log ++ evs) unread' := by
  have hend := h.end_eq
  have hfits := h.consumer
  have hbound := h.bound
  have hwr := h.wr_le
  unfold Sides.consume at hstep
  cases hpc : st.consumer with
  | idle =>
      rw [hpc] at hstep
      cases hstep
  | count n =>
      simp only [hpc, h.count_eq, Except.ok.injEq] at hstep
      rw [hpc] at hfits
      have hpos : 0 < n := hfits
      by_cases hzero : ((st.b.wrIndex - st.b.rdIndex : ℕ) : ℤ) = 0
      · rw [if_pos hzero] at hstep
        cases hstep
        exact ⟨unread, h.returned (List.nil_append unread).symm h.rd_le⟩
      · rw [if_neg hzero] at hstep
        cases hstep
        rw [List.append_nil]
        refine ⟨unread, h.moveConsumer ⟨?_, ?_, List.nil_prefix⟩⟩
        · show ((0 : ℕ) : ℤ) ≤ _
          split <;> omega
        · split <;> omega
  | copy n out =>
      rw [hpc] at hfits
      simp only [hpc] at hstep
      obtain ⟨hout, hle, rest, rfl⟩ := hfits
      rw [List.length_append] at hend
      split at hstep
      · next hlt =>
        cases hstep
        rw [List.append_nil]
        -- the next word is behind those copied so far
        obtain ⟨w, rest, rfl⟩ : ∃ w rest', rest = w :: rest' := by
          refine List.exists_cons_of_ne_nil ?_
          rintro rfl
          rw [List.length_nil] at hend
          omega
        have hword : st.b.data (cell (add64 st.b.rdIndex out.length)) = w := by
          have hseg := (Ring.seg_cons.mp (Ring.seg_append.mp h.seg).2).1
          rw [cell_eq, add64_eq (by omega)]
          exact hseg
        refine ⟨_, h.moveConsumer ⟨?_, hle, ?_⟩⟩
        · rw [List.length_append, List.length_singleton]
          push_cast
          omega
        · rw [hword]
          exact ⟨rest, by rw [List.append_assoc]; rfl⟩
      · next hge =>
        cases hstep
        have hlen : n = out.length := by omega
        subst hlen
        have hadd : add64 st.b.rdIndex (wordOfInt (out.length : ℤ)) = st.b.rdIndex + out.length := by
          rw [wordOfInt_eq (by omega) (by omega), Int.toNat_natCast, add64_eq (by omega)]
        rw [hadd]
        exact ⟨rest, h.returned rfl (by omega)⟩

theorem OnewayInv.step (h : OnewayInv st log unread) {a : OnewayAct} (hok : a.Ok st)
    (hstep : st.step a = .ok (st', evs)) : ∃ unread', OnewayInv st' (log ++ evs) unread' := by
  cases a with
  | call c =>
      simp only [Sides.step] at hstep
      split at hstep
      · next hidle =>
        split at hstep
        · cases hstep
          exact ⟨unread, h.call hidle hok⟩
        · cases hstep
      · cases hstep
  | flush =>
      simp only [Sides.step] at hstep
      split at hstep
      · next hidle =>
        cases hstep
        refine ⟨unread, h.moveProducer ?_ ?_ trivial⟩
        · rw [hidle]
          rfl
        · rw [hidle]
          rfl
      · cases hstep
  | readAll n =>
      simp only [Sides.step] at hstep
      split at hstep
      · cases hstep
        rw [List.append_nil]
        exact ⟨unread, h.moveConsumer hok⟩
      · cases hstep
  | produce => exact h.produce hstep
  | consume => exact h.consume hstep

/-! ### Every run -/

theorem Sides.Reach.inv (h : Sides.Reach st log) : ∃ unread, OnewayInv st log unread := by
  refine Runs.Reach.invariant (P := fun st log => ∃ unread, OnewayInv st log unread)
    ⟨[], onewayInv_start⟩ ?_ h
  rintro st st' log evs a ⟨unread, hinv⟩ hok hstep
  exact hinv.step hok hstep

/-- The order of the indices, the words not read yet, and what has been read. -/
structure Safe (st : Sides) (log : List OnewayEvent) : Prop where
  rd_le : st.b.rdIndex ≤ st.b.wrIndex
  wr_le : st.b.wrIndex ≤ st.b.tmpWrIndex
  tmp_le : st.b.tmpWrIndex ≤ st.b.rdIndex + ONEWAY_BUFFER_SIZE
  intact : ∀ k w, st.b.rdIndex ≤ k → (storedWords log)[k]? = some w → st.b.data (cell k) = w
  order : returnedWords log <+: storedWords log
  written : storedWords log <+: calledWords log

theorem OnewayInv.safe (h : OnewayInv st log unread) : Safe st log := by
  have hend := h.end_eq
  have hroom := h.room
  refine ⟨h.rd_le, h.wr_le, by omega, ?_, ⟨unread, h.split.symm⟩, ⟨_, h.called.symm⟩⟩
  intro k w hk hw
  obtain ⟨i, rfl⟩ := Nat.exists_eq_add_of_le hk
  rw [h.split, List.getElem?_append_right (by have := h.rd; omega), h.rd, Nat.add_sub_cancel_left] at hw
  rw [cell_eq]
  exact h.seg i w hw

/-- **Indices and words are right in every run**, whatever the lengths of the writes. -/
theorem oneway_safe (h : Sides.Reach st log) : Safe st log :=
  h.inv.elim fun _ hinv => hinv.safe

/-- A waiting call fits into the buffer together with the unflushed words. -/
def Sides.Fitting (st : Sides) : Prop :=
  ∀ c, st.producer = .wait c → st.b.tmpWrIndex + c.words.length ≤ st.b.wrIndex + ONEWAY_BUFFER_SIZE

theorem Sides.Fitting.of_ne_wait {pc : Producer} (hpc : st.producer = pc) (hne : ∀ c, pc ≠ .wait c) :
    st.Fitting := fun c hc => absurd (hpc.symm.trans hc) (hne c)

theorem OnewayInv.fitting_step (h : OnewayInv st log unread) (hfit : st.Fitting) {a : OnewayAct}
    (hroomy : a.Roomy st) (hstep : st.step a = .ok (st', evs)) : st'.Fitting := by
  have hfits := h.producer
  have hwr := h.wr_le
  cases a with
  | call c =>
      simp only [Sides.step] at hstep
      split at hstep
      · next hidle =>
        split at hstep
        · cases hstep
          rw [hidle] at hfits
          intro c' hc'
          cases hc'
          cases c with
          | write data =>
              have hlt : st.b.tmpWrIndex < st.b.wrIndex + BUFFER_FLUSH_COUNT := hfits
              show st.b.tmpWrIndex + 1 ≤ st.b.wrIndex + ONEWAY_BUFFER_SIZE
              unfold BUFFER_FLUSH_COUNT at hlt
              rw [oneway_size]
              omega
          | writeAll data forceFlush =>
              have hle : st.b.tmpWrIndex - st.b.wrIndex + data.length ≤ ONEWAY_BUFFER_SIZE := hroomy
              show st.b.tmpWrIndex + data.length ≤ st.b.wrIndex + ONEWAY_BUFFER_SIZE
              omega
        · cases hstep
      · cases hstep
  | flush =>
      simp only [Sides.step] at hstep
      split at hstep
      · cases hstep
        exact .of_ne_wait rfl nofun
      · cases hstep
  | readAll n =>
      simp only [Sides.step] at hstep
      split at hstep
      · cases hstep
        exact hfit
      · cases hstep
  | produce =>
      simp only [Sides.step, Sides.produce] at hstep
      cases hpc : st.producer with
      | idle =>
          rw [hpc] at hstep
          cases hstep
      | wait c =>
          rw [hpc] at hstep
          cases hstep
          split
          · exact hfit
          · exact .of_ne_wait rfl nofun
      | copy c i =>
          rw [hpc] at hstep
          dsimp only at hstep
          split at hstep <;> cases hstep <;> exact .of_ne_wait rfl nofun
      | test c =>
          rw [hpc] at hstep
          cases hstep
          split <;> exact .of_ne_wait rfl nofun
      | flush =>
          rw [hpc] at hstep
          cases hstep
          exact .of_ne_wait rfl nofun
  | consume =>
      simp only [Sides.step, Sides.consume] at hstep
      split at hstep
      · cases hstep
      · simp only [Except.ok.injEq] at hstep
        split at hstep <;> cases hstep <;> exact hfit
      · split at hstep <;> cases hstep <;> exact hfit

/-- **The producer waits for the consumer only (proved).**  In every run in which no
`buffer_write_all` has more words than fit into the buffer with what its own side has not flushed: the
indices are in order, no unread word is overwritten, the words read are the first ones of the words
written, and whenever the producer waits there is something to read. -/
theorem oneway_never_stuck (h : Sides.RoomyReach st log) :
    Safe st log ∧ (st.Waiting → st.b.rdIndex < st.b.wrIndex) := by
  have hboth : (∃ unread, OnewayInv st log unread) ∧ st.Fitting := by
    refine Runs.Reach.invariant
      (P := fun st log => (∃ unread, OnewayInv st log unread) ∧ st.Fitting)
      ⟨⟨[], onewayInv_start⟩, .of_ne_wait rfl nofun⟩ ?_ h
    rintro st st' log evs a ⟨⟨unread, hinv⟩, hfit⟩ hok hstep
    exact ⟨hinv.step hok.1 hstep, hinv.fitting_step hfit hok.2 hstep⟩
  obtain ⟨⟨unread, hinv⟩, hfit⟩ := hboth
  refine ⟨hinv.safe, ?_⟩
  rintro ⟨c, hpc, hwait⟩
  have hfits := hinv.producer
  rw [hpc] at hfits
  obtain ⟨-, hpos, -, hbound⟩ := hfits
  have hfull := (WriteCall.waits_iff hpos (hinv.rd_le.trans hinv.wr_le) hbound).mp hwait
  have hroom := hfit c hpc
  omega

/-- Nine words behind seven unflushed ones, with the consumer idle. -/
theorem oneway_never_stuck_sixteen : ∃ st log,
    Sides.RoomyReach st log ∧ st.b.tmpWrIndex = 16 ∧
      Safe st log ∧ (st.Waiting → st.b.rdIndex < st.b.wrIndex) := by
  have hrun : (Runs.run Sides.step (fun st _ a => a.Ok st ∧ a.Roomy st)
      (.call (.writeAll [1, 2, 3, 4, 5, 6, 7] false) :: List.replicate 10 .produce ++
        .call (.writeAll [8, 9, 10, 11, 12, 13, 14, 15, 16] false) :: List.replicate 11 .produce)
      Sides.start []).map (fun r => r.1.b.tmpWrIndex) = some 16 := by decide +kernel
  obtain ⟨⟨st, log⟩, hrun, htmp⟩ := Option.map_eq_some_iff.mp hrun
  have hreach : Sides.RoomyReach st log := Runs.Reach.start.run hrun
  exact ⟨st, log, hreach, htmp, oneway_never_stuck hreach⟩

/-- Ten words behind seven unflushed ones: the producer waits, and there is nothing to read. -/
theorem oneway_stuck : ∃ st log,
    Sides.Reach st log ∧ st.Waiting ∧ ¬ st.b.rdIndex < st.b.wrIndex := by
  have hrun : (Runs.run Sides.step (fun st _ a => a.Ok st)
      (.call (.writeAll [1, 2, 3, 4, 5, 6, 7] false) :: List.replicate 10 .produce ++
        [.call (.writeAll [8, 9, 10, 11, 12, 13, 14, 15, 16, 17] false), .produce])
      Sides.start []).map (fun r => (r.1.producer,
        (WriteCall.writeAll [8, 9, 10, 11, 12, 13, 14, 15, 16, 17] false).waits r.1.b,
        r.1.b.rdIndex, r.1.b.wrIndex))
      = some (.wait (.writeAll [8, 9, 10, 11, 12, 13, 14, 15, 16, 17] false), true, 0, 0) := by
    decide +kernel
  obtain ⟨⟨st, log⟩, hrun, heq⟩ := Option.map_eq_some_iff.mp hrun
  simp only [Prod.mk.injEq] at heq
  obtain ⟨hpc, hwait, hrd, hwr⟩ := heq
  exact ⟨st, log, Runs.Reach.start.run hrun, ⟨_, hpc, hwait⟩, by omega⟩

/-! ### A call that is too long -/

/-- The consumer alone finishes its call. -/
theorem Sides.Reach.drain (h : Sides.Reach st log) {n : ℤ} {out : List ℕ} (k : ℕ)
    (hpc : st.consumer = .copy n out) (hk : (out.length : ℤ) + k = n) :
    ∃ st' log', Sides.Reach st' log' ∧ st'.producer = st.producer ∧ st'.consumer = .idle ∧
      st'.b.wrIndex = st.b.wrIndex ∧ st'.b.tmpWrIndex = st.b.tmpWrIndex ∧
      (st'.b.rdIndex : ℤ) = st.b.rdIndex + n := by
  induction k generalizing st log out with
  | zero =>
      obtain ⟨unread, hinv⟩ := h.inv
      have hfits := hinv.consumer
      rw [hpc] at hfits
      have hle := hfits.2.1
      have hbound := hinv.bound
      have hwr := hinv.wr_le
      have hstep : st.step .consume = .ok ({ st with
          b := { st.b with rdIndex := add64 st.b.rdIndex (wordOfInt n) }
          consumer := .idle }, [.returned out]) := by
        simp only [Sides.step, Sides.consume, hpc]
        rw [if_neg (by omega)]
      refine ⟨_, _, h.step (show OnewayAct.Ok st .consume from trivial) hstep, rfl, rfl, rfl, rfl, ?_⟩
      show ((add64 st.b.rdIndex (wordOfInt n) : ℕ) : ℤ) = _
      rw [wordOfInt_eq (by omega) (by omega), add64_eq (by omega)]
      omega
  | succ k ih =>
      have hstep : st.step .consume = .ok ({ st with
          consumer := .copy n (out ++ [st.b.data (cell (add64 st.b.rdIndex out.length))]) }, []) := by
        simp only [Sides.step, Sides.consume, hpc]
        rw [if_pos (by omega)]
      have hnext := h.step (show OnewayAct.Ok st .consume from trivial) hstep
      have hlen : ((out ++ [st.b.data (cell (add64 st.b.rdIndex out.length))]).length : ℤ) + k = n := by
        rw [List.length_append, List.length_singleton]
        push_cast
        omega
      obtain ⟨st', log', hdone⟩ := ih hnext rfl hlen
      exact ⟨st', log', hdone⟩

/-- The consumer alone reads everything that is visible. -/
theorem Sides.Reach.readEverything (h : Sides.Reach st log) (hidle : st.consumer = .idle) :
    ∃ st' log', Sides.Reach st' log' ∧ st'.producer = st.producer ∧ st'.consumer = .idle ∧
      st'.b.wrIndex = st.b.wrIndex ∧ st'.b.tmpWrIndex = st.b.tmpWrIndex ∧
      st'.b.rdIndex = st'.b.wrIndex := by
  obtain ⟨unread, hinv⟩ := h.inv
  have hrd := hinv.rd_le
  by_cases hempty : st.b.rdIndex = st.b.wrIndex
  · exact ⟨st, log, h, rfl, hidle, rfl, rfl, hempty⟩
  · have hroom := hinv.safe.tmp_le
    have hwr := hinv.wr_le
    have hcall : st.step (.readAll ONEWAY_BUFFER_SIZE)
        = .ok ({ st with consumer := .count ONEWAY_BUFFER_SIZE }, []) := by
      simp only [Sides.step, hidle]
    have hpos : OnewayAct.Ok st (.readAll ONEWAY_BUFFER_SIZE) :=
      show (0 : ℤ) < ONEWAY_BUFFER_SIZE by decide
    have h₁ := h.step hpos hcall
    have hcount : ({ st with consumer := .count ONEWAY_BUFFER_SIZE } : Sides).step .consume
        = .ok ({ st with consumer := .copy (st.b.wrIndex - st.b.rdIndex : ℕ) [] }, []) := by
      simp only [Sides.step, Sides.consume, hinv.count_eq]
      rw [if_neg (by omega), if_neg (by omega)]
    have h₂ := h₁.step (show OnewayAct.Ok _ .consume from trivial) hcount
    obtain ⟨st', log', h', hprod, hcons, hwr', htmp', hrd'⟩ :=
      Sides.Reach.drain h₂ (st.b.wrIndex - st.b.rdIndex) rfl (by simp)
    refine ⟨st', log', h', hprod, hcons, hwr', htmp', ?_⟩
    replace hrd' : (st'.b.rdIndex : ℤ) = st.b.rdIndex + (st.b.wrIndex - st.b.rdIndex : ℕ) := hrd'
    replace hwr' : st'.b.wrIndex = st.b.wrIndex := hwr'
    omega

/-- Nobody will go on: the producer waits and there is nothing to read. -/
structure Sides.Stuck (c : WriteCall) (st : Sides) : Prop where
  producer : st.producer = .wait c
  waits : c.waits st.b = true
  consumer : st.consumer = .idle ∨ ∃ n, st.consumer = .count n
  empty : st.b.rdIndex = st.b.wrIndex

theorem Sides.Stuck.step {c : WriteCall} (h : st.Stuck c) {a : OnewayAct}
    (hstep : st.step a = .ok (st', evs)) : st'.Stuck c := by
  have hzero : intOfWord (sub64 st.b.wrIndex st.b.rdIndex) = 0 := by
    rw [h.empty]
    have : sub64 st.b.wrIndex st.b.wrIndex = 0 := by
      unfold sub64
      omega
    rw [this]
    rfl
  cases a with
  | call c' =>
      simp only [Sides.step, h.producer] at hstep
      cases hstep
  | flush =>
      simp only [Sides.step, h.producer] at hstep
      cases hstep
  | readAll n =>
      simp only [Sides.step] at hstep
      split at hstep
      · cases hstep
        exact ⟨h.producer, h.waits, Or.inr ⟨n, rfl⟩, h.empty⟩
      · cases hstep
  | produce =>
      simp only [Sides.step, Sides.produce, h.producer] at hstep
      rw [if_pos h.waits] at hstep
      cases hstep
      exact h
  | consume =>
      rcases h.consumer with hidle | ⟨n, hcount⟩
      · simp only [Sides.step, Sides.consume, hidle] at hstep
        cases hstep
      · simp only [Sides.step, Sides.consume, hcount, hzero, if_true] at hstep
        cases hstep
        exact ⟨h.producer, h.waits, Or.inl rfl, h.empty⟩

/-- **A call that is too long is a deadlock.**  If a waiting call does not fit into the buffer with the
unflushed words, the consumer can read everything there is; from then on the producer waits in every
state of every run. -/
theorem crowded_stuck (h : Sides.Reach st log) {c : WriteCall} (hpc : st.producer = .wait c)
    (hidle : st.consumer = .idle)
    (hcrowded : st.b.wrIndex + ONEWAY_BUFFER_SIZE < st.b.tmpWrIndex + c.words.length) :
    ∃ st' log', Sides.Reach st' log' ∧ st'.Stuck c ∧
      ∀ st'' log'', Runs.Reach Sides.step (fun st _ a => a.Ok st) st' st'' log'' → st''.Stuck c := by
  obtain ⟨st', log', h', hprod, hcons, hwr', htmp', hrd'⟩ := h.readEverything hidle
  obtain ⟨unread, hinv⟩ := h'.inv
  have hfits := hinv.producer
  rw [hprod, hpc] at hfits
  obtain ⟨-, hpos, -, hbound⟩ := hfits
  have hwait : c.waits st'.b = true :=
    (WriteCall.waits_iff hpos (hinv.rd_le.trans hinv.wr_le) hbound).mpr (by omega)
  have hstuck : st'.Stuck c := ⟨hprod.trans hpc, hwait, Or.inl hcons, hrd'⟩
  refine ⟨st', log', h', hstuck, ?_⟩
  intro st'' log'' hrun
  refine Runs.Reach.invariant (P := fun st _ => Sides.Stuck c st) hstuck ?_ hrun
  intro s s' log evs a hs _ hstep
  exact hs.step hstep

end

end OnewayBuffer

end SmpHashTable
