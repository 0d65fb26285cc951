import SmpHashTable.Buffers
import SmpHashTable.Lib.Runs
import SmpHashTable.Memory

/-!
# The input buffer as a channel

One producer, which calls `inpb_write` and `inpb_flush`, and one consumer, which calls `inpb_read`,
take turns in any order; a step reads or writes one word of `data` at most.  The log of a run says
which words were written by which call, what each flush took from `local_data`, and what each read
returned.
-/

namespace SmpHashTable

/-! ### The producer and the consumer -/

/-- Where the producer stands. -/
inductive ProducerPc
  | idle
  /-- In `inpb_flush`; a call of `inpb_write` goes on with its words afterwards. -/
  | flush (pc : FlushPc) (words : Option (List ℕ))
  deriving DecidableEq, Repr

/-- A buffer, its producer, and its consumer with the array it reads to. -/
structure Channel where
  b : InputBuffer
  producer : ProducerPc
  consumer : Option InpbReadPc
  buf : ℕ → ℕ

inductive ChannelEvent
  /-- A call of `inpb_write` has stored its words. -/
  | wrote (words : List ℕ)
  /-- A call of `inpb_flush` has published what was in `local_data`. -/
  | flushed (words : List ℕ)
  /-- A call of `inpb_read` has returned. -/
  | returned (words : List ℕ)
  deriving DecidableEq, Repr

inductive ChannelAct
  | write (words : List ℕ)
  | flush
  | read
  /-- The next step of the producer's call. -/
  | produce
  /-- The next step of the consumer's call. -/
  | consume
  deriving DecidableEq, Repr

namespace Channel

/-- The end of `inpb_write`, when its words fit. -/
def store (st : Channel) (words : List ℕ) : Channel × List ChannelEvent :=
  ({ st with b := st.b.append words, producer := .idle }, [.wrote words])

/-- What follows the return of `inpb_flush`. -/
def flushReturned (st : Channel) : Option (List ℕ) → Channel × List ChannelEvent
  | some words => st.store words
  | none => ({ st with producer := .idle }, [])

def step (st : Channel) : ChannelAct → Except Stop (Channel × List ChannelEvent)
  | .write words =>
      match st.producer with
      | .idle =>
          if words.length ≤ INPB_SIZE then
            .ok (if st.b.localIndex + words.length > INPB_SIZE then
                ({ st with producer := .flush .enter (some words) }, [])
              else st.store words)
          else .error .assertFailed
      | .flush _ _ => .error .notEnabled
  | .flush =>
      match st.producer with
      | .idle => .ok ({ st with producer := .flush .enter none }, [])
      | .flush _ _ => .error .notEnabled
  | .produce =>
      match st.producer with
      | .idle => .error .notEnabled
      | .flush pc words =>
          match inpbFlushStep st.b pc with
          | (b, some pc) => .ok ({ st with b, producer := .flush pc words }, [])
          | (b, none) =>
              let (st', evs) := { st with b }.flushReturned words
              .ok (st', (if st.b.localIndex = 0 then [] else [.flushed st.b.localWords]) ++ evs)
  | .read =>
      match st.consumer with
      | none => .ok ({ st with consumer := some (.test 0) }, [])
      | some _ => .error .notEnabled
  | .consume =>
      match st.consumer with
      | none => .error .notEnabled
      | some pc =>
          match inpbReadStep st.b st.buf pc with
          | (b, buf, .goto pc) => .ok ({ st with b, buf, consumer := some pc }, [])
          | (b, buf, .ret count) =>
              .ok ({ st with b, buf, consumer := none }, [.returned ((List.range count).map buf)])

/-- The buffer after its `memset`, and any array of the consumer. -/
def start (buf : ℕ → ℕ) : Channel := ⟨InputBuffer.zero, .idle, none, buf⟩

end Channel

/-- 1 to `INPB_SIZE` words, none of them zero. -/
def Writable (words : List ℕ) : Prop := words ≠ [] ∧ words.length ≤ INPB_SIZE ∧ ∀ w ∈ words, w ≠ 0

instance Writable.decidable (words : List ℕ) : Decidable (Writable words) := inferInstanceAs (Decidable (_ ∧ _ ∧ _))

/-- What the producer may give to `inpb_write`. -/
def ChannelAct.Ok : ChannelAct → Prop
  | .write words => Writable words
  | .flush => True
  | .read => True
  | .produce => True
  | .consume => True

instance ChannelAct.decidableOk : (a : ChannelAct) → Decidable a.Ok
  | .write _ => inferInstanceAs (Decidable (Writable _))
  | .flush => inferInstanceAs (Decidable True)
  | .read => inferInstanceAs (Decidable True)
  | .produce => inferInstanceAs (Decidable True)
  | .consume => inferInstanceAs (Decidable True)

/-- The runs of a channel. -/
def Channel.Reach (buf : ℕ → ℕ) : Channel → List ChannelEvent → Prop :=
  Runs.Reach Channel.step (fun _ _ a => a.Ok) (Channel.start buf)

/-! ### What a log says -/

/-- The words of the calls of `inpb_write`, call by call. -/
def writtenCalls (log : List ChannelEvent) : List (List ℕ) := log.filterMap fun
  | .wrote words => some words
  | _ => none

/-- What the flushes published, flush by flush. -/
def flushedBatches (log : List ChannelEvent) : List (List ℕ) := log.filterMap fun
  | .flushed words => some words
  | _ => none

/-- The batches returned that are not empty. -/
def returnedBatches (log : List ChannelEvent) : List (List ℕ) := log.filterMap fun
  | .returned words => if words = [] then none else some words
  | _ => none

theorem writtenCalls_append (log evs : List ChannelEvent) :
    writtenCalls (log ++ evs) = writtenCalls log ++ writtenCalls evs := List.filterMap_append

theorem flushedBatches_append (log evs : List ChannelEvent) :
    flushedBatches (log ++ evs) = flushedBatches log ++ flushedBatches evs := List.filterMap_append

theorem returnedBatches_append (log evs : List ChannelEvent) :
    returnedBatches (log ++ evs) = returnedBatches log ++ returnedBatches evs := List.filterMap_append

/-! ### The invariant -/

/-- Where the producer stands in `inpb_flush`. -/
def ProducerPc.flushPc : ProducerPc → Option FlushPc
  | .idle => none
  | .flush pc _ => some pc

/-- The calls of `inpb_write` fall into those of each published batch, `groups`, and those still in
`local_data`, `rest`; the batches fall into those returned and those in the slots, `bs`. -/
structure ChannelInv (st : Channel) (log : List ChannelEvent) (groups : List (List (List ℕ)))
    (rest bs : List (List ℕ)) : Prop where
  inb : InInv st.b st.producer.flushPc bs rest.flatten
  calls : writtenCalls log = groups.flatten ++ rest
  flushed : flushedBatches log = groups.map List.flatten
  batches : flushedBatches log = returnedBatches log ++ bs
  writable : ∀ words ∈ writtenCalls log, Writable words
  pending : ∀ pc words, st.producer = .flush pc (some words) → Writable words
  reader : ∀ pc, st.consumer = some pc → ReadInv st.buf bs pc

theorem channelInv_start (buf : ℕ → ℕ) : ChannelInv (Channel.start buf) [] [] [] [] :=
  ⟨inInv_zero, rfl, rfl, rfl, by simp [writtenCalls], by simp [Channel.start], by simp [Channel.start]⟩

section

variable {st : Channel} {log : List ChannelEvent} {groups : List (List (List ℕ))} {rest bs : List (List ℕ)}

theorem ChannelInv.batch_ne_zero (h : ChannelInv st log groups rest bs) {b : List ℕ} (hb : b ∈ bs) :
    ∀ w ∈ b, w ≠ 0 := by
  intro w hw
  have hmem : b ∈ flushedBatches log := by
    rw [h.batches]
    exact List.mem_append_right _ hb
  rw [h.flushed] at hmem
  obtain ⟨g, hg, rfl⟩ := List.mem_map.mp hmem
  obtain ⟨words, hwords, hw⟩ := List.mem_flatten.mp hw
  have hcall : words ∈ writtenCalls log := by
    rw [h.calls]
    exact List.mem_append_left _ (List.mem_flatten.mpr ⟨g, hg, hwords⟩)
  exact (h.writable words hcall).2.2 w hw

theorem ChannelInv.rest_writable (h : ChannelInv st log groups rest bs) : ∀ words ∈ rest, Writable words := by
  intro words hw
  refine h.writable words ?_
  rw [h.calls]
  exact List.mem_append_right _ hw

/-- Empty `local_data` holds the words of no call. -/
theorem ChannelInv.rest_nil (h : ChannelInv st log groups rest bs) (hnil : rest.flatten = []) : rest = [] := by
  cases rest with
  | nil => rfl
  | cons words rest =>
    rw [List.flatten_cons, List.append_eq_nil_iff] at hnil
    exact absurd hnil.1 (h.rest_writable words List.mem_cons_self).1

/-- The words of one more call in `local_data`. -/
theorem ChannelInv.store (h : ChannelInv st log groups rest bs) (hidle : st.producer.flushPc = none)
    {words : List ℕ} (hw : Writable words) (hfit : rest.flatten.length + words.length ≤ INPB_SIZE) :
    ChannelInv (st.store words).1 (log ++ (st.store words).2) groups (rest ++ [words]) bs := by
  have hinb := h.inb
  rw [hidle] at hinb
  have hhead : ∀ w ∈ words.head?, w ≠ 0 := fun w hmem => hw.2.2 w (List.mem_of_mem_head? hmem)
  have hcalls : writtenCalls (log ++ [.wrote words]) = writtenCalls log ++ [words] :=
    writtenCalls_append log _
  have hflushed : flushedBatches (log ++ [.wrote words]) = flushedBatches log := by
    rw [flushedBatches_append]
    exact List.append_nil _
  have hreturned : returnedBatches (log ++ [.wrote words]) = returnedBatches log := by
    rw [returnedBatches_append]
    exact List.append_nil _
  refine ⟨?_, ?_, ?_, ?_, ?_, ?_, h.reader⟩
  · rw [List.flatten_append, List.flatten_singleton]
    exact hinb.append hhead hfit
  · show writtenCalls (log ++ [.wrote words]) = _
    rw [hcalls, h.calls, List.append_assoc]
  · exact hflushed.trans h.flushed
  · show flushedBatches (log ++ [.wrote words]) = returnedBatches (log ++ [.wrote words]) ++ bs
    rw [hflushed, hreturned]
    exact h.batches
  · intro x hx
    have hx' : x ∈ writtenCalls log ++ [words] := hcalls ▸ hx
    rcases List.mem_append.mp hx' with hold | hnew
    · exact h.writable x hold
    · rw [List.mem_singleton.mp hnew]
      exact hw
  · intro pc x hpc
    cases hpc

/-- A step that adds nothing to the log and leaves the buffer to the invariant of `inpb_flush`. -/
theorem ChannelInv.goto {b : InputBuffer} {producer : ProducerPc} (h : ChannelInv st log groups rest bs)
    (hinb : InInv b producer.flushPc bs rest.flatten)
    (hpending : ∀ pc words, producer = .flush pc (some words) → Writable words) :
    ChannelInv { st with b, producer } (log ++ []) groups rest bs := by
  rw [List.append_nil]
  exact ⟨hinb, h.calls, h.flushed, h.batches, h.writable, hpending, h.reader⟩

/-- A flush has returned, with a batch of what was in `local_data`, if anything was. -/
theorem ChannelInv.flushed_step {b : InputBuffer} (h : ChannelInv st log groups rest bs)
    (hinb : InInv b none (bs ++ if rest.flatten = [] then [] else [rest.flatten]) []) :
    ∃ groups' bs', ChannelInv { st with b, producer := .idle }
      (log ++ if st.b.localIndex = 0 then [] else [.flushed st.b.localWords]) groups' [] bs' := by
  have hidx : st.b.localIndex = 0 ↔ rest.flatten = [] := by
    rw [h.inb.index, List.length_eq_zero_iff]
  by_cases hnil : rest.flatten = []
  · rw [if_pos hnil, List.append_nil] at hinb
    rw [if_pos (hidx.mpr hnil), List.append_nil]
    have hrest := h.rest_nil hnil
    refine ⟨groups, bs, hinb, ?_, h.flushed, h.batches, h.writable, ?_, h.reader⟩
    · rw [h.calls, hrest]
    · intro pc words hpc
      cases hpc
  · rw [if_neg hnil] at hinb
    rw [if_neg fun h0 => hnil (hidx.mp h0), h.inb.localWords_eq]
    have hcalls : writtenCalls (log ++ [.flushed rest.flatten]) = writtenCalls log := by
      rw [writtenCalls_append]
      exact List.append_nil _
    have hflushed : flushedBatches (log ++ [.flushed rest.flatten])
        = flushedBatches log ++ [rest.flatten] := flushedBatches_append log _
    have hreturned : returnedBatches (log ++ [.flushed rest.flatten]) = returnedBatches log := by
      rw [returnedBatches_append]
      exact List.append_nil _
    refine ⟨groups ++ [rest], bs ++ [rest.flatten], hinb, ?_, ?_, ?_, ?_, ?_, ?_⟩
    · rw [hcalls, h.calls, List.flatten_append, List.flatten_singleton, List.append_nil]
    · rw [hflushed, h.flushed, List.map_append]
      rfl
    · rw [hflushed, hreturned, h.batches, List.append_assoc]
    · rw [hcalls]
      exact h.writable
    · intro pc words hpc
      cases hpc
    · intro pc hpc
      exact (h.reader pc hpc).publish _

/-- What a step of the producer's call does. -/
theorem ChannelInv.produce (h : ChannelInv st log groups rest bs) {st' : Channel} {evs : List ChannelEvent}
    (hstep : st.step .produce = .ok (st', evs)) :
    ∃ groups' rest' bs', ChannelInv st' (log ++ evs) groups' rest' bs' := by
  simp only [Channel.step] at hstep
  split at hstep
  · cases hstep
  · next pc words hpc =>
    have hfl : InInv st.b (some pc) bs rest.flatten := by
      have hinb := h.inb
      rwa [hpc] at hinb
    have hflush := hfl.flushStep
    split at hstep
    · next b pc' heq =>
      rw [heq] at hflush
      cases hstep
      refine ⟨groups, rest, bs, h.goto hflush ?_⟩
      rintro pc'' words' ⟨⟩
      exact h.pending pc words' hpc
    · next b heq =>
      rw [heq] at hflush
      cases hstep
      obtain ⟨groups', bs', hret⟩ := h.flushed_step hflush
      rw [← List.append_assoc]
      cases words with
      | none =>
        refine ⟨groups', [], bs', ?_⟩
        rw [Channel.flushReturned, List.append_nil]
        exact hret
      | some words =>
        have hw := h.pending pc words hpc
        exact ⟨groups', [words], bs', hret.store rfl hw (by simpa using hw.2.1)⟩

/-- What a step of the consumer's call does: it leaves the buffer as it is, or it returns the oldest
batch, or nothing when no batch is there. -/
theorem ChannelInv.consume (h : ChannelInv st log groups rest bs) {st' : Channel} {evs : List ChannelEvent}
    (hstep : st.step .consume = .ok (st', evs)) :
    ∃ bs', ChannelInv st' (log ++ evs) groups rest bs' := by
  simp only [Channel.step] at hstep
  split at hstep
  · cases hstep
  · next pc hpc =>
    have hread := h.inb.readStep (h.reader pc hpc)
    split at hstep
    · next b buf pc' heq =>
      rw [heq] at hread
      cases hstep
      obtain ⟨rfl, hreader⟩ := hread
      rw [List.append_nil]
      refine ⟨bs, h.inb, h.calls, h.flushed, h.batches, h.writable, h.pending, ?_⟩
      rintro pc'' ⟨⟩
      exact hreader
    · next b buf count heq =>
      rw [heq] at hread
      cases hstep
      have hcalls : ∀ words, writtenCalls (log ++ [.returned words]) = writtenCalls log := by
        intro words
        rw [writtenCalls_append]
        exact List.append_nil _
      have hflushed : ∀ words, flushedBatches (log ++ [.returned words]) = flushedBatches log := by
        intro words
        rw [flushedBatches_append]
        exact List.append_nil _
      rcases hread with ⟨rfl, rfl, rfl⟩ | ⟨hne, batch, bs', rfl, hinb, hcount, hload⟩
      · refine ⟨[], h.inb, ?_, ?_, ?_, ?_, h.pending, fun _ hpc => by cases hpc⟩
        · rw [hcalls, h.calls]
        · rw [hflushed, h.flushed]
        · have hreturned : returnedBatches [.returned ((List.range 0).map buf)] = [] := rfl
          rw [hflushed, returnedBatches_append, hreturned, h.batches, List.append_nil,
            List.append_nil]
        · rw [hcalls]
          exact h.writable
      · -- no word is zero, so the reader has seen the whole batch
        rw [Ring.visible_of_ne_zero (h.batch_ne_zero List.mem_cons_self)] at hcount hload
        have hwords : (List.range count).map buf = batch := by
          have hmap := hload.map_range
          rw [hcount]
          simpa using hmap
        have hbatch : batch ≠ [] := by
          rintro rfl
          exact hne hcount
        refine ⟨bs', hinb, ?_, ?_, ?_, ?_, h.pending, fun _ hpc => by cases hpc⟩
        · rw [hcalls, h.calls]
        · rw [hflushed, h.flushed]
        · have hreturned : returnedBatches [.returned batch] = [batch] := by
            simp [returnedBatches, hbatch]
          rw [hflushed, returnedBatches_append, hwords, hreturned, h.batches, List.append_assoc]
          rfl
        · rw [hcalls]
          exact h.writable

theorem ChannelInv.step (h : ChannelInv st log groups rest bs) {a : ChannelAct} (ha : a.Ok)
    {st' : Channel} {evs : List ChannelEvent} (hstep : st.step a = .ok (st', evs)) :
    ∃ groups' rest' bs', ChannelInv st' (log ++ evs) groups' rest' bs' := by
  cases a with
  | write words =>
    simp only [Channel.step] at hstep
    split at hstep
    · next hidle =>
      have hfl : InInv st.b none bs rest.flatten := by
        have hinb := h.inb
        rwa [hidle] at hinb
      split at hstep
      · split at hstep
        · cases hstep
          refine ⟨groups, rest, bs, h.goto hfl.enter ?_⟩
          rintro pc words' ⟨⟩
          exact ha
        · next hfit =>
          cases hstep
          rw [hfl.index] at hfit
          exact ⟨groups, rest ++ [words], bs, h.store (by rw [hidle]; rfl) ha (by omega)⟩
      · cases hstep
    · cases hstep
  | flush =>
    simp only [Channel.step] at hstep
    split at hstep
    · next hidle =>
      have hfl : InInv st.b none bs rest.flatten := by
        have hinb := h.inb
        rwa [hidle] at hinb
      cases hstep
      refine ⟨groups, rest, bs, h.goto hfl.enter ?_⟩
      rintro pc words ⟨⟩
    · cases hstep
  | read =>
    simp only [Channel.step] at hstep
    split at hstep
    · cases hstep
      rw [List.append_nil]
      refine ⟨groups, rest, bs, h.inb, h.calls, h.flushed, h.batches, h.writable, h.pending, ?_⟩
      rintro pc ⟨⟩
      exact readInv_start _ _
    · cases hstep
  | produce => exact h.produce hstep
  | consume =>
    obtain ⟨bs', h'⟩ := h.consume hstep
    exact ⟨groups, rest, bs', h'⟩

end

theorem Channel.Reach.inv {buf : ℕ → ℕ} {st : Channel} {log : List ChannelEvent}
    (h : Channel.Reach buf st log) : ∃ groups rest bs, ChannelInv st log groups rest bs := by
  induction h with
  | start => exact ⟨[], [], [], channelInv_start buf⟩
  | step _ ha hstep ih =>
    obtain ⟨groups, rest, bs, hinv⟩ := ih
    exact hinv.step ha hstep

/-- **The input buffer is a channel of words (proved).**  In every run, with any interleaving of the
word accesses: the batches returned are whole batches as they were flushed, in order; each holds the
words of whole calls of `inpb_write`, in order; what has been returned is the first part of what was
written; and what was written and not returned is in the slots from `data_rd` on and in
`local_data`. -/
theorem channel_spsc {buf : ℕ → ℕ} {st : Channel} {log : List ChannelEvent}
    (h : Channel.Reach buf st log) :
    (returnedBatches log).flatten <+: (writtenCalls log).flatten ∧
    returnedBatches log <+: flushedBatches log ∧
    (∃ groups : List (List (List ℕ)), returnedBatches log = groups.map List.flatten ∧
      groups.flatten <+: writtenCalls log) ∧
    ∃ bs : List (List ℕ), Ring.Slots INPB_COUNT INPB_SIZE st.b.data st.b.dataRd st.b.dataWr bs ∧
      (writtenCalls log).flatten = (returnedBatches log).flatten ++ bs.flatten ++ st.b.localWords := by
  obtain ⟨groups, rest, bs, hinv⟩ := h.inv
  have hbatches := hinv.batches
  -- the batches returned are those of the first groups of calls
  have hgroups : returnedBatches log = (groups.take (returnedBatches log).length).map List.flatten := by
    rw [List.map_take, ← hinv.flushed, hbatches, List.take_left' rfl]
  have hwords : (writtenCalls log).flatten
      = (returnedBatches log).flatten ++ bs.flatten ++ st.b.localWords := by
    have hflat : groups.flatten.flatten = (flushedBatches log).flatten := by
      rw [hinv.flushed]
      exact List.flatten_flatten
    rw [hinv.calls, List.flatten_append, hflat, hbatches, List.flatten_append, hinv.inb.localWords_eq]
  refine ⟨?_, ?_, ⟨_, hgroups, ?_⟩, bs, hinv.inb.ring, hwords⟩
  · rw [hwords, List.append_assoc]
    exact List.prefix_append _ _
  · rw [hbatches]
    exact List.prefix_append _ _
  · rw [hinv.calls, ← List.take_append_drop (returnedBatches log).length groups, List.flatten_append,
      List.append_assoc, List.take_append_drop]
    exact List.prefix_append _ _

/-- A call of two words, its flush, and a read that starts before the flush has published them. -/
def twoWordRun : List ChannelAct :=
  [.write [5, 6], .flush, .produce, .produce, .read, .produce, .consume, .read, .produce, .produce, .consume,
    .consume, .consume, .consume, .consume, .consume]

theorem channel_spsc_two : ∃ st log, Channel.Reach (fun _ => 7) st log ∧
    returnedBatches log = [[5, 6]] ∧
    (returnedBatches log).flatten <+: (writtenCalls log).flatten := by
  have hval : (Runs.run Channel.step (fun _ _ a => a.Ok) twoWordRun (Channel.start fun _ => 7) []).map
      (fun r => returnedBatches r.2) = some [[5, 6]] := by
    decide +kernel
  obtain ⟨⟨st, log⟩, hrun, hreturned⟩ := Option.map_eq_some_iff.mp hval
  have hreach : Channel.Reach (fun _ => 7) st log := Runs.Reach.start.run hrun
  exact ⟨st, log, hreach, hreturned, (channel_spsc hreach).1⟩

end SmpHashTable
