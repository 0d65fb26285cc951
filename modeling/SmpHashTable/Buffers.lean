import SmpHashTable.Lib.Ring
import SmpHashTable.Util

/-!
# Message-passing buffers

The functions of `mpbuffers.c`, cut into steps that make at most one access to a shared word each.
A step of a function returns the buffer and either where the function goes on or that it returns.
A call that nothing interferes with is a run of its steps: `inpbFlush`, `inpbRead`.

The wait counters and the padding are left out, and so are the prefetch functions, whose bodies are
commented out.
-/

namespace SmpHashTable

/-- `INPB_SIZE`: the words of a slot. -/
def INPB_SIZE : ℕ := CACHELINE >>> 3

/-- `INPB_COUNT`: the slots of an input buffer. -/
def INPB_COUNT : ℕ := 4

/-- `OUTB_SIZE`: the words of an output ring. -/
def OUTB_SIZE : ℕ := (CACHELINE >>> 3) <<< 3

/-- `struct inputbuffer`. -/
structure InputBuffer where
  data : ℕ → ℕ → ℕ
  dataRd : ℕ
  localData : ℕ → ℕ
  localIndex : ℕ
  dataWr : ℕ

/-- `struct outputbuffer`. -/
structure OutputBuffer where
  data : ℕ → ℕ
  wrIndex : ℕ
  localRdIndex : ℕ
  localWrIndex : ℕ

/-- An input buffer after `memset(.., 0, ..)`. -/
def InputBuffer.zero : InputBuffer := ⟨fun _ _ => 0, 0, fun _ => 0, 0, 0⟩

/-- The words in `local_data`. -/
def InputBuffer.localWords (b : InputBuffer) : List ℕ := (List.range b.localIndex).map b.localData

/-- An output buffer after `memset(.., 0, ..)`. -/
def OutputBuffer.zero : OutputBuffer := ⟨fun _ => 0, 0, 0, 0⟩

/-! ### `inpb_write` and `inpb_flush` -/

/-- The copy loop of `inpb_write` and the index update after it. -/
def InputBuffer.append (b : InputBuffer) (ws : List ℕ) : InputBuffer :=
  { b with localData := Ring.store b.localData b.localIndex ws, localIndex := b.localIndex + ws.length }

/-- Where a call of `inpb_flush` stands. -/
inductive FlushPc
  | enter
  /-- In the `while` loop that waits for the slot. -/
  | wait
  /-- In the `for` loop, at word `i`. -/
  | copy (i : ℕ)
  /-- Before the write of the first word. -/
  | publish
  deriving DecidableEq, Repr

/-- One step of `inpb_flush`; `none` means that it returns. -/
def inpbFlushStep (b : InputBuffer) : FlushPc → InputBuffer × Option FlushPc
  | .enter => (b, if b.localIndex = 0 then none else some .wait)
  | .wait => (b, if b.data b.dataWr 0 ≠ 0 then some .wait else some (.copy 1))
  | .copy i =>
      if i < b.localIndex then
        ({ b with data := Ring.setWord b.data b.dataWr i (b.localData i) }, some (.copy (i + 1)))
      else if b.localIndex < INPB_SIZE then
        ({ b with data := Ring.setWord b.data b.dataWr b.localIndex 0 }, some .publish)
      else (b, some .publish)
  | .publish =>
      ({ b with
          data := Ring.setWord b.data b.dataWr 0 (b.localData 0)
          dataWr := (b.dataWr + 1) &&& (INPB_COUNT - 1)
          localIndex := 0 }, none)

/-- The steps of `inpb_flush` in a row, at most `fuel` of them. -/
def runFlush : ℕ → FlushPc → InputBuffer → Option InputBuffer
  | 0, _, _ => none
  | fuel + 1, pc, b =>
      match inpbFlushStep b pc with
      | (b, some pc) => runFlush fuel pc b
      | (b, none) => some b

/-- `inpb_flush` when nothing interferes: `none` if it waits for the slot. -/
def inpbFlush (b : InputBuffer) : Option InputBuffer := runFlush (INPB_SIZE + 4) .enter b

/-- `inpb_write` when nothing interferes. -/
def inpbWrite (b : InputBuffer) (ws : List ℕ) : Option InputBuffer :=
  if b.localIndex + ws.length > INPB_SIZE then (inpbFlush b).map fun b => b.append ws
  else some (b.append ws)

/-! ### `inpb_read` -/

/-- Where a call of `inpb_read` stands; `count` is its variable. -/
inductive InpbReadPc
  /-- At the condition of the `while` loop. -/
  | test (count : ℕ)
  /-- In its body. -/
  | copy (count : ℕ)
  /-- After the loop, with words read. -/
  | clear (count : ℕ)
  deriving DecidableEq, Repr

/-- How a step of `inpb_read` goes on: at another place, or by returning `count`. -/
inductive InpbReadNext
  | goto (pc : InpbReadPc)
  | ret (count : ℕ)
  deriving DecidableEq, Repr

/-- One step of `inpb_read` into the array `buf`. -/
def inpbReadStep (b : InputBuffer) (buf : ℕ → ℕ) :
    InpbReadPc → InputBuffer × (ℕ → ℕ) × InpbReadNext
  | .test count =>
      if count < INPB_SIZE ∧ b.data b.dataRd count ≠ 0 then (b, buf, .goto (.copy count))
      else if count ≠ 0 then (b, buf, .goto (.clear count))
      else (b, buf, .ret 0)
  | .copy count =>
      (b, Function.update buf count (b.data b.dataRd count), .goto (.test (count + 1)))
  | .clear count =>
      ({ b with
          data := Ring.setWord b.data b.dataRd 0 0
          dataRd := (b.dataRd + 1) &&& (INPB_COUNT - 1) }, buf, .ret count)

/-- The steps of `inpb_read` in a row, at most `fuel` of them. -/
def runRead : ℕ → InpbReadPc → InputBuffer → (ℕ → ℕ) → Option (InputBuffer × (ℕ → ℕ) × ℕ)
  | 0, _, _, _ => none
  | fuel + 1, pc, b, buf =>
      match inpbReadStep b buf pc with
      | (b, buf, .goto pc) => runRead fuel pc b buf
      | (b, buf, .ret count) => some (b, buf, count)

/-- `inpb_read` when nothing interferes. -/
def inpbRead (b : InputBuffer) (buf : ℕ → ℕ) : Option (InputBuffer × (ℕ → ℕ) × ℕ) :=
  runRead (2 * INPB_SIZE + 2) (.test 0) b buf

/-! ### `outb_write` and `outb_read` -/

/-- One step of `outb_write` of `count` words of `buf`, at word `i`; `none` means that it returns. -/
def outbWriteStep (b : OutputBuffer) (buf : ℕ → ℕ) (count i : ℕ) : OutputBuffer × Option ℕ :=
  if i < count then
    ({ b with data := Function.update b.data (add64 b.wrIndex i &&& (OUTB_SIZE - 1)) (buf i) },
      some (i + 1))
  else ({ b with wrIndex := add64 b.wrIndex count }, none)

/-- The first half of `outb_read`: refresh the cached write index if the ring looks empty. -/
def outbReadLoad (b : OutputBuffer) : OutputBuffer :=
  if b.localRdIndex = b.localWrIndex then { b with localWrIndex := b.wrIndex } else b

/-- The second half of `outb_read`: the word read, or `none` for its return value 0. -/
def outbReadTake (b : OutputBuffer) : OutputBuffer × Option ℕ :=
  if b.localRdIndex = b.localWrIndex then (b, none)
  else ({ b with localRdIndex := add64 b.localRdIndex 1 },
    some (b.data (b.localRdIndex &&& (OUTB_SIZE - 1))))

/-! ### Index arithmetic -/

theorem next_slot (i : ℕ) : (i + 1) &&& (INPB_COUNT - 1) = (i + 1) % INPB_COUNT :=
  Nat.and_two_pow_sub_one_eq_mod (i + 1) 2

theorem outb_cell (i : ℕ) : i &&& (OUTB_SIZE - 1) = i % OUTB_SIZE :=
  Nat.and_two_pow_sub_one_eq_mod i 6

/-! ### The input buffer as a channel -/

/-- The batches in the slots and the words still in `local_data`, and what a flush in progress has
done.  `fl` is where that flush stands. -/
structure InInv (b : InputBuffer) (fl : Option FlushPc) (bs : List (List ℕ)) (loc : List ℕ) :
    Prop where
  ring : Ring.Slots INPB_COUNT INPB_SIZE b.data b.dataRd b.dataWr bs
  index : b.localIndex = loc.length
  fits : loc.length ≤ INPB_SIZE
  words : Ring.Loaded b.localData 0 loc
  first : ∀ w ∈ loc.head?, w ≠ 0
  wait : fl = some .wait → loc ≠ []
  copy : ∀ i, fl = some (.copy i) → loc ≠ [] ∧ bs.length < INPB_COUNT ∧ 1 ≤ i ∧
    ∀ t, 1 ≤ t → t < i → t < loc.length → b.data b.dataWr t = b.localData t
  publish : fl = some .publish → loc ≠ [] ∧ bs.length < INPB_COUNT ∧
    (∀ t, 1 ≤ t → t < loc.length → b.data b.dataWr t = b.localData t) ∧
    (loc.length < INPB_SIZE → b.data b.dataWr loc.length = 0)

theorem inInv_zero : InInv InputBuffer.zero none [] [] := by
  refine ⟨Ring.slots_zero (by decide), rfl, by decide, Ring.loaded_nil _ _, by simp, ?_, ?_, ?_⟩
  all_goals simp

section

variable {b : InputBuffer} {fl : Option FlushPc} {bs : List (List ℕ)} {loc : List ℕ}

/-- The contents of `local_data` are the words written since the last flush. -/
theorem InInv.localWords_eq (h : InInv b fl bs loc) : b.localWords = loc := by
  have hmap := h.words.map_range
  rw [InputBuffer.localWords, h.index]
  simpa using hmap

/-- Between calls nothing is in progress. -/
theorem InInv.idle (h : InInv b fl bs loc) : InInv b none bs loc :=
  ⟨h.ring, h.index, h.fits, h.words, h.first, by simp, by simp, by simp⟩

theorem InInv.enter (h : InInv b fl bs loc) : InInv b (some .enter) bs loc :=
  ⟨h.ring, h.index, h.fits, h.words, h.first, by simp, by simp, by simp⟩

/-- `inpb_write` of words that fit. -/
theorem InInv.append (h : InInv b none bs loc) {ws : List ℕ} (hne : ∀ w ∈ ws.head?, w ≠ 0)
    (hfit : loc.length + ws.length ≤ INPB_SIZE) : InInv (b.append ws) none bs (loc ++ ws) := by
  refine ⟨h.ring, ?_, by rwa [List.length_append], ?_, ?_, by simp, by simp, by simp⟩
  · show b.localIndex + ws.length = _
    rw [h.index, List.length_append]
  · have hw := h.words.store ws
    rw [Nat.zero_add] at hw
    show Ring.Loaded (Ring.store b.localData b.localIndex ws) 0 _
    rwa [h.index]
  · cases loc with
    | nil => simpa using hne
    | cons w loc => simpa using h.first

/-- What a step of `inpb_flush` does: it goes on, or it has returned with the local words in a new
batch (if there were any). -/
theorem InInv.flushStep {pc : FlushPc} (h : InInv b (some pc) bs loc) :
    match inpbFlushStep b pc with
    | (b', some pc') => InInv b' (some pc') bs loc
    | (b', none) => InInv b' none (bs ++ if loc = [] then [] else [loc]) [] := by
  cases pc with
  | enter =>
      by_cases h0 : b.localIndex = 0
      · have hloc : loc = [] := List.length_eq_zero_iff.mp (h.index ▸ h0)
        simp only [inpbFlushStep, h0, if_true, hloc, List.append_nil]
        exact hloc ▸ h.idle
      · have hloc : loc ≠ [] := by
          rintro rfl
          exact h0 h.index
        simp only [inpbFlushStep, h0, if_false]
        exact ⟨h.ring, h.index, h.fits, h.words, h.first, fun _ => hloc, by simp, by simp⟩
  | wait =>
      by_cases h0 : b.data b.dataWr 0 = 0
      · simp only [inpbFlushStep, h0, ne_eq, not_true, if_false]
        refine ⟨h.ring, h.index, h.fits, h.words, h.first, by simp, ?_, by simp⟩
        rintro i ⟨⟩
        refine ⟨h.wait rfl, h.ring.free_slot h0, le_rfl, ?_⟩
        intro t h1 h2
        omega
      · simp only [inpbFlushStep, ne_eq, h0, not_false_eq_true, if_true]
        exact h
  | copy i =>
      obtain ⟨hloc, hfree, h1, hdone⟩ := h.copy i rfl
      by_cases hi : i < b.localIndex
      · simp only [inpbFlushStep, hi, if_true]
        refine ⟨h.ring.write hfree (by omega) _, h.index, h.fits, h.words, h.first, by simp, ?_,
          by simp⟩
        rintro k ⟨⟩
        refine ⟨hloc, hfree, by omega, ?_⟩
        intro t ht1 ht2 ht3
        show Ring.setWord b.data b.dataWr i (b.localData i) b.dataWr t = b.localData t
        rw [Ring.setWord_self]
        by_cases heq : t = i
        · rw [heq, Function.update_self]
        · rw [Function.update_of_ne heq]
          exact hdone t ht1 (by omega) ht3
      · -- the whole body is copied; a batch shorter than the slot gets its end marker
        have hpos : 0 < loc.length := List.length_pos_iff.mpr hloc
        have hidx := h.index
        by_cases hs : b.localIndex < INPB_SIZE
        · simp only [inpbFlushStep, hi, if_false, hs, if_true]
          refine ⟨h.ring.write hfree (by omega) _, h.index, h.fits, h.words, h.first, by simp,
            by simp, ?_⟩
          rintro -
          refine ⟨hloc, hfree, ?_, ?_⟩
          · intro t ht1 ht2
            show Ring.setWord b.data b.dataWr b.localIndex 0 b.dataWr t = b.localData t
            rw [Ring.setWord_self, Function.update_of_ne (by omega)]
            exact hdone t ht1 (by omega) ht2
          · intro _
            show Ring.setWord b.data b.dataWr b.localIndex 0 b.dataWr loc.length = 0
            rw [Ring.setWord_self, h.index, Function.update_self]
        · simp only [inpbFlushStep, hi, if_false, hs]
          refine ⟨h.ring, h.index, h.fits, h.words, h.first, by simp, by simp, ?_⟩
          rintro -
          refine ⟨hloc, hfree, ?_, fun hlt => absurd (h.index ▸ hlt) hs⟩
          intro t ht1 ht2
          exact hdone t ht1 (by omega) ht2
  | publish =>
      obtain ⟨hloc, hfree, hbody, hstop⟩ := h.publish rfl
      cases loc with
      | nil => exact absurd rfl hloc
      | cons w ws =>
          have hw := Ring.loaded_cons.mp h.words
          have hlen := h.fits
          rw [List.length_cons] at hlen
          simp only [inpbFlushStep, if_neg hloc, next_slot]
          refine ⟨?_, rfl, by decide, Ring.loaded_nil _ _, by simp, by simp, by simp, by simp⟩
          show Ring.Slots _ _ (Ring.setWord b.data b.dataWr 0 (b.localData 0)) _ _ _
          rw [hw.1]
          refine h.ring.publish hfree (h.first w rfl) (by omega) ?_ hstop
          intro i v hv
          have hi : i < ws.length := (List.getElem?_eq_some_iff.mp hv).1
          rw [hbody (1 + i) (by omega) (by simp; omega)]
          exact hw.2 i v hv

/-- What a reader in progress has read of the oldest batch. -/
def ReadInv (buf : ℕ → ℕ) (bs : List (List ℕ)) : InpbReadPc → Prop
  | .test count => count ≤ (Ring.visible (bs.headD [])).length ∧
      Ring.Loaded buf 0 ((Ring.visible (bs.headD [])).take count)
  | .copy count => count < (Ring.visible (bs.headD [])).length ∧
      Ring.Loaded buf 0 ((Ring.visible (bs.headD [])).take count)
  | .clear count => count ≠ 0 ∧ count = (Ring.visible (bs.headD [])).length ∧
      Ring.Loaded buf 0 (Ring.visible (bs.headD []))

theorem readInv_start (buf : ℕ → ℕ) (bs : List (List ℕ)) : ReadInv buf bs (.test 0) :=
  ⟨Nat.zero_le _, by rw [List.take_zero]; exact Ring.loaded_nil _ _⟩

/-- A batch published meanwhile does not disturb the reader. -/
theorem ReadInv.publish {buf : ℕ → ℕ} {pc : InpbReadPc} (h : ReadInv buf bs pc)
    (new : List (List ℕ)) : ReadInv buf (bs ++ new) pc := by
  cases bs with
  | cons w bs => exact h
  | nil =>
      -- nothing was there, so nothing has been read
      cases pc with
      | test count =>
          obtain rfl : count = 0 := Nat.le_zero.mp h.1
          exact readInv_start buf _
      | copy count => exact absurd h.1 (Nat.not_lt_zero count)
      | clear count => exact absurd h.2.1 h.1

/-- What a step of `inpb_read` does: it goes on without a change to the buffer, or it returns 0
because no batch is there, or it returns the oldest batch and frees its slot. -/
theorem InInv.readStep (h : InInv b fl bs loc) {buf : ℕ → ℕ} {pc : InpbReadPc}
    (hr : ReadInv buf bs pc) :
    match inpbReadStep b buf pc with
    | (b', buf', .goto pc') => b' = b ∧ ReadInv buf' bs pc'
    | (b', buf', .ret count) => (count = 0 ∧ b' = b ∧ bs = []) ∨
        (count ≠ 0 ∧ ∃ w bs', bs = w :: bs' ∧ InInv b' fl bs' loc ∧
          count = (Ring.visible w).length ∧ Ring.Loaded buf' 0 (Ring.visible w)) := by
  cases pc with
  | test count =>
      have htest := h.ring.test hr.1
      by_cases hlt : count < (Ring.visible (bs.headD [])).length
      · simp only [inpbReadStep, if_pos (htest.mpr hlt)]
        exact ⟨trivial, hlt, hr.2⟩
      · have heq : count = (Ring.visible (bs.headD [])).length := by have := hr.1; omega
        have hno : ¬ (count < INPB_SIZE ∧ b.data b.dataRd count ≠ 0) := fun hc => hlt (htest.mp hc)
        by_cases h0 : count = 0
        · simp only [inpbReadStep, if_neg hno, if_neg (not_not.mpr h0)]
          refine Or.inl ⟨trivial, trivial, h.ring.empty_iff.mp ?_⟩
          by_contra hne
          exact hno ⟨by rw [h0]; decide, by rwa [h0]⟩
        · simp only [inpbReadStep, if_neg hno, if_pos h0]
          refine ⟨trivial, h0, heq, ?_⟩
          have hload := hr.2
          rwa [heq, List.take_length] at hload
  | copy count =>
      cases bs with
      | nil => exact absurd hr.1 (Nat.not_lt_zero count)
      | cons w bs =>
          refine ⟨rfl, hr.1, ?_⟩
          have hlt : count < (Ring.visible w).length := hr.1
          have hcell : b.data b.dataRd count = (Ring.visible w)[count] := by
            have hget := (Ring.visible_isPrefix w).getElem hlt
            have hword := h.ring.head.words count _ (List.getElem?_eq_getElem
              (Nat.lt_of_lt_of_le hlt (Ring.visible_isPrefix w).length_le))
            rw [hget, ← hword, Nat.zero_add]
          have hc := hr.2.concat (b.data b.dataRd count)
          rw [List.headD_cons, List.length_take, Nat.min_eq_left hlt.le, Nat.zero_add] at hc
          rw [List.headD_cons, List.take_succ_eq_append_getElem hlt, ← hcell]
          exact hc
  | clear count =>
      obtain ⟨h0, heq, hload⟩ := hr
      cases bs with
      | nil => exact absurd heq h0
      | cons w bs =>
          refine Or.inr ⟨h0, w, bs, rfl, ?_, heq, hload⟩
          have hring := h.ring.consume
          rw [← next_slot] at hring
          -- only the first word of the slot changes, so a flush in progress loses nothing
          have hbody : ∀ t, t ≠ 0 →
              Ring.setWord b.data b.dataRd 0 0 b.dataWr t = b.data b.dataWr t := by
            intro t ht
            by_cases heq : b.dataWr = b.dataRd
            · rw [heq, Ring.setWord_self, Function.update_of_ne ht]
            · rw [Ring.setWord_of_ne _ _ _ heq]
          refine ⟨hring, h.index, h.fits, h.words, h.first, h.wait, ?_, ?_⟩
          · intro i hi
            obtain ⟨hloc, hfree, h1, hdone⟩ := h.copy i hi
            refine ⟨hloc, Nat.lt_of_succ_lt hfree, h1, ?_⟩
            intro t ht1 ht2 ht3
            exact (hbody t (by omega)).trans (hdone t ht1 ht2 ht3)
          · intro hp
            obtain ⟨hloc, hfree, hdone, hstop⟩ := h.publish hp
            refine ⟨hloc, Nat.lt_of_succ_lt hfree, ?_, ?_⟩
            · intro t ht1 ht2
              exact (hbody t (by omega)).trans (hdone t ht1 ht2)
            · intro hlt
              exact (hbody _ (List.length_pos_iff.mpr hloc).ne').trans (hstop hlt)

/-! ### Calls that nothing interferes with -/

theorem runFlush_spec {fuel : ℕ} {pc : FlushPc} {b' : InputBuffer} (h : InInv b (some pc) bs loc)
    (hrun : runFlush fuel pc b = some b') :
    InInv b' none (bs ++ if loc = [] then [] else [loc]) [] := by
  induction fuel generalizing b pc with
  | zero => cases hrun
  | succ fuel ih =>
      have hstep := h.flushStep
      rw [runFlush] at hrun
      split at hrun
      · next b₁ pc₁ heq =>
        rw [heq] at hstep
        exact ih hstep hrun
      · next b₁ heq =>
        rw [heq] at hstep
        cases hrun
        exact hstep

/-- The steps `inpb_flush` still needs when its slot is free. -/
def FlushPc.cost (len : ℕ) : FlushPc → ℕ
  | .enter => len + 4
  | .wait => len + 3
  | .copy i => len - i + 2
  | .publish => 1

theorem runFlush_total {fuel : ℕ} {pc : FlushPc} (h : InInv b (some pc) bs loc)
    (hfree : bs.length < INPB_COUNT) (hfuel : pc.cost loc.length ≤ fuel) :
    ∃ b', runFlush fuel pc b = some b' := by
  induction fuel generalizing b pc with
  | zero => cases pc <;> simp [FlushPc.cost] at hfuel
  | succ fuel ih =>
      have hstep := h.flushStep
      rw [runFlush]
      split
      · next b₁ pc₁ heq =>
        rw [heq] at hstep
        refine ih hstep ?_
        -- every step that goes on comes closer to the end
        cases pc with
        | enter =>
            simp only [inpbFlushStep, Prod.mk.injEq] at heq
            split at heq
            · cases heq.2
            · cases heq.2
              simp only [FlushPc.cost] at hfuel ⊢
              omega
        | wait =>
            have hzero : b.data b.dataWr 0 = 0 := by
              have hz := h.ring.free bs.length le_rfl hfree
              rwa [← h.ring.wr_eq] at hz
            simp only [inpbFlushStep, hzero, ne_eq, not_true, if_false, Prod.mk.injEq] at heq
            cases heq.2
            simp only [FlushPc.cost] at hfuel ⊢
            omega
        | copy i =>
            have hidx := h.index
            simp only [inpbFlushStep] at heq
            simp only [FlushPc.cost] at hfuel
            split at heq
            · cases heq
              simp only [FlushPc.cost]
              omega
            · split at heq <;> cases heq <;> simp only [FlushPc.cost] <;> omega
        | publish => simp [inpbFlushStep] at heq
      · next b₁ heq => exact ⟨b₁, rfl⟩

theorem inpbFlush_spec {b' : InputBuffer} (h : InInv b none bs loc) (hrun : inpbFlush b = some b') :
    InInv b' none (bs ++ if loc = [] then [] else [loc]) [] := runFlush_spec h.enter hrun

/-- `inpb_flush` returns when a slot is free. -/
theorem inpbFlush_total (h : InInv b none bs loc) (hfree : bs.length < INPB_COUNT) :
    ∃ b', inpbFlush b = some b' :=
  runFlush_total h.enter hfree (Nat.add_le_add_right h.fits 4)

theorem runRead_spec {fuel : ℕ} {pc : InpbReadPc} {buf buf' : ℕ → ℕ} {b' : InputBuffer} {count : ℕ}
    (h : InInv b fl bs loc) (hr : ReadInv buf bs pc)
    (hrun : runRead fuel pc b buf = some (b', buf', count)) :
    (count = 0 ∧ b' = b ∧ bs = []) ∨
      (count ≠ 0 ∧ ∃ w bs', bs = w :: bs' ∧ InInv b' fl bs' loc ∧
        count = (Ring.visible w).length ∧ Ring.Loaded buf' 0 (Ring.visible w)) := by
  induction fuel generalizing b buf pc with
  | zero => cases hrun
  | succ fuel ih =>
      have hstep := h.readStep hr
      rw [runRead] at hrun
      split at hrun
      · next b₁ buf₁ pc₁ heq =>
        rw [heq] at hstep
        obtain ⟨rfl, hr₁⟩ := hstep
        exact ih h hr₁ hrun
      · next b₁ buf₁ n heq =>
        rw [heq] at hstep
        cases hrun
        exact hstep

/-- The steps `inpb_read` still needs for a batch of which `len` words are visible. -/
def InpbReadPc.cost (len : ℕ) : InpbReadPc → ℕ
  | .test count => 2 * (len - count) + 2
  | .copy count => 2 * (len - count) + 1
  | .clear _ => 1

theorem runRead_total {fuel : ℕ} {pc : InpbReadPc} {buf : ℕ → ℕ} (h : InInv b fl bs loc)
    (hr : ReadInv buf bs pc) (hfuel : pc.cost (Ring.visible (bs.headD [])).length ≤ fuel) :
    ∃ r, runRead fuel pc b buf = some r := by
  induction fuel generalizing b buf pc with
  | zero => cases pc <;> simp [InpbReadPc.cost] at hfuel
  | succ fuel ih =>
      have hstep := h.readStep hr
      rw [runRead]
      split
      · next b₁ buf₁ pc₁ heq =>
        rw [heq] at hstep
        obtain ⟨rfl, hr₁⟩ := hstep
        refine ih h hr₁ ?_
        cases pc with
        | test count =>
            have htest := h.ring.test hr.1
            simp only [inpbReadStep] at heq
            simp only [InpbReadPc.cost] at hfuel
            split at heq
            · next hc =>
              cases heq
              simp only [InpbReadPc.cost]
              omega
            · split at heq <;> cases heq
              simp only [InpbReadPc.cost]
              omega
        | copy count =>
            have hlt := hr.1
            simp only [inpbReadStep] at heq
            cases heq
            simp only [InpbReadPc.cost] at hfuel ⊢
            omega
        | clear count => simp [inpbReadStep] at heq
      · next b₁ buf₁ n heq => exact ⟨_, rfl⟩

/-- `inpb_read` always returns. -/
theorem inpbRead_total (h : InInv b fl bs loc) (buf : ℕ → ℕ) : ∃ r, inpbRead b buf = some r := by
  refine runRead_total h (readInv_start buf bs) ?_
  have hlen : (Ring.visible (bs.headD [])).length ≤ INPB_SIZE := by
    cases bs with
    | nil => exact Nat.zero_le _
    | cons w bs => exact (Ring.visible_isPrefix w).length_le.trans h.ring.head.len
  simp only [InpbReadPc.cost]
  omega

end

/-! ### The output buffer as a ring -/

theorem add64_mod_outb (a b : ℕ) : add64 a b % OUTB_SIZE = (a + b) % OUTB_SIZE :=
  Nat.mod_mod_of_dvd _ (by decide)

/-- The unread words of the ring, and the words behind them that a write in progress has stored but
not published.  The reader's cached write index may lag behind. -/
structure OutInv (b : OutputBuffer) (ring part : List ℕ) : Prop where
  rd_lt : b.localRdIndex < 2 ^ 64
  fits : ring.length + part.length ≤ OUTB_SIZE
  wr_eq : b.wrIndex = add64 b.localRdIndex ring.length
  cached : ∃ k ≤ ring.length, b.localWrIndex = add64 b.localRdIndex k
  words : Ring.Seg OUTB_SIZE b.data b.localRdIndex (ring ++ part)

theorem outInv_zero : OutInv OutputBuffer.zero [] [] :=
  ⟨by decide, by decide, rfl, ⟨0, le_rfl, rfl⟩, Ring.seg_nil _ _ _⟩

section

variable {b : OutputBuffer} {ring part : List ℕ}

/-- What a step of `outb_write` does when there is room for all of its words. -/
theorem OutInv.writeStep {buf : ℕ → ℕ} {fresh : List ℕ} {i : ℕ}
    (h : OutInv b ring (fresh.take i)) (hbuf : Ring.Loaded buf 0 fresh) (hi : i ≤ fresh.length)
    (hroom : ring.length + fresh.length ≤ OUTB_SIZE) :
    match outbWriteStep b buf fresh.length i with
    | (b', some i') => i' = i + 1 ∧ i < fresh.length ∧ OutInv b' ring (fresh.take i')
    | (b', none) => i = fresh.length ∧ OutInv b' (ring ++ fresh) [] := by
  by_cases hlt : i < fresh.length
  · have hlen : (ring ++ fresh.take i).length = ring.length + i := by
      rw [List.length_append, List.length_take, Nat.min_eq_left hi]
    have hcell : add64 b.wrIndex i &&& (OUTB_SIZE - 1)
        = (b.localRdIndex + (ring ++ fresh.take i).length) % OUTB_SIZE := by
      rw [outb_cell, add64_mod_outb, h.wr_eq, Nat.add_mod, add64_mod_outb, ← Nat.add_mod, hlen,
        Nat.add_assoc]
    have hword : buf i = fresh[i] := by
      have hb := hbuf i _ (List.getElem?_eq_getElem hlt)
      rwa [Nat.zero_add] at hb
    simp only [outbWriteStep, if_pos hlt]
    refine ⟨trivial, hlt, h.rd_lt, ?_, h.wr_eq, h.cached, ?_⟩
    · rw [List.length_take]
      omega
    · have hc := h.words.concat (buf i) (by omega)
      rw [← hcell] at hc
      rwa [List.take_succ_eq_append_getElem hlt, ← List.append_assoc, ← hword]
  · obtain rfl : i = fresh.length := by omega
    simp only [outbWriteStep, if_neg hlt]
    obtain ⟨k, hk, hcache⟩ := h.cached
    have hwords := h.words
    rw [List.take_length] at hwords
    refine ⟨trivial, h.rd_lt, ?_, ?_, ⟨k, ?_, hcache⟩, ?_⟩
    · simpa using hroom
    · show add64 b.wrIndex fresh.length = _
      rw [h.wr_eq, List.length_append]
      simp only [add64]
      omega
    · rw [List.length_append]
      omega
    · rwa [List.append_nil]

theorem OutInv.readLoad (h : OutInv b ring part) : OutInv (outbReadLoad b) ring part := by
  unfold outbReadLoad
  split
  · exact ⟨h.rd_lt, h.fits, h.wr_eq, ⟨ring.length, le_rfl, h.wr_eq⟩, h.words⟩
  · exact h

/-- What the second half of `outb_read` does: nothing, or it takes the oldest word. -/
theorem OutInv.readTake (h : OutInv b ring part) :
    match outbReadTake b with
    | (b', none) => b' = b
    | (b', some v) => ∃ ring', ring = v :: ring' ∧ OutInv b' ring' part := by
  unfold outbReadTake
  by_cases heq : b.localRdIndex = b.localWrIndex
  · simp [heq]
  · simp only [if_neg heq]
    obtain ⟨k, hk, hcache⟩ := h.cached
    have hfits := h.fits
    have hrd := h.rd_lt
    cases ring with
    | nil =>
        obtain rfl : k = 0 := Nat.le_zero.mp hk
        rw [hcache, add64_eq (by omega)] at heq
        exact absurd rfl heq
    | cons v ring =>
        have hpos : 0 < k := by
          rcases Nat.eq_zero_or_pos k with rfl | hpos
          · rw [hcache, add64_eq (by omega)] at heq
            exact absurd rfl heq
          · exact hpos
        obtain ⟨hv, hrest⟩ := Ring.seg_cons.mp h.words
        refine ⟨ring, ?_, Nat.mod_lt _ (by decide), ?_, ?_, ⟨k - 1, ?_, ?_⟩, ?_⟩
        · rw [outb_cell, hv]
        · rw [List.length_cons] at hfits
          omega
        · show b.wrIndex = _
          rw [h.wr_eq, List.length_cons]
          simp only [add64]
          omega
        · rw [List.length_cons] at hk
          omega
        · show b.localWrIndex = _
          rw [hcache]
          simp only [add64]
          omega
        · exact (Ring.seg_congr (add64_mod_outb _ _)).mpr hrest

end

end SmpHashTable
