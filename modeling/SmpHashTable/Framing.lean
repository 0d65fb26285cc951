import SmpHashTable.Buffers
import SmpHashTable.Protocol

/-!
# Framing

How a list of messages survives being packed into batches by `inpb_write` and `inpb_flush` and
unpacked by `inpb_read` and the decode loop of `hash_table_server`.  A zero word marks a free slot
and also the end of a batch, and the size of an insert is sent as a word of its own: a size of zero
is therefore read as the end of the batch.  The main result says that the messages arrive as they
were sent exactly if no insert has size zero.
-/

namespace SmpHashTable

/-- The words of a list of messages. -/
def enc (ms : List Msg) : List ℕ := ms.flatMap Msg.words

/-- What the decode loop did with one batch. -/
structure Batch where
  count : ℕ
  ops : List Op
  /-- The final value of `k`. -/
  last : ℕ
  /-- Every word decoded, `localbuf[k + 1]` included, lies below `count`. -/
  inRange : Bool
  /-- The `default: assert(0)` case was reached. -/
  aborted : Bool

/-- The `while (k < count)` loop of the server with the `j`-th response `resps j` stored over the
batch while it is still being decoded.  Every message takes a word at least, so `count` iterations
are enough. -/
def decodeLoop (count : ℕ) (resps : ℕ → ℕ) : ℕ → (ℕ → ℕ) → ℕ → ℕ → Batch × (ℕ → ℕ)
  | 0, buf, k, _ => (⟨count, [], k, true, false⟩, buf)
  | fuel + 1, buf, k, j =>
      if k < count then
        match decodeAt buf k with
        | none => (⟨count, [], k, true, true⟩, buf)
        | some (op, n) =>
            let (r, buf) :=
              if op.isRequest then
                decodeLoop count resps fuel (Function.update buf j (resps j)) (k + n) (j + 1)
              else decodeLoop count resps fuel buf (k + n) j
            ({ r with ops := op :: r.ops, inRange := decide (k + n ≤ count) && r.inRange }, buf)
      else (⟨count, [], k, true, false⟩, buf)

/-- The input buffer between a client and a server, and the server's `localbuf`. -/
structure Wire where
  inb : InputBuffer
  localbuf : ℕ → ℕ

/-- A client's call on the buffer, or the server's turn at it. -/
inductive WireCall
  | write (m : Msg)
  | flush
  | poll (resps : ℕ → ℕ)

/-- One call; `none` means that it waits for a slot. -/
def WireCall.run (w : Wire) : WireCall → Option (Wire × List Batch)
  | .write m => (inpbWrite w.inb m.words).map fun b => ({ w with inb := b }, [])
  | .flush => (inpbFlush w.inb).map fun b => ({ w with inb := b }, [])
  | .poll resps => (inpbRead w.inb w.localbuf).map fun (b, buf, count) =>
      if count = 0 then (⟨b, buf⟩, [])
      else
        let (batch, buf) := decodeLoop count resps count buf 0 0
        (⟨b, buf⟩, [batch])

def runWire (w : Wire) : List WireCall → Option (Wire × List Batch)
  | [] => some (w, [])
  | c :: cs => do
      let (w, bs) ← c.run w
      let (w, bs') ← runWire w cs
      return (w, bs ++ bs')

/-- The messages written. -/
def writes : List WireCall → List Msg
  | [] => []
  | .write m :: cs => m :: writes cs
  | _ :: cs => writes cs

/-- Nothing is left in the local buffer or in a slot. -/
def Wire.Drained (w : Wire) : Prop := w.inb.localIndex = 0 ∧ ∀ i < INPB_COUNT, w.inb.data i 0 = 0

/-- What a client can send: 60-bit keys and addresses, sizes that are not negative. -/
def Msg.Sendable : Msg → Prop
  | .lookup key => key < 2 ^ 60
  | .insert key size => key < 2 ^ 60 ∧ 0 ≤ size ∧ size < 2 ^ 31
  | .release e => e < 2 ^ 60
  | .markReady e => e < 2 ^ 60

/-- The operation the client means, with its own operands. -/
def Msg.asked : Msg → Op
  | .lookup key => .lookup key
  | .insert key size => .insert key size
  | .release e => .release e
  | .markReady e => .release e

/-- The batch was decoded as whole messages, inside its words and without the assertion. -/
def Batch.Whole (b : Batch) : Prop := b.last = b.count ∧ b.inRange = true ∧ b.aborted = false

/-! ### Messages -/

theorem Msg.asked_eq_op {m : Msg} (h : m.Sendable) : m.asked = m.op := by
  cases m with
  | insert key size =>
      have h0 : -2 ^ 31 ≤ size := le_trans (by norm_num) h.2.1
      simp only [Msg.asked, Msg.op, intOfWord_wordOfInt h0 h.2.2]
  | _ => rfl

theorem Msg.valid_iff {m : Msg} (h : m.Sendable) :
    m.Valid ↔ ∀ key size, m = .insert key size → size ≠ 0 := by
  cases m with
  | insert key size =>
      have h0 : -2 ^ 31 ≤ size := le_trans (by norm_num) h.2.1
      constructor
      · rintro hv key size ⟨⟩ rfl
        exact hv.2 rfl
      · intro hne
        exact ⟨h.1, wordOfInt_ne_zero h0 h.2.2 (hne key size rfl)⟩
  | lookup key => exact ⟨by simp, fun _ => h⟩
  | release e => exact ⟨by simp, fun _ => h⟩
  | markReady e => exact ⟨by simp, fun _ => h⟩

/-- The first word of a message carries its opcode. -/
theorem Msg.words_head_ne_zero (m : Msg) : ∀ w ∈ m.words.head?, w ≠ 0 := by
  intro w hw
  cases m <;> cases hw <;> exact or_ne_zero (by decide)

theorem enc_eq_nil {ms : List Msg} : enc ms = [] ↔ ms = [] := by
  constructor
  · intro h
    cases ms with
    | nil => rfl
    | cons m ms =>
        have hpos := m.words_length_pos
        have hlen := congrArg List.length h
        simp only [enc, List.flatMap_cons, List.length_append, List.length_nil] at hlen
        omega
  · rintro rfl
    rfl

theorem enc_append (ms ms' : List Msg) : enc (ms ++ ms') = enc ms ++ enc ms' := List.flatMap_append

theorem visible_append_of_ne_zero {l : List ℕ} (h : ∀ w ∈ l, w ≠ 0) (l' : List ℕ) :
    Ring.visible (l ++ l') = l ++ Ring.visible l' := by
  induction l with
  | nil => rfl
  | cons w l ih =>
      rw [List.cons_append, Ring.visible_cons _ (h w List.mem_cons_self),
        ih fun w' hw' => h w' (List.mem_cons_of_mem w hw'), List.cons_append]

/-! ### The decode loop -/

/-- A message that lies at `k`. -/
theorem decodeAt_loaded {buf : ℕ → ℕ} {k : ℕ} {m : Msg} (h : m.Valid)
    (hbuf : Ring.Loaded buf k m.words) : decodeAt buf k = some (m.op, m.words.length) :=
  decodeAt_words h fun i hi => hbuf i _ (List.getElem?_eq_getElem hi)

/-- An insert of which only the first word lies at `k`. -/
theorem decodeAt_insert {buf : ℕ → ℕ} {k key : ℕ} (hkey : key < 2 ^ 60)
    (hbuf : buf k = key ||| HASHOP_INSERT) :
    decodeAt buf k = some (.insert key (intOfWord (buf (k + 1))), INSERT_MSG_LENGTH) := by
  have hop : opcodeOf (key ||| HASHOP_INSERT) = HASHOP_INSERT :=
    opcodeOf_of_lt (c := 2) hkey (by decide)
  have hoperand : operandOf (key ||| HASHOP_INSERT) = key := operandOf_of_lt 2 hkey
  rw [decodeAt, hbuf, hop, hoperand, if_neg (by decide), if_pos rfl]

/-- **The decode loop on a batch as it is read.**  Valid messages come out as they went in; a message
that is not valid makes the loop read beyond the batch. -/
theorem decodeLoop_spec (count : ℕ) (resps : ℕ → ℕ) (ms : List Msg) (hms : ∀ m ∈ ms, m.Sendable)
    {fuel k j : ℕ} {buf : ℕ → ℕ} (hbuf : Ring.Loaded buf k (Ring.visible (enc ms)))
    (hcount : k + (Ring.visible (enc ms)).length = count) (hj : j ≤ k) (hfuel : count - k ≤ fuel) :
    ((∀ m ∈ ms, m.Valid) →
        (decodeLoop count resps fuel buf k j).1 = ⟨count, ms.map Msg.op, count, true, false⟩) ∧
      ((∃ m ∈ ms, ¬ m.Valid) → (decodeLoop count resps fuel buf k j).1.inRange = false) := by
  induction ms generalizing fuel k j buf with
  | nil =>
      have hk : k = count := hcount
      subst hk
      refine ⟨fun _ => ?_, by simp⟩
      cases fuel with
      | zero => rfl
      | succ fuel => simp [decodeLoop]
  | cons m ms ih =>
      have hlen := m.words_length_pos
      by_cases hv : m.Valid
      · have hvis : Ring.visible (enc (m :: ms)) = m.words ++ Ring.visible (enc ms) :=
          visible_append_of_ne_zero (Msg.words_ne_zero hv) _
        rw [hvis] at hbuf hcount
        rw [List.length_append] at hcount
        obtain ⟨hm, hrest⟩ := Ring.loaded_append.mp hbuf
        obtain ⟨fuel, rfl⟩ : ∃ f, fuel = f + 1 := ⟨fuel - 1, by omega⟩
        have hklt : k < count := by omega
        have hall : (∀ m' ∈ m :: ms, m'.Valid) ↔ ∀ m' ∈ ms, m'.Valid := by simp [hv]
        have hex : (∃ m' ∈ m :: ms, ¬ m'.Valid) ↔ ∃ m' ∈ ms, ¬ m'.Valid := by simp [hv]
        have hin : decide (k + m.words.length ≤ count) = true := by simpa using by omega
        have hms' : ∀ m' ∈ ms, m'.Sendable := fun m' hm' => hms m' (List.mem_cons_of_mem m hm')
        simp only [decodeLoop, if_pos hklt, decodeAt_loaded hv hm, hall, hex, hin, Bool.true_and]
        by_cases hreq : m.op.isRequest = true
        · -- the response goes to a word that has been decoded
          have hdone : j < k + m.words.length := by omega
          have hih := ih hms' (hrest.update (resps j) (Or.inl hdone)) (by omega)
            (show j + 1 ≤ k + m.words.length by omega)
            (show count - (k + m.words.length) ≤ fuel by omega)
          simp only [if_pos hreq]
          exact ⟨fun hall => by rw [hih.1 hall]; rfl, hih.2⟩
        · have hih := ih hms' hrest (by omega) (show j ≤ k + m.words.length by omega)
            (show count - (k + m.words.length) ≤ fuel by omega)
          simp only [if_neg hreq]
          exact ⟨fun hall => by rw [hih.1 hall]; rfl, hih.2⟩
      · refine ⟨fun hall => absurd (hall m List.mem_cons_self) hv, fun _ => ?_⟩
        -- only an insert can fail to be valid, and only by the zero in its size word
        have hsend := hms m List.mem_cons_self
        cases m with
        | insert key size =>
            have hzero : wordOfInt size = 0 := by
              by_contra hne
              exact hv ⟨hsend.1, hne⟩
            have hvis : Ring.visible (enc (.insert key size :: ms)) = [key ||| HASHOP_INSERT] := by
              show Ring.visible ((key ||| HASHOP_INSERT) :: wordOfInt size :: enc ms) = _
              rw [Ring.visible_cons _ (or_ne_zero (by decide)), hzero, Ring.visible_cons_zero]
            rw [hvis] at hbuf hcount
            rw [List.length_singleton] at hcount
            obtain ⟨fuel, rfl⟩ : ∃ f, fuel = f + 1 := ⟨fuel - 1, by omega⟩
            have hword := (Ring.loaded_cons.mp hbuf).1
            have hout : decide (k + INSERT_MSG_LENGTH ≤ count) = false :=
              decide_eq_false (by show ¬ k + 2 ≤ count; omega)
            simp only [decodeLoop, if_pos (show k < count by omega), decodeAt_insert hsend.1 hword, hout,
              Bool.false_and]
        | lookup key => exact absurd hsend hv
        | release e => exact absurd hsend hv
        | markReady e => exact absurd hsend hv

/-! ### Runs of calls -/

/-- How the batch `b` that the server decoded relates to the messages flushed into it. -/
def Decoded (ms : List Msg) (b : Batch) : Prop :=
  ((∀ m ∈ ms, m.Valid) → b.Whole ∧ b.ops = ms.map Msg.op) ∧
    ((∃ m ∈ ms, ¬ m.Valid) → b.inRange = false)

/-- The messages in the slots and the local buffer. -/
def Wire.Carries (w : Wire) (bs : List (List Msg)) (loc : List Msg) : Prop :=
  InInv w.inb none (bs.map enc) (enc loc)

theorem Wire.Carries.flush {w : Wire} {bs : List (List Msg)} {loc : List Msg} (h : w.Carries bs loc)
    {b : InputBuffer} (hrun : inpbFlush w.inb = some b) :
    ∃ bs', bs'.flatten = bs.flatten ++ loc ∧ ({ w with inb := b } : Wire).Carries bs' [] := by
  have hinv := inpbFlush_spec h hrun
  by_cases hloc : loc = []
  · subst hloc
    refine ⟨bs, by simp, ?_⟩
    simpa [Wire.Carries, enc] using hinv
  · refine ⟨bs ++ [loc], by simp, ?_⟩
    rw [if_neg fun h => hloc (enc_eq_nil.mp h)] at hinv
    simpa [Wire.Carries, enc] using hinv

theorem Wire.Carries.append {w : Wire} {bs : List (List Msg)} {loc : List Msg}
    (h : w.Carries bs loc) (m : Msg) (hfit : (enc loc).length + m.words.length ≤ INPB_SIZE) :
    ({ w with inb := w.inb.append m.words } : Wire).Carries bs (loc ++ [m]) := by
  have hinv := InInv.append h m.words_head_ne_zero hfit
  have henc : enc (loc ++ [m]) = enc loc ++ m.words := by simp [enc]
  rw [← henc] at hinv
  exact hinv

/-- **One call**: messages move from the local buffer to a slot to the server, in order. -/
theorem WireCall.run_carries {w w' : Wire} {bs : List (List Msg)} {loc : List Msg}
    (h : w.Carries bs loc) (hsend : ∀ m ∈ bs.flatten, m.Sendable) {c : WireCall} {out : List Batch}
    (hrun : c.run w = some (w', out)) :
    ∃ taken bs' loc', taken.flatten ++ bs'.flatten ++ loc' = bs.flatten ++ loc ++ writes [c] ∧
      w'.Carries bs' loc' ∧ List.Forall₂ Decoded taken out := by
  cases c with
  | write m =>
      obtain ⟨b, hw, heq⟩ := Option.map_eq_some_iff.mp hrun
      cases heq
      rw [inpbWrite] at hw
      split at hw
      · obtain ⟨b₁, hf, rfl⟩ := Option.map_eq_some_iff.mp hw
        obtain ⟨bs', hbs, hc⟩ := h.flush hf
        refine ⟨[], bs', [m], by simp [hbs, writes], ?_, .nil⟩
        refine hc.append m ?_
        have := m.words_length_le
        exact le_trans (by simpa [enc] using this) (by decide)
      · next hle =>
        cases hw
        refine ⟨[], bs, loc ++ [m], by simp [writes], h.append m ?_, .nil⟩
        have hidx := h.index
        omega
  | flush =>
      obtain ⟨b, hf, heq⟩ := Option.map_eq_some_iff.mp hrun
      cases heq
      obtain ⟨bs', hbs, hc⟩ := h.flush hf
      exact ⟨[], bs', [], by simp [hbs, writes], hc, .nil⟩
  | poll resps =>
      obtain ⟨⟨b, buf, count⟩, hr, heq⟩ := Option.map_eq_some_iff.mp hrun
      rcases runRead_spec h (readInv_start _ _) hr with
        ⟨rfl, rfl, -⟩ | ⟨h0, ws, bs', hbs, hinv, hcount, hbuf⟩
      · cases heq
        exact ⟨[], bs, loc, by simp [writes], h, .nil⟩
      · cases bs with
        | nil => cases hbs
        | cons ms bs =>
            cases hbs
            simp only [if_neg h0] at heq
            cases heq
            refine ⟨[ms], bs, loc, by simp [writes], hinv, .cons ?_ .nil⟩
            have hspec := decodeLoop_spec count resps ms
              (fun m hm => hsend m (by simp [hm])) hbuf (by omega) le_rfl (Nat.sub_le count 0)
            refine ⟨fun hall => ?_, hspec.2⟩
            rw [hspec.1 hall]
            exact ⟨⟨rfl, rfl, rfl⟩, rfl⟩

theorem writes_cons (c : WireCall) (cs : List WireCall) : writes (c :: cs) = writes [c] ++ writes cs := by
  cases c <;> rfl

/-- **A run of calls.** -/
theorem runWire_carries {w w' : Wire} {bs : List (List Msg)} {loc : List Msg} (h : w.Carries bs loc)
    {calls : List WireCall} {out : List Batch}
    (hsend : ∀ m ∈ bs.flatten ++ loc ++ writes calls, m.Sendable)
    (hrun : runWire w calls = some (w', out)) :
    ∃ taken bs' loc', taken.flatten ++ bs'.flatten ++ loc' = bs.flatten ++ loc ++ writes calls ∧
      w'.Carries bs' loc' ∧ List.Forall₂ Decoded taken out := by
  induction calls generalizing w bs loc out with
  | nil =>
      cases hrun
      exact ⟨[], bs, loc, by simp [writes], h, .nil⟩
  | cons c cs ih =>
      obtain ⟨⟨w₁, out₁⟩, hone, hrun⟩ := Option.bind_eq_some_iff.mp hrun
      obtain ⟨⟨w₂, out₂⟩, hrest, hrun⟩ := Option.bind_eq_some_iff.mp hrun
      cases hrun
      rw [writes_cons, ← List.append_assoc] at hsend
      obtain ⟨taken₁, bs₁, loc₁, heq₁, h₁, hdec₁⟩ := WireCall.run_carries h
        (fun m hm => hsend m (by simp [List.mem_flatten.mp hm])) hone
      obtain ⟨taken₂, bs₂, loc₂, heq₂, h₂, hdec₂⟩ := ih h₁ (by
        intro m hm
        refine hsend m ?_
        rw [← heq₁]
        simp only [List.mem_append] at hm ⊢
        tauto) hrest
      refine ⟨taken₁ ++ taken₂, bs₂, loc₂, ?_, h₂, List.rel_append hdec₁ hdec₂⟩
      rw [List.flatten_append, writes_cons, ← List.append_assoc (bs.flatten ++ loc), ← heq₁]
      simp only [List.append_assoc] at heq₂ ⊢
      rw [heq₂]

theorem Wire.Carries.drained {w : Wire} {bs : List (List Msg)} {loc : List Msg}
    (h : w.Carries bs loc) (hd : w.Drained) : bs = [] ∧ loc = [] := by
  constructor
  · exact List.map_eq_nil_iff.mp (h.ring.empty_iff.mp (hd.2 _ h.ring.rd_lt))
  · exact enc_eq_nil.mp (List.length_eq_zero_iff.mp (h.index.symm.trans hd.1))

/-- The server's `localbuf` starts with whatever the stack holds. -/
def Wire.start (buf : ℕ → ℕ) : Wire := ⟨InputBuffer.zero, buf⟩

theorem Wire.start_carries (buf : ℕ → ℕ) : (Wire.start buf).Carries [] [] := inInv_zero

theorem decoded_ops {taken : List (List Msg)} {out : List Batch} (h : List.Forall₂ Decoded taken out)
    (hv : ∀ m ∈ taken.flatten, m.Valid) :
    out.flatMap Batch.ops = taken.flatten.map Msg.op ∧ ∀ b ∈ out, b.Whole := by
  induction h with
  | nil => simp
  | @cons ms b taken out hd _ ih =>
      obtain ⟨hwhole, hops⟩ := hd.1 fun m hm => hv m (by simp [hm])
      obtain ⟨ih₁, ih₂⟩ := ih fun m hm => hv m (by
        rw [List.flatten_cons]
        exact List.mem_append_right _ hm)
      refine ⟨by rw [List.flatMap_cons, hops, ih₁, List.flatten_cons, List.map_append], ?_⟩
      intro b' hb'
      rcases List.mem_cons.mp hb' with rfl | hb'
      · exact hwhole
      · exact ih₂ b' hb'

theorem decoded_valid {taken : List (List Msg)} {out : List Batch} (h : List.Forall₂ Decoded taken out)
    (hw : ∀ b ∈ out, b.Whole) : ∀ m ∈ taken.flatten, m.Valid := by
  induction h with
  | nil => simp
  | @cons ms b taken out hd _ ih =>
      intro m hm
      rw [List.flatten_cons] at hm
      rcases List.mem_append.mp hm with hm | hm
      · by_contra hv
        have hfalse := hd.2 ⟨m, hm, hv⟩
        rw [(hw b List.mem_cons_self).2.1] at hfalse
        cases hfalse
      · exact ih (fun b' hb' => hw b' (List.mem_cons_of_mem b hb')) m hm

/-- Write, flush and serve every message on its own. -/
def oneByOne (ms : List Msg) : List WireCall := ms.flatMap fun m => [.write m, .flush, .poll fun _ => 0]

theorem writes_oneByOne (ms : List Msg) : writes (oneByOne ms) = ms := by
  induction ms with
  | nil => rfl
  | cons m ms ih => exact congrArg (m :: ·) ih

theorem Wire.Carries.isDrained {w : Wire} (h : w.Carries [] []) : w.Drained := by
  refine ⟨h.index, ?_⟩
  intro i hi
  have hrd := h.ring.rd_lt
  have hcell : (w.inb.dataRd + (i + INPB_COUNT - w.inb.dataRd) % INPB_COUNT) % INPB_COUNT = i := by
    simp only [INPB_COUNT] at hi hrd ⊢
    omega
  rw [← hcell]
  exact h.ring.free _ (Nat.zero_le _) (Nat.mod_lt _ (by decide))

/-- Every list of messages can be sent. -/
theorem runWire_oneByOne (ms : List Msg) {w : Wire} (h : w.Carries [] []) :
    ∃ w' out, runWire w (oneByOne ms) = some (w', out) ∧ w'.Carries [] [] := by
  induction ms generalizing w with
  | nil => exact ⟨w, [], rfl, h⟩
  | cons m ms ih =>
      have hm : enc [m] = m.words := List.append_nil _
      have hlen := m.words_length_le
      have hfit : ¬ w.inb.localIndex + m.words.length > INPB_SIZE := by
        rw [h.index]
        simp only [enc, INPB_SIZE, CACHELINE, List.flatMap_nil, List.length_nil]
        omega
      have h₁ : InInv (w.inb.append m.words) none [] (enc [m]) :=
        h.append m (le_trans (by simpa [enc] using hlen) (by decide))
      obtain ⟨b₂, hflush⟩ := inpbFlush_total h₁ (by decide)
      have h₂ : InInv b₂ none [enc [m]] [] := by
        have hinv := inpbFlush_spec h₁ hflush
        rwa [if_neg fun hnil => by simpa using enc_eq_nil.mp hnil] at hinv
      obtain ⟨⟨b₃, buf₃, count⟩, hread⟩ := inpbRead_total h₂ w.localbuf
      rcases runRead_spec h₂ (readInv_start _ _) hread with ⟨-, -, hnil⟩ | ⟨h0, ws, bs, hbs, h₃, -, -⟩
      · cases hnil
      · cases hbs
        obtain ⟨w', out, hrun, hc⟩ := ih (w := ⟨b₃, (decodeLoop count (fun _ => 0) count buf₃ 0 0).2⟩) h₃
        refine ⟨w', [(decodeLoop count (fun _ => 0) count buf₃ 0 0).1] ++ out, ?_, hc⟩
        show runWire w (.write m :: .flush :: .poll (fun _ => 0) :: oneByOne ms) = _
        simp [runWire, WireCall.run, inpbWrite, hfit, hflush, hread, h0, hrun]

/-- **Framing.**  Take messages with 60-bit keys and addresses and any `int` sizes that are not
negative, written, flushed and served in any order of calls until nothing is left.  The server
decodes whole messages inside their batches, never reaches its assertion and executes exactly the
operations asked for, if and only if no insert has size 0.  Every list can be sent so. -/
theorem framing_exact_iff {ms : List Msg} (hsend : ∀ m ∈ ms, m.Sendable) (buf : ℕ → ℕ) :
    (∃ calls w out, writes calls = ms ∧ runWire (Wire.start buf) calls = some (w, out) ∧ w.Drained) ∧
      ∀ calls w out, writes calls = ms → runWire (Wire.start buf) calls = some (w, out) → w.Drained →
        ((out.flatMap Batch.ops = ms.map Msg.asked ∧ ∀ b ∈ out, b.Whole) ↔
          ∀ key size, Msg.insert key size ∈ ms → size ≠ 0) := by
  refine ⟨?_, ?_⟩
  · obtain ⟨w, out, hrun, hc⟩ := runWire_oneByOne ms (Wire.start_carries buf)
    exact ⟨oneByOne ms, w, out, writes_oneByOne ms, hrun, hc.isDrained⟩
  · rintro calls w out rfl hrun hd
    obtain ⟨taken, bs, loc, heq, hc, hdec⟩ :=
      runWire_carries (Wire.start_carries buf) (by simpa using hsend) hrun
    obtain ⟨rfl, rfl⟩ := hc.drained hd
    simp only [List.flatten_nil, List.append_nil, List.nil_append] at heq
    have hasked : (writes calls).map Msg.asked = (writes calls).map Msg.op :=
      List.map_congr_left fun m hm => Msg.asked_eq_op (hsend m hm)
    rw [hasked]
    constructor
    · rintro ⟨-, hwhole⟩ key size hmem
      have hvalid := decoded_valid hdec hwhole (.insert key size) (heq ▸ hmem)
      exact (Msg.valid_iff (hsend _ hmem)).mp hvalid key size rfl
    · intro hsizes
      rw [← heq]
      refine decoded_ops hdec ?_
      intro m hm
      refine (Msg.valid_iff (hsend m (heq ▸ hm))).mpr ?_
      rintro key size rfl
      exact hsizes key size (heq ▸ hm)

/-- Two messages packed into one batch. -/
theorem framing_exact_iff_two : ∃ w out,
    runWire (Wire.start fun _ => 0) [.write (.insert 5 8), .write (.lookup 5), .flush, .poll fun _ => 192]
        = some (w, out) ∧ w.Drained ∧
      ((out.flatMap Batch.ops = [Op.insert 5 8, Op.lookup 5] ∧ ∀ b ∈ out, b.Whole) ↔
        ∀ key size, Msg.insert key size ∈ [Msg.insert 5 8, Msg.lookup 5] → size ≠ 0) := by
  obtain ⟨w, out, hrun, hd⟩ : ∃ w out, runWire (Wire.start fun _ => 0)
      [.write (.insert 5 8), .write (.lookup 5), .flush, .poll fun _ => 192] = some (w, out) ∧
        w.Drained := ⟨_, _, rfl, rfl, by decide⟩
  have hsend : ∀ m ∈ [Msg.insert 5 8, Msg.lookup 5], m.Sendable := by simp [Msg.Sendable]
  exact ⟨w, out, hrun, hd, (framing_exact_iff hsend fun _ => 0).2 _ w out rfl hrun hd⟩

/-- An insert of size 0 and a lookup: the server reads the size of the insert beyond the batch, where
its stack happens to hold 7, and the lookup is never seen. -/
theorem framing_size_zero : ∃ w out,
    runWire (Wire.start fun _ => 7) [.write (.insert 5 0), .write (.lookup 6), .flush, .poll fun _ => 192]
        = some (w, out) ∧ w.Drained ∧ (∀ m ∈ [Msg.insert 5 0, Msg.lookup 6], m.Sendable) ∧
      ¬ (out.flatMap Batch.ops = [Msg.insert 5 0, Msg.lookup 6].map Msg.asked ∧ ∀ b ∈ out, b.Whole) := by
  refine ⟨_, _, rfl, ⟨rfl, by decide⟩, by simp [Msg.Sendable], ?_⟩
  rintro ⟨hops, -⟩
  exact absurd hops (by decide)

end SmpHashTable
