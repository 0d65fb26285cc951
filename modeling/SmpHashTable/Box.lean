import SmpHashTable.Fifo
import SmpHashTable.Framing

/-!
# One client, one server

The invariant of a box: how the messages not yet executed and the responses not yet read are spread
over the server's current batch, the slots, the client's local buffer, the output ring and the
server's `localbuf`.  It mentions one client and one server only.  Every step of either side has one
lemma that says what it does to the two queues; the system's invariant is put together from these.
-/

namespace SmpHashTable

/-- What a server is doing for one client. -/
inductive Turn
  /-- Not serving it. -/
  | away
  | read (pc : InpbReadPc) (buf : ℕ → ℕ)
  | exec (count k j : ℕ) (buf : ℕ → ℕ)
  | write (j m : ℕ) (buf : ℕ → ℕ)

/-- What server thread `srv` is doing for client `c`. -/
def Server.turn (srv : Server) (c : ℕ) : Turn :=
  match srv.pc with
  | .read i _ pc => if i = c then .read pc srv.localbuf else .away
  | .exec i _ count k j => if i = c then .exec count k j srv.localbuf else .away
  | .write i _ j m => if i = c then .write j m srv.localbuf else .away
  | _ => .away

/-- The server's share: the messages of its batch still to execute, the responses it has computed and
those of them already in the output ring, unpublished. -/
def TurnInv (bs : List (List ℕ)) (batch : List Msg) (fresh part : List ℕ) : Turn → Prop
  | .away => batch = [] ∧ fresh = [] ∧ part = []
  | .read pc buf => batch = [] ∧ fresh = [] ∧ part = [] ∧ ReadInv buf bs pc
  | .exec count k j buf => part = [] ∧ k + (enc batch).length = count ∧ count ≤ INPB_SIZE ∧
      Ring.Loaded buf k (enc batch) ∧ j ≤ k ∧ fresh.length = j ∧ Ring.Loaded buf 0 fresh
  | .write j m buf => batch = [] ∧ fresh.length = j ∧ Ring.Loaded buf 0 fresh ∧ m ≤ j ∧
      part = fresh.take m

/-- Where the messages and the responses between a client and a server are. -/
structure Spread where
  batch : List Msg
  slots : List (List Msg)
  loc : List Msg
  ring : List ℕ
  fresh : List ℕ
  part : List ℕ

/-- The messages not yet executed, in order. -/
def Spread.todo (x : Spread) : List Msg := x.batch ++ x.slots.flatten ++ x.loc

/-- The responses not yet read, in order. -/
def Spread.ans (x : Spread) : List ℕ := x.ring ++ x.fresh

/-- The box holds exactly what `x` says. -/
structure BoxHolds (b : Box) (turn : Turn) (fl : Option FlushPc) (x : Spread) : Prop where
  valid : ∀ m ∈ x.todo, m.Valid
  inb : InInv b.inb fl (x.slots.map enc) (enc x.loc)
  out : OutInv b.out x.ring x.part
  turn : TurnInv (x.slots.map enc) x.batch x.fresh x.part turn

/-- The box carries the messages `todo` and the responses `ans`, spread in some way. -/
def BoxInv (b : Box) (turn : Turn) (fl : Option FlushPc) (todo : List Msg) (ans : List ℕ) : Prop :=
  ∃ x, BoxHolds b turn fl x ∧ x.todo = todo ∧ x.ans = ans

theorem boxInv_zero : BoxInv Box.zero .away none [] [] :=
  ⟨⟨[], [], [], [], [], []⟩, ⟨by simp [Spread.todo], inInv_zero, outInv_zero, ⟨rfl, rfl, rfl⟩⟩, rfl, rfl⟩

section

variable {b : Box} {turn : Turn} {fl : Option FlushPc} {todo : List Msg} {ans : List ℕ}

theorem BoxInv.valid (h : BoxInv b turn fl todo ans) : ∀ m ∈ todo, m.Valid := by
  obtain ⟨x, hx, rfl, -⟩ := h
  exact hx.valid

/-! ### The client's side -/

/-- The client copies a message into its local buffer. -/
theorem BoxInv.append (h : BoxInv b turn none todo ans) {m : Msg} (hm : m.Valid)
    (hfit : b.inb.localIndex + m.words.length ≤ INPB_SIZE) :
    BoxInv { b with inb := b.inb.append m.words } turn none (todo ++ [m]) ans := by
  obtain ⟨x, hx, rfl, rfl⟩ := h
  refine ⟨{ x with loc := x.loc ++ [m] }, ⟨?_, ?_, hx.out, hx.turn⟩, by simp [Spread.todo], rfl⟩
  · intro m' hm'
    simp only [Spread.todo, ← List.append_assoc] at hm'
    rcases List.mem_append.mp hm' with hm' | hm'
    · exact hx.valid m' hm'
    · rw [List.mem_singleton.mp hm']
      exact hm
  · have henc : enc (x.loc ++ [m]) = enc x.loc ++ m.words := by simp [enc]
    have hidx := hx.inb.index
    rw [henc]
    exact hx.inb.append m.words_head_ne_zero (by omega)

theorem BoxInv.enterFlush (h : BoxInv b turn none todo ans) : BoxInv b turn (some .enter) todo ans := by
  obtain ⟨x, hx, rfl, rfl⟩ := h
  exact ⟨x, ⟨hx.valid, hx.inb.enter, hx.out, hx.turn⟩, rfl, rfl⟩

/-- A batch published meanwhile does not disturb the server. -/
theorem TurnInv.publish {bs : List (List ℕ)} {batch : List Msg} {fresh part : List ℕ}
    (h : TurnInv bs batch fresh part turn) (new : List (List ℕ)) :
    TurnInv (bs ++ new) batch fresh part turn := by
  cases turn with
  | read pc buf => exact ⟨h.1, h.2.1, h.2.2.1, h.2.2.2.publish new⟩
  | away => exact h
  | exec count k j buf => exact h
  | write j m buf => exact h

/-- A step of `inpb_flush`. -/
theorem BoxInv.flushStep {pc : FlushPc} (h : BoxInv b turn (some pc) todo ans) :
    match inpbFlushStep b.inb pc with
    | (b', some pc') => BoxInv { b with inb := b' } turn (some pc') todo ans
    | (b', none) => BoxInv { b with inb := b' } turn none todo ans ∧ b'.localIndex = 0 := by
  obtain ⟨x, hx, rfl, rfl⟩ := h
  have hstep := hx.inb.flushStep
  split
  · next b' pc' heq =>
    rw [heq] at hstep
    exact ⟨x, ⟨hx.valid, hstep, hx.out, hx.turn⟩, rfl, rfl⟩
  · next b' heq =>
    rw [heq] at hstep
    refine ⟨?_, hstep.index⟩
    by_cases hloc : x.loc = []
    · rw [if_pos (enc_eq_nil.mpr hloc), List.append_nil] at hstep
      refine ⟨x, ⟨hx.valid, ?_, hx.out, hx.turn⟩, rfl, rfl⟩
      rw [hloc]
      exact hstep
    · rw [if_neg fun h => hloc (enc_eq_nil.mp h)] at hstep
      have hmap : (x.slots ++ [x.loc]).map enc = x.slots.map enc ++ [enc x.loc] := by simp
      have htodo : ({ x with slots := x.slots ++ [x.loc], loc := [] } : Spread).todo = x.todo := by
        simp [Spread.todo]
      refine ⟨{ x with slots := x.slots ++ [x.loc], loc := [] }, ⟨?_, ?_, hx.out, ?_⟩, htodo, rfl⟩
      · rw [htodo]
        exact hx.valid
      · rw [hmap]
        exact hstep
      · rw [hmap]
        exact hx.turn.publish _

theorem BoxInv.readLoad (h : BoxInv b turn fl todo ans) :
    BoxInv { b with out := outbReadLoad b.out } turn fl todo ans := by
  obtain ⟨x, hx, rfl, rfl⟩ := h
  exact ⟨x, ⟨hx.valid, hx.inb, hx.out.readLoad, hx.turn⟩, rfl, rfl⟩

/-- The second half of `outb_read` takes the oldest response, if it takes one. -/
theorem BoxInv.readTake (h : BoxInv b turn fl todo ans) {b' : OutputBuffer} {v : ℕ}
    (htake : outbReadTake b.out = (b', some v)) :
    ∃ ans', ans = v :: ans' ∧ BoxInv { b with out := b' } turn fl todo ans' := by
  obtain ⟨x, hx, rfl, rfl⟩ := h
  have hstep := hx.out.readTake
  rw [htake] at hstep
  obtain ⟨ring', hring, hout⟩ := hstep
  refine ⟨ring' ++ x.fresh, by simp [Spread.ans, hring], { x with ring := ring' }, ?_, rfl, rfl⟩
  exact ⟨hx.valid, hx.inb, hout, hx.turn⟩

/-! ### The server's side -/

theorem BoxInv.startRead (h : BoxInv b .away fl todo ans) (buf : ℕ → ℕ) :
    BoxInv b (.read (.test 0) buf) fl todo ans := by
  obtain ⟨x, hx, rfl, rfl⟩ := h
  obtain ⟨h1, h2, h3⟩ := hx.turn
  exact ⟨x, ⟨hx.valid, hx.inb, hx.out, h1, h2, h3, readInv_start buf _⟩, rfl, rfl⟩

/-- A step of `inpb_read`: what it returns is the server's next batch. -/
theorem BoxInv.readStep {pc : InpbReadPc} {buf : ℕ → ℕ} (h : BoxInv b (.read pc buf) fl todo ans) :
    match inpbReadStep b.inb buf pc with
    | (_, buf', .goto pc') => BoxInv b (.read pc' buf') fl todo ans
    | (b', buf', .ret count) => BoxInv { b with inb := b' }
        (if count = 0 then .away else .exec count 0 0 buf') fl todo ans := by
  obtain ⟨x, hx, rfl, rfl⟩ := h
  obtain ⟨hbatch, hfresh, hpart, hr⟩ := hx.turn
  have hstep := hx.inb.readStep hr
  split
  · next b' buf' pc' heq =>
    rw [heq] at hstep
    exact ⟨x, ⟨hx.valid, hx.inb, hx.out, hbatch, hfresh, hpart, hstep.2⟩, rfl, rfl⟩
  · next b' buf' count heq =>
    rw [heq] at hstep
    rcases hstep with ⟨rfl, rfl, -⟩ | ⟨h0, w, bs, hbs, hinb, hcount, hbuf⟩
    · rw [if_pos rfl]
      exact ⟨x, ⟨hx.valid, hx.inb, hx.out, hbatch, hfresh, hpart⟩, rfl, rfl⟩
    · rw [if_neg h0]
      -- the batch read is the oldest slot; all its words are visible since its messages are valid
      obtain ⟨ms, slots, hslots⟩ : ∃ ms slots, x.slots = ms :: slots := by
        cases hs : x.slots with
        | nil => rw [hs] at hbs; cases hbs
        | cons ms slots => exact ⟨ms, slots, rfl⟩
      rw [hslots, List.map_cons] at hbs
      obtain ⟨rfl, rfl⟩ := List.cons_eq_cons.mp hbs
      have hvalid : ∀ m ∈ ms, m.Valid := by
        intro m hm
        refine hx.valid m ?_
        simp [Spread.todo, hslots, hm]
      have hvis : Ring.visible (enc ms) = enc ms := by
        refine Ring.visible_of_ne_zero ?_
        intro w hw
        obtain ⟨m, hm, hw⟩ := List.mem_flatMap.mp hw
        exact Msg.words_ne_zero (hvalid m hm) w hw
      rw [hvis] at hcount hbuf
      have htodo : ({ x with batch := ms, slots := slots } : Spread).todo = x.todo := by
        simp [Spread.todo, hbatch, hslots]
      have hsize : count ≤ INPB_SIZE := by
        have hlen := hx.inb.ring
        rw [hslots, List.map_cons] at hlen
        exact hcount.trans_le hlen.head.len
      refine ⟨{ x with batch := ms, slots := slots }, ⟨?_, hinb, hx.out, ?_⟩, htodo, rfl⟩
      · rw [htodo]
        exact hx.valid
      · refine ⟨hpart, (Nat.zero_add _).trans hcount.symm, hsize, hbuf, le_rfl, by simp [hfresh], ?_⟩
        rw [hfresh]
        exact Ring.loaded_nil _ _

/-- **The decode loop** executes the oldest message and stores its response over the batch. -/
theorem BoxInv.execStep {count k j : ℕ} {buf : ℕ → ℕ}
    (h : BoxInv b (.exec count k j buf) fl todo ans) (hk : k < count) :
    ∃ m rest, todo = m :: rest ∧ decodeAt buf k = some (m.op, m.words.length) ∧
      (∀ v, BoxInv b (.exec count (k + m.words.length) (j + 1) (Function.update buf j v)) fl rest
        (ans ++ [v])) ∧
      BoxInv b (.exec count (k + m.words.length) j buf) fl rest ans := by
  obtain ⟨x, hx, rfl, rfl⟩ := h
  obtain ⟨hpart, hcount, hsize, hbuf, hj, hfresh, hresp⟩ := hx.turn
  obtain ⟨m, batch, hbatch⟩ : ∃ m batch, x.batch = m :: batch := by
    cases hb : x.batch with
    | nil =>
        rw [hb] at hcount
        exact absurd hcount (by simp [enc]; omega)
    | cons m batch => exact ⟨m, batch, rfl⟩
  have henc : enc x.batch = m.words ++ enc batch := by rw [hbatch]; rfl
  rw [henc] at hcount hbuf
  rw [List.length_append] at hcount
  obtain ⟨hword, hrest⟩ := Ring.loaded_append.mp hbuf
  have htodo : x.todo = m :: ({ x with batch := batch } : Spread).todo := by
    simp [Spread.todo, hbatch]
  have hvalid : m.Valid := hx.valid m (by rw [htodo]; exact List.mem_cons_self)
  have hvalid' : ∀ m' ∈ ({ x with batch := batch } : Spread).todo, m'.Valid := by
    intro m' hm'
    refine hx.valid m' ?_
    rw [htodo]
    exact List.mem_cons_of_mem m hm'
  have hpos := m.words_length_pos
  have hcount' : k + m.words.length + (enc batch).length = count := by omega
  refine ⟨m, _, htodo, decodeAt_loaded hvalid hword, ?_, ?_⟩
  · intro v
    have hdone : j < k + m.words.length := by omega
    refine ⟨{ x with batch := batch, fresh := x.fresh ++ [v] }, ⟨hvalid', hx.inb, hx.out, ?_⟩, rfl, ?_⟩
    · refine ⟨hpart, hcount', hsize, hrest.update v (Or.inl hdone), by omega, by simp [hfresh], ?_⟩
      have hc := hresp.concat v
      rwa [Nat.zero_add, hfresh] at hc
    · simp [Spread.ans]
  · exact ⟨{ x with batch := batch }, ⟨hvalid', hx.inb, hx.out, hpart, hcount', hsize, hrest, by omega,
      hfresh, hresp⟩, rfl, rfl⟩

/-- The decode loop ends and `outb_write` is called with as many words as there are responses. -/
theorem BoxInv.execDone {count k j : ℕ} {buf : ℕ → ℕ}
    (h : BoxInv b (.exec count k j buf) fl todo ans) (hk : ¬ k < count) :
    j ≤ INPB_SIZE ∧ BoxInv b (.write j 0 buf) fl todo ans := by
  obtain ⟨x, hx, rfl, rfl⟩ := h
  obtain ⟨hpart, hcount, hsize, -, hj, hfresh, hresp⟩ := hx.turn
  have hbatch : x.batch = [] := enc_eq_nil.mp (List.length_eq_zero_iff.mp (by omega))
  refine ⟨by omega, x, ⟨hx.valid, hx.inb, hx.out, hbatch, hfresh, hresp, Nat.zero_le _, ?_⟩, rfl, rfl⟩
  rw [hpart, List.take_zero]

/-- A step of `outb_write`, which has room as long as the responses fit the ring. -/
theorem BoxInv.writeStep {j m : ℕ} {buf : ℕ → ℕ} (h : BoxInv b (.write j m buf) fl todo ans)
    (hroom : ans.length ≤ OUTB_SIZE) :
    match outbWriteStep b.out buf j m with
    | (b', some m') => BoxInv { b with out := b' } (.write j m' buf) fl todo ans
    | (b', none) => BoxInv { b with out := b' } .away fl todo ans := by
  obtain ⟨x, hx, rfl, rfl⟩ := h
  obtain ⟨hbatch, rfl, hbuf, hm, hpart⟩ := hx.turn
  have hout := hx.out
  rw [hpart] at hout
  have hstep := hout.writeStep hbuf hm (by simpa [Spread.ans] using hroom)
  split
  · next b' m' heq =>
    rw [heq] at hstep
    obtain ⟨rfl, hlt, hout'⟩ := hstep
    exact ⟨{ x with part := x.fresh.take (m + 1) }, ⟨hx.valid, hx.inb, hout', hbatch, rfl, hbuf, hlt, rfl⟩,
      rfl, rfl⟩
  · next b' heq =>
    rw [heq] at hstep
    refine ⟨{ x with ring := x.ring ++ x.fresh, fresh := [], part := [] },
      ⟨hx.valid, hx.inb, hstep.2, hbatch, rfl, rfl⟩, rfl, ?_⟩
    simp [Spread.ans]

end

end SmpHashTable
