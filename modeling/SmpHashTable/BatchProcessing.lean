import SmpHashTable.Fifo
import SmpHashTable.Framing

/-!
# Processing a batch in place

The `while (k < count)` loop of `hash_table_server` decodes requests at `localbuf[k]` and stores
responses at `localbuf[j]` of the same array.  It is compared with a loop that decodes the whole
batch first, then executes the operations, and collects the responses in a list of its own.
-/

namespace SmpHashTable

/-! ### The loop of the server -/

/-- An operation executed: what the environment decided during it, its response and the elements it
removed. -/
structure Executed where
  op : Op
  o : Oracle
  resp : Option ℕ
  removed : List Removal
  deriving DecidableEq

/-- The table, the variables of the loop and the operations executed so far. -/
structure BatchState where
  t : Table
  buf : ℕ → ℕ
  k : ℕ
  j : ℕ
  log : List Executed

/-- One round of the loop on server `s`. -/
def batchRound (s : ℕ) (o : Oracle) (b : BatchState) : Except Stop BatchState :=
  match decodeAt b.buf b.k with
  | none => .error .assertFailed
  | some (op, w) => do
      let (t, resp, removed) ← serverOp b.t s o op
      let log := b.log ++ [⟨op, o, resp, removed⟩]
      return match resp with
        | some v => ⟨t, Function.update b.buf b.j v, b.k + w, b.j + 1, log⟩
        | none => ⟨t, b.buf, b.k + w, b.j, log⟩

/-- The loop.  The environment decides `os i` in operation number `i`.  A message takes a word at
least, so fuel for one round more than `count` is enough. -/
def batchLoop (s count : ℕ) (os : ℕ → Oracle) : ℕ → BatchState → Except Stop BatchState
  | 0, _ => .error .diverged
  | fuel + 1, b =>
      if b.k < count then do
        let b ← batchRound s (os b.log.length) b
        batchLoop s count os fuel b
      else .ok b

/-- The words given to `outb_write(.., j, localbuf)`. -/
def BatchState.outWords (b : BatchState) : List ℕ := (List.range b.j).map b.buf

/-- The loop on a batch of `count` words: the table, the words for `outb_write` and the operations
executed. -/
def processInPlace (t : Table) (s : ℕ) (os : ℕ → Oracle) (buf : ℕ → ℕ) (count : ℕ) :
    Except Stop (Table × List ℕ × List Executed) := do
  let b ← batchLoop s count os (count + 1) ⟨t, buf, 0, 0, []⟩
  return (b.t, b.outWords, b.log)

/-! ### Decoding first -/

/-- The messages from word `k` up to word `count`, if they are whole. -/
def decodeBatch (buf : ℕ → ℕ) (count : ℕ) : ℕ → ℕ → Option (List Op)
  | 0, k => if k = count then some [] else none
  | fuel + 1, k =>
      if k = count then some []
      else
        match decodeAt buf k with
        | some (op, w) =>
            if k + w ≤ count then (decodeBatch buf count fuel (k + w)).map (op :: ·) else none
        | none => none

/-- The operations one after the other, from number `i` on. -/
def runOps (s : ℕ) (os : ℕ → Oracle) : ℕ → Table → List Op → Except Stop (Table × List ℕ × List Executed)
  | _, t, [] => .ok (t, [], [])
  | i, t, op :: ops => do
      let (t, resp, removed) ← serverOp t s (os i) op
      let (t, resps, log) ← runOps s os (i + 1) t ops
      return (t, resp.toList ++ resps, ⟨op, os i, resp, removed⟩ :: log)

/-- The same step in the system of all threads. -/
theorem serverStep_exec {st : Sys} {s i n count k j : ℕ} (o : Oracle)
    (hpc : (st.server s).pc = .exec i n count k j) (hk : k < count) :
    serverStep st s o = (batchRound s o ⟨st.table, (st.server s).localbuf, k, j, []⟩ >>= fun b =>
      .ok ({ st with table := b.t }.setServer s
          { st.server s with localbuf := b.buf, pc := .exec i n count b.k b.j },
        b.log.map fun x => .exec s i x.op x.o x.resp x.removed)) := by
  unfold serverStep batchRound
  simp only [hpc]
  rw [if_pos hk]
  cases hdec : decodeAt (st.server s).localbuf k with
  | none => rfl
  | some x =>
    obtain ⟨op, w⟩ := x
    dsimp only
    cases hop : serverOp st.table s o op with
    | error e => rfl
    | ok r =>
      obtain ⟨t, resp, removed⟩ := r
      cases resp with
      | none => rfl
      | some v => rfl

/-! ### Equivalence -/

/-- Decoding from word `k` on reads no word before `k`. -/
theorem decodeAt_congr {buf buf' : ℕ → ℕ} {k : ℕ} (h : ∀ i, k ≤ i → buf i = buf' i) :
    decodeAt buf k = decodeAt buf' k := by
  unfold decodeAt
  rw [h k le_rfl, h (k + 1) (Nat.le_succ k)]

theorem decodeBatch_congr {buf buf' : ℕ → ℕ} {count fuel k : ℕ} (h : ∀ i, k ≤ i → buf i = buf' i) :
    decodeBatch buf count fuel k = decodeBatch buf' count fuel k := by
  induction fuel generalizing k with
  | zero => rfl
  | succ fuel ih =>
    unfold decodeBatch
    rw [decodeAt_congr h]
    cases decodeAt buf' k with
    | none => rfl
    | some x =>
      obtain ⟨op, w⟩ := x
      show (if k = count then _ else if k + w ≤ count then _ else none) = _
      rw [ih fun i hi => h i (by omega)]

/-- A store behind the words already handed out. -/
theorem outWords_concat (buf : ℕ → ℕ) (j v : ℕ) :
    (List.range (j + 1)).map (Function.update buf j v) = (List.range j).map buf ++ [v] := by
  rw [List.range_succ, List.map_append, List.map_singleton, Function.update_self]
  congr 1
  apply List.map_congr_left
  intro i hi
  have hlt := List.mem_range.mp hi
  rw [Function.update_of_ne (by omega)]

/-- What is left of a batch whose next operation is `op`. -/
theorem decodeBatch_cons {buf : ℕ → ℕ} {count fuel k : ℕ} {op : Op} {ops : List Op}
    (h : decodeBatch buf count fuel k = some (op :: ops)) :
    ∃ w fuel', decodeAt buf k = some (op, w) ∧ k + w ≤ count ∧
      decodeBatch buf count fuel' (k + w) = some ops := by
  cases fuel with
  | zero =>
    unfold decodeBatch at h
    split at h <;> cases h
  | succ fuel =>
    unfold decodeBatch at h
    split at h
    · cases h
    · split at h
      · next op' w hdec =>
        split at h
        · next hle =>
          obtain ⟨ops', hrest, heq⟩ := Option.map_eq_some_iff.mp h
          cases heq
          exact ⟨w, fuel, hdec, hle, hrest⟩
        · cases h
      · cases h

theorem decodeBatch_nil {buf : ℕ → ℕ} {count fuel k : ℕ} (h : decodeBatch buf count fuel k = some []) :
    k = count := by
  cases fuel with
  | zero =>
    unfold decodeBatch at h
    split at h
    · assumption
    · cases h
  | succ fuel =>
    unfold decodeBatch at h
    split at h
    · assumption
    · split at h
      · split at h
        · obtain ⟨ops', -, heq⟩ := Option.map_eq_some_iff.mp h
          cases heq
        · cases h
      · cases h

/-- A round executes the operation at word `k`; its response goes behind those before it and leaves
the messages after it as they are. -/
theorem batchRound_ok {s w : ℕ} {o : Oracle} {b : BatchState} {op : Op} {t : Table} {resp : Option ℕ}
    {removed : List Removal} (hat : decodeAt b.buf b.k = some (op, w))
    (hop : serverOp b.t s o op = .ok (t, resp, removed)) (hj : b.j ≤ b.k) :
    ∃ b', batchRound s o b = .ok b' ∧ b'.t = t ∧ b'.k = b.k + w ∧ b'.j ≤ b'.k ∧
      (∀ i, b'.k ≤ i → b'.buf i = b.buf i) ∧ b'.outWords = b.outWords ++ resp.toList ∧
      b'.log = b.log ++ [⟨op, o, resp, removed⟩] := by
  have hw : 0 < w := decodeAt_pos hat
  cases resp with
  | none =>
    have hround : batchRound s o b
        = .ok ⟨t, b.buf, b.k + w, b.j, b.log ++ [⟨op, o, none, removed⟩]⟩ := by
      unfold batchRound
      simp only [hat]
      rw [hop]
      rfl
    refine ⟨_, hround, rfl, rfl, ?_, fun _ _ => rfl, (List.append_nil _).symm, rfl⟩
    show b.j ≤ b.k + w
    omega
  | some v =>
    have hround : batchRound s o b
        = .ok ⟨t, Function.update b.buf b.j v, b.k + w, b.j + 1,
          b.log ++ [⟨op, o, some v, removed⟩]⟩ := by
      unfold batchRound
      simp only [hat]
      rw [hop]
      rfl
    refine ⟨_, hround, rfl, rfl, ?_, ?_, outWords_concat b.buf b.j v, rfl⟩
    · show b.j + 1 ≤ b.k + w
      omega
    · intro i hi
      have hi' : b.k + w ≤ i := hi
      show Function.update b.buf b.j v i = b.buf i
      rw [Function.update_of_ne (by omega)]

/-- **One round for each operation.**  While responses are stored behind word `k`, the loop does what
is left of the batch as if it had been decoded before. -/
theorem batchLoop_eq {s count fuel k' : ℕ} {os : ℕ → Oracle} (ops : List Op) {b : BatchState}
    (hdec : decodeBatch b.buf count k' b.k = some ops) (hj : b.j ≤ b.k) (hk : b.k ≤ count)
    (hfuel : count - b.k < fuel) :
    (batchLoop s count os fuel b >>= fun b => .ok (b.t, b.outWords, b.log))
      = (runOps s os b.log.length b.t ops >>= fun r =>
          .ok (r.1, b.outWords ++ r.2.1, b.log ++ r.2.2)) := by
  induction ops generalizing fuel k' b with
  | nil =>
    obtain ⟨fuel, rfl⟩ : ∃ f, fuel = f + 1 := ⟨fuel - 1, by omega⟩
    have hend := decodeBatch_nil hdec
    rw [batchLoop, if_neg (by omega)]
    show Except.ok (b.t, b.outWords, b.log) = Except.ok (b.t, b.outWords ++ [], b.log ++ [])
    rw [List.append_nil, List.append_nil]
  | cons op ops ih =>
    obtain ⟨fuel, rfl⟩ : ∃ f, fuel = f + 1 := ⟨fuel - 1, by omega⟩
    obtain ⟨w, k'', hat, hle, hrest⟩ := decodeBatch_cons hdec
    have hw : 0 < w := decodeAt_pos hat
    rw [batchLoop, if_pos (by omega), runOps]
    cases hop : serverOp b.t s (os b.log.length) op with
    | error e =>
      have hround : batchRound s (os b.log.length) b = .error e := by
        unfold batchRound
        simp only [hat]
        rw [hop]
        rfl
      rw [hround]
      rfl
    | ok r =>
      obtain ⟨t, resp, removed⟩ := r
      obtain ⟨b', hround, ht, hk', hj', hbuf, hout, hlog⟩ := batchRound_ok hat hop hj
      rw [← hk', ← decodeBatch_congr hbuf] at hrest
      have hih := ih hrest hj' (by omega) (show count - b'.k < fuel by omega)
      have hlen : b'.log.length = b.log.length + 1 := by
        rw [hlog, List.length_append, List.length_singleton]
      rw [hround]
      show (batchLoop s count os fuel b' >>= _) = _
      rw [hih, hlen, ht, hout, hlog]
      cases hrun : runOps s os (b.log.length + 1) t ops with
      | error e =>
        dsimp only [Bind.bind, Except.bind]
        rw [hrun]
      | ok r =>
        dsimp only [Bind.bind, Except.bind]
        rw [hrun]
        simp [List.append_assoc, Pure.pure, Except.pure]

/-- There is one response for each lookup and insert, in their order, and none for a release. -/
theorem runOps_responses {s : ℕ} {os : ℕ → Oracle} (ops : List Op) {i : ℕ} {t t' : Table}
    {resps : List ℕ} {log : List Executed} (h : runOps s os i t ops = .ok (t', resps, log)) :
    log.map Executed.op = ops ∧ resps = log.filterMap Executed.resp ∧
      ∀ x ∈ log, x.resp.isSome = x.op.isRequest := by
  induction ops generalizing i t resps log with
  | nil =>
    cases h
    exact ⟨rfl, rfl, fun x hx => by cases hx⟩
  | cons op ops ih =>
    obtain ⟨⟨t₁, resp, removed⟩, hop, h⟩ := Outcome.bind_ok.mp h
    obtain ⟨⟨t₂, resps₂, log₂⟩, hrest, h⟩ := Outcome.bind_ok.mp h
    cases h
    obtain ⟨hops, hresps, hsome⟩ := ih hrest
    refine ⟨?_, ?_, ?_⟩
    · rw [List.map_cons, hops]
    · rw [hresps]
      cases resp <;> rfl
    · intro x hx
      rcases List.mem_cons.mp hx with rfl | hx
      · exact (serverOp_resp hop).1
      · exact hsome x hx

/-- The words of valid messages are a batch of whole messages. -/
theorem decodeBatch_enc {buf : ℕ → ℕ} {count : ℕ} (ms : List Msg) (hms : ∀ m ∈ ms, m.Valid) {fuel k : ℕ}
    (hbuf : Ring.Loaded buf k (enc ms)) (hcount : k + (enc ms).length = count) (hfuel : count - k ≤ fuel) :
    decodeBatch buf count fuel k = some (ms.map Msg.op) := by
  induction ms generalizing fuel k with
  | nil =>
    have hk : k = count := hcount
    cases fuel with
    | zero => rw [decodeBatch, if_pos hk]; rfl
    | succ fuel => rw [decodeBatch, if_pos hk]; rfl
  | cons m ms ih =>
    have hpos := m.words_length_pos
    rw [show enc (m :: ms) = m.words ++ enc ms from rfl] at hbuf hcount
    rw [List.length_append] at hcount
    obtain ⟨hm, hrest⟩ := Ring.loaded_append.mp hbuf
    obtain ⟨fuel, rfl⟩ : ∃ f, fuel = f + 1 := ⟨fuel - 1, by omega⟩
    rw [decodeBatch, if_neg (by omega), decodeAt_loaded (hms m List.mem_cons_self) hm]
    show (if k + m.words.length ≤ count then _ else _) = _
    rw [if_pos (by omega), ih (fun m' hm' => hms m' (List.mem_cons_of_mem m hm')) hrest (by omega) (by omega)]
    rfl

/-- **Processing a batch in place is processing it out of place (proved).**  For every batch of whole
messages, every table and everything the environment decides, the two give the same table, the same
operations in the order of the batch, and the same words for `outb_write`: one for each lookup and
insert. -/
theorem processInPlace_eq {buf : ℕ → ℕ} {count : ℕ} {ops : List Op}
    (hwhole : decodeBatch buf count count 0 = some ops) (t : Table) (s : ℕ) (os : ℕ → Oracle) :
    processInPlace t s os buf count = runOps s os 0 t ops ∧
      ∀ t' resps log, runOps s os 0 t ops = .ok (t', resps, log) →
        log.map Executed.op = ops ∧ resps = log.filterMap Executed.resp ∧
        (∀ x ∈ log, x.resp.isSome = x.op.isRequest) ∧
        resps.length = ops.countP Op.isRequest := by
  have hloop : (batchLoop s count os (count + 1) ⟨t, buf, 0, 0, []⟩ >>= fun b =>
      .ok (b.t, b.outWords, b.log)) = (runOps s os 0 t ops >>= fun r =>
        .ok (r.1, [] ++ r.2.1, [] ++ r.2.2)) :=
    batchLoop_eq ops hwhole le_rfl (Nat.zero_le _) (show count - 0 < count + 1 by omega)
  constructor
  · show (batchLoop s count os (count + 1) ⟨t, buf, 0, 0, []⟩ >>= fun b =>
      Except.ok (b.t, b.outWords, b.log)) = _
    rw [hloop]
    show (runOps s os 0 t ops >>= fun r => Except.ok (r.1, [] ++ r.2.1, [] ++ r.2.2)) = _
    cases runOps s os 0 t ops <;> rfl
  · intro t' resps log hrun
    obtain ⟨hops, hresps, hsome⟩ := runOps_responses ops hrun
    refine ⟨hops, hresps, hsome, ?_⟩
    rw [hresps, List.length_filterMap_eq_countP, ← hops, List.countP_map]
    apply List.countP_congr
    intro x hx
    show x.resp.isSome = true ↔ x.op.isRequest = true
    rw [hsome x hx]

/-- A batch of an insert and a lookup. -/
theorem processInPlace_eq_two :
    let buf := fun i => [3 ||| HASHOP_INSERT, 100, 3 ||| HASHOP_LOOKUP].getD i 0
    let t := createHashTable 65536 1 .lru
    processInPlace t 0 (fun i => ⟨[some (4096 * (i + 1))], []⟩) buf 3
      = runOps 0 (fun i => ⟨[some (4096 * (i + 1))], []⟩) 0 t [.insert 3 100, .lookup 3] :=
  (processInPlace_eq (by decide) _ _ _).1

end SmpHashTable
