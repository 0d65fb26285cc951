import SmpHashTable.PendingCalls

/-!
# The pipelined client of the benchmark

`client_design1` keeps `batch_size` queries in a ring of its own, `queries`, and walks it with one
index `k` both to issue queries and to look up the query of a response.  The queries and the words of
the responses are any sequences.  An entry of `queries` carries the number of the query written to
it, and a value handed out the number of the request it answers, so that a call of
`handle_query_result` shows whether the two belong together.
-/

namespace SmpHashTable

/-! ### Which request a value answers -/

/-- The positions of `a` in `l`. -/
def positions (l : List ℕ) (a : ℕ) : List ℕ := (List.range l.length).filter fun i => l[i]? = some a

/-- The request that value number `j` answers, when each server answers the requests sent to it in
their order: the `i`-th value read from a server answers the `i`-th request sent to it. -/
def answeredRequest (cl : PendingClient) (j : ℕ) : Option ℕ :=
  match (cl.reads.map PendingRead.server)[j]? with
  | some s =>
      (positions (cl.writes.map PendingWrite.server) s)[((cl.reads.map PendingRead.server).take j).count s]?
  | none => none

theorem countP_range {l : List ℕ} (a : ℕ) {j : ℕ} (hj : j ≤ l.length) :
    (List.range j).countP (fun i => l[i]? = some a) = (l.take j).count a := by
  induction j with
  | zero => rfl
  | succ j ih =>
    have hget : l[j]? = some l[j] := List.getElem?_eq_getElem (by omega)
    rw [List.range_succ, List.countP_append, ih (by omega), List.take_add_one, hget, List.count_append]
    congr 1
    by_cases heq : l[j] = a
    · simp [heq, hget]
    · simp [heq, hget]

/-- The occurrences of a value are numbered by how many come before. -/
theorem positions_count {l : List ℕ} {a j : ℕ} (h : l[j]? = some a) :
    (positions l a)[(l.take j).count a]? = some j := by
  have hj : j < l.length := (List.getElem?_eq_some_iff.mp h).1
  have htake : (List.range l.length).take j = List.range j := by
    rw [List.take_range, Nat.min_eq_left (by omega)]
  have hpos := Lists.getElem?_filter_countP (p := fun i => decide (l[i]? = some a))
    (List.getElem?_range hj) (by simpa using h)
  rwa [htake, countP_range a (by omega)] at hpos

/-- The requests are answered in the order in which they were made. -/
theorem PendingInv.answeredRequest_eq {n : ℕ} {answers : ℕ → ℕ} {cl : PendingClient}
    {vals srvs : List ℕ} (h : PendingInv n answers cl vals srvs) {j : ℕ} (hj : j < cl.got.length) :
    answeredRequest cl j = some j := by
  have hlen := congrArg List.length h.values
  rw [List.length_map, List.length_append] at hlen
  obtain ⟨s, hs⟩ : ∃ s, (cl.reads.map PendingRead.server)[j]? = some s :=
    ⟨_, List.getElem?_eq_getElem (by rw [List.length_map]; omega)⟩
  have hlt : j < (cl.reads.map PendingRead.server).length := (List.getElem?_eq_some_iff.mp hs).1
  have hwrites : (cl.writes.map PendingWrite.server)[j]? = some s := by
    rw [h.servers, List.getElem?_append_left hlt, hs]
  have htake : (cl.writes.map PendingWrite.server).take j = (cl.reads.map PendingRead.server).take j := by
    rw [h.servers, List.take_append_of_le_length (by omega)]
  unfold answeredRequest
  rw [hs]
  show (positions _ s)[_]? = some j
  rw [← htake]
  exact positions_count hwrites

/-! ### The client -/

/-- An entry of `queries`, with the number of the query written to it. -/
structure QueryEntry where
  query : HashQuery
  stamp : Option ℕ
  deriving DecidableEq, Repr

/-- What `handle_query_result` does with a value. -/
inductive QueryResult
  | nothing
  | release (value : ℕ)
  /-- The key is stored and the value is marked ready. -/
  | fill (value key : ℕ)
  deriving DecidableEq, Repr

/-- `handle_query_result`. -/
def handleQueryResult (query : HashQuery) (value : ℕ) : Except Stop QueryResult :=
  if query.optype = OPTYPE_LOOKUP then .ok (if value ≠ 0 then .release value else .nothing)
  else if value ≠ 0 then .ok (.fill value query.key)
  else .error .assertFailed

/-- A call of `handle_query_result`: the entry given to it, the request that the value answers, the
value and what was done with it. -/
structure Handled where
  entry : QueryEntry
  request : Option ℕ
  value : ℕ
  result : QueryResult
  deriving DecidableEq, Repr

/-- The locals of `client_design1` and the calls of `handle_query_result` so far. -/
structure Design1 where
  cl : PendingClient
  queries : ℕ → QueryEntry
  k : ℕ
  j : ℕ
  handled : List Handled

namespace Design1

/-- `handle_query_result(cid, &queries[k], value)`, after `smp_get_next` has left the client `cl`. -/
def handle (d : Design1) (cl : PendingClient) : Except Stop Design1 := do
  let value := cl.got.getLastD 0
  let result ← handleQueryResult (d.queries d.k).query value
  return { d with
    cl
    handled := d.handled ++ [⟨d.queries d.k, answeredRequest cl (cl.got.length - 1), value, result⟩] }

section

variable (n batchSize : ℕ) (gen : ℕ → HashQuery) (answers : ℕ → ℕ)

/-- The first half of a round: query number `i` is generated and sent. -/
def request (i : ℕ) (d : Design1) : Except Stop Design1 := do
  let queries := Function.update d.queries d.k ⟨gen i, some i⟩
  let q := (queries d.k).query
  let (r, cl) ←
    if q.optype = OPTYPE_LOOKUP then smpHashLookup n answers d.cl q.key
    else smpHashInsert n answers d.cl q.key q.size
  if r = 1 then .ok { d with cl, queries, k := (d.k + 1) % batchSize } else .error .assertFailed

/-- The second half, once `j` is set: a value is collected. -/
def collect (d : Design1) : Except Stop Design1 :=
  let (r, cl) := smpGetNext answers d.cl
  if r = 1 then d.handle cl else .error .assertFailed

/-- One round of the `for` loop. -/
def round (i : ℕ) (d : Design1) : Except Stop Design1 := do
  let d ← d.request n batchSize gen answers i
  if d.j = 1 then d.collect answers
  else if d.k = batchSize - 1 then .ok { d with j := 1 }
  else .ok d

/-- The `for` loop from round `i` on. -/
def loop : ℕ → ℕ → Design1 → Except Stop Design1
  | _, 0, d => .ok d
  | i, rest + 1, d => do
      let d ← d.round n batchSize gen answers i
      loop (i + 1) rest d

/-- The last loop.  The fuel bounds the number of values; the caller supplies more than the ring of
pending requests holds. -/
def drain : ℕ → Design1 → Except Stop Design1
  | 0, _ => .error .diverged
  | fuel + 1, d =>
      let (r, cl) := smpGetNext answers d.cl
      if r = 1 then do
        let d ← handle { d with k := (d.k + 1) % batchSize } cl
        drain fuel d
      else .ok { d with cl }

end

end Design1

/-- `client_design1` with `n` servers, up to its return: the calls of `handle_query_result`.  The
arrays come from `memalign` with any contents. -/
def clientDesign1 (n batchSize iters : ℕ) (gen : ℕ → HashQuery) (answers values servers : ℕ → ℕ)
    (queries : ℕ → HashQuery) : Except Stop (List Handled) := do
  let d ← Design1.loop n batchSize gen answers 0 iters
    ⟨createPendingClient values servers, fun c => ⟨queries c, none⟩, 0, 0, []⟩
  let d ← d.drain batchSize answers (MAX_PENDING_SIZE + 1)
  return d.handled

/-- Every query is handled exactly once, and every value with the entry of the request it answers,
as it was written. -/
structure Paired (gen : ℕ → HashQuery) (iters : ℕ) (handled : List Handled) : Prop where
  once : ∀ i < iters, handled.countP (fun h => h.request = some i) = 1
  own : ∀ h ∈ handled, ∃ i < iters, h.entry = ⟨gen i, some i⟩ ∧ h.request = some i

/-! ### Requests and responses -/

section

variable {n batchSize : ℕ} {gen : ℕ → HashQuery} {answers : ℕ → ℕ} {d : Design1} {vals srvs : List ℕ}

/-- A query is written to entry `k` and sent. -/
theorem Design1.request_spec (i : ℕ) (h : PendingInv n answers d.cl vals srvs)
    (hroom : vals.length + srvs.length < MAX_PENDING_SIZE) :
    ∃ cl' vals' srvs', d.request n batchSize gen answers i
        = .ok { d with
            cl := cl'
            queries := Function.update d.queries d.k ⟨gen i, some i⟩
            k := (d.k + 1) % batchSize } ∧
      PendingInv n answers cl' vals' srvs' ∧
      vals'.length + srvs'.length = vals.length + srvs.length + 1 ∧ cl'.got = d.cl.got := by
  have hsend : ∀ m, ∃ cl' vals' srvs', smpRequest n answers d.cl m = .ok (1, cl') ∧
      PendingInv n answers cl' vals' srvs' ∧
      vals'.length + srvs'.length = vals.length + srvs.length + 1 ∧ cl'.got = d.cl.got := by
    intro m
    obtain ⟨cl', vals', srvs', -, hrun, hinv, htotal, -, hgot⟩ := smpRequest_room h m hroom
    exact ⟨cl', vals', srvs', hrun, hinv, htotal, hgot⟩
  have hentry : (Function.update d.queries d.k ⟨gen i, some i⟩ d.k).query = gen i := by
    rw [Function.update_self]
  unfold Design1.request
  simp only [hentry]
  by_cases hop : (gen i).optype = OPTYPE_LOOKUP
  · obtain ⟨cl', vals', srvs', hrun, hrest⟩ := hsend (.lookup (gen i).key)
    refine ⟨cl', vals', srvs', ?_, hrest⟩
    rw [if_pos hop, smpHashLookup, hrun]
    rfl
  · obtain ⟨cl', vals', srvs', hrun, hrest⟩ := hsend (.insert (gen i).key (gen i).size)
    refine ⟨cl', vals', srvs', ?_, hrest⟩
    rw [if_neg hop, smpHashInsert, hrun]
    rfl

/-- What `smp_get_next` does when a request is pending: value number `g` is handed out, and it
answers request `g`. -/
structure Retrieved (n : ℕ) (answers : ℕ → ℕ) (cl cl' : PendingClient) (vals srvs vals' srvs' : List ℕ) :
    Prop where
  run : smpGetNext answers cl = (1, cl')
  inv : PendingInv n answers cl' vals' srvs'
  total : vals'.length + srvs'.length + 1 = vals.length + srvs.length
  got : cl'.got = cl.got ++ [answers cl.got.length]
  request : answeredRequest cl' cl.got.length = some cl.got.length

theorem smpGetNext_retrieved {cl : PendingClient} (h : PendingInv n answers cl vals srvs)
    (hpos : 0 < vals.length + srvs.length) :
    ∃ cl' vals' srvs', Retrieved n answers cl cl' vals srvs vals' srvs' := by
  rcases smpGetNext_spec h with ⟨rfl, rfl, -⟩ | ⟨vals', srvs', v, hr, hinv, htotal, -, hgot⟩
  · cases hpos
  · have hlen : (smpGetNext answers cl).2.got.length = cl.got.length + 1 := by
      rw [hgot, List.length_append, List.length_singleton]
    have hread := congrArg List.length hinv.values
    rw [List.length_map, List.length_append] at hread
    have hv : v = answers cl.got.length := by
      have hget := congrArg (fun l => l[cl.got.length]?) (hinv.answered.symm.trans hinv.values)
      simp only [hgot, List.append_assoc] at hget
      rw [List.getElem?_append_right le_rfl, Nat.sub_self, List.getElem?_map,
        List.getElem?_range (by omega)] at hget
      exact (Option.some.inj hget).symm
    refine ⟨(smpGetNext answers cl).2, vals', srvs', Prod.ext hr rfl, hinv, htotal, ?_, ?_⟩
    · rw [hgot, hv]
    · exact hinv.answeredRequest_eq (by omega)

theorem smpGetNext_empty {cl : PendingClient} (h : PendingInv n answers cl vals srvs)
    (hzero : vals.length + srvs.length = 0) : smpGetNext answers cl = (0, cl) := by
  have hspec : (vals = [] ∧ srvs = [] ∧ smpGetNext answers cl = (0, cl)) ∨ _ := smpGetNext_spec h
  rcases hspec with ⟨-, -, hrun⟩ | ⟨vals', srvs', v, -, -, htotal, -, -⟩
  · exact hrun
  · omega

/-- The value handed out is handled with entry `k`. -/
theorem Design1.handle_eq {cl cl' : PendingClient} {vals' srvs' : List ℕ}
    (h : Retrieved n answers cl cl' vals srvs vals' srvs') : d.handle cl' =
      (handleQueryResult (d.queries d.k).query (answers cl.got.length) >>= fun result =>
        .ok { d with
          cl := cl'
          handled := d.handled ++
            [⟨d.queries d.k, some cl.got.length, answers cl.got.length, result⟩] }) := by
  have hlen : cl'.got.length - 1 = cl.got.length := by
    rw [h.got, List.length_append, List.length_singleton, Nat.add_sub_cancel]
  have hlast : cl'.got.getLastD 0 = answers cl.got.length := by
    rw [h.got, List.getLastD_concat]
  unfold Design1.handle
  simp only [hlen, hlast, h.request]
  rfl

/-- The server answers an insert with the address of a value, which is not `NULL`. -/
theorem serverOp_insert_ne_zero {t t' : Table} {s key v : ℕ} {size : ℤ} {o : Oracle} {rs : List Removal}
    (h : serverOp t s o (.insert key size) = .ok (t', some v, rs)) : v ≠ 0 := by
  obtain ⟨r, -, heq⟩ := Outcome.bind_ok.mp h
  cases heq
  show r.e + sizeofElem ≠ 0
  unfold sizeofElem
  omega

/-- An insert is answered with an element, so that every response can be handled. -/
theorem handleQueryResult_ok {q : HashQuery} {v : ℕ} (h : q.optype ≠ OPTYPE_LOOKUP → v ≠ 0) :
    ∃ result, handleQueryResult q v = .ok result := by
  unfold handleQueryResult
  by_cases hop : q.optype = OPTYPE_LOOKUP
  · rw [if_pos hop]
    exact ⟨_, rfl⟩
  · rw [if_neg hop, if_pos (h hop)]
    exact ⟨_, rfl⟩

/-- The entry of a call and the request that its value answers. -/
def Handled.pair (h : Handled) : QueryEntry × Option ℕ := (h.entry, h.request)

/-- The right pair for query number `q`. -/
def ownPair (gen : ℕ → HashQuery) (q : ℕ) : QueryEntry × Option ℕ := (⟨gen q, some q⟩, some q)

theorem paired_of_pairs {iters : ℕ} {handled : List Handled}
    (h : handled.map Handled.pair = (List.range iters).map (ownPair gen)) :
    Paired gen iters handled := by
  constructor
  · intro i hi
    have hcount : handled.countP (fun h => h.request = some i)
        = (handled.map Handled.pair).countP fun x => x.2 = some i := by
      rw [List.countP_map]
      rfl
    rw [hcount, h, List.countP_map]
    show (List.range iters).countP (fun q => decide (some q = some i)) = 1
    rw [List.countP_congr (q := fun q => q == i) (by simp)]
    exact List.count_eq_one_of_mem List.nodup_range (List.mem_range.mpr hi)
  · intro x hx
    have hmem : x.pair ∈ (List.range iters).map (ownPair gen) := by
      rw [← h]
      exact List.mem_map_of_mem hx
    obtain ⟨q, hq, heq⟩ := List.mem_map.mp hmem
    obtain ⟨hentry, hrequest⟩ := Prod.ext_iff.mp heq
    exact ⟨q, List.mem_range.mp hq, hentry.symm, hrequest.symm⟩

end

/-! ### The loop -/

/-- The number of rounds before the first value is collected. -/
def startup (batchSize : ℕ) : ℕ := if batchSize = 1 then 1 else batchSize - 1

/-- What holds before round `i`: from round `startup` on one value has been collected in each round,
each with its own entry, and the last `batchSize` queries are in their entries. -/
structure LoopInv (n batchSize : ℕ) (gen : ℕ → HashQuery) (answers : ℕ → ℕ) (i : ℕ) (d : Design1)
    (vals srvs : List ℕ) : Prop where
  inv : PendingInv n answers d.cl vals srvs
  total : vals.length + srvs.length + d.cl.got.length = i
  got : d.cl.got.length = i - startup batchSize
  k : d.k = i % batchSize
  j : d.j = if startup batchSize ≤ i then 1 else 0
  entries : ∀ q < i, i ≤ q + batchSize → d.queries (q % batchSize) = ⟨gen q, some q⟩
  unwritten : ∀ c, i ≤ c → c < batchSize → (d.queries c).stamp = none
  pairs : d.handled.map Handled.pair = (List.range d.cl.got.length).map (ownPair gen)

theorem startup_pos {batchSize : ℕ} (hb : 1 ≤ batchSize) : 1 ≤ startup batchSize := by
  unfold startup
  split <;> omega

theorem startup_le {batchSize : ℕ} (hb : 1 ≤ batchSize) : startup batchSize ≤ batchSize := by
  unfold startup
  split <;> omega

theorem loopInv_start {n batchSize : ℕ} (hb : 1 ≤ batchSize) (gen : ℕ → HashQuery)
    (answers values servers : ℕ → ℕ) (queries : ℕ → HashQuery) :
    LoopInv n batchSize gen answers 0
      ⟨createPendingClient values servers, fun c => ⟨queries c, none⟩, 0, 0, []⟩ [] [] := by
  have hpos := startup_pos hb
  refine ⟨pendingInv_create n values servers answers, rfl, ?_, ?_, ?_, ?_, fun _ _ _ => rfl, rfl⟩
  · show 0 = 0 - startup batchSize
    rw [Nat.zero_sub]
  · show 0 = 0 % batchSize
    rw [Nat.zero_mod]
  · show 0 = if startup batchSize ≤ 0 then 1 else 0
    rw [if_neg (by omega)]
  · intro q hq
    omega

section

variable {n batchSize : ℕ} {gen : ℕ → HashQuery} {answers : ℕ → ℕ} {d : Design1} {vals srvs : List ℕ}

/-- The new query takes the place of the one `batchSize` rounds before. -/
theorem LoopInv.entries_update {i : ℕ} (h : LoopInv n batchSize gen answers i d vals srvs)
    (hb : 1 ≤ batchSize) : ∀ q < i + 1, i + 1 ≤ q + batchSize →
      Function.update d.queries d.k ⟨gen i, some i⟩ (q % batchSize) = ⟨gen q, some q⟩ := by
  intro q hq hle
  rw [h.k]
  rcases Nat.lt_succ_iff_lt_or_eq.mp hq with hlt | rfl
  · have hcell : (q + 0) % batchSize ≠ (q + (i - q)) % batchSize :=
      Ring.cell_ne (by omega) (by omega) (by omega)
    rw [Nat.add_zero, show q + (i - q) = i from by omega] at hcell
    rw [Function.update_of_ne hcell]
    exact h.entries q hlt (by omega)
  · rw [Function.update_self]

theorem LoopInv.unwritten_update {i : ℕ} (h : LoopInv n batchSize gen answers i d vals srvs) :
    ∀ c, i + 1 ≤ c → c < batchSize →
      (Function.update d.queries d.k ⟨gen i, some i⟩ c).stamp = none := by
  intro c hi hc
  have hne : c ≠ d.k := by
    rw [h.k, Nat.mod_eq_of_lt (by omega)]
    omega
  rw [Function.update_of_ne hne]
  exact h.unwritten c (by omega) hc

theorem next_k {i : ℕ} (hk : d.k = i % batchSize) : (d.k + 1) % batchSize = (i + 1) % batchSize := by
  rw [hk, Nat.mod_add_mod]

/-- The client after its request of round `i`. -/
def Design1.sent (batchSize : ℕ) (gen : ℕ → HashQuery) (i : ℕ) (d : Design1) (cl : PendingClient) :
    Design1 :=
  ⟨cl, Function.update d.queries d.k ⟨gen i, some i⟩, (d.k + 1) % batchSize, d.j, d.handled⟩

/-- The client after it has handled value number `g` with its own entry. -/
def Design1.done (d : Design1) (cl : PendingClient) (call : Handled) : Design1 :=
  ⟨cl, d.queries, d.k, d.j, d.handled ++ [call]⟩

/-- With the right entry at `k`, a value is handled with its own query. -/
theorem Design1.handle_own {cl cl' : PendingClient} {vals' srvs' : List ℕ}
    (h : Retrieved n answers cl cl' vals srvs vals' srvs')
    (hentry : d.queries d.k = ⟨gen cl.got.length, some cl.got.length⟩)
    (hans : (gen cl.got.length).optype ≠ OPTYPE_LOOKUP → answers cl.got.length ≠ 0) :
    ∃ call, d.handle cl' = .ok (d.done cl' call) ∧ call.pair = ownPair gen cl.got.length := by
  obtain ⟨result, hres⟩ := handleQueryResult_ok hans
  refine ⟨⟨⟨gen cl.got.length, some cl.got.length⟩, some cl.got.length, answers cl.got.length, result⟩,
    ?_, rfl⟩
  rw [Design1.handle_eq h, hentry]
  show handleQueryResult (gen cl.got.length) (answers cl.got.length) >>= _ = _
  rw [hres]
  rfl

theorem LoopInv.room {i : ℕ} (h : LoopInv n batchSize gen answers i d vals srvs) (hb : 1 ≤ batchSize)
    (hmax : batchSize ≤ MAX_PENDING_SIZE) : vals.length + srvs.length < MAX_PENDING_SIZE := by
  have htotal := h.total
  have hgot := h.got
  have hsmall : startup batchSize < MAX_PENDING_SIZE := by
    unfold startup
    split
    · decide
    · omega
  omega

/-- A round of the start-up phase only sends a query; the last one sets `j`. -/
theorem LoopInv.round_start {i : ℕ} (h : LoopInv n batchSize gen answers i d vals srvs)
    (hb : 1 ≤ batchSize) (hmax : batchSize ≤ MAX_PENDING_SIZE) (hi : i < startup batchSize) :
    ∃ d' vals' srvs', d.round n batchSize gen answers i = .ok d' ∧
      LoopInv n batchSize gen answers (i + 1) d' vals' srvs' := by
  have htotal := h.total
  have hgot := h.got
  have hstart := startup_le hb
  obtain ⟨cl₁, vals₁, srvs₁, hreq, hinv₁, htotal₁, hgot₁⟩ := d.request_spec i h.inv (h.room hb hmax)
  have hj0 : d.j = 0 := by
    rw [h.j, if_neg (by omega)]
  have hlast : (d.k + 1) % batchSize = batchSize - 1 ↔ startup batchSize ≤ i + 1 := by
    rw [next_k h.k]
    by_cases h1 : batchSize = 1
    · rw [h1, Nat.mod_one]
      simp [startup]
    · have hstartup : startup batchSize = batchSize - 1 := by
        unfold startup
        rw [if_neg h1]
      rw [Nat.mod_eq_of_lt (by omega)]
      omega
  have hnext : ∀ j', j' = (if startup batchSize ≤ i + 1 then 1 else 0) →
      LoopInv n batchSize gen answers (i + 1) { d.sent batchSize gen i cl₁ with j := j' } vals₁ srvs₁ := by
    intro j' hj'
    refine ⟨hinv₁, ?_, ?_, next_k h.k, hj', h.entries_update hb, h.unwritten_update, ?_⟩
    · show vals₁.length + srvs₁.length + cl₁.got.length = i + 1
      rw [hgot₁]
      omega
    · show cl₁.got.length = i + 1 - startup batchSize
      rw [hgot₁]
      omega
    · show d.handled.map Handled.pair = (List.range cl₁.got.length).map (ownPair gen)
      rw [hgot₁]
      exact h.pairs
  have hround : d.round n batchSize gen answers i
      = .ok { d.sent batchSize gen i cl₁ with
          j := if (d.k + 1) % batchSize = batchSize - 1 then 1 else d.j } := by
    unfold Design1.round
    rw [hreq]
    show (if d.j = 1 then _ else if (d.k + 1) % batchSize = batchSize - 1 then _ else _) = _
    rw [hj0, if_neg (by decide)]
    split <;> rfl
  refine ⟨_, vals₁, srvs₁, hround, hnext _ ?_⟩
  rw [hj0]
  simp only [hlast]

/-- A later round also collects a value, of the oldest query in `queries`. -/
theorem LoopInv.round_collect {i : ℕ} (h : LoopInv n batchSize gen answers i d vals srvs)
    (hb : 2 ≤ batchSize) (hmax : batchSize ≤ MAX_PENDING_SIZE) (hi : startup batchSize ≤ i)
    (hans : ∀ q ≤ i, (gen q).optype ≠ OPTYPE_LOOKUP → answers q ≠ 0) :
    ∃ d' vals' srvs', d.round n batchSize gen answers i = .ok d' ∧
      LoopInv n batchSize gen answers (i + 1) d' vals' srvs' := by
  have htotal := h.total
  have hgot := h.got
  have hstartup : startup batchSize = batchSize - 1 := by
    unfold startup
    rw [if_neg (by omega)]
  obtain ⟨cl₁, vals₁, srvs₁, hreq, hinv₁, htotal₁, hgot₁⟩ :=
    d.request_spec i h.inv (h.room (by omega) hmax)
  obtain ⟨cl₂, vals₂, srvs₂, hret⟩ := smpGetNext_retrieved hinv₁ (by omega)
  rw [← hgot₁] at hgot htotal
  -- the entry after the one just written is the oldest, and it belongs to the response
  have hcell : (d.k + 1) % batchSize = cl₁.got.length % batchSize := by
    rw [next_k h.k, show i + 1 = cl₁.got.length + batchSize from by omega, Nat.add_mod_right]
  have hentry : (d.sent batchSize gen i cl₁).queries (d.sent batchSize gen i cl₁).k
      = ⟨gen cl₁.got.length, some cl₁.got.length⟩ := by
    show Function.update d.queries d.k ⟨gen i, some i⟩ ((d.k + 1) % batchSize) = _
    rw [hcell]
    exact h.entries_update (by omega) _ (by omega) (by omega)
  obtain ⟨call, hhandle, hpair⟩ := Design1.handle_own hret hentry (hans _ (by omega))
  have hround : d.round n batchSize gen answers i = .ok ((d.sent batchSize gen i cl₁).done cl₂ call) := by
    unfold Design1.round
    rw [hreq]
    show (if d.j = 1 then (d.sent batchSize gen i cl₁).collect answers else _) = _
    rw [h.j, if_pos hi, if_pos rfl]
    unfold Design1.collect
    show (if (smpGetNext answers cl₁).1 = 1 then
      (d.sent batchSize gen i cl₁).handle (smpGetNext answers cl₁).2 else _) = _
    rw [hret.run, if_pos rfl]
    exact hhandle
  have hlen : cl₂.got.length = cl₁.got.length + 1 := by
    rw [hret.got, List.length_append, List.length_singleton]
  have htotal₂ := hret.total
  refine ⟨_, vals₂, srvs₂, hround, hret.inv, ?_, ?_, next_k h.k, ?_, h.entries_update (by omega),
    h.unwritten_update, ?_⟩
  · show vals₂.length + srvs₂.length + cl₂.got.length = i + 1
    omega
  · show cl₂.got.length = i + 1 - startup batchSize
    omega
  · show d.j = _
    rw [h.j, if_pos hi, if_pos (by omega)]
  · show (d.handled ++ [call]).map Handled.pair = (List.range cl₂.got.length).map (ownPair gen)
    rw [hlen, List.range_succ, List.map_append, List.map_append, h.pairs, hgot₁, List.map_singleton,
      List.map_singleton, hpair, hgot₁]

/-- A whole loop keeps the invariant, if no round collects a value with a `batch_size` of 1. -/
theorem LoopInv.loop {i : ℕ} (rest : ℕ) (h : LoopInv n batchSize gen answers i d vals srvs)
    (hb : 1 ≤ batchSize) (hmax : batchSize ≤ MAX_PENDING_SIZE)
    (hok : i + rest ≤ startup batchSize ∨ 2 ≤ batchSize)
    (hans : ∀ q < i + rest, (gen q).optype ≠ OPTYPE_LOOKUP → answers q ≠ 0) :
    ∃ d' vals' srvs', Design1.loop n batchSize gen answers i rest d = .ok d' ∧
      LoopInv n batchSize gen answers (i + rest) d' vals' srvs' := by
  induction rest generalizing i d vals srvs with
  | zero => exact ⟨d, vals, srvs, rfl, h⟩
  | succ rest ih =>
    have hround : ∃ d' vals' srvs', d.round n batchSize gen answers i = .ok d' ∧
        LoopInv n batchSize gen answers (i + 1) d' vals' srvs' := by
      by_cases hi : i < startup batchSize
      · exact h.round_start hb hmax hi
      · exact h.round_collect (by omega) hmax (by omega) fun q hq => hans q (by omega)
    obtain ⟨d₁, vals₁, srvs₁, hstep, h₁⟩ := hround
    obtain ⟨d₂, vals₂, srvs₂, hloop, h₂⟩ := ih h₁ (by omega) fun q hq => hans q (by omega)
    refine ⟨d₂, vals₂, srvs₂, ?_, ?_⟩
    · rw [Design1.loop]
      exact Outcome.bind_ok.mpr ⟨d₁, hstep, hloop⟩
    · rw [show i + (rest + 1) = i + 1 + rest from by omega]
      exact h₂

/-! ### The last loop -/

/-- What holds in the last loop: the next value belongs to the entry after `k`, and the queries not
handled are in their entries. -/
structure DrainInv (n batchSize : ℕ) (gen : ℕ → HashQuery) (answers : ℕ → ℕ) (iters : ℕ) (d : Design1)
    (vals srvs : List ℕ) : Prop where
  inv : PendingInv n answers d.cl vals srvs
  total : vals.length + srvs.length + d.cl.got.length = iters
  k : d.cl.got.length < iters → (d.k + 1) % batchSize = d.cl.got.length % batchSize
  entries : ∀ q < iters, d.cl.got.length ≤ q → d.queries (q % batchSize) = ⟨gen q, some q⟩
  pairs : d.handled.map Handled.pair = (List.range d.cl.got.length).map (ownPair gen)

/-- The last loop handles what is pending, each value with its own entry. -/
theorem DrainInv.drain {iters : ℕ} (fuel : ℕ) (h : DrainInv n batchSize gen answers iters d vals srvs)
    (hfuel : vals.length + srvs.length < fuel)
    (hans : ∀ q < iters, (gen q).optype ≠ OPTYPE_LOOKUP → answers q ≠ 0) :
    ∃ d', d.drain batchSize answers fuel = .ok d' ∧
      d'.handled.map Handled.pair = (List.range iters).map (ownPair gen) := by
  induction fuel generalizing d vals srvs with
  | zero => omega
  | succ fuel ih =>
    have htotal := h.total
    unfold Design1.drain
    by_cases hzero : vals.length + srvs.length = 0
    · rw [smpGetNext_empty h.inv hzero]
      refine ⟨{ d with cl := d.cl }, rfl, ?_⟩
      rw [h.pairs, show d.cl.got.length = iters from by omega]
    · obtain ⟨cl', vals', srvs', hret⟩ := smpGetNext_retrieved h.inv (by omega)
      have htotal' := hret.total
      have hlen : cl'.got.length = d.cl.got.length + 1 := by
        rw [hret.got, List.length_append, List.length_singleton]
      have hcell := h.k (by omega)
      have hentry : d.queries ((d.k + 1) % batchSize) = ⟨gen d.cl.got.length, some d.cl.got.length⟩ := by
        rw [hcell]
        exact h.entries _ (by omega) le_rfl
      obtain ⟨call, hhandle, hpair⟩ :=
        Design1.handle_own (d := { d with k := (d.k + 1) % batchSize }) hret hentry (hans _ (by omega))
      have hnext : DrainInv n batchSize gen answers iters
          (Design1.done { d with k := (d.k + 1) % batchSize } cl' call) vals' srvs' := by
        refine ⟨hret.inv, ?_, ?_, ?_, ?_⟩
        · show vals'.length + srvs'.length + cl'.got.length = iters
          omega
        · intro _
          show ((d.k + 1) % batchSize + 1) % batchSize = cl'.got.length % batchSize
          rw [hcell, Nat.mod_add_mod, hlen]
        · intro q hq hle
          have hle' : cl'.got.length ≤ q := hle
          exact h.entries q hq (by omega)
        · show (d.handled ++ [call]).map Handled.pair = (List.range cl'.got.length).map (ownPair gen)
          rw [hlen, List.range_succ, List.map_append, List.map_append, h.pairs, List.map_singleton,
            List.map_singleton, hpair]
      obtain ⟨d', hdrain, hpairs⟩ := ih hnext (by omega)
      refine ⟨d', ?_, hpairs⟩
      rw [hret.run]
      exact Outcome.bind_ok.mpr ⟨_, hhandle, hdrain⟩

/-- After enough rounds the next value belongs to the entry after `k`. -/
theorem LoopInv.toDrain {iters : ℕ} (h : LoopInv n batchSize gen answers iters d vals srvs)
    (hcond : iters = 0 ∨ (batchSize = 1 ∧ iters = 1) ∨ (2 ≤ batchSize ∧ batchSize - 1 ≤ iters)) :
    DrainInv n batchSize gen answers iters d vals srvs := by
  have hgot := h.got
  refine ⟨h.inv, h.total, ?_, ?_, h.pairs⟩
  · intro hlt
    rw [next_k h.k]
    rcases hcond with rfl | ⟨rfl, rfl⟩ | ⟨hb, hiters⟩
    · omega
    · rw [Nat.mod_one, Nat.mod_one]
    · unfold startup at hgot
      rw [if_neg (by omega)] at hgot
      rw [show iters + 1 = d.cl.got.length + batchSize from by omega, Nat.add_mod_right]
  · intro q hq hle
    refine h.entries q hq ?_
    rcases hcond with rfl | ⟨rfl, rfl⟩ | ⟨hb, hiters⟩
    · omega
    · omega
    · unfold startup at hgot
      rw [if_neg (by omega)] at hgot
      omega

/-! ### The wrong pairs -/

theorem Design1.handle_grows {d d' : Design1} {cl : PendingClient} (h : d.handle cl = .ok d') :
    d.handled <+: d'.handled := by
  obtain ⟨result, -, heq⟩ := Outcome.bind_ok.mp h
  cases heq
  exact List.prefix_append _ _

/-- A request handles nothing. -/
theorem Design1.request_handled {d d' : Design1} {i : ℕ}
    (h : d.request n batchSize gen answers i = .ok d') : d'.handled = d.handled := by
  unfold Design1.request at h
  dsimp only at h
  split at h
  all_goals
    obtain ⟨x, -, heq⟩ := Outcome.bind_ok.mp h
    split at heq
    · cases heq
      rfl
    · cases heq

theorem Design1.round_grows {d d' : Design1} {i : ℕ} (h : d.round n batchSize gen answers i = .ok d') :
    d.handled <+: d'.handled := by
  obtain ⟨d₁, hreq, h⟩ := Outcome.bind_ok.mp h
  have hsame : d₁.handled = d.handled := Design1.request_handled hreq
  rw [← hsame]
  split at h
  · unfold Design1.collect at h
    dsimp only at h
    split at h
    · exact Design1.handle_grows h
    · cases h
  · split at h
    · cases h
      exact List.prefix_rfl
    · cases h
      exact List.prefix_rfl

theorem Design1.loop_grows {rest : ℕ} {d d' : Design1} {i : ℕ}
    (h : Design1.loop n batchSize gen answers i rest d = .ok d') : d.handled <+: d'.handled := by
  induction rest generalizing d i with
  | zero =>
    cases h
    exact List.prefix_rfl
  | succ rest ih =>
    obtain ⟨d₁, hround, hrest⟩ := Outcome.bind_ok.mp h
    exact (Design1.round_grows hround).trans (ih hrest)

theorem Design1.drain_grows {fuel : ℕ} {d d' : Design1} (h : d.drain batchSize answers fuel = .ok d') :
    d.handled <+: d'.handled := by
  induction fuel generalizing d with
  | zero => cases h
  | succ fuel ih =>
    unfold Design1.drain at h
    dsimp only at h
    split at h
    · obtain ⟨d₁, hhandle, hrest⟩ := Outcome.bind_ok.mp h
      exact (Design1.handle_grows hhandle).trans (ih hrest)
    · cases h
      exact List.prefix_rfl

/-- A value handled with another entry than its own stays in the list of calls. -/
theorem not_paired_of_handle {iters : ℕ} {d d' : Design1} {cl cl' : PendingClient} {vals' srvs' : List ℕ}
    {handled : List Handled} (h : Retrieved n answers cl cl' vals srvs vals' srvs')
    (hhandle : d.handle cl' = .ok d') (hgrows : d'.handled <+: handled)
    (hwrong : (d.queries d.k).stamp ≠ some cl.got.length) : ¬ Paired gen iters handled := by
  intro hpaired
  rw [Design1.handle_eq h] at hhandle
  obtain ⟨result, -, heq⟩ := Outcome.bind_ok.mp hhandle
  cases heq
  obtain ⟨i, -, hentry, hrequest⟩ := hpaired.own _ (hgrows.subset (List.mem_append_right _ (List.mem_singleton_self _)))
  dsimp only at hentry hrequest
  apply hwrong
  rw [hentry, hrequest]

/-- With a `batch_size` of 1 the second query takes the entry of the first before its value comes. -/
theorem LoopInv.not_paired_single {iters : ℕ} {d' : Design1} {handled : List Handled}
    (h : LoopInv n 1 gen answers 1 d vals srvs) (hround : d.round n 1 gen answers 1 = .ok d')
    (hgrows : d'.handled <+: handled) : ¬ Paired gen iters handled := by
  have htotal := h.total
  have hgot : d.cl.got.length = 0 := h.got
  obtain ⟨cl₁, vals₁, srvs₁, hreq, hinv₁, htotal₁, hgot₁⟩ := d.request_spec 1 h.inv (h.room le_rfl (by decide))
  obtain ⟨cl₂, vals₂, srvs₂, hret⟩ := smpGetNext_retrieved hinv₁ (by omega)
  unfold Design1.round at hround
  rw [hreq] at hround
  change (if d.j = 1 then (d.sent 1 gen 1 cl₁).collect answers else _) = _ at hround
  rw [h.j, if_pos (by decide)] at hround
  unfold Design1.collect at hround
  change (if (smpGetNext answers cl₁).1 = 1 then
    (d.sent 1 gen 1 cl₁).handle (smpGetNext answers cl₁).2 else _) = _ at hround
  rw [hret.run, if_pos rfl] at hround
  refine not_paired_of_handle hret hround hgrows ?_
  show (Function.update d.queries d.k ⟨gen 1, some 1⟩ ((d.k + 1) % 1)).stamp ≠ some cl₁.got.length
  rw [h.k, Nat.mod_one, Function.update_self, hgot₁, hgot]
  show some 1 ≠ some 0
  decide

/-- When the loop ends before `batch_size - 1` rounds, the last loop starts behind the queries. -/
theorem LoopInv.not_paired_short {iters fuel : ℕ} {d' : Design1}
    (h : LoopInv n batchSize gen answers iters d vals srvs) (hpos : 0 < iters) (hb : 2 ≤ batchSize)
    (hlt : iters < batchSize - 1) (hdrain : d.drain batchSize answers fuel = .ok d') :
    ¬ Paired gen iters d'.handled := by
  have htotal := h.total
  have hgot := h.got
  unfold startup at hgot
  rw [if_neg (by omega)] at hgot
  obtain ⟨cl', vals', srvs', hret⟩ := smpGetNext_retrieved h.inv (by omega)
  cases fuel with
  | zero => cases hdrain
  | succ fuel =>
    unfold Design1.drain at hdrain
    rw [hret.run] at hdrain
    obtain ⟨d₁, hhandle, hrest⟩ := Outcome.bind_ok.mp hdrain
    refine not_paired_of_handle hret hhandle (Design1.drain_grows hrest) ?_
    show (d.queries ((d.k + 1) % batchSize)).stamp ≠ _
    rw [next_k h.k, Nat.mod_eq_of_lt (by omega), h.unwritten _ (by omega) (by omega)]
    exact Option.some_ne_none _ ∘ Eq.symm

end

/-- **When the pipelined client pairs its queries with their responses (proved).**  For every
`batch_size` of 1 to `MAX_PENDING_SIZE`: exactly if it has no query at all, or reaches the round that
ends its start-up phase, and with a `batch_size` of 1 has one query only. -/
theorem clientDesign1_paired_iff {n batchSize iters : ℕ} (hb : 1 ≤ batchSize)
    (hmax : batchSize ≤ MAX_PENDING_SIZE) (gen : ℕ → HashQuery) (answers values servers : ℕ → ℕ)
    (queries : ℕ → HashQuery) (hans : ∀ i < iters, (gen i).optype ≠ OPTYPE_LOOKUP → answers i ≠ 0) :
    (∃ handled, clientDesign1 n batchSize iters gen answers values servers queries = .ok handled ∧
        Paired gen iters handled) ↔
      iters = 0 ∨ (batchSize = 1 ∧ iters = 1) ∨ (2 ≤ batchSize ∧ batchSize - 1 ≤ iters) := by
  have hstart := loopInv_start (n := n) hb gen answers values servers queries
  constructor
  · rintro ⟨handled, hrun, hpaired⟩
    by_contra hcond
    obtain ⟨d₁, hloop, hrun⟩ := Outcome.bind_ok.mp hrun
    obtain ⟨d₂, hdrain, hrun⟩ := Outcome.bind_ok.mp hrun
    cases hrun
    by_cases h1 : batchSize = 1
    · subst h1
      obtain ⟨rest, rfl⟩ : ∃ rest, iters = rest + 2 := ⟨iters - 2, by omega⟩
      obtain ⟨d₀, vals, srvs, hround₀, hinv⟩ := hstart.round_start le_rfl hmax (by decide)
      obtain ⟨d₀', hround, hloop⟩ := Outcome.bind_ok.mp hloop
      rw [hround₀] at hround
      cases hround
      obtain ⟨d₀'', hround, hloop⟩ := Outcome.bind_ok.mp hloop
      exact hinv.not_paired_single hround
        ((Design1.loop_grows hloop).trans (Design1.drain_grows hdrain)) hpaired
    · obtain ⟨d₁', vals, srvs, hloop', hinv⟩ := hstart.loop iters hb hmax (by omega)
        fun q hq => hans q (by omega)
      rw [hloop] at hloop'
      cases hloop'
      rw [Nat.zero_add] at hinv
      exact hinv.not_paired_short (by omega) (by omega) (by omega) hdrain hpaired
  · intro hcond
    have hok : 0 + iters ≤ startup batchSize ∨ 2 ≤ batchSize := by
      have := startup_pos hb
      omega
    obtain ⟨d₁, vals, srvs, hloop, hinv⟩ := hstart.loop iters hb hmax hok fun q hq => hans q (by omega)
    rw [Nat.zero_add] at hinv
    have hfits := hinv.inv.rep.fits
    obtain ⟨d₂, hdrain, hpairs⟩ := (hinv.toDrain hcond).drain (MAX_PENDING_SIZE + 1) (by omega) hans
    exact ⟨d₂.handled, Outcome.bind_ok.mpr ⟨d₁, hloop, Outcome.bind_ok.mpr ⟨d₂, hdrain, rfl⟩⟩,
      paired_of_pairs hpairs⟩

/-- A batch of four, a single query, two servers: its response is handled with entry 2 of the array,
to which nothing was written. -/
theorem clientDesign1_short : ¬ ∃ handled,
    clientDesign1 2 4 1 (fun _ => ⟨OPTYPE_LOOKUP, 0, 5⟩) (fun _ => 0) (fun _ => 0) (fun _ => 0)
      (fun c => ⟨OPTYPE_LOOKUP, 0, c⟩) = .ok handled ∧
    Paired (fun _ => ⟨OPTYPE_LOOKUP, 0, 5⟩) 1 handled := by
  rintro ⟨handled, hrun, hpaired⟩
  have hcall : clientDesign1 2 4 1 (fun _ => ⟨OPTYPE_LOOKUP, 0, 5⟩) (fun _ => 0) (fun _ => 0) (fun _ => 0)
      (fun c => ⟨OPTYPE_LOOKUP, 0, c⟩)
      = .ok [⟨⟨⟨OPTYPE_LOOKUP, 0, 2⟩, none⟩, some 0, 0, .nothing⟩] := rfl
  rw [hcall] at hrun
  cases hrun
  obtain ⟨i, -, hentry, -⟩ := hpaired.own _ (List.mem_singleton_self _)
  cases hentry

/-- A batch of three and five queries of both kinds. -/
theorem clientDesign1_paired_five :
    ∃ handled, clientDesign1 2 3 5 (fun i => ⟨if i = 1 then OPTYPE_INSERT else OPTYPE_LOOKUP, 8, i⟩)
        (fun i => if i = 1 then 4160 else 0) (fun _ => 0) (fun _ => 0) (fun c => ⟨OPTYPE_LOOKUP, 0, c⟩)
      = .ok handled ∧
      Paired (fun i => ⟨if i = 1 then OPTYPE_INSERT else OPTYPE_LOOKUP, 8, i⟩) 5 handled := by
  refine (clientDesign1_paired_iff (by decide) (by decide) _ _ _ _ _ ?_).mpr (by decide)
  intro i hi hne
  by_cases h1 : i = 1
  · rw [if_pos h1]
    decide
  · rw [if_neg h1] at hne
    exact absurd rfl hne

end SmpHashTable
