import SmpHashTable.Fifo

/-!
# The pending ring of a client

`struct pending_data` holds two queues in one ring of positions: the values read and not yet handed
out, between `rd_index` and `wr_index`, and the servers of the requests not yet read, between
`wr_index` and `pending_index`.  The indices are 64-bit and wrap.  `smp_hash_doall` keeps the second
queue implicitly, as a window of its array of queries.
-/

namespace SmpHashTable

theorem pending_cell (i : ℕ) : i &&& (MAX_PENDING_SIZE - 1) = i % MAX_PENDING_SIZE :=
  Nat.and_two_pow_sub_one_eq_mod i 16

theorem add64_mod_pending (a b : ℕ) : add64 a b % MAX_PENDING_SIZE = (a + b) % MAX_PENDING_SIZE :=
  Nat.mod_mod_of_dvd _ (by decide)

theorem add64_add64 (a i j : ℕ) : add64 (add64 a i) j = add64 a (i + j) := by
  simp only [add64]
  omega

theorem add64_eq_self_iff {a k : ℕ} (ha : a < 2 ^ 64) (hk : k < 2 ^ 64) : a = add64 a k ↔ k = 0 := by
  simp only [add64]
  omega

/-- The ring holds the values `vals` and the servers `srvs`, and the counters count the servers. -/
structure PdRep (pd : PendingData) (vals srvs : List ℕ) : Prop where
  rd_lt : pd.rdIndex < 2 ^ 64
  wr_eq : pd.wrIndex = add64 pd.rdIndex vals.length
  pending_eq : pd.pendingIndex = add64 pd.wrIndex srvs.length
  fits : vals.length + srvs.length ≤ MAX_PENDING_SIZE
  values : Ring.Seg MAX_PENDING_SIZE pd.pendingValues pd.rdIndex vals
  servers : Ring.Seg MAX_PENDING_SIZE pd.pendingServers pd.wrIndex srvs
  count : ∀ s, pd.pendingCount s = srvs.count s
  window : ∀ s, srvs.count s ≤ MAX_PENDING_PER_SERVER

theorem pdRep_zero (values servers : ℕ → ℕ) : PdRep ⟨values, servers, 0, 0, 0, fun _ => 0⟩ [] [] :=
  ⟨Nat.two_pow_pos 64, rfl, rfl, by decide, Ring.seg_nil _ _ _, Ring.seg_nil _ _ _, fun _ => rfl,
    fun _ => Nat.zero_le _⟩

section

variable {pd : PendingData} {vals srvs : List ℕ}

theorem PdRep.vals_nil_iff (h : PdRep pd vals srvs) : pd.rdIndex = pd.wrIndex ↔ vals = [] := by
  have hfits := h.fits
  have hlt : vals.length < 2 ^ 64 := by
    simp only [MAX_PENDING_SIZE, OUTB_SIZE, CACHELINE, MAX_SERVERS] at hfits
    omega
  rw [h.wr_eq, add64_eq_self_iff h.rd_lt hlt, List.length_eq_zero_iff]

theorem PdRep.pending_sub (h : PdRep pd vals srvs) :
    sub64 pd.pendingIndex pd.rdIndex = vals.length + srvs.length := by
  have hfits := h.fits
  simp only [MAX_PENDING_SIZE, OUTB_SIZE, CACHELINE, MAX_SERVERS] at hfits
  rw [h.pending_eq, h.wr_eq, add64_add64, sub64_add64 (by omega)]

theorem PdRep.all_nil_iff (h : PdRep pd vals srvs) :
    pd.rdIndex = pd.pendingIndex ↔ vals = [] ∧ srvs = [] := by
  have hfits := h.fits
  have hlt : vals.length + srvs.length < 2 ^ 64 := by
    simp only [MAX_PENDING_SIZE, OUTB_SIZE, CACHELINE, MAX_SERVERS] at hfits
    omega
  rw [h.pending_eq, h.wr_eq, add64_add64, add64_eq_self_iff h.rd_lt hlt, Nat.add_eq_zero_iff,
    List.length_eq_zero_iff, List.length_eq_zero_iff]

theorem PdRep.nextServer {s : ℕ} (h : PdRep pd vals (s :: srvs)) : pd.nextServer = s := by
  rw [PendingData.nextServer, pending_cell]
  exact (Ring.seg_cons.mp h.servers).1

/-- `read_next_pending_value` stores a value. -/
theorem PdRep.store {s : ℕ} (h : PdRep pd vals (s :: srvs)) (v : ℕ) :
    PdRep (pd.store s v) (vals ++ [v]) srvs := by
  have hfits := h.fits
  rw [List.length_cons] at hfits
  have hcell : pd.wrIndex &&& (MAX_PENDING_SIZE - 1) = (pd.rdIndex + vals.length) % MAX_PENDING_SIZE := by
    rw [pending_cell, h.wr_eq, add64_mod_pending]
  have hcount : ∀ s', (pd.store s v).pendingCount s' = srvs.count s' := by
    intro s'
    have hc := h.count s'
    by_cases heq : s' = s
    · subst heq
      rw [List.count_cons_self] at hc
      simp only [PendingData.store, Function.update_self, hc]
      omega
    · rw [List.count_cons_of_ne (Ne.symm heq)] at hc
      simp only [PendingData.store, Function.update_of_ne heq, hc]
  refine ⟨h.rd_lt, ?_, ?_, ?_, ?_, ?_, hcount, ?_⟩
  · show add64 pd.wrIndex 1 = add64 pd.rdIndex _
    rw [h.wr_eq, add64_add64, List.length_append, List.length_singleton]
  · show pd.pendingIndex = add64 (add64 pd.wrIndex 1) srvs.length
    rw [h.pending_eq, add64_add64, List.length_cons, Nat.add_comm]
  · rw [List.length_append, List.length_singleton]
    omega
  · show Ring.Seg _ (Function.update pd.pendingValues (pd.wrIndex &&& (MAX_PENDING_SIZE - 1)) v) _ _
    rw [hcell]
    exact h.values.concat v (by omega)
  · exact (Ring.seg_congr (add64_mod_pending _ _)).mpr (Ring.seg_cons.mp h.servers).2
  · intro s'
    exact (List.count_le_count_cons).trans (h.window s')

/-- `smp_get_next` and `smp_try_get_next` take the oldest value. -/
theorem PdRep.take {v : ℕ} (h : PdRep pd (v :: vals) srvs) :
    pd.take.1 = v ∧ PdRep pd.take.2 vals srvs := by
  obtain ⟨hv, hrest⟩ := Ring.seg_cons.mp h.values
  have hfits := h.fits
  rw [List.length_cons] at hfits
  refine ⟨by rw [PendingData.take, pending_cell]; exact hv, Nat.mod_lt _ (by decide), ?_, h.pending_eq,
    by omega, ?_, h.servers, h.count, h.window⟩
  · show pd.wrIndex = add64 (add64 pd.rdIndex 1) vals.length
    rw [h.wr_eq, add64_add64, List.length_cons, Nat.add_comm]
  · exact (Ring.seg_congr (add64_mod_pending _ _)).mpr hrest

/-- `smp_hash_lookup` and `smp_hash_insert` record a request. -/
theorem PdRep.push (h : PdRep pd vals srvs) {s : ℕ}
    (hroom : vals.length + srvs.length < MAX_PENDING_SIZE)
    (hwin : srvs.count s < MAX_PENDING_PER_SERVER) : PdRep (pd.push s) vals (srvs ++ [s]) := by
  have hcell : pd.pendingIndex &&& (MAX_PENDING_SIZE - 1)
      = (pd.wrIndex + srvs.length) % MAX_PENDING_SIZE := by
    rw [pending_cell, h.pending_eq, add64_mod_pending]
  refine ⟨h.rd_lt, h.wr_eq, ?_, ?_, h.values, ?_, ?_, ?_⟩
  · show add64 pd.pendingIndex 1 = add64 pd.wrIndex _
    rw [h.pending_eq, add64_add64, List.length_append, List.length_singleton]
  · rw [List.length_append, List.length_singleton]
    omega
  · show Ring.Seg _ (Function.update pd.pendingServers (pd.pendingIndex &&& (MAX_PENDING_SIZE - 1)) s) _ _
    rw [hcell]
    exact h.servers.concat s (by omega)
  · intro s'
    have hc := h.count s'
    by_cases heq : s' = s
    · subst heq
      simp [PendingData.push, hc]
    · have hne : ¬ s = s' := fun he => heq he.symm
      simp [PendingData.push, hc, heq, hne]
  · intro s'
    rw [List.count_append, List.count_singleton]
    by_cases heq : s = s'
    · subst heq
      simpa using Nat.succ_le_of_lt hwin
    · simpa [heq] using h.window s'

end

/-! ### The window of `smp_hash_doall` -/

/-- What a query asks for, as the history of a session records it. -/
def HashQuery.req (n : ℕ) (q : HashQuery) : ℕ × Option Msg := (hashGetServer n q.key, q.msg)

theorem HashQuery.key_of_msg {q : HashQuery} {m : Msg} (h : q.msg = some m) : m.key = q.key := by
  unfold HashQuery.msg at h
  split at h
  · cases h
    rfl
  · split at h
    · cases h
      rfl
    · cases h

/-- The queries between `pindex` and `i` are the unread requests, and those before `pindex` have
been handed out with the values stored. -/
structure DoallRep (n : ℕ) (d : Doall) (x : Session) : Prop where
  ready : x.ready = []
  le : d.values.length ≤ d.i
  le_length : d.i ≤ d.queries.length
  unread : x.unread.map (fun r => (r.1, some r.2))
    = ((d.queries.map (HashQuery.req n)).take d.i).drop d.values.length
  history : Session.pairs n d.queries d.values <:+ x.history
  valid : ∀ q ∈ d.queries, ∀ m, q.msg = some m → m.Valid ∧ m.isRequest = true
  count : ∀ s, d.pendingCount s = (x.unread.map Prod.fst).count s
  window : ∀ s, (x.unread.map Prod.fst).count s ≤ MAX_PENDING_PER_SERVER

theorem pairs_concat {n : ℕ} {queries : List HashQuery} {values : List ℕ} {r : ℕ × Option Msg}
    (h : (queries.map (HashQuery.req n))[values.length]? = some r) (v : ℕ) :
    Session.pairs n queries (values ++ [v]) = Session.pairs n queries values ++ [(r, v)] := by
  have hzip : ∀ (l : List (ℕ × Option Msg)) (vs : List ℕ), l[vs.length]? = some r →
      l.zip (vs ++ [v]) = l.zip vs ++ [(r, v)] := by
    intro l
    induction l with
    | nil => simp
    | cons a l ih =>
        intro vs hl
        cases vs with
        | nil =>
            cases hl
            simp
        | cons w vs =>
            simp only [List.cons_append, List.zip_cons_cons, List.cons.injEq, true_and]
            exact ih vs (by simpa using hl)
  exact hzip _ values h

section

variable {n : ℕ} {d : Doall} {x : Session}

/-- The unread requests and what is left of the window. -/
theorem DoallRep.head (h : DoallRep n d x) {r : Req} {unread : List Req} (hun : x.unread = r :: unread) :
    (d.queries.map (HashQuery.req n))[d.values.length]? = some (r.1, some r.2) ∧
      unread.map (fun r => (r.1, some r.2))
        = ((d.queries.map (HashQuery.req n)).take d.i).drop (d.values.length + 1) := by
  have hdrop := h.unread
  rw [hun, List.map_cons] at hdrop
  constructor
  · have hget := congrArg (fun l => l[0]?) hdrop
    simp only [List.getElem?_cons_zero, List.getElem?_drop, Nat.add_zero] at hget
    rw [List.getElem?_take] at hget
    split at hget
    · exact hget.symm
    · cases hget
  · have htail := congrArg List.tail hdrop
    rwa [List.tail_cons, List.tail_drop] at htail

theorem DoallRep.nextServer (h : DoallRep n d x) {r : Req} {unread : List Req}
    (hun : x.unread = r :: unread) : d.nextServer n = r.1 := by
  have hget := (h.head hun).1
  rw [List.getElem?_map, Option.map_eq_some_iff] at hget
  obtain ⟨q, hq, hreq⟩ := hget
  have hkey : (d.queries.map HashQuery.key).getD d.values.length 0 = q.key := by
    rw [List.getD_eq_getElem?_getD, List.getElem?_map, hq]
    rfl
  rw [Doall.nextServer, hkey]
  exact congrArg Prod.fst hreq

/-- A value is stored, that is, read and handed out. -/
theorem DoallRep.store (h : DoallRep n d x) {r : Req} {unread : List Req} (hun : x.unread = r :: unread)
    (v : ℕ) (ans : ℕ → List (Msg × ℕ)) :
    DoallRep n (d.store r.1 v)
      { x with unread := unread, ans := ans, ready := [], done := x.done ++ [(r, v)] } := by
  obtain ⟨hget, hrest⟩ := h.head hun
  have hlt : d.values.length < d.i := by
    by_contra hge
    have hdrop := h.unread
    rw [hun, List.drop_eq_nil_of_le (by simp; omega)] at hdrop
    cases hdrop
  have hcount : ∀ s, (x.unread.map Prod.fst).count s = (unread.map Prod.fst).count s + if r.1 = s then 1 else 0 := by
    intro s
    rw [hun, List.map_cons, List.count_cons]
    simp
  refine ⟨rfl, ?_, h.le_length, ?_, ?_, h.valid, ?_, ?_⟩
  · show (d.values ++ [v]).length ≤ d.i
    rw [List.length_append, List.length_singleton]
    exact hlt
  · show _ = ((d.queries.map (HashQuery.req n)).take d.i).drop (d.values ++ [v]).length
    rw [List.length_append, List.length_singleton]
    exact hrest
  · show Session.pairs n d.queries (d.values ++ [v]) <:+ _
    obtain ⟨l, hl⟩ := h.history
    refine ⟨l, ?_⟩
    rw [pairs_concat hget, ← List.append_assoc, hl]
    simp [Session.history]
  · intro s
    have hc := h.count s
    rw [hcount s] at hc
    by_cases heq : s = r.1
    · subst heq
      simp only [Doall.store, Function.update_self, hc, if_true]
      push_cast
      omega
    · simp only [Doall.store, Function.update_of_ne heq, hc]
      simp [Ne.symm heq]
  · intro s
    have hw := h.window s
    rw [hcount s] at hw
    exact le_trans (Nat.le_add_right _ _) hw

/-- A query is sent. -/
theorem DoallRep.push (h : DoallRep n d x) {q : HashQuery} {m : Msg} (hq : d.queries[d.i]? = some q)
    (hm : q.msg = some m) (hwin : (x.unread.map Prod.fst).count (hashGetServer n q.key) < MAX_PENDING_PER_SERVER) :
    DoallRep n (d.push (hashGetServer n q.key)) (x.issue (hashGetServer n q.key) m) := by
  have hlt : d.i < d.queries.length := (List.getElem?_eq_some_iff.mp hq).1
  have hreq := (h.valid q (List.mem_of_getElem? hq) m hm).2
  have hunread : (x.issue (hashGetServer n q.key) m).unread = x.unread ++ [(hashGetServer n q.key, m)] := by
    simp [Session.issue, hreq]
  refine ⟨h.ready, le_trans h.le (Nat.le_succ _), hlt, ?_, h.history, h.valid, ?_, ?_⟩
  · have hget : (d.queries.map (HashQuery.req n))[d.i]? = some (hashGetServer n q.key, some m) := by
      rw [List.getElem?_map, hq, Option.map_some, HashQuery.req, hm]
    show _ = ((d.queries.map (HashQuery.req n)).take (d.i + 1)).drop d.values.length
    rw [List.take_add_one, hget, hunread, List.map_append, h.unread, List.drop_append_of_le_length]
    · rfl
    · rw [List.length_take, List.length_map]
      have := h.le
      omega
  · intro s
    have hc := h.count s
    rw [hunread, List.map_append, List.count_append]
    by_cases heq : s = hashGetServer n q.key
    · subst heq
      simp [Doall.push, hc]
    · have hne : ¬ hashGetServer n q.key = s := fun he => heq he.symm
      simp [Doall.push, hc, heq, hne]
  · intro s
    rw [hunread, List.map_append, List.count_append]
    by_cases heq : hashGetServer n q.key = s
    · subst heq
      simpa using Nat.succ_le_of_lt hwin
    · simpa [heq] using h.window s

theorem doallRep_start {queries : List HashQuery} (hready : x.ready = []) (hun : x.unread = [])
    (hvalid : ∀ q ∈ queries, ∀ m, q.msg = some m → m.Valid ∧ m.isRequest = true) :
    DoallRep n ⟨queries, 0, [], fun _ => 0⟩ x := by
  refine ⟨hready, le_rfl, Nat.zero_le _, by simp [hun], ?_, hvalid, by simp [hun], by simp [hun]⟩
  simp [Session.pairs]

/-- When all queries are sent, what is not stored is unread. -/
theorem DoallRep.unread_ne_nil (h : DoallRep n d x) (hi : d.i = d.queries.length)
    (hlt : d.values.length < d.queries.length) : x.unread ≠ [] := by
  intro hun
  have hlen := congrArg List.length h.unread
  rw [hun, List.map_nil, List.length_nil, List.length_drop, List.length_take, List.length_map] at hlen
  omega

theorem DoallRep.unread_nil (h : DoallRep n d x) (hi : d.i = d.queries.length)
    (hge : ¬ d.values.length < d.queries.length) :
    x.unread = [] ∧ d.queries.length = d.values.length := by
  have hle := h.le
  refine ⟨?_, by omega⟩
  have hun := h.unread
  rw [List.drop_eq_nil_of_le (by simp; omega)] at hun
  exact List.map_eq_nil_iff.mp hun

end

end SmpHashTable
