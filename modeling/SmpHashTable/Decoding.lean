import SmpHashTable.RequestStream

/-!
# Decoding the request streams

A client thread takes the bytes of its connections apart again: `Sound` says that at every moment the
queries it has taken up from a connection, followed by those that are complete in what it has not yet
dealt with, are the queries that were sent.  A thread that is not caught in an insert of size zero has
something left to do until it has taken up all of them, and every step leaves less to do.
-/

namespace SmpHashTable

namespace HashServer

/-! ### `read_object` -/

theorem readObject_more {size n r m : ℕ} {e : ReadEnd} (h : readObject size n r e = .more m) :
    m = n + r ∧ 0 < m ∧ m < size := by
  unfold readObject at h
  split at h
  · split at h
    · cases h
    · split at h
      · cases h
        omega
      · cases h
  · split at h
    · cases h
    · split at h
      · cases h
        omega
      · cases h

theorem readObject_done {size n r : ℕ} {e : ReadEnd} (h : readObject size n r e = .ret 0) :
    size ≤ n + r ∧ 0 < n + r := by
  unfold readObject at h
  split at h
  · split at h
    · split at h <;> cases h
    · split at h
      · cases h
      · omega
  · split at h
    · cases h
    · split at h
      · cases h
      · omega

theorem readObject_later {size n r : ℕ} {e : ReadEnd} (h : readObject size n r e = .ret 1) :
    n = 0 ∧ r = 0 ∧ streamError e = false := by
  unfold readObject at h
  split at h
  · next hn =>
    split at h
    · next hr =>
      refine ⟨hn, hr, ?_⟩
      by_contra he
      rw [if_pos (by simpa using he)] at h
      cases h
    · split at h <;> cases h
  · split at h
    · cases h
    · split at h <;> cases h

theorem readObject_error {size n r k : ℕ} {e : ReadEnd} (h : readObject size n r e = .ret k)
    (h0 : k ≠ 0) (h1 : k ≠ 1) : k = 2 ∧ streamError e = true := by
  unfold readObject at h
  split at h
  · split at h
    · split at h
      · next he =>
        cases h
        exact ⟨rfl, he⟩
      · cases h
        exact (h1 rfl).elim
    · split at h
      · cases h
      · cases h
        exact (h0 rfl).elim
  · split at h
    · next he =>
      cases h
      exact ⟨rfl, he⟩
    · split at h
      · cases h
      · cases h
        exact (h0 rfl).elim

/-! ### The steps of a thread that gathers -/

/-- The thread is in the gather loop, or between two batches. -/
def Gathering : ClientPc → Prop
  | .result _ | .slot _ | .write _ _ _ => False
  | _ => True

namespace Reader

/-- The thread is about to read `n` more bytes. -/
def Wants (cl : Client) (n : ℕ) : Prop :=
  (∃ got, cl.pc = .header got ∧ n = QUERY_SIZE - got.length) ∨
    ∃ q bread, cl.pc = .value q bread ∧ n = q.size - bread

/-- What the next step can be. -/
theorem next_cases {b : ℕ} {st : Reader} (hpc : Gathering st.cl.pc) :
    (∃ cl' fds' evs, ClientStep b st.cl (fun _ => none) 0 .go cl' fds' evs ∧
        st.next b = { st with cl := cl' }) ∨
      (∃ n cl' fds' evs, Wants st.cl n ∧
        ClientStep b st.cl (fun _ => none) 0
          (.read ((st.feed st.cl.i).fread n).1 ((st.feed st.cl.i).fread n).2.1) cl' fds' evs ∧
        st.next b = { st with
          cl := cl'
          feed := Function.update st.feed st.cl.i ((st.feed st.cl.i).fread n).2.2 }) ∨
      st.cl.pc = .query ∧ st.next b =
        { st with
          cl := { st.cl with batch := [], bufoffset := 0, pc := .top }
          out := st.out ++ gathered st.cl } := by
  have hgo : ∀ {a : ClientAct}, (∀ s, clientgo b st.cl (fun _ => none) 0 a ≠ .error s) →
      ∃ cl' fds' evs, ClientStep b st.cl (fun _ => none) 0 a cl' fds' evs ∧
        st.go b a = { st with cl := cl' } := by
    intro a hok
    cases hres : clientgo b st.cl (fun _ => none) 0 a with
    | ok res =>
        obtain ⟨cl', fds', evs⟩ := res
        exact ⟨cl', fds', evs, clientgo_step hres, by simp only [go, hres]⟩
    | error s => exact (hok s hres).elim
  have hread : ∀ n, Wants st.cl n → st.next b = st.fed b n → (∃ n cl' fds' evs, Wants st.cl n ∧
      ClientStep b st.cl (fun _ => none) 0
        (.read ((st.feed st.cl.i).fread n).1 ((st.feed st.cl.i).fread n).2.1) cl' fds' evs ∧
      st.next b = { st with
        cl := cl'
        feed := Function.update st.feed st.cl.i ((st.feed st.cl.i).fread n).2.2 }) := by
    intro n hn hnext
    obtain ⟨cl', fds', evs, hstep, hst⟩ := hgo
      (a := .read ((st.feed st.cl.i).fread n).1 ((st.feed st.cl.i).fread n).2.1) (by
        intro s hs
        rcases hn with ⟨got, hgot, -⟩ | ⟨q, bread, hq, -⟩
        · simp only [clientgo, Client.read, hgot] at hs
          split at hs
          · cases hs
          · next hcl => split at hcl <;> cases hcl
        · simp only [clientgo, Client.read, hq] at hs
          split at hs
          · cases hs
          · next hcl => split at hcl <;> cases hcl)
    refine ⟨n, cl', fds', evs, hn, hstep, ?_⟩
    rw [hnext]
    simp only [fed, hst]
  cases hp : st.cl.pc with
  | header got => exact .inr (.inl (hread _ (.inl ⟨got, hp, rfl⟩) (by simp only [next, hp])))
  | value q bread =>
      exact .inr (.inl (hread _ (.inr ⟨q, bread, hp, rfl⟩) (by simp only [next, hp])))
  | query => exact .inr (.inr ⟨rfl, by simp only [next, hp]⟩)
  | result todo | slot k | write k sock iovs =>
      rw [hp] at hpc
      exact hpc.elim
  | top =>
      have hnext : st.next b = st.go b .go := by simp only [next, hp]
      rw [hnext]
      refine .inl (hgo fun s hs => ?_)
      simp only [clientgo, hp] at hs
      cases hs
  | closing line target =>
      have hnext : st.next b = st.go b .go := by simp only [next, hp]
      rw [hnext]
      refine .inl (hgo fun s hs => ?_)
      simp only [clientgo, hp] at hs
      cases hs
  | check =>
      have hnext : st.next b = st.go b .go := by simp only [next, hp]
      rw [hnext]
      refine .inl (hgo fun s hs => ?_)
      simp only [clientgo, hp] at hs
      split at hs
      · cases hs
      · split at hs <;> cases hs
  | tail =>
      have hnext : st.next b = st.go b .go := by simp only [next, hp]
      rw [hnext]
      refine .inl (hgo fun s hs => ?_)
      simp only [clientgo, hp] at hs
      split at hs
      · split at hs <;> cases hs
      · cases hs

/-! ### What is left of a stream -/

/-- The bytes of slot `sid` that have not become queries. -/
def unread (st : Reader) (sid : ℕ) : List UInt8 := begun st.cl sid ++ (st.feed sid).bytes

/-- Slot `sid` still has to give the queries `rest`, as far as their bytes arrive. -/
structure Owes (target : List (HashQuery × List UInt8)) (st : Reader) (sid : ℕ)
    (rest : List ClientQuery) : Prop where
  ok : ∀ q ∈ rest, q.Ok
  target : target = taken sid (st.out ++ gathered st.cl) ++
    (complete rest (st.unread sid).length).map ClientQuery.request
  unread : st.unread sid <+: sendqueries rest
  whole : (st.feed sid).closed = false → st.unread sid = sendqueries rest

theorem Owes.congr {target : List (HashQuery × List UInt8)} {st st' : Reader} {sid : ℕ}
    {rest : List ClientQuery} (h : Owes target st sid rest)
    (hout : taken sid (st'.out ++ gathered st'.cl) = taken sid (st.out ++ gathered st.cl))
    (hunread : st'.unread sid = st.unread sid) (hclosed : (st'.feed sid).closed = (st.feed sid).closed) :
    Owes target st' sid rest where
  ok := h.ok
  target := by rw [hout, hunread]; exact h.target
  unread := by rw [hunread]; exact h.unread
  whole := by rw [hunread, hclosed]; exact h.whole

@[simp] theorem taken_nil (sid : ℕ) : taken sid [] = [] := rfl

theorem taken_append (sid : ℕ) (ps ps' : List (ℕ × (HashQuery × List UInt8))) :
    taken sid (ps ++ ps') = taken sid ps ++ taken sid ps' := List.filterMap_append

theorem taken_singleton (sid : ℕ) (p : ℕ × (HashQuery × List UInt8)) :
    taken sid [p] = if p.1 = sid then [p.2] else [] := by
  by_cases h : p.1 = sid <;> simp [taken, h]

/-- The header of the first query that is owed. -/
theorem head_of_header {bs : List UInt8} (more : List UInt8) {rest : List ClientQuery} (hlen : bs.length = QUERY_SIZE)
    (hok : ∀ q ∈ rest, q.Ok) (h : bs ++ more <+: sendqueries rest) :
    ∃ q rest', rest = q :: rest' ∧ bs = q.header.bytes ∧ HashQuery.ofBytes bs = q.header ∧ q.Ok := by
  cases rest with
  | nil =>
      have hnil : bs ++ more = [] := List.prefix_nil.mp h
      have hbs : bs = [] := (List.append_eq_nil_iff.mp hnil).1
      rw [hbs] at hlen
      cases hlen
  | cons q rest' =>
      have hq := hok q List.mem_cons_self
      have hbs : bs = q.header.bytes := by
        have hpre : bs <+: sendqueries (q :: rest') := (List.prefix_append bs more).trans h
        have hpre' : q.header.bytes <+: sendqueries (q :: rest') := by
          rw [sendqueries_cons, sendquery, List.append_assoc]
          exact List.prefix_append _ _
        exact (List.prefix_of_prefix_length_le hpre hpre' (by
          rw [hlen, HashQuery.length_bytes])).eq_of_length (by rw [hlen, HashQuery.length_bytes])
      refine ⟨q, rest', rfl, hbs, ?_, hq⟩
      rw [hbs]
      exact hq.ofBytes_header

/-- An object that is complete comes off the stream. -/
theorem Owes.shift {target : List (HashQuery × List UInt8)} {st st' : Reader} {sid : ℕ}
    {q : ClientQuery} {rest : List ClientQuery} (h : Owes target st sid (q :: rest))
    (hunread : st.unread sid = sendquery q ++ st'.unread sid)
    (hclosed : (st'.feed sid).closed = (st.feed sid).closed)
    (hout : taken sid (st'.out ++ gathered st'.cl)
      = taken sid (st.out ++ gathered st.cl) ++ [q.request]) : Owes target st' sid rest where
  ok := fun q' hq' => h.ok q' (List.mem_cons_of_mem _ hq')
  target := by
    rw [h.target, hout, hunread, complete, List.length_append, if_pos (by omega),
      Nat.add_sub_cancel_left, List.map_cons, List.append_assoc, List.singleton_append]
  unread := by
    have hpre := h.unread
    rwa [hunread, sendqueries_cons, List.prefix_append_right_inj] at hpre
  whole := by
    intro hc
    have heq := h.whole (by rw [← hclosed]; exact hc)
    rw [hunread, sendqueries_cons] at heq
    exact List.append_cancel_left heq

/-- An object that is cut off is given up with the connection. -/
theorem Owes.cut {target : List (HashQuery × List UInt8)} {st st' : Reader} {sid : ℕ}
    {rest : List ClientQuery} (h : Owes target st sid rest)
    (hshort : ∀ q rest', rest = q :: rest' → (st.unread sid).length < (sendquery q).length)
    (hnone : st'.unread sid = []) (hclosed : (st'.feed sid).closed = true)
    (hout : taken sid (st'.out ++ gathered st'.cl) = taken sid (st.out ++ gathered st.cl)) :
    Owes target st' sid rest where
  ok := h.ok
  target := by
    have hnow : complete rest (st.unread sid).length = [] := by
      cases rest with
      | nil => rfl
      | cons q rest' =>
          have hlt := hshort q rest' rfl
          rw [complete, if_neg (by omega)]
    rw [h.target, hout, hnone, hnow, List.length_nil, complete_zero]
  unread := by
    rw [hnone]
    exact List.nil_prefix
  whole := by
    intro hc
    rw [hclosed] at hc
    cases hc

/-- The invariant of the thread. -/
structure Sound (target : ℕ → List (HashQuery × List UInt8)) (st : Reader) : Prop where
  pc : Gathering st.cl.pc
  packed : Packed st.cl
  i_lt : st.cl.i < MAX_SOCKETS
  last_lt : st.cl.lastSocket < MAX_SOCKETS
  top : st.cl.pc = .top → st.cl.batch = []
  header : ∀ got, st.cl.pc = .header got → got.length < QUERY_SIZE ∧ st.cl.cd.sockets st.cl.i ≠ -1 ∧
    st.cl.bufoffset + MAX_VALUE_SIZE < VALUE_BUFFER_SIZE
  value : ∀ q n, st.cl.pc = .value q n → st.cl.cd.sockets st.cl.i ≠ -1 ∧ (n < q.size ∨ n = 0) ∧
    q.key < 2 ^ 64
  query : st.cl.pc = .query → st.cl.batch ≠ []
  closing : ∀ line tgt, st.cl.pc = .closing line tgt → st.cl.cd.sockets st.cl.i ≠ -1 ∧
    (st.feed st.cl.i).pieces = [] ∧ (st.feed st.cl.i).closed = true
  shut : ∀ sid, st.cl.cd.sockets sid = -1 → (st.feed sid).pieces = [] ∧ (st.feed sid).closed = true
  owes : ∀ sid, ∃ rest, Owes (target sid) st sid rest
  nonzero : ∀ p ∈ st.out ++ gathered st.cl, p.2.1.optype = OPTYPE_INSERT → p.2.1.size ≠ 4

/-- A step between two objects. -/
theorem Sound.between {target : ℕ → List (HashQuery × List UInt8)} {st : Reader} {cl : Client}
    (h : Sound target st) (hpc : Gathering cl.pc) (hpacked : Packed cl) (hi : cl.i < MAX_SOCKETS)
    (hlast : cl.lastSocket < MAX_SOCKETS) (htop : cl.pc ≠ .top) (hbatch : cl.batch = st.cl.batch)
    (hbuf : cl.valuebuf = st.cl.valuebuf) (hbegun : ∀ sid, begun st.cl sid = [])
    (hbegun' : ∀ sid, begun cl sid = [])
    (hheader : ∀ got, cl.pc = .header got → got.length < QUERY_SIZE ∧ cl.cd.sockets cl.i ≠ -1 ∧
      cl.bufoffset + MAX_VALUE_SIZE < VALUE_BUFFER_SIZE)
    (hvalue : ∀ q n, cl.pc ≠ .value q n) (hquery : cl.pc = .query → cl.batch ≠ [])
    (hclosing : ∀ line tgt, cl.pc = .closing line tgt → cl.cd.sockets cl.i ≠ -1 ∧
      (st.feed cl.i).pieces = [] ∧ (st.feed cl.i).closed = true)
    (hshut : ∀ sid, cl.cd.sockets sid = -1 →
      (st.feed sid).pieces = [] ∧ (st.feed sid).closed = true) : Sound target { st with cl := cl } where
  pc := hpc
  packed := hpacked
  i_lt := hi
  last_lt := hlast
  top := fun h' => (htop h').elim
  header := hheader
  value := fun q n h' => (hvalue q n h').elim
  query := hquery
  closing := hclosing
  shut := hshut
  owes := by
    intro sid
    obtain ⟨rest, howes⟩ := h.owes sid
    refine ⟨rest, howes.congr ?_ ?_ rfl⟩
    · simp only [gathered, hbatch, hbuf]
    · simp only [unread, hbegun, hbegun']
  nonzero := by
    have hold := h.nonzero
    simp only [gathered, hbatch, hbuf] at hold ⊢
    exact hold

theorem begun_of_pc (cl : Client) (hheader : ∀ got, cl.pc = .header got → got = [])
    (hvalue : ∀ q n, cl.pc ≠ .value q n) (sid : ℕ) : begun cl sid = [] := by
  unfold begun
  split
  · split
    · next got hpc => exact hheader got hpc
    · next q n hpc => exact (hvalue q n hpc).elim
    · rfl
  · rfl

theorem Sound.step_go {b : ℕ} {target : ℕ → List (HashQuery × List UInt8)} {st : Reader} {cl : Client}
    {fds : ℤ → Option ℕ} {evs : List ServerEvent} (hb : 0 < b) (h : Sound target st)
    (hstep : ClientStep b st.cl (fun _ => none) 0 .go cl fds evs) : Sound target { st with cl := cl } := by
  have hpacked := h.packed.step (a := .go) trivial hstep
  have hi : (st.cl.i + 1) % MAX_SOCKETS < MAX_SOCKETS := Nat.mod_lt _ (by decide)
  have hgath := h.pc
  have hbegun : ∀ pc, st.cl.pc = pc → (∀ got, pc = .header got → got = []) →
      (∀ q n, pc ≠ .value q n) → ∀ sid, begun st.cl sid = [] := fun pc hpc hh hv =>
    begun_of_pc _ (fun got hg => hh got (hpc.symm.trans hg)) (fun q n hg => hv q n (hpc.symm.trans hg))
  cases hstep with
  | newBatch hpc =>
      refine h.between trivial hpacked h.last_lt h.last_lt (by simp) (h.top hpc).symm rfl
        (hbegun _ hpc (by simp) (by simp)) (begun_of_pc _ (by simp) (by simp)) (by simp) (by simp)
        (by simp) (by simp) h.shut
  | batchFull hpc hfull =>
      refine h.between trivial hpacked h.i_lt h.last_lt (by simp) rfl rfl
        (hbegun _ hpc (by simp) (by simp)) (begun_of_pc _ (by simp) (by simp)) (by simp) (by simp)
        ?_ (by simp) h.shut
      -- an empty batch is not full
      intro _ hnil
      have hnil : st.cl.batch = [] := hnil
      have hoff := h.packed.offset
      rw [hnil] at hfull hoff
      have hmax : VALUE_BUFFER_SIZE = 2 * MAX_VALUE_SIZE := rfl
      have hpos : 0 < MAX_VALUE_SIZE := by decide
      simp only [batchRegions, List.filter_nil, List.map_nil, extent_nil, List.length_nil] at hfull hoff
      omega
  | openSlot hpc _ hoff hsock =>
      refine h.between trivial hpacked h.i_lt h.last_lt (by simp) rfl rfl
        (hbegun _ hpc (by simp) (by simp)) (begun_of_pc _ (by simp) (by simp)) ?_ (by simp)
        (by simp) (by simp) h.shut
      intro got hgot
      cases hgot
      exact ⟨by decide, hsock, hoff⟩
  | emptySlot hpc _ _ _ =>
      exact h.between trivial hpacked h.i_lt h.last_lt (by simp) rfl rfl
        (hbegun _ hpc (by simp) (by simp)) (begun_of_pc _ (by simp) (by simp)) (by simp) (by simp)
        (by simp) (by simp) h.shut
  | nextSlot hpc _ _ =>
      exact h.between trivial hpacked hi h.last_lt (by simp) rfl rfl
        (hbegun _ hpc (by simp) (by simp)) (begun_of_pc _ (by simp) (by simp)) (by simp) (by simp)
        (by simp) (by simp) h.shut
  | roundDone hpc _ hbatch _ =>
      exact h.between trivial hpacked hi h.last_lt (by simp) rfl rfl
        (hbegun _ hpc (by simp) (by simp)) (begun_of_pc _ (by simp) (by simp)) (by simp) (by simp)
        (fun _ => hbatch) (by simp) h.shut
  | sameSlot hpc _ _ =>
      exact h.between trivial hpacked h.i_lt h.last_lt (by simp) rfl rfl
        (hbegun _ hpc (by simp) (by simp)) (begun_of_pc _ (by simp) (by simp)) (by simp) (by simp)
        (by simp) (by simp) h.shut
  | fclose hpc | close hpc | uncount hpc =>
      exact h.between trivial hpacked h.i_lt h.last_lt (by simp) rfl rfl
        (hbegun _ hpc (by simp) (by simp)) (begun_of_pc _ (by simp) (by simp)) (by simp) (by simp)
        (by simp) (fun _ _ _ => h.closing _ _ hpc) h.shut
  | clearSlot hpc _ =>
      refine h.between trivial hpacked h.i_lt h.last_lt (by simp) rfl rfl
        (hbegun _ hpc (by simp) (by simp)) (begun_of_pc _ (by simp) (by simp)) (by simp) (by simp)
        (by simp) (by simp) ?_
      intro sid hsid
      by_cases hs : sid = st.cl.i
      · rw [hs]
        exact (h.closing _ _ hpc).2
      · simp only [Function.update_of_ne hs] at hsid
        exact h.shut sid hsid
  | kept hpc _ _ | dropped hpc _ _ | filled hpc _ | resultsDone hpc | writeSlot hpc _ _
  | skipSlot hpc _ _ | slotsDone hpc _ =>
      rw [hpc] at hgath
      exact hgath.elim

/-- The batch is taken up. -/
theorem Sound.step_query {target : ℕ → List (HashQuery × List UInt8)} {st : Reader}
    (h : Sound target st) (hpc : st.cl.pc = .query) :
    Sound target { st with
      cl := { st.cl with batch := [], bufoffset := 0, pc := .top }
      out := st.out ++ gathered st.cl } where
  pc := trivial
  packed := ⟨trivial, rfl, Nat.zero_le _, by simp⟩
  i_lt := h.i_lt
  last_lt := h.last_lt
  top := fun _ => rfl
  header := by simp
  value := by simp
  query := by simp
  closing := by simp
  shut := h.shut
  owes := by
    intro sid
    obtain ⟨rest, howes⟩ := h.owes sid
    refine ⟨rest, howes.congr (by simp [gathered]) ?_ rfl⟩
    have hnone : begun st.cl sid = [] := begun_of_pc _ (by simp [hpc]) (by simp [hpc]) sid
    simp only [unread, hnone, begun_of_pc { st.cl with batch := [], bufoffset := 0, pc := .top }
      (by simp) (by simp) sid]
  nonzero := by
    have hold := h.nonzero
    simpa [gathered] using hold

/-! ### Reading -/

/-- What is read behind the values of the batch leaves them alone. -/
theorem gathered_store {cl : Client} (h : Packed cl) (n : ℕ) (bs : List UInt8) :
    (cl.batch.map fun e => (e.sid, e.request (storeBytes cl.valuebuf (cl.bufoffset + n) bs)))
      = gathered cl := by
  apply List.map_congr_left
  intro e he
  unfold Entry.request
  split
  · next hop =>
    have hmem : (e.offset, e.valueSize) ∈ batchRegions cl.batch :=
      List.mem_map.mpr ⟨e, List.mem_filter.mpr ⟨he, by simpa using hop⟩, rfl⟩
    have hle := (h.laid.bounds hmem).2
    rw [loadBytes_store_of_le (by have := h.offset; simp only at hle; omega)]
  · rfl

/-- A read from the connection of the thread's slot. -/
theorem Sound.read {target : ℕ → List (HashQuery × List UInt8)} {st : Reader} {cl : Client} {f : Feed}
    (h : Sound target st) (new : List (ℕ × (HashQuery × List UInt8))) (hpc : Gathering cl.pc)
    (hpacked : Packed cl) (hi : cl.i = st.cl.i) (hcd : cl.cd = st.cl.cd)
    (hlast : cl.lastSocket < MAX_SOCKETS) (htop : cl.pc ≠ .top)
    (hsock : st.cl.cd.sockets st.cl.i ≠ -1)
    (hheader : ∀ got, cl.pc = .header got → got.length < QUERY_SIZE ∧
      cl.bufoffset + MAX_VALUE_SIZE < VALUE_BUFFER_SIZE)
    (hvalue : ∀ q n, cl.pc = .value q n → (n < q.size ∨ n = 0) ∧ q.key < 2 ^ 64)
    (hquery : cl.pc ≠ .query)
    (hclosing : ∀ line tgt, cl.pc = .closing line tgt → f.pieces = [] ∧ f.closed = true)
    (hnew : ∀ p ∈ new, p.1 = st.cl.i ∧ (p.2.1.optype = OPTYPE_INSERT → p.2.1.size ≠ 4))
    (hgath : gathered cl = gathered st.cl ++ new)
    (howes : ∃ rest, Owes (target st.cl.i) { st with
      cl := cl
      feed := Function.update st.feed st.cl.i f } st.cl.i rest) :
    Sound target { st with cl := cl, feed := Function.update st.feed st.cl.i f } where
  pc := hpc
  packed := hpacked
  i_lt := by rw [hi]; exact h.i_lt
  last_lt := hlast
  top := fun h' => (htop h').elim
  header := by
    intro got hgot
    rw [hi, hcd]
    exact ⟨(hheader got hgot).1, hsock, (hheader got hgot).2⟩
  value := by
    intro q n hq
    rw [hi, hcd]
    exact ⟨hsock, hvalue q n hq⟩
  query := fun h' => (hquery h').elim
  closing := by
    intro line tgt hl
    simp only [hi, hcd, Function.update_self]
    exact ⟨hsock, hclosing line tgt hl⟩
  shut := by
    intro sid hsid
    rw [hcd] at hsid
    have hne : sid ≠ st.cl.i := by
      intro heq
      rw [heq] at hsid
      exact hsock hsid
    simp only [Function.update_of_ne hne]
    exact h.shut sid hsid
  owes := by
    intro sid
    by_cases hs : sid = st.cl.i
    · rw [hs]
      exact howes
    · obtain ⟨rest, hold⟩ := h.owes sid
      have hnone : taken sid new = [] := by
        refine List.filterMap_eq_nil_iff.mpr fun p hp => ?_
        rw [if_neg (fun heq => hs (heq.symm.trans (hnew p hp).1))]
      refine ⟨rest, hold.congr ?_ ?_ ?_⟩
      · simp only [hgath, taken_append, hnone, List.append_nil]
      · simp only [unread, begun, hi, if_neg (Ne.symm hs), Function.update_of_ne hs]
      · simp only [Function.update_of_ne hs]
  nonzero := by
    intro p hp
    rw [hgath, ← List.append_assoc] at hp
    rcases List.mem_append.mp hp with hold | hp
    · exact h.nonzero p hold
    · exact (hnew p hp).2

theorem begun_header (cl : Client) {got : List UInt8} (hpc : cl.pc = .header got) :
    begun cl cl.i = got := by simp only [begun, if_true, hpc]

theorem begun_value (cl : Client) {q : HashQuery} {n : ℕ} (hpc : cl.pc = .value q n) :
    begun cl cl.i = q.bytes ++ loadBytes cl.valuebuf cl.bufoffset n := by
  simp only [begun, if_true, hpc]

/-- An error is the end of the stream. -/
theorem eof_of_error {n : ℕ} {f f' : Feed} {bs : List UInt8} {e : ReadEnd} (h : Fread n f bs e f')
    (he : streamError e = true) :
    f.closed = true ∧ f'.closed = true ∧ f'.pieces = [] ∧ bs.length < n := by
  cases e with
  | eof =>
      obtain ⟨hclosed, hpieces⟩ := h.eof rfl
      have hlen : bs.length ≠ n := fun heq => by cases h.ok.2.mpr heq
      have hle := h.ok.1
      exact ⟨hclosed, h.closed.trans hclosed, hpieces, by omega⟩
  | fail => exact (h.noFail rfl).elim
  | full | again => cases he

/-- A read of a query. -/
theorem Sound.step_header {b : ℕ} {target : ℕ → List (HashQuery × List UInt8)} {st : Reader}
    {cl : Client} {fds : ℤ → Option ℕ} {evs : List ServerEvent} {got bs : List UInt8} {e : ReadEnd}
    {f : Feed} (h : Sound target st) (hpc : st.cl.pc = .header got)
    (hfread : Fread (QUERY_SIZE - got.length) (st.feed st.cl.i) bs e f)
    (hstep : ClientStep b st.cl (fun _ => none) 0 (.read bs e) cl fds evs) :
    Sound target { st with cl := cl, feed := Function.update st.feed st.cl.i f } := by
  obtain ⟨hgot, hsock, hoff⟩ := h.header got hpc
  obtain ⟨rest, howes⟩ := h.owes st.cl.i
  have hold : st.unread st.cl.i = got ++ bs ++ f.bytes := by
    rw [unread, begun_header _ hpc, ← hfread.bytes, List.append_assoc]
  have hle := hfread.ok.1
  -- a header that is complete is that of the first query owed
  have hhead : QUERY_SIZE ≤ got.length + bs.length → ∃ q rest', rest = q :: rest' ∧
      got ++ bs = q.header.bytes ∧ HashQuery.ofBytes (got ++ bs) = q.header ∧ q.Ok := by
    intro hfull
    refine head_of_header f.bytes ?_ howes.ok ?_
    · rw [List.length_append]
      omega
    · rw [← hold]
      exact howes.unread
  have hroom : (ClientAct.read bs e).Room st.cl := by
    simp only [ClientAct.Room, hpc]
    intro hret hop
    obtain ⟨q, rest', -, -, hq, hok⟩ := hhead (readObject_done hret).1
    rw [hq] at hop ⊢
    have hsize : q.size ≤ MAX_VALUE_SIZE := by
      rcases hok.2 with ⟨hop', -⟩ | ⟨-, hsize, -⟩
      · rw [ClientQuery.header, hop'] at hop
        cases hop
      · exact hsize
    have hext := h.packed.offset
    show _ + q.size ≤ _
    omega
  have hpacked := h.packed.step hroom hstep
  have hclosed : (Function.update st.feed st.cl.i f st.cl.i).closed = (st.feed st.cl.i).closed := by
    rw [Function.update_self, hfread.closed]
  cases hstep with
  | moreHeader hpc' hret =>
      rw [hpc] at hpc'
      cases hpc'
      have hmore := readObject_more hret
      refine h.read [] trivial hpacked rfl rfl h.last_lt (by simp) hsock ?_ (by simp) (by simp)
        (by simp) (by simp) (List.append_nil _).symm ⟨rest, howes.congr rfl ?_ hclosed⟩
      · intro got' hgot'
        cases hgot'
        rw [List.length_append]
        exact ⟨by omega, hoff⟩
      · rw [hold]
        simp only [unread, Function.update_self]
        rw [begun_header { st.cl with pc := .header (got ++ bs) } rfl]
  | @lookup _ _ _ q hpc' hret hq hop =>
      rw [hpc] at hpc'
      cases hpc'
      obtain ⟨cq, rest', hrest, hbs, hcq, hok⟩ := hhead (readObject_done hret).1
      rw [← hq] at hcq
      have hcop : cq.optype = OPTYPE_LOOKUP := by
        rw [← hop, hcq]
        rfl
      have hne : ¬ cq.optype = OPTYPE_INSERT := by
        rw [hcop]
        decide
      have hne' : ¬ q.optype = OPTYPE_INSERT := by
        rw [hop]
        decide
      rw [hrest] at howes
      refine h.read [(st.cl.i, (q, []))] trivial hpacked rfl rfl h.i_lt (by simp) hsock
        (by simp) (by simp) (by simp) (by simp) ?_ ?_ ⟨rest', howes.shift ?_ hclosed ?_⟩
      · intro p hp
        rw [List.mem_singleton.mp hp]
        exact ⟨rfl, fun hins => (hne' hins).elim⟩
      · simp [gathered, Entry.request, hne']
      · rw [hold, sendquery_lookup hcop, ← hbs]
        simp only [unread, Function.update_self]
        rw [begun_of_pc _ (by simp) (by simp), List.nil_append]
      · simp [gathered, Entry.request, hne', taken_append, taken_singleton, ClientQuery.request, hne,
          ← hcq]
  | @insert _ _ _ q hpc' hret hq hop =>
      rw [hpc] at hpc'
      cases hpc'
      obtain ⟨cq, rest', -, -, hcq, hok⟩ := hhead (readObject_done hret).1
      have hkey : q.key < 2 ^ 64 := by
        rw [hq, hcq]
        exact hok.1
      have hlen : (got ++ bs).length = QUERY_SIZE := by
        have := (readObject_done hret).1
        rw [List.length_append]
        omega
      refine h.read [] trivial hpacked rfl rfl h.i_lt (by simp) hsock (by simp) ?_ (by simp)
        (by simp) (by simp) (List.append_nil _).symm ⟨rest, howes.congr rfl ?_ hclosed⟩
      · intro q' n' hq'
        cases hq'
        exact ⟨.inr rfl, hkey⟩
      · rw [hold]
        simp only [unread, Function.update_self]
        rw [begun_value { st.cl with r := 0, lastSocket := st.cl.i, pc := .value q 0 } rfl, hq,
          HashQuery.bytes_ofBytes hlen]
        simp [loadBytes]
  | @invalid _ _ _ q hpc' hret hq hlookup hinsert =>
      rw [hpc] at hpc'
      cases hpc'
      obtain ⟨cq, rest', -, -, hcq, hok⟩ := hhead (readObject_done hret).1
      rw [hq, hcq] at hlookup hinsert
      rcases hok.optype with hop | hop
      · exact (hlookup hop).elim
      · exact (hinsert hop).elim
  | @noHeader _ _ _ r hpc' hret hr =>
      rw [hpc] at hpc'
      cases hpc'
      by_cases hr1 : r = 1
      · rw [hr1] at hret
        obtain ⟨hgot0, hbs0, -⟩ := readObject_later hret
        have hbs : bs = [] := List.eq_nil_of_length_eq_zero hbs0
        have hgotn : got = [] := List.eq_nil_of_length_eq_zero hgot0
        simp only [Client.fails, hr1] at hpacked ⊢
        refine h.read [] trivial hpacked rfl rfl h.last_lt (by simp) hsock (by simp) (by simp)
          (by simp) (by simp) (by simp) (List.append_nil _).symm ⟨rest, howes.congr rfl ?_ hclosed⟩
        rw [hold, hbs, hgotn]
        simp only [unread, Function.update_self]
        rw [begun_of_pc _ (by simp) (by simp)]
        rfl
      · obtain ⟨hr2, herr⟩ := readObject_error hret hr hr1
        obtain ⟨-, hclosed', hpieces, hlt⟩ := eof_of_error hfread herr
        have hnil : f.bytes = [] := by rw [Feed.bytes, hpieces, List.flatten_nil]
        simp only [Client.fails, hr2] at hpacked ⊢
        refine h.read [] trivial hpacked rfl rfl h.last_lt (by simp) hsock (by simp) (by simp)
          (by simp) (fun _ _ _ => ⟨hpieces, hclosed'⟩) (by simp) (List.append_nil _).symm
          ⟨rest, howes.cut ?_ ?_ ?_ rfl⟩
        · intro q rest' _
          have := length_sendquery q
          rw [hold, hnil, List.append_nil, List.length_append]
          omega
        · simp only [unread, Function.update_self, hnil, List.append_nil]
          exact begun_of_pc _ (by simp) (by simp) _
        · simp only [Function.update_self]
          exact hclosed'
  | moreValue hpc' _ | insertDone hpc' _ _ | retryValue hpc' _ | noValue hpc' _ _ _ =>
      rw [hpc] at hpc'
      cases hpc'

/-- A value that is being read is that of the first query owed. -/
theorem Sound.value_head {n : ℕ} {target : ℕ → List (HashQuery × List UInt8)} {st : Reader}
    {q : HashQuery} {rest : List ClientQuery} (h : Sound target st) (hpc : st.cl.pc = .value q n)
    (howes : Owes (target st.cl.i) st st.cl.i rest) :
    ∃ cq rest', rest = cq :: rest' ∧ q = cq.header ∧ cq.Ok ∧ cq.optype = OPTYPE_INSERT ∧
      cq.value.length = q.size ∧ sendquery cq = q.bytes ++ cq.value := by
  obtain ⟨-, -, hkey⟩ := h.value q n hpc
  obtain ⟨hop, hfit⟩ := h.packed.value q n hpc
  have hsmall : VALUE_BUFFER_SIZE < 2 ^ 31 := by decide
  have hpre := howes.unread
  rw [unread, begun_value _ hpc, List.append_assoc] at hpre
  obtain ⟨cq, rest', hrest, hbytes, hcq, hok⟩ := head_of_header _ (HashQuery.length_bytes q) howes.ok hpre
  rw [HashQuery.ofBytes_bytes (by rw [hop]; decide) (by omega) hkey] at hcq
  have hcop : cq.optype = OPTYPE_INSERT := by
    rw [← hop, hcq]
    rfl
  refine ⟨cq, rest', hrest, hcq, hok, hcop, ?_, by rw [sendquery_insert hok hcop, hbytes]⟩
  rcases hok.2 with ⟨hop', -⟩ | ⟨-, -, hlen⟩
  · rw [hcop] at hop'
    cases hop'
  · rw [hlen, hcq]
    rfl

/-- A read of a value. -/
theorem Sound.step_value {b n : ℕ} {target : ℕ → List (HashQuery × List UInt8)} {st : Reader}
    {cl : Client} {fds : ℤ → Option ℕ} {evs : List ServerEvent} {q : HashQuery} {bs : List UInt8}
    {e : ReadEnd} {f : Feed} (h : Sound target st) (hpc : st.cl.pc = .value q n)
    (hfread : Fread (q.size - n) (st.feed st.cl.i) bs e f)
    (hstep : ClientStep b st.cl (fun _ => none) 0 (.read bs e) cl fds evs) :
    Sound target { st with cl := cl, feed := Function.update st.feed st.cl.i f } := by
  obtain ⟨hsock, hn, hkey⟩ := h.value q n hpc
  obtain ⟨hop, hfit⟩ := h.packed.value q n hpc
  obtain ⟨rest, howes⟩ := h.owes st.cl.i
  have hsmall : VALUE_BUFFER_SIZE < 2 ^ 31 := by decide
  have hle := hfread.ok.1
  have hold : st.unread st.cl.i
      = q.bytes ++ (loadBytes st.cl.valuebuf st.cl.bufoffset n ++ bs ++ f.bytes) := by
    rw [unread, begun_value _ hpc, ← hfread.bytes]
    simp only [List.append_assoc]
  have hload := loadBytes_store_append st.cl.valuebuf st.cl.bufoffset n bs
  obtain ⟨cq, rest', hrest, hcq, hok, hcop, hclen, hsend⟩ := h.value_head hpc howes
  have hpacked := h.packed.step (a := .read bs e) (by simp only [ClientAct.Room, hpc]) hstep
  have hclosed : (Function.update st.feed st.cl.i f st.cl.i).closed = (st.feed st.cl.i).closed := by
    rw [Function.update_self, hfread.closed]
  have hgath := gathered_store h.packed n bs
  cases hstep with
  | @moreValue _ _ m _ _ hpc' hret =>
      rw [hpc] at hpc'
      cases hpc'
      obtain ⟨rfl, -, hlt⟩ := readObject_more hret
      refine h.read [] trivial hpacked rfl rfl h.last_lt (by simp) hsock (by simp) ?_ (by simp)
        (by simp) (by simp) (hgath.trans (List.append_nil _).symm) ⟨rest, howes.congr ?_ ?_ hclosed⟩
      · intro q' n' hq'
        cases hq'
        exact ⟨.inl hlt, hkey⟩
      · simp only [gathered] at hgath ⊢
        rw [hgath]
      · rw [hold]
        simp only [unread, Function.update_self]
        rw [begun_value { st.cl with
          valuebuf := storeBytes st.cl.valuebuf (st.cl.bufoffset + n) bs
          pc := .value q (n + bs.length) } rfl]
        simp only [hload, List.append_assoc]
  | @insertDone _ _ _ _ ent hpc' hret hent =>
      rw [hpc] at hpc'
      cases hpc'
      obtain ⟨hfull, hpos⟩ := readObject_done hret
      have hsize : n + bs.length = q.size := by omega
      have hvalue : loadBytes st.cl.valuebuf st.cl.bufoffset n ++ bs = cq.value := by
        have hpre := howes.unread
        rw [hold, hrest, sendqueries_cons, hsend, List.append_assoc q.bytes,
          List.prefix_append_right_inj] at hpre
        have hlen : (loadBytes st.cl.valuebuf st.cl.bufoffset n ++ bs).length = cq.value.length := by
          rw [List.length_append, length_loadBytes, hclen, hsize]
        exact (List.prefix_of_prefix_length_le ((List.prefix_append _ _).trans hpre)
          (List.prefix_append _ _) hlen.le).eq_of_length hlen
      have hreq : ent.request (storeBytes st.cl.valuebuf (st.cl.bufoffset + n) bs) = cq.request := by
        have hvs : ent.valueSize = n + bs.length := by
          simp only [Entry.valueSize, hent]
          omega
        have heop : ent.query.optype = OPTYPE_INSERT := by
          rw [hent]
          exact hop
        rw [Entry.request, if_pos heop, hvs, ClientQuery.request, if_pos hcop, ← hvalue, ← hload]
        simp only [hent, Prod.mk.injEq, and_true]
        rw [Nat.mod_eq_of_lt (by omega), hcq]
        rfl
      have hgath' : gathered { st.cl with
          valuebuf := storeBytes st.cl.valuebuf (st.cl.bufoffset + n) bs
          r := 0
          batch := st.cl.batch ++ [ent]
          bufoffset := bumpOffset st.cl.bufoffset q.size
          pc := .tail } = gathered st.cl ++ [(st.cl.i, cq.request)] := by
        rw [← hgath, ← hreq]
        simp [gathered, hent]
      rw [hrest] at howes
      refine h.read [(st.cl.i, cq.request)] trivial hpacked rfl rfl h.last_lt (by simp) hsock
        (by simp) (by simp) (by simp) (by simp) ?_ hgath' ⟨rest', howes.shift ?_ hclosed ?_⟩
      · intro p hp
        rw [List.mem_singleton.mp hp]
        refine ⟨rfl, fun _ => ?_⟩
        have hcsize : cq.size = q.size := by
          rw [hcq]
          rfl
        rw [ClientQuery.request, if_pos hcop]
        show cq.size + 4 ≠ 4
        omega
      · rw [hold, hvalue, hsend, List.append_assoc]
        simp only [unread, Function.update_self]
        rw [begun_of_pc _ (by simp) (by simp), List.nil_append]
      · simp only [hgath', taken_append, taken_singleton, if_true, List.append_assoc]
  | retryValue hpc' hret =>
      rw [hpc] at hpc'
      cases hpc'
      obtain ⟨rfl, hbs0, -⟩ := readObject_later hret
      have hbs : bs = [] := List.eq_nil_of_length_eq_zero hbs0
      refine h.read [] trivial hpacked rfl rfl h.last_lt (by simp) hsock (by simp) ?_ (by simp)
        (by simp) (by simp) (hgath.trans (List.append_nil _).symm) ⟨rest, howes.congr ?_ ?_ hclosed⟩
      · intro q' n' hq'
        cases hq'
        exact ⟨.inr rfl, hkey⟩
      · simp only [gathered] at hgath ⊢
        rw [hgath]
      · rw [hold, hbs]
        simp only [unread, Function.update_self]
        rw [begun_value { st.cl with
          valuebuf := storeBytes st.cl.valuebuf (st.cl.bufoffset + (0 : ℕ)) []
          r := 1
          pc := .value q 0 } rfl]
        simp [loadBytes]
  | @noValue _ _ _ _ r hpc' hret hr0 hr1 =>
      rw [hpc] at hpc'
      cases hpc'
      obtain ⟨hr2, herr⟩ := readObject_error hret hr0 hr1
      obtain ⟨-, hclosed', hpieces, hlt⟩ := eof_of_error hfread herr
      have hnil : f.bytes = [] := by rw [Feed.bytes, hpieces, List.flatten_nil]
      simp only [Client.fails, hr2] at hpacked ⊢
      refine h.read [] trivial hpacked rfl rfl h.last_lt (by simp) hsock (by simp) (by simp)
        (by simp) (fun _ _ _ => ⟨hpieces, hclosed'⟩) (by simp) (hgath.trans (List.append_nil _).symm)
        ⟨rest, howes.cut ?_ ?_ ?_ ?_⟩
      · intro q' rest'' hq'
        rw [hrest] at hq'
        cases hq'
        rw [hold, hsend, hnil]
        simp only [List.length_append, length_loadBytes, List.length_nil, HashQuery.length_bytes, hclen]
        omega
      · simp only [unread, Function.update_self, hnil, List.append_nil]
        exact begun_of_pc _ (by simp) (by simp) _
      · simp only [Function.update_self]
        exact hclosed'
      · simp only [gathered] at hgath ⊢
        rw [hgath]
  | moreHeader hpc' _ | lookup hpc' _ _ _ | insert hpc' _ _ _ | invalid hpc' _ _ _ _
  | noHeader hpc' _ _ =>
      rw [hpc] at hpc'
      cases hpc'

/-- Every step keeps the invariant. -/
theorem Sound.next {b : ℕ} {target : ℕ → List (HashQuery × List UInt8)} {st : Reader}
    (hb : 0 < b) (h : Sound target st) : Sound target (st.next b) := by
  rcases next_cases (b := b) h.pc with ⟨cl, fds, evs, hstep, hnext⟩ |
    ⟨n, cl, fds, evs, hwants, hstep, hnext⟩ | ⟨hpc, hnext⟩
  · rw [hnext]
    exact h.step_go hb hstep
  · rw [hnext]
    rcases hwants with ⟨got, hpc, rfl⟩ | ⟨q, bread, hpc, rfl⟩
    · exact h.step_header hpc (Feed.fread_spec _ _) hstep
    · exact h.step_value hpc (Feed.fread_spec _ _) hstep
  · rw [hnext]
    exact h.step_query hpc

end Reader

end HashServer

end SmpHashTable
