import SmpHashTable.Refinement

/-!
# Every response reaches its request

What a client sees of the message passing, read off the log of a run: servers execute its messages in
order, and the values it obtains are the responses to its requests, one for one and in order.
-/

namespace SmpHashTable

/-- What the log of a run on `n` servers shows for client `c`. -/
structure Delivered (n c : ℕ) (log : List Event) : Prop where
  /-- Every server executes the messages of the client in the order they were issued. -/
  in_order : ∀ s, executed c s log <+: (issued c s log).map Msg.op
  /-- A server answers the requests it was sent, one for one and in order. -/
  answered : ∀ s, (answers c s log).map Prod.fst <+:
    ((accepted c log).filter fun r => r.1 = s).map fun r => r.2.op
  /-- The responses are read as they were computed, each once and in order. -/
  unaltered : ∀ s, readFrom c s log <+: (answers c s log).map Prod.snd
  /-- The `i`-th value is the response of the owning server to the `i`-th request. -/
  value : ∀ i v, (obtained c log)[i]? = some v → ∃ m,
    (accepted c log)[i]? = some (hashGetServer n m.key, m) ∧
    (answers c (hashGetServer n m.key) log)[((accepted c log).take i).countP
      fun r => r.1 = hashGetServer n m.key]? = some (m.op, v)
  /-- When `smp_hash_doall` returns, its queries are the last requests and its values are the last
  values obtained, number by number. -/
  doall : ∀ before after queries values, log = before ++ .doallDone c queries values :: after →
    ∃ acc reqs got, accepted c before = acc ++ reqs ∧ obtained c before = got ++ values ∧
      acc.length = got.length ∧ reqs.length = values.length ∧
      reqs.map (fun r => (r.1, some r.2)) = queries.map (HashQuery.req n)

/-! ### What a replay shows -/

namespace Fifo

variable {t : Table} {f f' : Fifo} {log : List Event}

/-- Requests went to the server that owns their key. -/
def Routed (n : ℕ) (f : Fifo) (log : List Event) : Prop :=
  f.table.nservers = n ∧
    ∀ c s m, Event.issue c s m ∈ log → m.isRequest = true → s = hashGetServer n m.key

theorem apply_routed {n : ℕ} {e : Event} (hr : Routed n f log) (h : f.apply e = some f') :
    Routed n f' (log ++ [e]) := by
  refine ⟨(apply_nservers h).trans hr.1, ?_⟩
  intro c s m hmem hreq
  rcases List.mem_append.mp hmem with hmem | hmem
  · exact hr.2 c s m hmem hreq
  · obtain rfl := List.mem_singleton.mp hmem
    rw [(apply_issue h).1, owner_of_isRequest hreq, hr.1]

theorem replay_routed (h : (init t).replay log = some f) : Routed t.nservers f log :=
  Runs.replay_history (P := Routed t.nservers) ⟨rfl, by simp⟩ (fun hr ha => apply_routed hr ha) h

theorem accepted_routed (h : (init t).replay log = some f) {c s : ℕ} {m : Msg}
    (hm : (s, m) ∈ accepted c log) : s = hashGetServer t.nservers m.key := by
  obtain ⟨e, he, heq⟩ := List.mem_filterMap.mp hm
  cases e with
  | issue c' s' m' =>
      simp only at heq
      split at heq
      · next hc =>
        cases heq
        exact (replay_routed h).2 c' s m he hc.2
      · cases heq
  | _ => cases heq

end Fifo

section

variable {c : ℕ} {x : Session} {log : List Event}

theorem Told.in_order (h : Told c x log) (s : ℕ) : executed c s log <+: (issued c s log).map Msg.op :=
  ⟨_, (h.issued_eq s).symm⟩

theorem Told.answered (h : Told c x log) (hm : x.Match) (s : ℕ) :
    (answers c s log).map Prod.fst <+: ((accepted c log).filter fun r => r.1 = s).map fun r => r.2.op := by
  -- both sides are what was read, and then the responses not yet read; the requests to execute remain
  refine ⟨((x.todo s).filter Msg.isRequest).map Msg.op, ?_⟩
  have hun := hm s
  have hold : ((x.done ++ x.ready).map Prod.fst).filter (fun r => decide (r.1 = s))
      = ((x.done ++ x.ready).filter fun a => a.1.1 = s).map Prod.fst := by
    rw [List.filter_map]
    rfl
  rw [h.answers_eq, h.accepted_eq, List.filter_append _ x.unread, hun, hold]
  simp only [List.map_append, List.map_map, List.append_assoc]
  rfl

theorem Told.unaltered (h : Told c x log) (s : ℕ) :
    readFrom c s log <+: (answers c s log).map Prod.snd := by
  refine ⟨(x.ans s).map Prod.snd, ?_⟩
  rw [h.read_eq, h.answers_eq]
  simp only [List.map_append, List.map_map]
  rfl

end

/-- A `smp_hash_doall` that returned, in terms of what was accepted and obtained. -/
theorem Told.doall {c n : ℕ} {x : Session} {log : List Event} {queries : List HashQuery} {values : List ℕ}
    (h : Told c x log) (hlen : queries.length = values.length)
    (hpairs : Session.pairs n queries values <:+ x.history) (hready : x.ready = [])
    (hunread : x.unread = []) :
    ∃ acc reqs got, accepted c log = acc ++ reqs ∧ obtained c log = got ++ values ∧
      acc.length = got.length ∧ reqs.length = values.length ∧
      reqs.map (fun r => (r.1, some r.2)) = queries.map (HashQuery.req n) := by
  obtain ⟨old, hold⟩ := hpairs
  -- the history ends with the queries and their values
  obtain ⟨done₁, done₂, hdone, -, h₂⟩ := List.map_eq_append_iff.mp hold.symm
  have hreqs : done₂.map (fun a => (a.1.1, some a.1.2)) = queries.map (HashQuery.req n) := by
    have hfst := congrArg (List.map Prod.fst) h₂
    rw [List.map_map, Session.pairs, List.map_fst_zip (by simp [hlen])] at hfst
    exact hfst
  have hvals : done₂.map Prod.snd = values := by
    have hsnd := congrArg (List.map Prod.snd) h₂
    rw [List.map_map, Session.pairs, List.map_snd_zip (by simp [hlen])] at hsnd
    exact hsnd
  refine ⟨done₁.map Prod.fst, done₂.map Prod.fst, done₁.map Prod.snd, ?_, ?_, by simp, ?_, ?_⟩
  · rw [h.accepted_eq, hready, hunread, hdone]
    simp
  · rw [h.obtained_eq, hdone, ← hvals]
    simp
  · rw [List.length_map, ← hvals, List.length_map]
  · rw [List.map_map]
    exact hreqs

/-! ### Every run -/

/-- **Delivery**: whatever the threads' interleaving, every server executes a client's messages in
the order the client issued them, and the values a client obtains are the responses of the owning
servers to its requests, in the order of the requests. -/
theorem reach_delivered {t : Table} {st : Sys} {log : List Event} (h : Sys.Reach (Sys.init t) st log)
    (c : ℕ) : Delivered t.nservers c log := by
  obtain ⟨f, hrun, hcoupled⟩ := reach_coupled h
  have htold := Fifo.replay_told hrun c
  refine ⟨htold.in_order, htold.answered (hcoupled.matched c), htold.unaltered, ?_, ?_⟩
  · intro i v hv
    obtain ⟨s, m, hacc, hans⟩ := htold.nth hv
    obtain rfl := Fifo.accepted_routed hrun (List.mem_of_getElem? hacc)
    exact ⟨m, hacc, hans⟩
  · intro before after queries values hlog
    subst hlog
    rw [Fifo.replay, Runs.replay_append] at hrun
    obtain ⟨f₁, h₁, hrun⟩ := Option.bind_eq_some_iff.mp hrun
    obtain ⟨f₂, h₂, -⟩ := Option.bind_eq_some_iff.mp hrun
    obtain ⟨hlen, hpairs, hready, hunread, -⟩ := Fifo.apply_doallDone h₂
    rw [(Fifo.replay_routed h₁).1] at hpairs
    exact (Fifo.replay_told h₁ c).doall hlen hpairs hready hunread

/-- One client of two servers: an insert and a lookup, and then both again through
`smp_hash_doall`. -/
def twoServerRun : List Act := List.flatten [
  [.create (fun _ => 0) (fun _ => 0), .start fun _ _ => 0],
  .call 0 (.insert 5 8) :: List.replicate 3 (.client 0),
  .call 0 (.lookup 4) :: List.replicate 3 (.client 0),
  .call 0 .getNext :: List.replicate 7 (.client 0),
  List.replicate 13 (.server 1 ⟨[some 64], []⟩), List.replicate 2 (.client 0),
  .call 0 .getNext :: List.replicate 6 (.client 0),
  List.replicate 11 (.server 0 ⟨[], []⟩), List.replicate 2 (.client 0),
  .call 0 (.doall [⟨OPTYPE_LOOKUP, 0, 7⟩, ⟨OPTYPE_INSERT, 8, 6⟩]) :: List.replicate 20 (.client 0),
  List.replicate 14 (.server 0 ⟨[some 128], []⟩), List.replicate 12 (.server 1 ⟨[], []⟩),
  List.replicate 6 (.client 0)]

theorem reach_delivered_two_servers : ∃ st log,
    Sys.Reach (Sys.init (emptyTable 4 1024 2 .lru)) st log ∧ obtained 0 log = [128, 0, 0, 192] ∧
      Event.doallDone 0 [⟨OPTYPE_LOOKUP, 0, 7⟩, ⟨OPTYPE_INSERT, 8, 6⟩] [0, 192] ∈ log ∧
      Delivered 2 0 log := by
  have hval : (Runs.run Sys.step (fun st _ a => a.Ok st) twoServerRun
      (Sys.init (emptyTable 4 1024 2 .lru)) []).map
        (fun r => (obtained 0 r.2, r.2.getLast?))
      = some ([128, 0, 0, 192],
          some (.doallDone 0 [⟨OPTYPE_LOOKUP, 0, 7⟩, ⟨OPTYPE_INSERT, 8, 6⟩] [0, 192])) := by
    decide +kernel
  obtain ⟨⟨st, log⟩, hrun, heq⟩ := Option.map_eq_some_iff.mp hval
  have hreach : Sys.Reach (Sys.init (emptyTable 4 1024 2 .lru)) st log := Runs.Reach.start.run hrun
  obtain ⟨hobt, hlast⟩ := Prod.mk.inj heq
  exact ⟨st, log, hreach, hobt, List.mem_of_getLast? hlast, reach_delivered hreach 0⟩

end SmpHashTable
